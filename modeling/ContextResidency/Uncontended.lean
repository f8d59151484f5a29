import ContextResidency.HostFacts
import ContextResidency.Closing

/-! A host tier that is never short of room. While the distinct working set stays below
the admission threshold nothing is evicted, every policy stores the same blocks with the
same sizes, and the replays differ in their policy objects only. -/
namespace ContextResidency

variable {F : Type} [Scalar F]

namespace Simulator

/-! The walk of a turn reads keys and sizes of the host tier, and nothing else of it. -/
section SizesOnly

variable {s : Simulator F} {policy : TierPolicy F}
  (h : sizes policy.entries = sizes s.policy.entries)
include h

theorem scan_congr (keys : List BlockKey) :
    ({ s with policy := policy } : Simulator F).scan keys = s.scan keys := by
  induction keys with
  | nil => rfl
  | cons key keys ih =>
    have hget : (policy.get key).map (·.nbytes) = (s.policy.get key).map (·.nbytes) := by
      rw [TierPolicy.get,TierPolicy.get,get_nbytes,get_nbytes,h]
    rw [scan,scan,ih]
    cases hp : policy.get key with
    | none =>
      cases hs : s.policy.get key with
      | none => rfl
      | some e => simp [hp,hs] at hget
    | some e =>
      cases hs : s.policy.get key with
      | none => simp [hp,hs] at hget
      | some e' =>
        have hbytes : e.nbytes = e'.nbytes := by simpa [hp,hs] using hget
        simp only [hbytes]

theorem found_congr (turn : Turn F) :
    ({ s with policy := policy } : Simulator F).found turn = s.found turn :=
  scan_congr (s := (s.observe turn).1) h _

theorem recomputeTokens_congr (turn : Turn F) :
    ({ s with policy := policy } : Simulator F).recomputeTokens turn = s.recomputeTokens turn := by
  unfold recomputeTokens
  rw [found_congr h turn]
  rfl

theorem timing_congr (turn : Turn F) :
    ({ s with policy := policy } : Simulator F).timing turn = s.timing turn := by
  unfold timing
  rw [found_congr h turn,recomputeTokens_congr h turn]
  rfl

theorem metric_congr (turn : Turn F) :
    ({ s with policy := policy } : Simulator F).metric turn = s.metric turn := by
  unfold metric
  rw [found_congr h turn,recomputeTokens_congr h turn,timing_congr h turn]

end SizesOnly

/-- A block that never left the host is not reacquired: storing moves the policy only. -/
theorem insertFresh_quiet (now : F) (sched : Schedule F) {s : Simulator F}
    (hleft : s.leftHostAt = .empty) (room : ℤ) (fresh : List (BlockKey × ℤ)) :
    ∃ policy, insertFresh now sched s room fresh = { s with policy := policy } := by
  induction fresh generalizing s room with
  | nil => exact ⟨s.policy,rfl⟩
  | cons p fresh ih =>
    rw [insertFresh]
    split
    · exact ⟨s.policy,rfl⟩
    · have hzero : (if p.1 ∈ s.leftHostAt then 1 else 0) = 0 := by simp [hleft]
      rw [hzero,Nat.add_zero]
      exact ih (s := { s with
        policy := foresee sched p.1 now (s.policy.insert p.1 p.2 now s.probe) }) hleft _

/-- A turn that evicts nothing leaves HBM filled, and moves the policy after that. -/
theorem settled_quiet (sched : Schedule F) {s : Simulator F} {turn : Turn F}
    (hleft : s.leftHostAt = .empty) (hquiet : (s.filled turn).evictRequest (s.path turn) = none) :
    settled sched s turn = { s.filled turn with policy := (one sched s turn).policy } := by
  have hfilled : (s.filled turn).leftHostAt = .empty := by
    rw [filled_eq]
    exact hleft
  obtain ⟨policy,hstored⟩ := insertFresh_quiet turn.t sched hfilled (s.filled turn).freeRoom
    ((s.filled turn).policy.admitChain ((s.filled turn).missing (s.path turn)) (s.filled turn).probe)
  obtain ⟨policy',htouched⟩ := touch_refresh_frame
    ((s.filled turn).storeBatchToHost (s.path turn) turn.t sched) (s.path turn) turn.t sched
  have hsettled : settled sched s turn = { s.filled turn with policy := policy' } := by
    rw [settled_eq,htouched,storeBatchToHost,hquiet,hstored]
  have hpolicy : (one sched s turn).policy = policy' := by
    show (settled sched s turn).policy = policy'
    rw [hsettled]
  rw [hsettled,hpolicy]

theorem one_quiet (sched : Schedule F) {s : Simulator F} {turn : Turn F}
    (hleft : s.leftHostAt = .empty) (hquiet : (s.filled turn).evictRequest (s.path turn) = none) :
    one sched s turn = { s.filled turn with
      policy := (one sched s turn).policy
      thrash := s.thrash+(s.found turn).thrash
      pcieBusy := (s.timing turn).pcieEnd
      prefillBusy := (s.timing turn).prefillEnd
      metrics := s.metrics ++ [s.metric turn]
      peakRam := max s.peakRam (one sched s turn).policy.occupancy } :=
  congrArg (fun r : Simulator F => { r with
    thrash := s.thrash+(s.found turn).thrash
    pcieBusy := (s.timing turn).pcieEnd
    prefillBusy := (s.timing turn).prefillEnd
    metrics := s.metrics ++ [s.metric turn]
    peakRam := max s.peakRam r.policy.occupancy }) (settled_quiet sched hleft hquiet)

/-- The second replay differs from the first in its policy only, and the policies hold
the same blocks with the same sizes. -/
structure Alike (s t : Simulator F) : Prop where
  same : sizes t.policy.entries = sizes s.policy.entries
  rest : t = { s with policy := t.policy }

/-- A turn without eviction keeps two replays alike that store the same blocks. -/
theorem one_alike {sched sched' : Schedule F} {s t : Simulator F} {turn : Turn F}
    (h : Alike s t) (hleft : s.leftHostAt = .empty)
    (hquiet : (s.filled turn).evictRequest (s.path turn) = none)
    (hquiet' : (t.filled turn).evictRequest (t.path turn) = none)
    (hsame : sizes (one sched' t turn).policy.entries = sizes (one sched s turn).policy.entries) :
    Alike (one sched s turn) (one sched' t turn) := by
  refine ⟨hsame,?_⟩
  have hsizes := h.same
  obtain ⟨policy,rfl⟩ : ∃ policy, t = { s with policy := policy } := ⟨_,h.rest⟩
  have hoccupancy : (one sched' { s with policy := policy } turn).policy.occupancy =
      (one sched s turn).policy.occupancy := by
    rw [TierPolicy.occupancy_eq,TierPolicy.occupancy_eq,hsame]
  have hfilled : ({ s with policy := policy } : Simulator F).filled turn =
      { s.filled turn with policy := policy } := by
    rw [filled_eq,filled_eq]
    rfl
  have hs := one_quiet sched hleft hquiet
  have ht := one_quiet sched' (s := { s with policy := policy }) hleft hquiet'
  rw [hoccupancy,found_congr hsizes,timing_congr hsizes,metric_congr hsizes,hfilled] at ht
  rw [hs]
  exact ht

/-- The replay holds blocks of `S` only, each of at most the given size, and all of them
together stay below the admission threshold of the host tier. -/
structure Uncrowded (S : Finset BlockKey) (size : BlockKey → ℤ) (s : Simulator F) : Prop where
  rate : 0 ≤ s.index.cost.kvBytesPerToken
  sized : s.index.Sized
  nonneg : ∀ key, 0 ≤ size key
  stored : ∀ p ∈ sizes s.policy.entries, p.1 ∈ S ∧ p.2 ≤ size p.1
  left : s.leftHostAt = .empty
  capacity : s.policy.capacity = s.ramTier.bytesCapacity
  room : ((∑ key ∈ S, size key : ℤ) : F) < 9/10*s.ramTier.bytesCapacity

/-- The turn asks for blocks of `S` only, each of at most the given size. -/
def Asks (S : Finset BlockKey) (size : BlockKey → ℤ) (s : Simulator F) (turn : Turn F) : Prop :=
  ∀ key ∈ s.path turn, key ∈ S ∧ (s.seenIndex turn).nbytesOf key ≤ size key

theorem below_capacity {total cap : ℤ} (h0 : 0 ≤ total)
    (h : (total : F) < 9/10*cap) : total ≤ cap := by
  have hpos : (0 : F) < cap := by
    have hz : (0 : F) ≤ total := by exact_mod_cast h0
    linarith
  have hle : (total : F) ≤ cap := by linarith
  exact_mod_cast hle

/-- Below the admission threshold every policy admits every chain. -/
theorem admitChain_of_low (policy : TierPolicy F) (items : List (BlockKey × ℤ)) (probe : Probe F)
    (h : (policy.occupancy : F) < 9/10*policy.capacity) :
    policy.admitChain items probe = items := by
  have hcap : (policy.capacity : F) ≤ (max 1 policy.capacity : ℤ) := by
    exact_mod_cast le_max_right _ _
  have hone : (0 : F) < (max 1 policy.capacity : ℤ) := by
    exact_mod_cast lt_of_lt_of_le one_pos (le_max_left 1 policy.capacity)
  have hlow : policy.pressure < 9/10 := by
    rw [TierPolicy.pressure,div_lt_iff₀ hone]
    linarith
  unfold TierPolicy.admitChain
  split
  · exact policy.admitChain_of_low_pressure _ _ items probe hlow
  · rfl

section Quiet

variable {S : Finset BlockKey} {size : BlockKey → ℤ} {s : Simulator F} {turn : Turn F}
  (h : Uncrowded S size s) (hasks : Asks S size s turn)
include h

theorem missing_nonneg {p : BlockKey × ℤ} (hp : p ∈ (s.filled turn).missing (s.path turn)) :
    0 ≤ p.2 := by
  have hcost : (s.seenIndex turn).cost = s.index.cost := PrefixIndex.touchPath_cost _ _ _ _ _ _ _
  rw [(mem_missing hp).2.2,filled_index]
  exact PrefixIndex.nbytesOf_nonneg (seenIndex_sized h.sized turn) (hcost ▸ h.rate) _

include hasks

theorem weight_stored_le : weight (sizes s.policy.entries)+
    weight ((s.filled turn).missing (s.path turn)) ≤ ∑ key ∈ S, size key := by
  rw [← weight_append]
  refine weight_le_sum ?_ (fun p hp => ?_) h.nonneg
  · rw [List.map_append]
    refine List.nodup_append.mpr ⟨?_,missing_nodup (path_nodup s turn),?_⟩
    · rw [sizes_keys]
      exact Dict.keys_nodup _
    · rintro a ha b hb rfl
      obtain ⟨p,hp,rfl⟩ := List.mem_map.mp hb
      have hnew := (mem_missing hp).2.1
      rw [filled_policy,mem_iff_sizes] at hnew
      exact hnew ha
  · cases List.mem_append.mp hp with
    | inl hp => exact h.stored p hp
    | inr hp =>
      obtain ⟨hpath,_,hbytes⟩ := mem_missing hp
      rw [hbytes,filled_index]
      exact hasks p.1 hpath

/-- So every policy admits what is missing, evicts nothing and stores all of it. -/
theorem one_uncontended (sched : Schedule F) :
    (s.filled turn).evictRequest (s.path turn) = none ∧
    sizes (one sched s turn).policy.entries =
      sizes s.policy.entries ++ (s.filled turn).missing (s.path turn) := by
  have htotal := weight_stored_le h hasks
  have hmissing : ∀ p ∈ (s.filled turn).missing (s.path turn), 0 ≤ p.2 := fun p hp =>
    missing_nonneg h hp
  have hnew := weight_nonneg hmissing
  have hcap := below_capacity (Finset.sum_nonneg fun key _ => h.nonneg key) h.room
  have hlow : ((s.filled turn).policy.occupancy : F) < 9/10*(s.filled turn).policy.capacity := by
    have hle : ((s.filled turn).policy.occupancy : F) ≤ (∑ key ∈ S, size key : ℤ) := by
      rw [filled_policy,TierPolicy.occupancy_eq]
      exact_mod_cast (by omega)
    rw [filled_policy,h.capacity] at *
    exact hle.trans_lt h.room
  have hchain := admitChain_of_low (s.filled turn).policy
    ((s.filled turn).missing (s.path turn)) (s.filled turn).probe hlow
  have hfree : weight ((s.filled turn).missing (s.path turn)) ≤ (s.filled turn).freeRoom := by
    rw [freeRoom,filled_policy,filled_ramTier,TierPolicy.occupancy_eq]
    omega
  have hquiet : (s.filled turn).evictRequest (s.path turn) = none := by
    apply evictRequest_eq_none
    rw [hchain]
    exact hfree
  refine ⟨hquiet,?_⟩
  rw [sizes_one s turn sched,
    sizes_store_of_none (path_nodup s turn) turn.t sched hquiet,hchain,
    fitting_eq_self hmissing hfree,filled_policy]

theorem one_uncrowded (sched : Schedule F) : Uncrowded S size (one sched s turn) := by
  obtain ⟨hquiet,hsizes⟩ := one_uncontended h hasks sched
  have hcost : (s.seenIndex turn).cost = s.index.cost := PrefixIndex.touchPath_cost _ _ _ _ _ _ _
  constructor
  case rate =>
    rw [one_index,hcost]
    exact h.rate
  case sized =>
    rw [one_index]
    exact seenIndex_sized h.sized turn
  case nonneg => exact h.nonneg
  case stored => exact forall_sizes_one s turn sched h.stored hasks
  case left =>
    rw [one_quiet sched h.left hquiet,filled_eq]
    exact h.left
  case capacity =>
    rw [one_capacity s turn sched,one_ramTier]
    exact h.capacity
  case room =>
    rw [one_ramTier]
    exact h.room

end Quiet

omit [Scalar F] in
theorem missing_congr_sizes {s t : Simulator F}
    (hsizes : sizes t.policy.entries = sizes s.policy.entries) (hindex : t.index = s.index)
    (keys : List BlockKey) : t.missing keys = s.missing keys := by
  have hget : ∀ key, (t.policy.get key).isNone = (s.policy.get key).isNone := by
    intro key
    have hbytes : (t.policy.get key).map (·.nbytes) = (s.policy.get key).map (·.nbytes) := by
      rw [TierPolicy.get,TierPolicy.get,get_nbytes,get_nbytes,hsizes]
    rw [← Option.isNone_map,hbytes,Option.isNone_map]
  unfold missing
  rw [hindex]
  simp only [hget]

end Simulator
end ContextResidency
