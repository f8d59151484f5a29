import ContextResidency.HostFacts
import ContextResidency.Decoupling

/-! Capacity of the host tier. The room that a turn stores into is credited with the
index sizes of the victims, so the tier stays within its capacity as long as no victim
was stored with a smaller size. -/
namespace ContextResidency

variable {F : Type} [Scalar F]

namespace Simulator

/-- The turn fits, or no resident block has outgrown the size it was stored with. -/
def Roomy (s : Simulator F) (turn : Turn F) : Prop :=
  s.Fits turn ∨ ∀ p ∈ sizes s.policy.entries, (s.seenIndex turn).nbytesOf p.1 ≤ p.2

instance (s : Simulator F) (turn : Turn F) : Decidable (s.Roomy turn) :=
  inferInstanceAs (Decidable (_ ∨ _))

/-- The tier is within its capacity, and all sizes have the sign of the cost rate. -/
structure Bounded (s : Simulator F) : Prop where
  sized : s.index.Sized
  nonneg : 0 ≤ s.index.cost.kvBytesPerToken → ∀ p ∈ sizes s.policy.entries, 0 ≤ p.2
  nonpos : s.index.cost.kvBytesPerToken ≤ 0 → ∀ p ∈ sizes s.policy.entries, p.2 ≤ 0
  capacity : 0 ≤ s.ramTier.bytesCapacity
  fits : weight (sizes s.policy.entries) ≤ s.ramTier.bytesCapacity

omit [Scalar F] in
/-- Victims free at least their index sizes when no entry has been outgrown. -/
theorem weight_eraseAll_le {entries : Entries F} {protectedKeys : Finset BlockKey}
    {out : List BlockKey} (hv : Victims entries protectedKeys out) {nbytesOf : BlockKey → ℤ}
    (hgrown : ∀ p ∈ sizes entries, nbytesOf p.1 ≤ p.2) :
    weight (sizes (entries.eraseAll out))+(out.map nbytesOf).sum ≤ weight (sizes entries) := by
  have hsum := Dict.sumBy_eraseAll entries (fun _ e => e.nbytes) out hv.nodup hv.resident
  have hfreed : (out.map nbytesOf).sum ≤
      (out.map fun k => ((entries.get k).map fun e => e.nbytes).getD 0).sum := by
    refine List.sum_le_sum fun k hk => ?_
    obtain ⟨e,he⟩ := Dict.mem_iff_get.mp (hv.resident k hk)
    have hmem : (k,e.nbytes) ∈ sizes entries := List.mem_map.mpr ⟨(k,e),Dict.get_eq_some.mp he,rfl⟩
    simpa [he] using hgrown _ hmem
  rw [weight_sizes,weight_sizes]
  omega

theorem store_fits {s : Simulator F} {keys : List BlockKey} (hn : keys.Nodup) (now : F)
    (sched : Schedule F) (hold : ∀ p ∈ sizes s.policy.entries, 0 ≤ p.2)
    (hnew : ∀ p ∈ s.missing keys, 0 ≤ p.2)
    (hfits : weight (sizes s.policy.entries) ≤ s.ramTier.bytesCapacity)
    (hroom : weight (s.missing keys) ≤ s.freeRoom ∨
      ∀ p ∈ sizes s.policy.entries, s.index.nbytesOf p.1 ≤ p.2) :
    weight (sizes (s.storeBatchToHost keys now sched).policy.entries) ≤
      s.ramTier.bytesCapacity := by
  have hfree : s.freeRoom = s.ramTier.bytesCapacity-weight (sizes s.policy.entries) := by
    rw [freeRoom,TierPolicy.occupancy_eq]
    omega
  cases h : s.evictRequest keys with
  | none =>
    have hstored := weight_fitting_le s.freeRoom (s.policy.admitChain (s.missing keys) s.probe)
    rw [sizes_store_of_none hn now sched h,weight_append]
    omega
  | some request =>
    obtain ⟨hsub,hover⟩ := evictRequest_some h
    have hless := weight_sublist_le hsub hnew
    have hgrown : ∀ p ∈ sizes s.policy.entries, s.index.nbytesOf p.1 ≤ p.2 :=
      hroom.resolve_left (by omega)
    obtain ⟨out,hv,hout⟩ := sizes_store_of_some hn now sched h
    have hswept := s.policy.sizes_swept now
    have hsmaller := weight_sublist_le hswept hold
    have hfreed := weight_eraseAll_le hv fun p hp => hgrown p (hswept.subset hp)
    have hkept : weight (sizes ((s.policy.swept now).eraseAll out)) ≤
        weight (sizes (s.policy.swept now)) := by
      rw [sizes_eraseAll]
      exact weight_sublist_le List.filter_sublist fun p hp => hold p (hswept.subset hp)
    rw [hout,weight_append]
    split
    · rw [weight_nil]
      omega
    · have hstored := weight_fitting_le (s.freeRoom+(out.map s.index.nbytesOf).sum) request.1
      omega

theorem one_bounded (sched : Schedule F) (s : Simulator F) (turn : Turn F) (h : Bounded s)
    (hroom : s.Roomy turn) : Bounded (one sched s turn) := by
  have hsized := seenIndex_sized h.sized turn
  have hcost : (s.seenIndex turn).cost = s.index.cost := PrefixIndex.touchPath_cost _ _ _ _ _ _ _
  have hnonneg : 0 ≤ s.index.cost.kvBytesPerToken →
      ∀ p ∈ sizes (one sched s turn).policy.entries, 0 ≤ p.2 := fun hkv =>
    forall_sizes_one s turn sched (h.nonneg hkv) fun key _ =>
      PrefixIndex.nbytesOf_nonneg hsized (hcost ▸ hkv) key
  have hnonpos : s.index.cost.kvBytesPerToken ≤ 0 →
      ∀ p ∈ sizes (one sched s turn).policy.entries, p.2 ≤ 0 := fun hkv =>
    forall_sizes_one s turn sched (h.nonpos hkv) fun key _ =>
      PrefixIndex.nbytesOf_nonpos hsized (hcost ▸ hkv) key
  constructor
  case sized =>
    rw [one_index]
    exact hsized
  case nonneg =>
    rw [one_index,hcost]
    exact hnonneg
  case nonpos =>
    rw [one_index,hcost]
    exact hnonpos
  case capacity =>
    rw [one_ramTier]
    exact h.capacity
  case fits =>
    rw [one_ramTier]
    cases le_total 0 s.index.cost.kvBytesPerToken with
    | inl hkv =>
      rw [sizes_one s turn sched]
      have hstore := store_fits (s := s.filled turn) (path_nodup s turn) turn.t sched
      rw [filled_policy,filled_ramTier,filled_index,filled_missing,filled_freeRoom] at hstore
      refine hstore (h.nonneg hkv) (fun p hp => ?_) h.fits hroom
      rw [(mem_missing hp).2.2]
      exact PrefixIndex.nbytesOf_nonneg hsized (hcost ▸ hkv) _
    | inr hkv => exact (weight_nonpos (hnonpos hkv)).trans h.capacity

/-- As long as every turn is roomy, the tier is within its capacity after every turn. -/
theorem occupancy_le_capacity (cfg : SimConfig F) (kind : PolicyKind F) (ram : TierConfig F)
    (turns : List (Turn F)) (n : ℕ) (hcap : 0 ≤ ram.bytesCapacity)
    (hroom : Along (one ((start cfg kind ram).schedule turns)) Roomy (start cfg kind ram)
      ((inOrder turns).take n)) :
    ((start cfg kind ram).after turns n).policy.occupancy ≤ ram.bytesCapacity := by
  have hstart : Bounded (start cfg kind ram) :=
    { sized := PrefixIndex.new_sized _ _, nonneg := fun _ => by simp [sizes_start]
      nonpos := fun _ => by simp [sizes_start], capacity := hcap, fits := hcap }
  have hstep : ∀ s turn, Bounded s ∧ s.ramTier = ram → Roomy s turn →
      Bounded (s.one ((start cfg kind ram).schedule turns) turn) ∧
        (s.one ((start cfg kind ram).schedule turns) turn).ramTier = ram := fun s turn h hroom =>
    ⟨one_bounded _ s turn h.1 hroom,(one_ramTier _ _ _).trans h.2⟩
  have hrun := run_invariant hstep hroom ⟨hstart,rfl⟩
  have hfits := hrun.1.fits
  rw [hrun.2] at hfits
  rw [TierPolicy.occupancy_eq]
  exact hfits

theorem occupancy_le_capacity_small :
    ((start (smallConfig 1000 1000) .lru (smallRam 1000)).after
      [ask 0 "a" 1000,ask 1 "b" 900,ask 2 "a" 1000] 3).policy.occupancy ≤ 1000 :=
  occupancy_le_capacity (smallConfig 1000 1000) .lru (smallRam 1000)
    [ask 0 "a" 1000,ask 1 "b" 900,ask 2 "a" 1000] 3 (by decide +kernel) (by decide +kernel)

/-- An entry of 100 bytes whose block has grown to 800 makes room for 1700 bytes. -/
theorem occupancy_exceeds_capacity : ¬ ∀ (cfg : SimConfig ℚ) (kind : PolicyKind ℚ)
    (ram : TierConfig ℚ) (turns : List (Turn ℚ)) (n : ℕ), 0 ≤ ram.bytesCapacity →
    cfg.tier "ram" = some ram →
    ((start cfg kind ram).after turns n).policy.occupancy ≤ ram.bytesCapacity := by
  intro h
  have hlate := h (smallConfig 5000 1000) .lru (smallRam 1000)
    [ask 0 "a" 100,ask 1 "a" 800,ask 2 "b" 1700] 3 (by decide) rfl
  exact absurd hlate (by decide +kernel)

end Simulator
end ContextResidency
