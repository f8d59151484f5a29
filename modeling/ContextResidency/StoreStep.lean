import ContextResidency.HostFacts
import ContextResidency.EvictionOrder
import ContextResidency.Decoupling

/-! The store step of a turn, with the victims of its eviction. It stores nothing when the
eviction reports none, also when that is because the sweep has just emptied the tier. -/
namespace ContextResidency

variable {F : Type} [Scalar F]

/-- Entries were stored with the size of their block, which may have grown since. -/
structure Weighed (index : PrefixIndex F) (entries : Entries F) : Prop where
  sized : index.Sized
  nonneg : 0 ≤ index.cost.kvBytesPerToken →
    ∀ p ∈ sizes entries, 0 ≤ p.2 ∧ p.2 ≤ index.nbytesOf p.1
  nonpos : index.cost.kvBytesPerToken ≤ 0 → ∀ p ∈ sizes entries, p.2 ≤ 0

namespace Simulator

theorem seenIndex_cost (s : Simulator F) (turn : Turn F) :
    (s.seenIndex turn).cost = s.index.cost := PrefixIndex.touchPath_cost _ _ _ _ _ _ _

theorem seenIndex_weighed {s : Simulator F} {entries : Entries F} (h : Weighed s.index entries)
    (turn : Turn F) : Weighed (s.seenIndex turn) entries := by
  constructor
  case sized => exact seenIndex_sized h.sized turn
  case nonneg =>
    rw [seenIndex_cost]
    intro hkv p hp
    have hold := h.nonneg hkv p hp
    exact ⟨hold.1,hold.2.trans (PrefixIndex.nbytesOf_le_touchPath _ _ _ _ _ _ h.sized hkv p.1)⟩
  case nonpos =>
    rw [seenIndex_cost]
    exact h.nonpos

theorem one_weighed (sched : Schedule F) {s : Simulator F} (h : Weighed s.index s.policy.entries)
    (turn : Turn F) : Weighed (one sched s turn).index (one sched s turn).policy.entries := by
  have hseen := seenIndex_weighed h turn
  rw [one_index]
  constructor
  case sized => exact hseen.sized
  case nonneg =>
    intro hkv
    apply forall_sizes_one s turn sched (hseen.nonneg hkv)
    exact fun key _ => ⟨PrefixIndex.nbytesOf_nonneg hseen.sized hkv key,le_rfl⟩
  case nonpos =>
    intro hkv
    apply forall_sizes_one s turn sched (hseen.nonpos hkv)
    exact fun key _ => PrefixIndex.nbytesOf_nonpos hseen.sized hkv key

theorem after_weighed (cfg : SimConfig F) (kind : PolicyKind F) (ram : TierConfig F)
    (turns : List (Turn F)) (n : ℕ) : Weighed ((start cfg kind ram).after turns n).index
      ((start cfg kind ram).after turns n).policy.entries := by
  refine List.foldlRecOn (motive := fun s : Simulator F => Weighed s.index s.policy.entries) _ _ ?_
    fun s h turn _ => one_weighed _ h turn
  constructor
  case sized => exact PrefixIndex.new_sized _ _
  case nonneg => simp [sizes_start]
  case nonpos => simp [sizes_start]

/-- The bytes that the admitted blocks lack. -/
def needed (s : Simulator F) (keys : List BlockKey) : ℤ :=
  weight (s.policy.admitChain (s.missing keys) s.probe)-s.freeRoom

theorem evictRequest_eq (s : Simulator F) (keys : List BlockKey) : s.evictRequest keys =
    if s.policy.admitChain (s.missing keys) s.probe ≠ [] ∧ 0 < s.needed keys then
      some (s.policy.admitChain (s.missing keys) s.probe,s.needed keys) else none := rfl

theorem evictRequest_quiet {s : Simulator F} {keys : List BlockKey} (h : s.needed keys ≤ 0) :
    s.evictRequest keys = none := evictRequest_eq_none (sub_nonpos.mp h)

/-- The victims of a store step that needs room. -/
def storeVictims (s : Simulator F) (keys : List BlockKey) (now : F) : List BlockKey :=
  s.policy.victims ((s.policy.admitChain (s.missing keys) s.probe).map Prod.fst).toFinset now
    s.probe (s.needed keys)

/-- A store step that needs room sweeps, evicts, and stores what fits the room it counts,
unless there was nothing to evict. -/
theorem sizes_store_evicting {s : Simulator F} {keys : List BlockKey} (hn : keys.Nodup) (now : F)
    (sched : Schedule F) (hfresh : s.policy.admitChain (s.missing keys) s.probe ≠ [])
    (hneeded : 0 < s.needed keys) :
    sizes (s.storeBatchToHost keys now sched).policy.entries =
      sizes ((s.policy.swept now).eraseAll (s.storeVictims keys now)) ++
        if s.storeVictims keys now = [] then []
        else fitting (s.freeRoom+((s.storeVictims keys now).map s.index.nbytesOf).sum)
          (s.policy.admitChain (s.missing keys) s.probe) := by
  apply sizes_store_of_evicted hn now sched
  · rw [evictRequest_eq]
    exact if_pos ⟨hfresh,hneeded⟩
  · exact s.policy.evictEntries_eq _ now s.probe hneeded

/-- Nothing has to be freed; or the sweep leaves something to evict, and with it enough for
the whole chain or at least for its first block. -/
def FirstFits (s : Simulator F) (keys : List BlockKey) (now : F) (first : BlockKey × ℤ) : Prop :=
  s.needed keys ≤ 0 ∨ (s.policy.swept now).items ≠ [] ∧
    (s.needed keys ≤ weight (sizes (s.policy.swept now)) ∨
      first.2 ≤ s.freeRoom+((s.policy.swept now).keys.map s.index.nbytesOf).sum)

instance (s : Simulator F) (keys : List BlockKey) (now : F) (first : BlockKey × ℤ) :
    Decidable (s.FirstFits keys now first) :=
  inferInstanceAs (Decidable (_ ∨ _ ≠ [] ∧ (_ ∨ _)))

/-- The rates that the comparison at the gate of the adaptive policy divides by. -/
def GateDefined (s : Simulator F) (keys : List BlockKey) : Prop :=
  match s.policy.kind with
  | .adaptiveValue _ _ => s.missing keys = [] ∨ s.policy.pressure < 9/10 ∨
    s.cfg.cost.prefillTokensPerS ≠ 0 ∧ s.ramTier.effectiveGbs ≠ 0
  | _ => True

/-- The rates that the step divides by once the chain is let in: to rank the chains of an
eviction, or to price the expiry of a block. -/
def StoreDefined (s : Simulator F) (keys : List BlockKey) (now : F) : Prop :=
  match s.policy.kind with
  | .continuumTtl _ _ _ => s.cfg.cost.kvBytesPerToken ≠ 0 ∧ s.cfg.cost.prefillTokensPerS ≠ 0
  | .adaptiveValue _ _ => s.needed keys ≤ 0 ∨ weight (sizes (s.policy.swept now)) ≤ 0 ∨
    s.cfg.cost.prefillTokensPerS ≠ 0 ∧ s.ramTier.effectiveGbs ≠ 0
  | _ => True

section Store

variable {s : Simulator F} {keys : List BlockKey} (h : Weighed s.index s.policy.entries)
include h

omit h in
/-- Nothing resident is protected, since the blocks to store are missing. -/
theorem candidates_eq_swept (keys : List BlockKey) (now : F) : s.policy.candidates
    ((s.policy.admitChain (s.missing keys) s.probe).map Prod.fst).toFinset now =
      (s.policy.swept now).items := by
  apply List.filter_eq_self.mpr
  intro p hp
  have hold : p.1 ∈ s.policy.entries := Dict.mem_of_item (s.policy.item_of_mem_swept hp)
  rw [decide_eq_true_eq,List.mem_toFinset]
  intro hfresh
  obtain ⟨q,hq,hqp⟩ := List.mem_map.mp hfresh
  have hsub := s.policy.admitChain_sublist (s.missing keys) s.probe
  exact (mem_missing (hsub.subset hq)).2.1 (hqp ▸ hold)

omit h in
theorem order_perm_swept (keys : List BlockKey) (now : F) : (s.policy.order
    ((s.policy.admitChain (s.missing keys) s.probe).map Prod.fst).toFinset now s.probe).Perm
      (s.policy.swept now).items :=
  candidates_eq_swept keys now ▸ s.policy.order_perm _ now s.probe

/-- The index credits a victim with at least the bytes that its entry held. -/
theorem freed_le_credit (hkv : 0 ≤ s.index.cost.kvBytesPerToken) {now : F}
    {out : List (BlockKey × Entry F)} (hout : ∀ p ∈ out, p ∈ (s.policy.swept now).items) :
    (out.map (·.2.nbytes)).sum ≤ ((out.map Prod.fst).map s.index.nbytesOf).sum := by
  rw [List.map_map]
  apply List.sum_le_sum
  intro p hp
  have hold := s.policy.item_of_mem_swept (hout p hp)
  exact (h.nonneg hkv (p.1,p.2.nbytes) (List.mem_map.mpr ⟨p,hold,rfl⟩)).2

/-- When everything has to go, or enough goes, the room counted for the victims is known. -/
theorem credit_cases (hkv : 0 ≤ s.index.cost.kvBytesPerToken) (keys : List BlockKey) (now : F) :
    let credit := ((s.storeVictims keys now).map s.index.nbytesOf).sum
    if s.needed keys ≤ weight (sizes (s.policy.swept now)) then s.needed keys ≤ credit
    else credit = ((s.policy.swept now).keys.map s.index.nbytesOf).sum := by
  have hperm := order_perm_swept (s := s) keys now
  set order := s.policy.order
    ((s.policy.admitChain (s.missing keys) s.probe).map Prod.fst).toFinset now s.probe
  have htotal : (order.map (·.2.nbytes)).sum = weight (sizes (s.policy.swept now)) := by
    rw [(hperm.map _).sum_eq,weight,sizes,List.map_map]
    rfl
  have hinitial := takeUntil_initial (·.2.nbytes) (s.needed keys) 0 order
  have hcredit := freed_le_credit h hkv fun p hp => hperm.subset (hinitial.subset hp)
  have hless : ((takeUntil (·.2.nbytes) (s.needed keys) 0 order).map (·.2.nbytes)).sum ≤
      (order.map (·.2.nbytes)).sum := by
    apply (hinitial.sublist.map _).sum_le_sum
    intro n hn
    obtain ⟨p,hp,rfl⟩ := List.mem_map.mp hn
    have hold := s.policy.item_of_mem_swept (hperm.subset hp)
    exact (h.nonneg hkv (p.1,p.2.nbytes) (List.mem_map.mpr ⟨p,hold,rfl⟩)).1
  cases takeUntil_reaches (·.2.nbytes) (s.needed keys) 0 order with
  | inl hreach =>
    rw [zero_add] at hreach
    rw [if_pos (by omega)]
    exact hreach.trans hcredit
  | inr hall =>
    have hvictims : s.storeVictims keys now = order.map Prod.fst := congrArg (List.map Prod.fst) hall
    rw [hall] at hcredit
    simp only [hvictims]
    split_ifs with henough
    · omega
    · exact (((hperm.map Prod.fst).map s.index.nbytesOf).sum_eq)

omit h in
theorem storeVictims_eq_nil {keys : List BlockKey} {now : F} :
    s.storeVictims keys now = [] ↔ (s.policy.swept now).items = [] := by
  have hperm := order_perm_swept (s := s) keys now
  rw [storeVictims,TierPolicy.victims,List.map_eq_nil_iff,takeUntil_eq_nil]
  constructor
  · intro hnil
    rw [hnil] at hperm
    exact hperm.symm.eq_nil
  · intro hnil
    rw [hnil] at hperm
    exact hperm.eq_nil

section First

variable (hn : keys.Nodup) {first : BlockKey × ℤ} {rest : List (BlockKey × ℤ)}
  (hfresh : s.policy.admitChain (s.missing keys) s.probe = first::rest)
include hfresh

theorem first_le_weight (hkv : 0 ≤ s.index.cost.kvBytesPerToken) :
    first.2 ≤ weight (s.policy.admitChain (s.missing keys) s.probe) := by
  have hsub := s.policy.admitChain_sublist (s.missing keys) s.probe
  rw [hfresh] at hsub
  have hrest : 0 ≤ weight rest := weight_nonneg fun p hp => by
    rw [(mem_missing (hsub.subset (List.mem_cons_of_mem _ hp))).2.2]
    exact PrefixIndex.nbytesOf_nonneg h.sized hkv _
  rw [hfresh,weight_cons]
  omega

theorem first_le_freeRoom (hneeded : s.needed keys ≤ 0) : first.2 ≤ s.freeRoom := by
  cases le_total 0 s.index.cost.kvBytesPerToken with
  | inl hkv =>
    have hfirst := first_le_weight h hfresh hkv
    unfold needed at hneeded
    omega
  | inr hkv =>
    have hsub := s.policy.admitChain_sublist (s.missing keys) s.probe
    rw [hfresh] at hsub
    have hfree : 0 ≤ s.freeRoom := le_max_left _ _
    have hneg := PrefixIndex.nbytesOf_nonpos h.sized hkv first.1
    rw [← (mem_missing (hsub.subset (by simp))).2.2] at hneg
    omega

omit hfresh in
theorem kv_nonneg_of_needed (hneeded : 0 < s.needed keys) :
    0 ≤ s.index.cost.kvBytesPerToken := by
  by_contra hneg
  have hsub := s.policy.admitChain_sublist (s.missing keys) s.probe
  have hfree : 0 ≤ s.freeRoom := le_max_left _ _
  have hlight : weight (s.policy.admitChain (s.missing keys) s.probe) ≤ 0 :=
    weight_nonpos fun p hp => by
      rw [(mem_missing (hsub.subset hp)).2.2]
      exact PrefixIndex.nbytesOf_nonpos h.sized (not_le.mp hneg).le _
  unfold needed at hneeded
  omega

include hn

theorem mem_store_first_iff (now : F) (sched : Schedule F) :
    first.1 ∈ (s.storeBatchToHost keys now sched).policy.entries ↔ s.FirstFits keys now first := by
  have hsub := s.policy.admitChain_sublist (s.missing keys) s.probe
  have hnew : first.1 ∉ s.policy.entries :=
    (mem_missing (hsub.subset (hfresh ▸ List.mem_cons_self))).2.1
  rw [mem_iff_sizes]
  by_cases hneeded : s.needed keys ≤ 0
  · rw [sizes_store_of_none hn now sched (evictRequest_quiet hneeded),List.map_append,
      List.mem_append,hfresh]
    have hroom := first_le_freeRoom h hfresh hneeded
    exact iff_of_true (Or.inr (head_fitting_iff.mpr hroom)) (Or.inl hneeded)
  · have hshort := not_le.mp hneeded
    have hkv := kv_nonneg_of_needed h hshort
    have hcredit := credit_cases h hkv keys now
    have hgone : first.1 ∉ (sizes ((s.policy.swept now).eraseAll
        (s.storeVictims keys now))).map Prod.fst := by
      rw [← mem_iff_sizes,Dict.mem_eraseAll]
      rintro ⟨hswept,_⟩
      obtain ⟨e,he⟩ := Dict.mem_iff_exists.mp hswept
      exact hnew (Dict.mem_of_item (s.policy.item_of_mem_swept he))
    rw [sizes_store_evicting hn now sched (by simp [hfresh]) hshort,List.map_append,
      List.mem_append,or_iff_right hgone,FirstFits,or_iff_right hneeded]
    by_cases hempty : s.storeVictims keys now = []
    · simp [hempty,storeVictims_eq_nil.mp hempty]
    · have hleft : (s.policy.swept now).items ≠ [] := fun hnil =>
        hempty (storeVictims_eq_nil.mpr hnil)
      rw [if_neg hempty,hfresh,head_fitting_iff,and_iff_right hleft]
      have hfirst := first_le_weight h hfresh hkv
      have hneed : weight (s.policy.admitChain (s.missing keys) s.probe) =
          s.needed keys+s.freeRoom := by
        unfold needed
        omega
      simp only at hcredit
      split_ifs at hcredit with henough
      · exact iff_of_true (by omega) (Or.inl henough)
      · rw [hcredit,or_iff_right henough]

end First
end Store

theorem filled_weighed {s : Simulator F} (h : Weighed s.index s.policy.entries) (turn : Turn F) :
    Weighed (s.filled turn).index (s.filled turn).policy.entries := by
  rw [filled_index,filled_policy]
  exact seenIndex_weighed h turn

/-- In every reachable state, the store step of a turn whose chain is let in runs through and
lands the first block exactly when it divides by no zero and nothing has to be freed, or the
sweep leaves entries that make room for it. -/
theorem first_stored_iff (cfg : SimConfig F) (kind : PolicyKind F) (ram : TierConfig F)
    (turns : List (Turn F)) (n : ℕ) (turn : Turn F) (sched : Schedule F) (first : BlockKey × ℤ)
    (rest : List (BlockKey × ℤ)) :
    let keys := ((start cfg kind ram).after turns n).path turn
    let s := ((start cfg kind ram).after turns n).filled turn
    s.GateDefined keys → s.policy.admitChain (s.missing keys) s.probe = first::rest →
    (s.StoreDefined keys turn.t ∧
        first.1 ∈ (s.storeBatchToHost keys turn.t sched).policy.entries ↔
      s.StoreDefined keys turn.t ∧ s.FirstFits keys turn.t first) := by
  intro keys s _ hfresh
  refine and_congr_right fun _ => ?_
  exact mem_store_first_iff (filled_weighed (after_weighed cfg kind ram turns n) turn)
    (path_nodup _ turn) hfresh turn.t sched

/-- A block of 1000 bytes makes room for the first of two blocks. -/
theorem first_stored_iff_small :
    let keys := ((start (smallConfig 1000 1000) .lru (smallRam 1000)).after
      [ask 0 "a" 1000] 1).path (ask 1 "b" 2000)
    let s := ((start (smallConfig 1000 1000) .lru (smallRam 1000)).after
      [ask 0 "a" 1000] 1).filled (ask 1 "b" 2000)
    s.StoreDefined keys 1 ∧ .priv "b" 0 ∈ (s.storeBatchToHost keys 1 .empty).policy.entries :=
  (first_stored_iff (smallConfig 1000 1000) .lru (smallRam 1000) [ask 0 "a" 1000] 1
    (ask 1 "b" 2000) .empty (.priv "b" 0,1000) [(.priv "b" 1,1000)]
    (by rw [GateDefined,filled_policy,after_kind]; trivial) (by decide +kernel)).mpr
    ⟨by rw [StoreDefined,filled_policy,after_kind]; trivial,by decide +kernel⟩

/-- Two blocks that are too much for an empty tier are both dropped, also the one that fits. -/
theorem prefix_is_dropped : ¬ ∀ (cfg : SimConfig ℚ) (kind : PolicyKind ℚ) (ram : TierConfig ℚ)
    (turns : List (Turn ℚ)) (n : ℕ) (turn : Turn ℚ) (sched : Schedule ℚ)
    (first : BlockKey × ℤ) (rest : List (BlockKey × ℤ)), cfg.tier "ram" = some ram →
    (((start cfg kind ram).after turns n).filled turn).policy.admitChain
      ((((start cfg kind ram).after turns n).filled turn).missing
        (((start cfg kind ram).after turns n).path turn))
      (((start cfg kind ram).after turns n).filled turn).probe = first::rest →
    first.2 ≤ ram.bytesCapacity →
    first.1 ∈ ((((start cfg kind ram).after turns n).filled turn).storeBatchToHost
      (((start cfg kind ram).after turns n).path turn) turn.t sched).policy.entries := by
  intro h
  have hstored := h (smallConfig 1000 1000) .lru (smallRam 1000) [] 0 (ask 0 "a" 2000) .empty
    (.priv "a" 0,1000) [(.priv "a" 1,1000)] rfl (by decide +kernel) (by decide)
  exact absurd hstored (by decide +kernel)

end Simulator
end ContextResidency
