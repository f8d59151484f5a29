import ContextResidency.StoreStep

/-! What a turn evicts of its own context. The store step protects the blocks that it is
about to insert, but not those of the path that are resident already; these are touched only
after it, so each of them stays just as long as older entries make enough room. -/
namespace ContextResidency

variable {F : Type} [Scalar F]

namespace Simulator

/-- The order in which a store step evicts. -/
def storeOrder (s : Simulator F) (keys : List BlockKey) (now : F) : List (BlockKey × Entry F) :=
  s.policy.order ((s.policy.admitChain (s.missing keys) s.probe).map Prod.fst).toFinset now s.probe

def offPath (s : Simulator F) (keys : List BlockKey) : ℤ :=
  weight ((sizes s.policy.entries).filter fun p => p.1 ∉ keys)

/-- Nothing has to be freed, or every resident block of the path is unexpired and has enough
bytes before it in the order of eviction. -/
def Spared (s : Simulator F) (keys : List BlockKey) (now : F) : Prop :=
  s.needed keys ≤ 0 ∨ ∀ key ∈ keys, key ∈ s.policy.entries → key ∈ s.policy.swept now ∧
    s.needed keys ≤ ahead Prod.fst (·.2.nbytes) (s.storeOrder keys now) key

section Store

variable {s : Simulator F} {keys : List BlockKey} (h : Weighed s.index s.policy.entries)
include h

theorem mem_storeVictims_iff {key : BlockKey} {now : F} (hneeded : 0 < s.needed keys)
    (hkey : key ∈ s.policy.swept now) : key ∈ s.storeVictims keys now ↔
      ahead Prod.fst (·.2.nbytes) (s.storeOrder keys now) key < s.needed keys := by
  have hperm := order_perm_swept (s := s) keys now
  have hkv := kv_nonneg_of_needed h hneeded
  have hlisted : key ∈ (s.storeOrder keys now).map Prod.fst :=
    (hperm.map Prod.fst).mem_iff.mpr hkey
  have hsign : ∀ p ∈ s.storeOrder keys now, 0 ≤ p.2.nbytes := fun p hp => by
    have hold := s.policy.item_of_mem_swept (hperm.subset hp)
    exact (h.nonneg hkv (p.1,p.2.nbytes) (List.mem_map.mpr ⟨p,hold,rfl⟩)).1
  have htaken := mem_takeUntil_iff hneeded hlisted (Or.inl hsign)
  rwa [zero_add] at htaken

/-- A resident block survives the store step exactly when nothing has to be freed, or it is
not expired and enough lies before it. -/
theorem mem_store_resident_iff (hn : keys.Nodup) {key : BlockKey} (hkey : key ∈ s.policy.entries)
    (now : F) (sched : Schedule F) :
    key ∈ (s.storeBatchToHost keys now sched).policy.entries ↔ s.needed keys ≤ 0 ∨
      key ∈ s.policy.swept now ∧
        s.needed keys ≤ ahead Prod.fst (·.2.nbytes) (s.storeOrder keys now) key := by
  have hsub := s.policy.admitChain_sublist (s.missing keys) s.probe
  by_cases hneeded : s.needed keys ≤ 0
  · rw [mem_iff_sizes,sizes_store_of_none hn now sched (evictRequest_quiet hneeded),
      List.map_append,List.mem_append,
      ← mem_iff_sizes]
    exact iff_of_true (Or.inl hkey) (Or.inl hneeded)
  · have hshort := not_le.mp hneeded
    have hfresh : s.policy.admitChain (s.missing keys) s.probe ≠ [] := fun hnil => by
      have hfree : 0 ≤ s.freeRoom := le_max_left _ _
      rw [needed,hnil,weight_nil] at hshort
      omega
    have hold : ∀ room, key ∉ (fitting room
        (s.policy.admitChain (s.missing keys) s.probe)).map Prod.fst := fun room hmem => by
      obtain ⟨p,hp,rfl⟩ := List.mem_map.mp hmem
      exact (mem_missing (hsub.subset ((fitting_initial _ _).subset hp))).2.1 hkey
    have hout : key ∉ (if s.storeVictims keys now = [] then [] else
        fitting (s.freeRoom+((s.storeVictims keys now).map s.index.nbytesOf).sum)
          (s.policy.admitChain (s.missing keys) s.probe)).map Prod.fst := by
      split_ifs
      · simp
      · exact hold _
    rw [mem_iff_sizes,sizes_store_evicting hn now sched hfresh hshort,List.map_append,
      List.mem_append,or_iff_left hout,← mem_iff_sizes,Dict.mem_eraseAll,or_iff_right hneeded]
    apply and_congr_right
    intro hswept
    rw [mem_storeVictims_iff h hshort hswept,not_lt]

end Store

/-- If the entries off the path hold enough, the store step of the turn loses no block of the
path that was resident. -/
def KeepsOwnContext (s : Simulator F) (turn : Turn F) (sched : Schedule F) : Prop :=
  (s.filled turn).needed (s.path turn) ≤ (s.filled turn).offPath (s.path turn) →
    ∀ key ∈ s.path turn, key ∈ (s.filled turn).policy.entries →
      key ∈ ((s.filled turn).storeBatchToHost (s.path turn) turn.t sched).policy.entries

/-- In every reachable state, a turn keeps its own context exactly when its path is spared,
if the other entries hold enough. -/
theorem keepsOwnContext_iff (cfg : SimConfig F) (kind : PolicyKind F) (ram : TierConfig F)
    (turns : List (Turn F)) (n : ℕ) (turn : Turn F) (sched : Schedule F) :
    ((start cfg kind ram).after turns n).KeepsOwnContext turn sched ↔
      ((((start cfg kind ram).after turns n).filled turn).needed
          (((start cfg kind ram).after turns n).path turn) ≤
        (((start cfg kind ram).after turns n).filled turn).offPath
          (((start cfg kind ram).after turns n).path turn) →
        (((start cfg kind ram).after turns n).filled turn).Spared
          (((start cfg kind ram).after turns n).path turn) turn.t) := by
  generalize hs : (start cfg kind ram).after turns n = s
  have hweighed : Weighed (s.filled turn).index (s.filled turn).policy.entries :=
    filled_weighed (hs ▸ after_weighed cfg kind ram turns n) turn
  have hblock := fun (key : BlockKey) (hkey : key ∈ (s.filled turn).policy.entries) =>
    mem_store_resident_iff hweighed (path_nodup s turn) hkey turn.t sched
  apply imp_congr_right
  intro _
  constructor
  · intro hkeeps
    by_cases hneeded : (s.filled turn).needed (s.path turn) ≤ 0
    · exact Or.inl hneeded
    · refine Or.inr fun key hpath hkey => ?_
      exact ((hblock key hkey).mp (hkeeps key hpath hkey)).resolve_left hneeded
  · intro hspared key hpath hkey
    apply (hblock key hkey).mpr
    exact hspared.imp_right fun hall => hall key hpath hkey

/-- The session is back, longer by a block, and its own head is the oldest entry. -/
theorem path_evicts_its_head : ¬ ∀ (cfg : SimConfig ℚ) (kind : PolicyKind ℚ)
    (ram : TierConfig ℚ) (turns : List (Turn ℚ)) (n : ℕ) (turn : Turn ℚ) (sched : Schedule ℚ),
    cfg.tier "ram" = some ram → ((start cfg kind ram).after turns n).KeepsOwnContext turn sched := by
  intro h
  have hkept := h (smallConfig 5000 3000) .lru (smallRam 3000) [ask 0 "a" 2000,ask 1 "b" 1000] 2
    (ask 2 "a" 3000) .empty rfl (by decide +kernel) (.priv "a" 0) (by decide +kernel)
    (by decide +kernel)
  exact absurd hkept (by decide +kernel)

end Simulator
end ContextResidency
