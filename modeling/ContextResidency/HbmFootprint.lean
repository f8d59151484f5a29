import ContextResidency.HbmPool
import ContextResidency.Prefill

/-! The footprint of the HBM pool. A block keeps the size with which it entered the pool, so
the counter is below the true footprint as soon as a block in the pool grows. Without that
the pool holds no more than its capacity, or nothing but the path of the turn. -/
namespace ContextResidency

variable {F : Type} [Scalar F]

namespace Simulator

open HBMTier

/-- The bytes that the blocks in HBM take now. -/
def footprint (s : Simulator F) : ℤ := (s.hbm.blocks.keys.map s.index.nbytesOf).sum

/-- No block of the path is in HBM with fewer bytes than its tokens take by now, those on
record or those asked for, whichever are more. -/
def NoneOutgrown (s : Simulator F) (turn : Turn F) : Prop :=
  ∀ part ∈ s.parts turn, (s.hbm.blocks.get part.key).all fun n =>
    s.index.cost.blockBytes (max (s.index.tokensOf part.key) part.tokens) ≤ n

instance (s : Simulator F) (turn : Turn F) : Decidable (s.NoneOutgrown turn) :=
  inferInstanceAs (Decidable (∀ part ∈ _, _))

theorem seenIndex_nbytesOf {s : Simulator F} (h : s.index.Sized) {turn : Turn F}
    {part : ChainPart} (hpart : part ∈ s.parts turn) : (s.seenIndex turn).nbytesOf part.key =
      s.index.cost.blockBytes (max (s.index.tokensOf part.key) part.tokens) := by
  have hknown : part.key ∈ (s.seenIndex turn).blocks :=
    (PrefixIndex.mem_blocks_touchPath _ _ _ _ _ _ _ _).mpr (Or.inl (List.mem_map_of_mem hpart))
  have htokens : (s.seenIndex turn).tokensOf part.key =
      max (s.index.tokensOf part.key) part.tokens :=
    PrefixIndex.tokensOf_touchPath_of_mem _ _ _ _ _ _ hpart
  have hcost : (s.seenIndex turn).cost = s.index.cost := PrefixIndex.touchPath_cost _ _ _ _ _ _ _
  rw [PrefixIndex.nbytesOf_eq_blockBytes (seenIndex_sized h turn) hknown,htokens,hcost]

/-- The pool counts no block with fewer bytes than it takes. -/
structure Measured (capacityBytes : ℤ) (s : Simulator F) : Prop where
  sized : s.index.Sized
  capacity : s.hbm.capacityBytes = capacityBytes
  counted : s.hbm.Counted
  enough : ∀ p ∈ s.hbm.blocks.items, s.index.nbytesOf p.1 ≤ p.2

theorem Measured.footprint_le {capacityBytes : ℤ} {s : Simulator F}
    (h : Measured capacityBytes s) : s.footprint ≤ s.hbm.used := by
  rw [footprint,h.counted,Dict.keys,List.map_map]
  exact List.sum_le_sum h.enough

theorem one_measured (sched : Schedule F) {capacityBytes : ℤ} (s : Simulator F) (turn : Turn F)
    (h : Measured capacityBytes s) (hgrown : s.NoneOutgrown turn) :
    Measured capacityBytes (one sched s turn) := by
  have hn := path_nodup s turn
  constructor
  case sized =>
    rw [one_index]
    exact seenIndex_sized h.sized turn
  case capacity =>
    rw [one_hbm,store_capacity]
    exact h.capacity
  case counted =>
    rw [one_hbm]
    exact store_counted h.counted _ _
  case enough =>
    intro p hp
    rw [one_hbm] at hp
    rw [one_index]
    cases item_of_store hn h.counted hp with
    | inr hnew => exact hnew.2.ge
    | inl hold =>
      by_cases hpath : p.1 ∈ s.path turn
      · obtain ⟨part,hpart,hkey⟩ := List.mem_map.mp hpath
        have hbytes := seenIndex_nbytesOf h.sized hpart
        have hget : s.hbm.blocks.get part.key = some p.2 := by
          rw [hkey]
          exact Dict.get_eq_some.mpr hold
        have hfits := hgrown part hpart
        rw [hget] at hfits
        rw [← hkey,hbytes]
        simpa using hfits
      · have hsame : (s.seenIndex turn).nbytesOf p.1 = s.index.nbytesOf p.1 :=
          PrefixIndex.nbytesOf_touchPath_of_not_mem _ _ _ _ _ _ hpath
        rw [hsame]
        exact h.enough p hold

/-- After a turn the counter is within the capacity, or only the path is left. -/
theorem one_hbm_fits (sched : Schedule F) {s : Simulator F} (h : s.hbm.Counted) (turn : Turn F) :
    (one sched s turn).hbm.used ≤ (one sched s turn).hbm.capacityBytes ∨
      ∀ key ∈ (one sched s turn).hbm.blocks, key ∈ s.path turn := by
  rw [one_hbm,store_capacity]
  refine (fits_or_protected h _ _).imp_right fun hall key hkey => ?_
  exact List.mem_toFinset.mp (hall key hkey)

theorem after_hbm_counted (cfg : SimConfig F) (kind : PolicyKind F) (ram : TierConfig F)
    (turns : List (Turn F)) (n : ℕ) : ((start cfg kind ram).after turns n).hbm.Counted := by
  refine List.foldlRecOn (motive := fun s : Simulator F => s.hbm.Counted) _ _ rfl
    fun s h turn _ => ?_
  rw [one_hbm]
  exact store_counted h _ _

/-- As long as no block grows in HBM, what HBM holds fits after every turn, or lies on the path
of that turn. -/
theorem footprint_le_capacity (cfg : SimConfig F) (kind : PolicyKind F) (ram : TierConfig F)
    (turns : List (Turn F)) {n : ℕ} {turn : Turn F} (hturn : (inOrder turns)[n]? = some turn)
    (hgrown : Along (one ((start cfg kind ram).schedule turns)) NoneOutgrown (start cfg kind ram)
      ((inOrder turns).take (n+1))) :
    ((start cfg kind ram).after turns (n+1)).footprint ≤ cfg.hbmBytes ∨
      ∀ key ∈ ((start cfg kind ram).after turns (n+1)).hbm.blocks,
        key ∈ ((start cfg kind ram).after turns n).path turn := by
  have hstart : Measured cfg.hbmBytes (start cfg kind ram) :=
    { sized := PrefixIndex.new_sized _ _, capacity := rfl, counted := rfl
      enough := by simp [start,new,HBMTier.new] }
  have hrun : Measured cfg.hbmBytes ((start cfg kind ram).after turns (n+1)) :=
    run_invariant (one_measured _) hgrown hstart
  have hlast := after_succ (start cfg kind ram) hturn
  have hend := one_hbm_fits ((start cfg kind ram).schedule turns)
    (after_hbm_counted cfg kind ram turns n) turn
  rw [← hlast,hrun.capacity] at hend
  exact hend.imp_left hrun.footprint_le.trans

theorem footprint_le_capacity_small :
    ((start (smallConfig 1000 1000) .lru (smallRam 1000)).after
        [ask 0 "a" 800,ask 1 "b" 800,ask 2 "a" 800] 3).footprint ≤
          (smallConfig 1000 1000).hbmBytes ∨
      ∀ key ∈ ((start (smallConfig 1000 1000) .lru (smallRam 1000)).after
          [ask 0 "a" 800,ask 1 "b" 800,ask 2 "a" 800] 3).hbm.blocks,
        key ∈ ((start (smallConfig 1000 1000) .lru (smallRam 1000)).after
          [ask 0 "a" 800,ask 1 "b" 800,ask 2 "a" 800] 2).path (ask 2 "a" 800) := by
  have hturn : (inOrder [ask 0 "a" 800,ask 1 "b" 800,ask 2 "a" 800])[2]? =
      some (ask 2 "a" 800) := rfl
  exact footprint_le_capacity (smallConfig 1000 1000) .lru (smallRam 1000)
    [ask 0 "a" 800,ask 1 "b" 800,ask 2 "a" 800] hturn (by decide +kernel)

/-- A block that entered with 100 bytes and has grown to 800 is counted with 100, beside a
block of another session. -/
theorem footprint_exceeds_capacity : ¬ ∀ (cfg : SimConfig ℚ) (kind : PolicyKind ℚ)
    (ram : TierConfig ℚ) (turns : List (Turn ℚ)) (n : ℕ) (turn : Turn ℚ),
    cfg.tier "ram" = some ram → (inOrder turns)[n]? = some turn →
    ((start cfg kind ram).after turns (n+1)).footprint ≤ cfg.hbmBytes ∨
      ∀ key ∈ ((start cfg kind ram).after turns (n+1)).hbm.blocks,
        key ∈ ((start cfg kind ram).after turns n).path turn := by
  intro h
  have hlast := h (smallConfig 1000 1000) .lru (smallRam 1000)
    [ask 0 "a" 100,ask 1 "b" 800,ask 2 "a" 800] 2 (ask 2 "a" 800) rfl rfl
  exact absurd hlast (by decide +kernel)

end Simulator
end ContextResidency
