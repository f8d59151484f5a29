import ContextResidency.ReplayFacts

/-! The host tier is invisible to the index and to HBM. Both move by the trace alone,
so the choice of a host policy, capacity or bandwidth changes neither, and a host tier
can only shorten what a turn recomputes. -/
namespace ContextResidency

variable {F : Type} [Scalar F]

namespace Simulator

/-- Two replays agree on everything that the host tier cannot influence. -/
structure SameEngine (s t : Simulator F) : Prop where
  index : s.index = t.index
  hbm : s.hbm = t.hbm
  demotions : s.demotions = t.demotions

theorem path_congr {s t : Simulator F} (h : s.index = t.index) (turn : Turn F) :
    s.path turn = t.path turn := by
  unfold path observe
  rw [h]

theorem seenIndex_congr {s t : Simulator F} (h : s.index = t.index) (turn : Turn F) :
    s.seenIndex turn = t.seenIndex turn := by
  unfold seenIndex observe
  rw [h]

theorem one_sameEngine (sched sched' : Schedule F) (s t : Simulator F) (turn : Turn F)
    (h : SameEngine s t) : SameEngine (one sched s turn) (one sched' t turn) where
  index := by rw [one_index,one_index,seenIndex_congr h.index]
  hbm := by rw [one_hbm,one_hbm,path_congr h.index,seenIndex_congr h.index,h.hbm]
  demotions := by
    rw [one_demotions,one_demotions,path_congr h.index,seenIndex_congr h.index,h.hbm,h.demotions]

theorem exec_sameEngine (sched sched' : Schedule F) {s t : Simulator F} (h : SameEngine s t)
    (turns : List (Turn F)) : SameEngine (exec sched s turns) (exec sched' t turns) :=
  run_simulation (one_sameEngine sched sched') h turns

theorem seenIndex_sized {s : Simulator F} (h : s.index.Sized) (turn : Turn F) :
    (s.seenIndex turn).Sized := PrefixIndex.touchPath_sized _ _ _ _ _ _ h

theorem exec_sized {sched : Schedule F} {s : Simulator F} (h : s.index.Sized)
    (turns : List (Turn F)) : (exec sched s turns).index.Sized := by
  refine List.foldlRecOn (motive := fun s => s.index.Sized) turns (one sched) h
    fun s hs turn _ => ?_
  rw [one_index]
  exact seenIndex_sized hs turn

/-- A host tier never adds to the recompute bill: at most the path from the first
block outside HBM on. -/
theorem recomputeTokens_le_hbm {s : Simulator F} (h : s.index.Sized) (turn : Turn F) :
    s.recomputeTokens turn ≤ (((s.path turn).dropWhile fun k => k ∈ s.hbm.blocks).map
      (s.seenIndex turn).tokensOf).sum := by
  rw [recomputeTokens_eq]
  refine sum_dropWhile_le (fun k _ hk => ?_) (PrefixIndex.tokensOf_nonneg (seenIndex_sized h turn))
  have hk : k ∈ s.hbm.blocks := by simpa using hk
  simp [Resident,hk]

/-- Runs with different host tiers agree after every turn on the index, on HBM and its
order, and on the demotions; no host tier makes a turn recompute more than none at all. -/
theorem host_tier_decoupled (cfg : SimConfig F) (tiers : List (TierConfig F))
    (kind kind' : PolicyKind F) (ram ram' : TierConfig F) (turns : List (Turn F)) (n : ℕ) :
    SameEngine ((start cfg kind ram).after turns n)
      ((start { cfg with tiers := tiers } kind' ram').after turns n) ∧
    ∀ turn, ((start cfg kind ram).after turns n).recomputeTokens turn ≤
      (((((start cfg kind ram).after turns n).path turn).dropWhile fun k =>
        k ∈ ((start cfg kind ram).after turns n).hbm.blocks).map
          (((start cfg kind ram).after turns n).seenIndex turn).tokensOf).sum := by
  have hsized : (start cfg kind ram).index.Sized :=
    PrefixIndex.new_sized cfg.blockTokens cfg.cost
  have hstart : SameEngine (start cfg kind ram) (start { cfg with tiers := tiers } kind' ram') :=
    ⟨rfl,rfl,rfl⟩
  refine ⟨exec_sameEngine _ _ hstart _,fun turn => ?_⟩
  exact recomputeTokens_le_hbm (exec_sized hsized _) turn

end Simulator
end ContextResidency
