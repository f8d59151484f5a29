import ContextResidency.Residency

/-! The prefill bill of a turn. A turn is charged what is on record for the blocks from
the first one outside both tiers on. The record of a block is the largest request for it
so far, so the bill may exceed the prompt; and a block that has grown since it became
resident counts as served, so the bill may also miss tokens that were never sent. -/
namespace ContextResidency

variable {F : Type} [Scalar F]

namespace Simulator

section Bill

variable (s : Simulator F) (turn : Turn F)

def parts : List ChainPart :=
  s.index.chain turn.sessionId turn.promptTokens turn.sharedPrefixTokens s!"root:{turn.role}"

def served : List ChainPart := (s.parts turn).takeWhile fun part => s.Resident part.key

def recomputed : List ChainPart := (s.parts turn).dropWhile fun part => s.Resident part.key

def servedTokens : ℤ := ((s.served turn).map (·.tokens)).sum

/-- Tokens on record beyond what the turn asks of the blocks that it recomputes. -/
def overRecorded : ℤ :=
  ((s.recomputed turn).map fun part => max 0 (s.index.tokensOf part.key-part.tokens)).sum

/-- Tokens that the chain asks for beyond the prompt. -/
def overAsked : ℤ := ((s.parts turn).map (·.tokens)).sum-turn.promptTokens

omit [Scalar F] in
theorem overAsked_eq_zero (hp : 0 ≤ turn.promptTokens) (hs : 0 ≤ turn.sharedPrefixTokens) :
    s.overAsked turn = 0 := by
  have hsum := PrefixIndex.chain_tokens_sum s.index turn.sessionId _ _ s!"root:{turn.role}" hp hs
  rw [overAsked,parts,hsum,sub_self]

theorem recomputeTokens_eq_max : s.recomputeTokens turn =
    ((s.recomputed turn).map fun part => max (s.index.tokensOf part.key) part.tokens).sum := by
  have hpath : s.path turn = (s.parts turn).map (·.key) := rfl
  rw [recomputeTokens_eq,hpath,List.dropWhile_map,List.map_map]
  refine congrArg List.sum (List.map_congr_left fun part hpart => ?_)
  exact PrefixIndex.tokensOf_touchPath_of_mem _ _ _ _ _ _
    ((List.dropWhile_suffix _).subset hpart)

/-- What is charged and what is served make up the prompt and the excess. -/
theorem recomputeTokens_add_served : s.recomputeTokens turn+s.servedTokens turn =
    turn.promptTokens+s.overAsked turn+s.overRecorded turn := by
  have hcharged : s.recomputeTokens turn =
      ((s.recomputed turn).map (·.tokens)).sum+s.overRecorded turn := by
    rw [recomputeTokens_eq_max,overRecorded,← List.sum_map_add]
    refine congrArg List.sum (List.map_congr_left fun part _ => ?_)
    omega
  have hsplit : s.served turn ++ s.recomputed turn = s.parts turn :=
    List.takeWhile_append_dropWhile
  have hasked : ((s.parts turn).map (·.tokens)).sum =
      s.servedTokens turn+((s.recomputed turn).map (·.tokens)).sum := by
    rw [servedTokens,← List.sum_append,← List.map_append,hsplit]
  rw [hcharged,overAsked,hasked]
  omega

/-- The excess is at most what the tiers serve. -/
def Covered : Prop := s.overAsked turn+s.overRecorded turn ≤ s.servedTokens turn

theorem recomputeTokens_le_prompt_iff :
    s.recomputeTokens turn ≤ turn.promptTokens ↔ s.Covered turn := by
  have hbill := s.recomputeTokens_add_served turn
  unfold Covered
  omega

end Bill

theorem forall_metrics_iff {sched : Schedule F} {P : TurnMetric F → Prop} {s : Simulator F}
    {turns : List (Turn F)} : (∀ m ∈ (exec sched s turns).metrics, P m) ↔
      (∀ m ∈ s.metrics, P m) ∧ Along (one sched) (fun s turn => P (s.metric turn)) s turns := by
  induction turns generalizing s with
  | nil => simp [exec,Along]
  | cons turn turns ih =>
    have hrest := ih (s := one sched s turn)
    rw [one_metrics] at hrest
    simp only [exec,List.foldl_cons,Along] at hrest ⊢
    rw [hrest]
    simp only [List.mem_append,List.mem_singleton,or_imp,forall_and,forall_eq,and_assoc]

/-- No turn of a run is charged more than its prompt exactly when every turn is covered. -/
theorem recompute_le_prompt_iff (cfg : SimConfig F) (kind : PolicyKind F) (ram : TierConfig F)
    (turns : List (Turn F)) (n : ℕ) :
    (∀ m ∈ ((start cfg kind ram).after turns n).metrics, m.recomputeTokens ≤ m.promptTokens) ↔
    Along (one ((start cfg kind ram).schedule turns)) Covered (start cfg kind ram)
      ((inOrder turns).take n) := by
  have hstep : (fun (s : Simulator F) turn =>
      (s.metric turn).recomputeTokens ≤ (s.metric turn).promptTokens) = Covered := by
    funext s turn
    exact propext (s.recomputeTokens_le_prompt_iff turn)
  rw [after,forall_metrics_iff,hstep]
  simp [start,new]

/-- A session that shrank from 800 tokens to 100 is charged 800 of them. -/
theorem recompute_exceeds_prompt : ¬ ∀ (cfg : SimConfig ℚ) (kind : PolicyKind ℚ)
    (ram : TierConfig ℚ) (turns : List (Turn ℚ)) (n : ℕ), cfg.tier "ram" = some ram →
    ∀ m ∈ ((start cfg kind ram).after turns n).metrics, m.recomputeTokens ≤ m.promptTokens := by
  intro h
  have hlate := h (smallConfig 1000 1000) .lru (smallRam 1000)
    [ask 0 "a" 800,ask 1 "b" 800,ask 2 "a" 100] 3 rfl
  exact absurd hlate (by decide +kernel)

end Simulator
end ContextResidency
