import Mathlib.Data.List.TakeWhile
import ContextResidency.Departures
import ContextResidency.HostGrowth
import ContextResidency.Prefill
import ContextResidency.WorkingSet

/-! What has to be computed once, and what is computed again. A block that no turn has asked
for is in no tier, so that every policy pays for it: the bill of a run is a floor that the
trace alone fixes, and what was forgotten. -/
namespace ContextResidency

variable {F : Type} [Scalar F]

namespace PrefixIndex

def observeTurn (index : PrefixIndex F) (turn : Turn F) : PrefixIndex F :=
  (index.touchPath turn.sessionId turn.role turn.promptTokens turn.sharedPrefixTokens turn.t
    turn.aborted).1

/-- The parts of the chain of a turn that no turn has asked for before. -/
def unseen (index : PrefixIndex F) (turn : Turn F) : List ChainPart :=
  (index.chain turn.sessionId turn.promptTokens turn.sharedPrefixTokens s!"root:{turn.role}").filter
    (·.key ∉ index.blocks)

end PrefixIndex

/-- The tokens of all parts of a trace at their first request. -/
def coldStart (cfg : SimConfig F) (turns : List (Turn F)) (n : ℕ) : ℤ :=
  ((visits PrefixIndex.observeTurn (.new cfg.blockTokens cfg.cost) ((inOrder turns).take n)).map
    fun visit => ((visit.1.unseen visit.2).map (·.tokens)).sum).sum

namespace Simulator

/-- What a turn recomputes of the blocks that were asked for before. -/
def forgotten (s : Simulator F) (turn : Turn F) : List BlockKey :=
  ((s.recomputed turn).map (·.key)).filter (· ∈ s.index.blocks)

def relearned (s : Simulator F) (turn : Turn F) : ℤ :=
  ((s.forgotten turn).map (s.seenIndex turn).tokensOf).sum

section Step

variable {s : Simulator F} (turn : Turn F)

omit [Scalar F] in
theorem unseen_eq (h : s.Registered) :
    s.index.unseen turn = (s.recomputed turn).filter (·.key ∉ s.index.blocks) := by
  have hsplit : s.served turn ++ s.recomputed turn = s.parts turn :=
    List.takeWhile_append_dropWhile
  have hserved : (s.served turn).filter (·.key ∉ s.index.blocks) = [] := by
    refine List.filter_eq_nil_iff.mpr fun part hpart => ?_
    have hresident : s.Resident part.key := by simpa using List.mem_takeWhile_imp hpart
    simpa using h part.key hresident
  have hunseen : s.index.unseen turn = (s.parts turn).filter (·.key ∉ s.index.blocks) := rfl
  rw [hunseen,← hsplit,List.filter_append,hserved,List.nil_append]

/-- The bill of a turn: what is unseen, and what was forgotten. -/
theorem recomputeTokens_eq_unseen_add (h : s.Registered) : s.recomputeTokens turn =
    ((s.index.unseen turn).map (·.tokens)).sum+s.relearned turn := by
  have hbill : s.recomputeTokens turn =
      ((s.recomputed turn).map fun part => (s.seenIndex turn).tokensOf part.key).sum := by
    have hpath : s.path turn = (s.parts turn).map (·.key) := rfl
    rw [recomputeTokens_eq,hpath,List.dropWhile_map,List.map_map]
    rfl
  have hold : (s.forgotten turn).map (s.seenIndex turn).tokensOf =
      ((s.recomputed turn).filter (·.key ∈ s.index.blocks)).map fun part =>
        (s.seenIndex turn).tokensOf part.key := by
    rw [forgotten,List.filter_map,List.map_map]
    rfl
  have hnew : (s.index.unseen turn).map (·.tokens) =
      ((s.recomputed turn).filter (·.key ∉ s.index.blocks)).map fun part =>
        (s.seenIndex turn).tokensOf part.key := by
    rw [unseen_eq turn h]
    refine List.map_congr_left fun part hpart => ?_
    obtain ⟨hin,hout⟩ := List.mem_filter.mp hpart
    have hmem := (List.dropWhile_suffix _).subset hin
    have hseen : (s.seenIndex turn).tokensOf part.key =
        max (s.index.tokensOf part.key) part.tokens :=
      PrefixIndex.tokensOf_touchPath_of_mem _ _ _ _ _ _ hmem
    have hpos := PrefixIndex.chain_tokens_pos _ _ _ _ _ hmem
    rw [hseen,PrefixIndex.tokensOf_of_not_mem (by simpa using hout)]
    omega
  have hparts := (List.filter_append_perm (fun part => decide (part.key ∈ s.index.blocks))
    (s.recomputed turn)).map fun part => (s.seenIndex turn).tokensOf part.key
  rw [hbill,relearned,hold,hnew,add_comm,← hparts.sum_eq,List.map_append,List.sum_append]
  simp only [decide_not]

theorem relearned_pos {key : BlockKey} (hkey : key ∈ s.forgotten turn) :
    0 < (s.seenIndex turn).tokensOf key := by
  obtain ⟨part,hpart,rfl⟩ := List.mem_map.mp (List.mem_filter.mp hkey).1
  have hmem := (List.dropWhile_suffix _).subset hpart
  have hseen : (s.seenIndex turn).tokensOf part.key =
      max (s.index.tokensOf part.key) part.tokens :=
    PrefixIndex.tokensOf_touchPath_of_mem _ _ _ _ _ _ hmem
  have hpos := PrefixIndex.chain_tokens_pos _ _ _ _ _ hmem
  omega

theorem forgotten_nonneg :
    ∀ tokens ∈ (s.forgotten turn).map (s.seenIndex turn).tokensOf, 0 ≤ tokens := by
  intro tokens htokens
  obtain ⟨key,hkey,rfl⟩ := List.mem_map.mp htokens
  exact (relearned_pos turn hkey).le

theorem relearned_nonneg : 0 ≤ s.relearned turn := List.sum_nonneg (forgotten_nonneg turn)

theorem relearned_eq_zero : s.relearned turn = 0 ↔ s.forgotten turn = [] := by
  constructor
  · refine fun hsum => List.eq_nil_iff_forall_not_mem.mpr fun key hkey => ?_
    exact (relearned_pos turn hkey).ne' (List.all_zero_of_le_zero_le_of_sum_eq_zero
      (forgotten_nonneg turn) hsum (List.mem_map_of_mem hkey))
  · intro hnone
    rw [relearned,hnone]
    rfl

end Step

section Runs

variable (cfg : SimConfig F) (kind : PolicyKind F) (ram : TierConfig F) (turns : List (Turn F))

theorem visited_index (n : ℕ) : ((start cfg kind ram).visited turns n).map
      (fun visit => (visit.1.index,visit.2)) =
    visits PrefixIndex.observeTurn (.new cfg.blockTokens cfg.cost) ((inOrder turns).take n) :=
  visits_map (fun s turn => one_index s turn _) _ _

theorem coldStart_eq_sum (n : ℕ) : coldStart cfg turns n =
    (((start cfg kind ram).visited turns n).map fun visit =>
      ((visit.1.index.unseen visit.2).map (·.tokens)).sum).sum := by
  rw [coldStart,← visited_index cfg kind ram,List.map_map]
  rfl

theorem visited_registered (n : ℕ) :
    ∀ visit ∈ (start cfg kind ram).visited turns n, visit.1.Registered :=
  (@run_history _ _ _ (fun (past : List (Simulator F × Turn F)) (s : Simulator F) =>
      s.Registered ∧ ∀ visit ∈ past, visit.1.Registered)
    (fun _ _ turn h => ⟨one_registered _ h.1 turn,
      List.forall_mem_append.mpr ⟨h.2,List.forall_mem_singleton.mpr h.1⟩⟩)
    _ ⟨start_registered cfg kind ram,List.forall_mem_nil _⟩ _).2

theorem totalRecompute_eq_sum (s : Simulator F) (n : ℕ) : (s.after turns n).totalRecompute =
    s.totalRecompute+
      ((s.visited turns n).map fun visit => visit.1.recomputeTokens visit.2).sum :=
  @run_history _ _ _ (fun (past : List (Simulator F × Turn F)) (t : Simulator F) =>
      t.totalRecompute = s.totalRecompute+(past.map fun visit => visit.1.recomputeTokens visit.2).sum)
    (fun past t turn h => by
      rw [one_totalRecompute,h,List.map_append,List.sum_append,add_assoc]
      simp) s (by simp) _

end Runs

/-- The bill of every policy is the floor of the trace and what the run had to learn again; it
meets the floor when no turn recomputes a block that was asked for before. -/
theorem coldStart_add_relearned (cfg : SimConfig F) (kind : PolicyKind F) (ram : TierConfig F)
    (turns : List (Turn F)) (n : ℕ) :
    let s := start cfg kind ram
    let again := ((s.visited turns n).map fun visit => visit.1.relearned visit.2).sum
    (s.after turns n).totalRecompute = coldStart cfg turns n+again ∧ 0 ≤ again ∧
      (again = 0 ↔ ∀ visit ∈ s.visited turns n, visit.1.forgotten visit.2 = []) := by
  intro s again
  have hnonneg : ∀ tokens ∈ (s.visited turns n).map fun visit => visit.1.relearned visit.2,
      0 ≤ tokens := by
    intro tokens htokens
    obtain ⟨visit,_,rfl⟩ := List.mem_map.mp htokens
    exact relearned_nonneg visit.2
  refine ⟨?_,List.sum_nonneg hnonneg,fun hsum visit hvisit => ?_,fun hnone => ?_⟩
  · have hstart : s.totalRecompute = 0 := rfl
    rw [totalRecompute_eq_sum,hstart,zero_add,coldStart_eq_sum cfg kind ram,← List.sum_map_add]
    refine congrArg List.sum (List.map_congr_left fun visit hvisit => ?_)
    exact recomputeTokens_eq_unseen_add visit.2 (visited_registered cfg kind ram turns n visit hvisit)
  · exact (relearned_eq_zero visit.2).mp
      (List.all_zero_of_le_zero_le_of_sum_eq_zero hnonneg hsum (List.mem_map_of_mem hvisit))
  · refine List.sum_eq_zero fun tokens htokens => ?_
    obtain ⟨visit,hvisit,rfl⟩ := List.mem_map.mp htokens
    exact (relearned_eq_zero visit.2).mpr (hnone visit hvisit)

end Simulator
end ContextResidency
