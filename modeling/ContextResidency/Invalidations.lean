import ContextResidency.Rollback
import ContextResidency.RoleReport

/-! What aborted turns discard. The invalidations of a report are settled by the trace and the
block size: an aborted turn files the blocks that the last turn of its session had beyond it. -/
namespace ContextResidency

variable {F : Type}

/-- The blocks that the prompt of a turn takes up, shared and private ones. -/
def Turn.blocks (blockTokens : ℤ) (turn : Turn F) : ℕ :=
  let shared := min turn.sharedPrefixTokens turn.promptTokens
  blockCount blockTokens shared+blockCount blockTokens (turn.promptTokens-shared)

def lastTurn (earlier : List (Turn F)) (sessionId : String) : Option (Turn F) :=
  (earlier.filter (·.sessionId = sessionId)).getLast?

/-- The blocks that a turn discards after the earlier ones. -/
def discarded (blockTokens : ℤ) (earlier : List (Turn F)) (turn : Turn F) : ℕ :=
  if turn.aborted then
    ((lastTurn earlier turn.sessionId).map (Turn.blocks blockTokens)).getD 0-turn.blocks blockTokens
  else 0

/-- Those of all turns, each after the ones before it. -/
def discards (blockTokens : ℤ) (turns : List (Turn F)) : ℕ :=
  ((visits (fun earlier turn => earlier ++ [turn]) [] turns).map fun visit =>
    discarded blockTokens visit.1 visit.2).sum

theorem discards_append (blockTokens : ℤ) (turns : List (Turn F)) (turn : Turn F) :
    discards blockTokens (turns ++ [turn]) =
      discards blockTokens turns+discarded blockTokens turns turn := by
  have hpast : turns.foldl (fun earlier turn => earlier ++ [turn]) [] = turns := by
    rw [List.foldl_append_eq_append,← List.flatMap_def,List.flatMap_singleton',List.nil_append]
  rw [discards,visits_append,hpast,List.map_append,List.sum_append]
  simp [discards,visits]

theorem lastTurn_append (earlier : List (Turn F)) (turn : Turn F) (sessionId : String) :
    lastTurn (earlier ++ [turn]) sessionId =
      if sessionId = turn.sessionId then some turn else lastTurn earlier sessionId := by
  rw [lastTurn,List.filter_append]
  by_cases h : turn.sessionId = sessionId
  · simp [h]
  · simp [h,Ne.symm h,lastTurn]

theorem segment_length {mk : ℤ → BlockKey} {shared : Bool} {blockTokens base tokens : ℤ} :
    (segment mk shared blockTokens base tokens).length = blockCount blockTokens tokens := by
  rw [segment,blockCount,List.length_append,List.length_map,List.length_range]
  split <;> rfl

namespace Simulator

theorem parts_length (s : Simulator F) (turn : Turn F) :
    (s.parts turn).length = turn.blocks s.index.blockTokens := by
  rw [parts,PrefixIndex.chain,List.length_append,segment_length,segment_length]
  rfl

theorem rolledBack_length (s : Simulator F) (turn : Turn F) : (s.rolledBack turn).length =
    if turn.aborted then
      ((s.index.sessionPath.get turn.sessionId).map List.length).getD 0-
        turn.blocks s.index.blockTokens
    else 0 := by
  have hlength : ((s.parts turn).map (·.key)).length = turn.blocks s.index.blockTokens := by
    rw [List.length_map,parts_length]
  have hold : ((s.index.sessionPath.get turn.sessionId).getD []).length =
      ((s.index.sessionPath.get turn.sessionId).map List.length).getD 0 := by
    cases s.index.sessionPath.get turn.sessionId <;> rfl
  rw [rolledBack,hlength,hold]
  by_cases haborted : turn.aborted
  · rw [if_pos haborted]
    split
    · rw [List.length_drop,hold]
    · rename_i hlong
      have hle := not_lt.mp fun h => hlong ⟨haborted,h⟩
      rw [List.length_nil,Nat.sub_eq_zero_of_le hle]
  · simp [haborted]

variable [Scalar F]

/-- The index remembers the path of the last turn of every session. -/
structure Remembers (blockTokens : ℤ) (earlier : List (Turn F)) (s : Simulator F) : Prop where
  size : s.index.blockTokens = blockTokens
  paths : ∀ sessionId, (s.index.sessionPath.get sessionId).map List.length =
    (lastTurn earlier sessionId).map (Turn.blocks blockTokens)
  filed : s.index.invalidations.length = discards blockTokens earlier

theorem Remembers.one {blockTokens : ℤ} {earlier : List (Turn F)} {s : Simulator F}
    (h : Remembers blockTokens earlier s) (sched : Schedule F) (turn : Turn F) :
    Remembers blockTokens (earlier ++ [turn]) (one sched s turn) := by
  constructor
  case size =>
    rw [one_index]
    exact (PrefixIndex.touchPath_blockTokens _ _ _ _ _ _ _).trans h.size
  case paths =>
    intro sessionId
    have hpath : (s.seenIndex turn).sessionPath =
        s.index.sessionPath.set turn.sessionId (s.path turn) :=
      PrefixIndex.touchPath_sessionPath _ _ _ _ _ _ _
    have hlength : (s.path turn).length = turn.blocks blockTokens := by
      rw [← h.size,← parts_length]
      exact List.length_map _
    rw [one_index,hpath,Dict.get_set,lastTurn_append]
    split
    · rw [Option.map_some,Option.map_some,hlength]
    · exact h.paths sessionId
  case filed =>
    rw [one_index,seenIndex_invalidations,List.length_append,h.filed,discards_append,
      rolledBack_length,h.paths,h.size]
    rfl

theorem exec_remembers (sched : Schedule F) (cfg : SimConfig F) (kind : PolicyKind F)
    (ram : TierConfig F) (turns : List (Turn F)) :
    Remembers (max 1 cfg.blockTokens) turns (exec sched (start cfg kind ram) turns) := by
  induction turns using List.reverseRecOn with
  | nil => exact ⟨rfl,fun _ => rfl,rfl⟩
  | append_singleton turns turn ih =>
    rw [exec_append]
    exact ih.one sched turn

end Simulator

open Simulator in
/-- The invalidations of a report are the discards of its trace, whatever the policy and the
tiers: closing the sessions adds none. -/
theorem runPolicy_invalidations [Scalar F] {cfg : SimConfig F} {turns : List (Turn F)}
    {name : String} {report : Report F} (h : runPolicy cfg turns name = .ok report) :
    report.invalidations = discards (max 1 cfg.blockTokens) (inOrder turns) := by
  obtain ⟨p,_,_,ram,_,rfl⟩ := runPolicy_eq_ok h
  exact (exec_remembers ((start cfg p.2 ram).schedule turns) cfg p.2 ram (inOrder turns)).filed

open Simulator in
/-- A session of two blocks aborts back to one, asks for both again and aborts back to none. -/
theorem runPolicy_invalidations_small :
    let turns := abortedSession ++ [{ ask 3 "a" 0 with aborted := true }]
    ∃ report, runPolicy (smallConfig 1000 2000) turns "lru" = .ok report ∧
      report.invalidations = 3 := by
  intro turns
  cases h : runPolicy (smallConfig 1000 2000) turns "lru" with
  | error e =>
    have hok : (runPolicy (smallConfig 1000 2000) turns "lru").toBool = true := by decide +kernel
    rw [h] at hok
    cases hok
  | ok report => exact ⟨report,rfl,(runPolicy_invalidations h).trans (by decide +kernel)⟩

end ContextResidency
