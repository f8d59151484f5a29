import ContextResidency.Closing

/-! What a policy can know. Every policy but the oracle is online: what its run has done by some
time is settled by the turns up to that time. -/
namespace ContextResidency

variable {F : Type} [Scalar F]

theorem inOrder_filter (turns : List (Turn F)) (c : F) :
    (inOrder turns).filter (·.t ≤ c) = inOrder (turns.filter (·.t ≤ c)) :=
  sortedBy_filter _ _ turns

theorem inOrder_upTo (turns : List (Turn F)) (c : F) :
    (inOrder turns).take (turns.filter (·.t ≤ c)).length = inOrder (turns.filter (·.t ≤ c)) := by
  have hprefix := filter_le_eq_take c (sortedBy_pairwise (fun turn : Turn F => turn.t) turns)
  have hlength : (inOrder (turns.filter (·.t ≤ c))).length = (turns.filter (·.t ≤ c)).length :=
    (sortedBy_perm _ _).length_eq
  rw [← inOrder_filter] at hlength ⊢
  rw [← hlength]
  exact hprefix.symm

theorem later_of_upTo (turns : List (Turn F)) (c : F) :
    ∀ turn ∈ (inOrder turns).drop (turns.filter (·.t ≤ c)).length, c < turn.t := by
  have hearly := inOrder_filter turns c
  have hwhole := congrArg (List.filter (·.t ≤ c))
    (List.take_append_drop (turns.filter (·.t ≤ c)).length (inOrder turns))
  rw [List.filter_append,inOrder_upTo,← hearly,List.filter_filter] at hwhole
  simp only [Bool.and_self] at hwhole
  intro turn hturn
  have hnone := List.filter_eq_nil_iff.mp (List.append_right_eq_self.mp hwhole) turn hturn
  simpa using hnone

namespace Simulator

/-- The oracle alone is given a schedule. -/
theorem schedule_eq_empty {s : Simulator F} (h : s.policy.kind ≠ .oracle) (turns : List (Turn F)) :
    s.schedule turns = .empty := by
  unfold schedule
  split
  · rename_i hkind
    exact absurd hkind h
  · rfl

/-- A run adds its measurements to those that it starts with, each at the time of a turn. -/
theorem exec_metrics_t (sched : Schedule F) (s : Simulator F) (turns : List (Turn F)) :
    ∃ later : List (TurnMetric F), (exec sched s turns).metrics = s.metrics ++ later ∧
      ∀ m ∈ later, ∃ turn ∈ turns, turn.t = m.t := by
  induction turns using List.reverseRecOn with
  | nil => exact ⟨[],(List.append_nil _).symm,List.forall_mem_nil _⟩
  | append_singleton turns turn ih =>
    obtain ⟨later,hmetrics,htimes⟩ := ih
    refine ⟨later ++ [(exec sched s turns).metric turn],?_,List.forall_mem_append.mpr ⟨?_,?_⟩⟩
    · rw [exec_append,one_metrics,hmetrics,List.append_assoc]
    · intro m hm
      obtain ⟨turn',hturn',ht⟩ := htimes m hm
      exact ⟨turn',List.mem_append_left _ hturn',ht⟩
    · exact List.forall_mem_singleton.mpr ⟨turn,by simp,rfl⟩

section Upto

variable (cfg : SimConfig F) {kind : PolicyKind F} (hkind : kind ≠ .oracle) (ram : TierConfig F)
  (turns : List (Turn F)) (c : F)
include hkind

theorem after_upTo : (start cfg kind ram).after turns (turns.filter (·.t ≤ c)).length =
    exec .empty (start cfg kind ram) (inOrder (turns.filter (·.t ≤ c))) := by
  rw [after,schedule_eq_empty (s := start cfg kind ram) hkind,inOrder_upTo]

theorem metrics_upTo : ((start cfg kind ram).after turns turns.length).metrics.filter (·.t ≤ c) =
    ((start cfg kind ram).after turns (turns.filter (·.t ≤ c)).length).metrics := by
  obtain ⟨later,hmetrics,htimes⟩ := exec_metrics_t .empty
    ((start cfg kind ram).after turns (turns.filter (·.t ≤ c)).length)
    ((inOrder turns).drop (turns.filter (·.t ≤ c)).length)
  obtain ⟨early,hearly,hupto⟩ := exec_metrics_t .empty (start cfg kind ram)
    (inOrder (turns.filter (·.t ≤ c)))
  have hlast : (start cfg kind ram).after turns turns.length =
      exec .empty ((start cfg kind ram).after turns (turns.filter (·.t ≤ c)).length)
        ((inOrder turns).drop (turns.filter (·.t ≤ c)).length) := by
    rw [after_upTo cfg hkind,← inOrder_upTo,exec,exec,← List.foldl_append,List.take_append_drop]
    rw [after_all,schedule_eq_empty (s := start cfg kind ram) hkind]
    rfl
  have hnone : later.filter (·.t ≤ c) = [] := by
    refine List.filter_eq_nil_iff.mpr fun m hm => ?_
    obtain ⟨turn,hturn,ht⟩ := htimes m hm
    have hlate := later_of_upTo turns c turn hturn
    simpa [← ht] using hlate
  have hall : early.filter (·.t ≤ c) = early := by
    refine List.filter_eq_self.mpr fun m hm => ?_
    obtain ⟨turn,hturn,ht⟩ := hupto m hm
    rw [← inOrder_filter] at hturn
    simpa [← ht] using (List.mem_filter.mp hturn).2
  have hstart : (start cfg kind ram).metrics = [] := rfl
  rw [hlast,hmetrics,List.filter_append,hnone,List.append_nil,after_upTo cfg hkind,hearly,hstart,
    List.nil_append,hall]

end Upto

/-- Two traces that agree up to a time have runs that agree up to then: the tiers, the index,
the servers and the counters are the same after the last turn by that time, and so is every
measurement by that time at the end. -/
theorem online (cfg : SimConfig F) {kind : PolicyKind F} (hkind : kind ≠ .oracle)
    (ram : TierConfig F) {turns turns' : List (Turn F)} (c : F)
    (h : turns.filter (·.t ≤ c) = turns'.filter (·.t ≤ c)) :
    (start cfg kind ram).after turns (turns.filter (·.t ≤ c)).length =
      (start cfg kind ram).after turns' (turns'.filter (·.t ≤ c)).length ∧
    ((start cfg kind ram).after turns turns.length).metrics.filter (·.t ≤ c) =
      ((start cfg kind ram).after turns' turns'.length).metrics.filter (·.t ≤ c) := by
  have hstate : (start cfg kind ram).after turns (turns.filter (·.t ≤ c)).length =
      (start cfg kind ram).after turns' (turns'.filter (·.t ≤ c)).length := by
    rw [after_upTo cfg hkind,after_upTo cfg hkind,h]
  refine ⟨hstate,?_⟩
  rw [metrics_upTo cfg hkind,metrics_upTo cfg hkind,hstate]

def askedAgain (sessionId : String) : List (Turn ℚ) :=
  [ask 1 "a" 1000,ask 2 "b" 1000,ask 3 "c" 1000,ask 4 sessionId 1000]

theorem online_small :
    (start (smallConfig 1000 2000) .lru (smallRam 2000)).after (askedAgain "a") 3 =
      (start (smallConfig 1000 2000) .lru (smallRam 2000)).after (askedAgain "b") 3 :=
  (online (smallConfig 1000 2000) (by simp) (smallRam 2000) 3
    (show (askedAgain "a").filter (·.t ≤ 3) = (askedAgain "b").filter (·.t ≤ 3) by
      norm_num [askedAgain,ask])).1

/-- The oracle keeps the block that the rest of the trace asks for. -/
example : ((start (smallConfig 1000 2000) .oracle (smallRam 2000)).after
      (askedAgain "a") 3).policy.entries.keys ≠
    ((start (smallConfig 1000 2000) .oracle (smallRam 2000)).after
      (askedAgain "b") 3).policy.entries.keys := by decide +kernel

end Simulator
end ContextResidency
