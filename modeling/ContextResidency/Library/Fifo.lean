import Mathlib.Data.List.Forall2
import Mathlib.Tactic

/-! A server that takes its jobs one after another, in the order in which they are
given, and never interrupts one. -/
namespace ContextResidency

/-- Work that a server may begin from some time on. -/
structure Job (T : Type) where
  ready : T
  work : T

/-- The interval in which a server works on a job. -/
structure Slot (T : Type) where
  start : T
  finish : T

variable {T : Type} [AddCommGroup T] [LinearOrder T] [IsOrderedAddMonoid T]

omit [AddCommGroup T] [IsOrderedAddMonoid T] in
/-- A job that is ready later and takes longer. -/
def Job.Le (a b : Job T) : Prop := a.ready ≤ b.ready ∧ a.work ≤ b.work

namespace Fifo

def serve (busy : T) (job : Job T) : Slot T := ⟨max job.ready busy,max job.ready busy+job.work⟩

/-- The intervals of a list of jobs, on a server that is busy until a given time. -/
def slots : T → List (Job T) → List (Slot T)
  | _, [] => []
  | busy, job::jobs => serve busy job::slots (serve busy job).finish jobs

theorem serve_finish_mono {busy busy' : T} {a b : Job T} (hbusy : busy ≤ busy') (hab : a.Le b) :
    (serve busy a).finish ≤ (serve busy' b).finish :=
  add_le_add (max_le_max hab.1 hbusy) hab.2

section Nonneg

variable {jobs : List (Job T)} (hwork : ∀ job ∈ jobs, 0 ≤ job.work)
include hwork

/-- The server is never asked to work before it is free. -/
theorem busy_le_slots (busy : T) :
    ∀ slot ∈ slots busy jobs, busy ≤ slot.start ∧ slot.start ≤ slot.finish := by
  induction jobs generalizing busy with
  | nil =>
    intro slot hslot
    cases hslot
  | cons job jobs ih =>
    rcases List.forall_mem_cons.mp hwork with ⟨hjob,hrest⟩
    have hlen : (serve busy job).start ≤ (serve busy job).finish := le_add_of_nonneg_right hjob
    intro slot hslot
    cases List.mem_cons.mp hslot with
    | inl h => exact h ▸ ⟨le_max_right _ _,hlen⟩
    | inr h =>
      rcases ih hrest _ slot h with ⟨hstart,hfinish⟩
      exact ⟨((le_max_right _ _).trans hlen).trans hstart,hfinish⟩

/-- The intervals are disjoint, and they come in the order of the jobs. -/
theorem slots_pairwise (busy : T) :
    (slots busy jobs).Pairwise fun a b => a.finish ≤ b.start := by
  induction jobs generalizing busy with
  | nil => exact .nil
  | cons job jobs ih =>
    rcases List.forall_mem_cons.mp hwork with ⟨-,hrest⟩
    exact .cons (fun slot hslot => (busy_le_slots hrest _ slot hslot).1) (ih hrest _)

end Nonneg

end Fifo

end ContextResidency
