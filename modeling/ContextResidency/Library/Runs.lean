import Mathlib.Data.List.Basic
import Mathlib.Tactic

/-! Runs of a deterministic step function over a list of inputs: invariants,
step conditions and simulations between two runs over the same inputs, and runs of a
step that may fail, with invariants that may speak of the inputs so far. -/
namespace ContextResidency

variable {σ τ α : Type}

/-- Every step of the run, taken from the state it starts in, meets a condition. -/
def Along (step : σ → α → σ) (Ok : σ → α → Prop) : σ → List α → Prop
  | _, [] => True
  | s, a::as => Ok s a ∧ Along step Ok (step s a) as

instance Along.decide (step : σ → α → σ) (Ok : σ → α → Prop) [∀ s a, Decidable (Ok s a)] :
    (s : σ) → (as : List α) → Decidable (Along step Ok s as)
  | _, [] => .isTrue trivial
  | s, a::as => @instDecidableAnd _ _ _ (Along.decide step Ok (step s a) as)

theorem along_of_forall {step : σ → α → σ} {Ok : σ → α → Prop} (h : ∀ s a, Ok s a) (s : σ)
    (as : List α) : Along step Ok s as := by
  induction as generalizing s with
  | nil => exact trivial
  | cons a as ih => exact ⟨h s a,ih (step s a)⟩

/-- An invariant that survives every step meeting the condition survives the run. -/
theorem run_invariant {step : σ → α → σ} {Ok : σ → α → Prop} {Inv : σ → Prop}
    (hstep : ∀ s a, Inv s → Ok s a → Inv (step s a)) {s : σ} {as : List α}
    (hok : Along step Ok s as) (hs : Inv s) : Inv (as.foldl step s) := by
  induction as generalizing s with
  | nil => exact hs
  | cons a as ih => exact ih hok.2 (hstep s a hs hok.1)

/-- Two runs over the same inputs stay related when every pair of steps does. -/
theorem run_simulation {step : σ → α → σ} {step' : τ → α → τ} {R : σ → τ → Prop}
    (hstep : ∀ s t a, R s t → R (step s a) (step' t a)) {s : σ} {t : τ} (hst : R s t)
    (as : List α) : R (as.foldl step s) (as.foldl step' t) :=
  List.foldl_rel hst fun a _ s t h => hstep s t a h

/-- The states of a run before each of its steps, with the inputs of the steps. -/
def visits (step : σ → α → σ) : σ → List α → List (σ × α)
  | _, [] => []
  | s, a::as => (s,a)::visits step (step s a) as

theorem visits_append (step : σ → α → σ) (s : σ) (as bs : List α) :
    visits step s (as ++ bs) = visits step s as ++ visits step (as.foldl step s) bs := by
  induction as generalizing s with
  | nil => rfl
  | cons a as ih => exact congrArg ((s,a)::·) (ih (step s a))

theorem visits_inputs (step : σ → α → σ) (s : σ) (as : List α) :
    (visits step s as).map Prod.snd = as := by
  induction as generalizing s with
  | nil => rfl
  | cons a as ih => exact congrArg (a::·) (ih (step s a))

/-- The visits of a run, seen through a map that the steps respect. -/
theorem visits_map {step : σ → α → σ} {step' : τ → α → τ} {f : σ → τ}
    (hstep : ∀ s a, f (step s a) = step' (f s) a) (s : σ) (as : List α) :
    (visits step s as).map (fun visit => (f visit.1,visit.2)) = visits step' (f s) as := by
  induction as generalizing s with
  | nil => rfl
  | cons a as ih =>
    rw [visits,visits,List.map_cons,ih,hstep]

/-- What every step keeps of the visits so far holds of those of a whole run. -/
theorem run_history {step : σ → α → σ} {Inv : List (σ × α) → σ → Prop}
    (hstep : ∀ past s a, Inv past s → Inv (past ++ [(s,a)]) (step s a)) {s : σ} (hs : Inv [] s)
    (as : List α) : Inv (visits step s as) (as.foldl step s) := by
  induction as using List.reverseRecOn with
  | nil => exact hs
  | append_singleton as a ih =>
    rw [visits_append,List.foldl_append]
    exact hstep _ _ a ih

/-- A symmetry of the steps is one of the runs: mapped inputs lead from a mapped state through
mapped states, and show the same on the way. -/
theorem run_symmetric {β : Type} {step : σ → α → σ} {Ok : σ → α → Prop} {Inv : σ → Prop}
    {f : σ → σ} {g : α → α} {o : σ → α → β}
    (hkeep : ∀ s a, Inv s → Ok s a → Inv (step s a))
    (hstep : ∀ s a, Inv s → step (f s) (g a) = f (step s a) ∧ o (f s) (g a) = o s a)
    {s : σ} {as : List α} (hok : Along step Ok s as) (hs : Inv s) :
    (visits step (f s) (as.map g)).map (fun visit => o visit.1 visit.2) =
        (visits step s as).map (fun visit => o visit.1 visit.2) ∧
      (as.map g).foldl step (f s) = f (as.foldl step s) := by
  induction as generalizing s with
  | nil => exact ⟨rfl,rfl⟩
  | cons a as ih =>
    obtain ⟨hstate,hout⟩ := hstep s a hs
    obtain ⟨hrest,hlast⟩ := ih hok.2 (hkeep s a hs hok.1)
    constructor
    · rw [List.map_cons,visits,visits,List.map_cons,List.map_cons,hout,hstate,hrest]
    · rw [List.map_cons,List.foldl_cons,List.foldl_cons,hstate,hlast]

/-- When every step from a state that agrees with the inputs so far succeeds and agrees with
one more of them, so does a whole run. -/
theorem runM_history {ε : Type} {step : σ → α → Except ε σ} {Inv : List α → σ → Prop}
    (hstep : ∀ past s a, Inv past s → ∃ t, step s a = .ok t ∧ Inv (past ++ [a]) t)
    {past : List α} {s : σ} (hs : Inv past s) (as : List α) :
    ∃ t, as.foldlM step s = .ok t ∧ Inv (past ++ as) t := by
  induction as generalizing past s with
  | nil => exact ⟨s,rfl,by rwa [List.append_nil]⟩
  | cons a as ih =>
    obtain ⟨next,hnext,hinv⟩ := hstep past s a hs
    obtain ⟨t,ht,hlast⟩ := ih hinv
    refine ⟨t,?_,by rwa [List.append_assoc] at hlast⟩
    rw [List.foldlM_cons,hnext]
    exact ht

theorem runM_invariant {ε : Type} {step : σ → α → Except ε σ} {Inv : σ → Prop}
    (hstep : ∀ s a, Inv s → ∃ t, step s a = .ok t ∧ Inv t) {s : σ} (hs : Inv s) (as : List α) :
    ∃ t, as.foldlM step s = .ok t ∧ Inv t :=
  @runM_history _ _ _ step (fun _ => Inv) (fun _ => hstep) [] s hs as

theorem runM_of_ok {ε : Type} {step : σ → α → Except ε σ} {Inv : List α → σ → Prop}
    (hstep : ∀ past s a t, Inv past s → step s a = .ok t → Inv (past ++ [a]) t)
    {past : List α} {s t : σ} (hs : Inv past s) {as : List α} (h : as.foldlM step s = .ok t) :
    Inv (past ++ as) t := by
  induction as generalizing past s with
  | nil =>
    cases h
    rwa [List.append_nil]
  | cons a as ih =>
    rw [List.foldlM_cons] at h
    cases hnext : step s a with
    | error e =>
      rw [hnext] at h
      cases h
    | ok next =>
      rw [hnext] at h
      have hlast := ih (hstep past s a next hs hnext) h
      rwa [List.append_assoc] at hlast

theorem foldlM_append_eq_ok {ε : Type} {step : σ → α → Except ε σ} {as bs : List α} {s t : σ} :
    (as ++ bs).foldlM step s = .ok t ↔
      ∃ mid, as.foldlM step s = .ok mid ∧ bs.foldlM step mid = .ok t := by
  rw [List.foldlM_append]
  cases as.foldlM step s <;> simp [bind,Except.bind]

/-- Inputs that never change the state can be left out. -/
theorem foldlM_filter_of_skip {ε : Type} {step : σ → α → Except ε σ} {P : α → Bool} {as : List α}
    (h : ∀ a ∈ as, P a = false → ∀ s, step s a = .ok s) (s : σ) :
    (as.filter P).foldlM step s = as.foldlM step s := by
  induction as generalizing s with
  | nil => rfl
  | cons a as ih =>
    rcases List.forall_mem_cons.mp h with ⟨ha,has⟩
    rw [List.foldlM_cons]
    cases hp : P a with
    | false =>
      rw [List.filter_cons_of_neg (by simp [hp]),ha hp s]
      exact ih has s
    | true =>
      rw [List.filter_cons_of_pos hp,List.foldlM_cons]
      exact congrArg _ (funext fun next => ih has next)

/-- `for k in range(first, first+n)`, left after the body where the state asks to stop. -/
def forUntil (body : ℕ → σ → σ) (Stop : σ → Prop) [DecidablePred Stop] : ℕ → ℕ → σ → σ
  | 0, _, s => s
  | n+1, first, s =>
    let next := body first s
    if Stop next then next else forUntil body Stop n (first+1) next

/-- When the states of the loop are known and go on asking to stop, so is how far it goes. -/
theorem forUntil_states {body : ℕ → σ → σ} {Stop : σ → Prop} [DecidablePred Stop] {state : ℕ → σ}
    (hbody : ∀ k, body k (state k) = state (k+1)) (hstop : ∀ k, Stop (state k) → Stop (state (k+1)))
    (n first : ℕ) : ∃ m, forUntil body Stop n first (state first) = state (first+m) ∧
      ∀ k, k < m ↔ k < n ∧ (k = 0 ∨ ¬ Stop (state (first+k))) := by
  induction n generalizing first with
  | zero => exact ⟨0,rfl,by simp⟩
  | succ n ih =>
    simp only [forUntil,hbody]
    by_cases hleft : Stop (state (first+1))
    · rw [if_pos hleft]
      have hlater : ∀ k, Stop (state (first+1+k)) := by
        intro k
        induction k with
        | zero => exact hleft
        | succ k ih => exact hstop _ ih
      refine ⟨1,rfl,fun k => ?_⟩
      cases k with
      | zero => simp
      | succ k =>
        have hk := hlater k
        rw [Nat.add_right_comm first 1 k] at hk
        simp [← Nat.add_assoc,hk]
    · rw [if_neg hleft]
      rcases ih (first+1) with ⟨m,hm,hcount⟩
      refine ⟨m+1,by rw [hm,Nat.add_assoc,Nat.add_comm 1],fun k => ?_⟩
      cases k with
      | zero => simp
      | succ k =>
        rw [Nat.add_lt_add_iff_right,hcount k,Nat.add_lt_add_iff_right,Nat.add_right_comm first 1 k]
        cases k with
        | zero => simp [hleft]
        | succ k => simp [← Nat.add_assoc]

theorem forUntil_invariant {body : ℕ → σ → σ} {Stop : σ → Prop} [DecidablePred Stop]
    {Inv : σ → Prop} (hbody : ∀ k s, Inv s → Inv (body k s)) {s : σ} (hs : Inv s) (n first : ℕ) :
    Inv (forUntil body Stop n first s) := by
  induction n generalizing first s with
  | zero => exact hs
  | succ n ih =>
    simp only [forUntil]
    split_ifs
    · exact hbody first s hs
    · exact ih (hbody first s hs) (first+1)

end ContextResidency
