import ContextResidency.SyntheticMix

/-! Which turns of the generated coding sessions are flagged as aborted. A rollback flags the
turn before it and shortens the prompt of the turn after it, so a session announces the rollback
where it shows only when the next turn rolls back too. -/
namespace ContextResidency

variable {F : Type} [Scalar F]

theorem uniform_nonneg {low high : F} (hlow : 0 ≤ low) (hle : low ≤ high) (u : UnitDraw F) :
    0 ≤ uniform low high u := add_nonneg hlow (mul_nonneg (sub_nonneg.mpr hle) u.2.1)

theorem le_uniform {low high : F} (hle : low ≤ high) (u : UnitDraw F) : low ≤ uniform low high u :=
  le_add_of_nonneg_right (mul_nonneg (sub_nonneg.mpr hle) u.2.1)

/-- Times that are a second apart stay in order when they are rounded. -/
theorem roundMillis_le {x y : F} (h : x+1 ≤ y) : roundMillis x ≤ roundMillis y := by
  have hx := (abs_le.mp (abs_roundHalfEven_sub_le (1000*x))).2
  have hy := (abs_le.mp (abs_roundHalfEven_sub_le (1000*y))).1
  unfold roundMillis
  gcongr ?_/1000
  linarith

/-- By how much a turn moves the context. -/
def CodingTurnDraws.change (args : MixArgs F) (d : CodingTurnDraws F) : F :=
  d.grown args-if d.Aborts then d.rolledBack else 0

/-- Turns that add tokens take the context down only where they abort. -/
def CodingTurnDraws.MayShrink (args : MixArgs F) (d : CodingTurnDraws F) : Prop :=
  args.codingTurnTokens < 0 ∨ d.Aborts

namespace CodingDraws

variable {args : MixArgs F} {i : ℕ}

def context (args : MixArgs F) (d : CodingDraws F) (k : ℕ) : F :=
  d.startContext args+∑ j ∈ Finset.range k, (d.turn j).change args

def clock (args : MixArgs F) (d : CodingDraws F) (k : ℕ) : F :=
  d.startS args+∑ j ∈ Finset.range k, ((d.turn j).gapS+(d.turn j).pauseS)

def turnAt (args : MixArgs F) (i : ℕ) (d : CodingDraws F) (k : ℕ) : Turn F where
  t := roundMillis (d.clock args k)
  sessionId := codingId i
  role := "supervisor"
  promptTokens := truncate (d.context args k)
  completionTokens := (d.turn k).completionTokens
  sharedPrefixTokens := args.sharedRootTokens
  toolEtaS := if k = 0 then none else some (roundMillis (d.turn k).gapS)
  aborted := decide (d.turn k).Aborts

def state (args : MixArgs F) (i : ℕ) (d : CodingDraws F) (k : ℕ) : Coding F where
  turns := (List.range k).map (d.turnAt args i)
  t := d.clock args k
  ctx := d.context args k

theorem context_succ (d : CodingDraws F) (k : ℕ) :
    d.context args (k+1) = d.context args k+(d.turn k).change args := by
  rw [context,context,Finset.sum_range_succ,← add_assoc]

theorem clock_succ (d : CodingDraws F) (k : ℕ) :
    d.clock args (k+1) = d.clock args k+((d.turn k).gapS+(d.turn k).pauseS) := by
  rw [clock,clock,Finset.sum_range_succ,add_assoc]

theorem codingStep_state (d : CodingDraws F) (k : ℕ) :
    codingStep args (codingId i) (d.turn k) k (d.state args i k) = d.state args i (k+1) := by
  unfold codingStep state
  rw [List.range_succ,List.map_append,List.map_singleton,context_succ,clock_succ]
  by_cases habort : (d.turn k).Aborts
  · rw [if_pos habort,List.modifyLast_concat]
    simp only [turnAt,CodingTurnDraws.change,habort,decide_true,if_true,add_sub_assoc]
  · rw [if_neg habort]
    simp only [turnAt,CodingTurnDraws.change,habort,decide_false,if_false,sub_zero]

theorem gapS_pos (d : CodingTurnDraws F) : 0 < d.gapS := by
  refine mul_pos ?_ d.gap.2
  split_ifs <;> norm_num

theorem clock_le (d : CodingDraws F) (k : ℕ) : d.clock args k+1 ≤ d.clock args (k+1) := by
  have hgap := gapS_pos (d.turn k)
  have hpause : 1 ≤ (d.turn k).pauseS := le_uniform (by norm_num) _
  rw [clock_succ]
  linarith

theorem clock_lt {d : CodingDraws F} {j k : ℕ} (h : j < k) :
    d.clock args j+1 ≤ d.clock args k := by
  induction h with
  | refl => exact d.clock_le j
  | step h ih => exact (ih.trans (le_add_of_nonneg_right zero_le_one)).trans (d.clock_le _)

theorem codingSession_eq (args : MixArgs F) (i : ℕ) (d : CodingDraws F) :
    ∃ m, codingSession args i d = (List.range m).map (d.turnAt args i) ∧
      ∀ k, k < m ↔ k < d.turnCount ∧ (k = 0 ∨ d.clock args k ≤ args.horizonS) := by
  have hstop : ∀ k, args.horizonS < (d.state args i k).t →
      args.horizonS < (d.state args i (k+1)).t := fun k hk =>
    hk.trans_le ((le_add_of_nonneg_right zero_le_one).trans (d.clock_le k))
  rcases @forUntil_states (Coding F) _ (fun s => args.horizonS < s.t) _ _ (codingStep_state d) hstop
    d.turnCount 0 with ⟨m,hm,hcount⟩
  refine ⟨m,?_,fun k => ?_⟩
  · have hstart : d.state args i 0 = { t := d.startS args, ctx := d.startContext args } := by
      simp [state,clock,context]
    rw [hstart] at hm
    rw [codingSession,hm,Nat.zero_add]
    rfl
  · simpa [state] using hcount k

theorem pairwise_codingSession (args : MixArgs F) (i : ℕ) (d : CodingDraws F) :
    (codingSession args i d).Pairwise fun a b => a.t ≤ b.t := by
  rcases codingSession_eq args i d with ⟨m,hm,-⟩
  rw [hm,List.pairwise_map]
  exact List.pairwise_lt_range.imp fun h => roundMillis_le (clock_lt h)

/-- Whenever a rollback outweighs the growth of its turn and the session goes on within the
horizon, the next turn rolls back too. -/
def RollbacksRecur (args : MixArgs F) (d : CodingDraws F) : Prop :=
  ∀ k, k+1 < d.turnCount → d.clock args (k+1) ≤ args.horizonS → (d.turn k).MayShrink args →
    truncate (d.context args (k+1)) < truncate (d.context args k) → (d.turn (k+1)).Aborts

theorem mayShrink_of_context_lt {d : CodingDraws F} {k : ℕ}
    (h : truncate (d.context args (k+1)) < truncate (d.context args k)) :
    (d.turn k).MayShrink args := by
  by_contra hstays
  rcases not_or.mp hstays with ⟨hturn,habort⟩
  refine absurd h (not_lt.mpr (truncate_mono ?_))
  rw [context_succ,CodingTurnDraws.change,if_neg habort,sub_zero]
  apply le_add_of_nonneg_right
  exact mul_nonneg (Int.cast_nonneg (not_lt.mp hturn))
    (uniform_nonneg (by norm_num) (by norm_num) _)

end CodingDraws

/-- Every turn with fewer prompt tokens than the turn before it is flagged. -/
def FlagsRollbacks (turns : List (Turn F)) : Prop :=
  turns.IsChain fun a b => b.promptTokens < a.promptTokens → b.aborted = true

instance (turns : List (Turn F)) : Decidable (FlagsRollbacks turns) :=
  inferInstanceAs (Decidable (List.IsChain _ _))

/-- A session flags its rollbacks where they show exactly when each is followed by another. -/
theorem flagsRollbacks_codingSession {args : MixArgs F} {i : ℕ} {d : CodingDraws F} :
    FlagsRollbacks (codingSession args i d) ↔ d.RollbacksRecur args := by
  rcases CodingDraws.codingSession_eq args i d with ⟨m,hm,hcount⟩
  rw [FlagsRollbacks,hm,List.isChain_map,List.isChain_iff_getElem]
  simp only [List.length_range,List.getElem_range]
  constructor
  · rintro h k hk hclock - hfall
    have hflag := h k ((hcount (k+1)).mpr ⟨hk,Or.inr hclock⟩) hfall
    exact of_decide_eq_true hflag
  · intro h k hk hfall
    rcases (hcount (k+1)).mp hk with ⟨hk,hzero | hclock⟩
    · cases hzero
    · exact decide_eq_true (h k hk hclock (CodingDraws.mayShrink_of_context_lt hfall) hfall)

/-- The flag stands on the turn before the one whose prompt is shorter. -/
theorem aborted_before_codingSession {args : MixArgs F} (hturn : 0 ≤ args.codingTurnTokens)
    (i : ℕ) (d : CodingDraws F) : (codingSession args i d).IsChain
      fun a b => b.promptTokens < a.promptTokens → a.aborted = true := by
  rcases CodingDraws.codingSession_eq args i d with ⟨m,hm,-⟩
  rw [hm,List.isChain_map,List.isChain_iff_getElem]
  simp only [List.length_range,List.getElem_range]
  refine fun k _ hfall => decide_eq_true ?_
  exact (CodingDraws.mayShrink_of_context_lt hfall).resolve_left hturn.not_gt

theorem sessionId_codingSession {args : MixArgs F} {i : ℕ} {d : CodingDraws F} {turn : Turn F}
    (hturn : turn ∈ codingSession args i d) : turn.sessionId = codingId i := by
  rcases CodingDraws.codingSession_eq args i d with ⟨m,hm,-⟩
  rw [hm] at hturn
  rcases List.mem_map.mp hturn with ⟨k,-,rfl⟩
  rfl

theorem CallKind.sessionId_turns {kind : CallKind F} {sid : String} {d : ℕ → CallDraws F}
    {Stop : Generating F → Prop} [DecidablePred Stop] {n : ℕ} {t : F} {turn : Turn F}
    (hturn : turn ∈ (forUntil (fun k => kind.step sid (d k) k) Stop n 0 { t := t }).turns) :
    turn.sessionId = sid := by
  refine @forUntil_invariant (Generating F) _ _ _ (fun s => ∀ turn ∈ s.turns, turn.sessionId = sid)
    ?_ _ ?_ n 0 turn hturn
  · intro k s hs turn hturn
    cases List.mem_append.mp hturn with
    | inl hturn => exact hs turn hturn
    | inr hturn =>
      rw [List.mem_singleton.mp hturn]
  · intro turn hturn
    cases hturn

omit [Scalar F] in
theorem filter_other {name : String} {c : Char} (hname : name.toList.head? = some c) (hc : c ≠ 'c')
    {session : ℕ → List (Turn F)}
    (hsession : ∀ j, ∀ turn ∈ session j, turn.sessionId = name ++ toString j) (i n : ℕ) :
    ((List.range n).flatMap session).filter (fun turn => turn.sessionId = codingId i) = [] := by
  refine List.filter_eq_nil_iff.mpr fun turn hturn => ?_
  rcases List.mem_flatMap.mp hturn with ⟨j,-,hturn⟩
  rw [decide_eq_true_iff,hsession j turn hturn]
  exact append_ne_append hname rfl hc _ _

/-- When the numbers but one lead to nothing, the lists are joined to the list of that one. -/
theorem flatMap_range_eq {α : Type} {f : ℕ → List α} {n i : ℕ} (hi : i < n)
    (hf : ∀ j, j ≠ i → f j = []) : (List.range n).flatMap f = f i := by
  induction n with
  | zero => exact absurd hi (Nat.not_lt_zero i)
  | succ n ih =>
    rw [List.range_succ,List.flatMap_append,List.flatMap_singleton]
    cases Nat.lt_succ_iff_lt_or_eq.mp hi with
    | inl hi => rw [ih hi,hf n hi.ne',List.append_nil]
    | inr hi =>
      subst hi
      rw [List.append_left_eq_self,List.flatMap_eq_nil_iff]
      exact fun j hj => hf j (List.mem_range.mp hj).ne

theorem filter_codingSession (args : MixArgs F) (i j : ℕ) (d : CodingDraws F) :
    (codingSession args j d).filter (fun turn => turn.sessionId = codingId i) =
      if j = i then codingSession args j d else [] := by
  split_ifs with hj
  · subst hj
    exact List.filter_eq_self.mpr fun turn hturn => by simp [sessionId_codingSession hturn]
  · refine List.filter_eq_nil_iff.mpr fun turn hturn => ?_
    simp [sessionId_codingSession hturn,codingId,hj]

theorem filter_syntheticMix (args : MixArgs F) (draws : MixDraws F) {i : ℕ}
    (hi : (i : ℤ) < args.codingSessions) :
    ((syntheticMix args draws).filter fun turn => turn.sessionId = codingId i) =
      codingSession args i (draws.coding i) := by
  have hpatient := @filter_other F "patient-" 'p' rfl (by decide)
    (fun i => patientSession args i (draws.patient i))
    (fun j turn hturn => CallKind.sessionId_turns hturn) i args.patientSessions.toNat
  have hreviewer := @filter_other F "reviewer-" 'r' rfl (by decide)
    (fun i => reviewerSession args i (draws.reviewer i))
    (fun j turn hturn => CallKind.sessionId_turns hturn) i 4
  have hsame : ((List.range args.codingSessions.toNat).flatMap
      (fun i => codingSession args i (draws.coding i)) ++
    (List.range args.patientSessions.toNat).flatMap
      (fun i => patientSession args i (draws.patient i)) ++
    (List.range 4).flatMap (fun i => reviewerSession args i (draws.reviewer i))).filter
      (fun turn => turn.sessionId = codingId i) = codingSession args i (draws.coding i) := by
    rw [List.filter_append,List.filter_append,hpatient,hreviewer,List.append_nil,List.append_nil,
      List.filter_flatMap]
    simp only [filter_codingSession]
    rw [flatMap_range_eq (Int.lt_toNat.mpr hi) fun j hj => if_neg hj,if_pos rfl]
  rw [syntheticMix,inOrder,filter_sortedBy,hsame]
  rw [hsame]
  exact CodingDraws.pairwise_codingSession args i _

/-- The coding sessions of the mix flag their rollbacks where they show exactly when in each of
them a rollback that shows is followed by another rollback. -/
theorem flagsRollbacks_syntheticMix (args : MixArgs F) (draws : MixDraws F) :
    (∀ i : ℕ, (i : ℤ) < args.codingSessions → FlagsRollbacks
      ((syntheticMix args draws).filter fun turn => turn.sessionId = codingId i)) ↔
    ∀ i : ℕ, (i : ℤ) < args.codingSessions → (draws.coding i).RollbacksRecur args := by
  constructor
  · intro h i hi
    have hflags := h i hi
    rw [filter_syntheticMix args draws hi] at hflags
    exact flagsRollbacks_codingSession.mp hflags
  · intro h i hi
    rw [filter_syntheticMix args draws hi]
    exact flagsRollbacks_codingSession.mpr (h i hi)

/-- Every draw at the low end of its range and every pause of median length. -/
def lowDraws (abort : ℕ → UnitDraw ℚ) : MixDraws ℚ :=
  let zero : UnitDraw ℚ := ⟨0,by norm_num⟩
  let one : Factor ℚ := ⟨1,by norm_num⟩
  let call : CallDraws ℚ := ⟨zero,zero,one,one⟩
  { coding := fun _ => ⟨zero,zero,zero,fun k => ⟨zero,one,zero,zero,abort k,zero,zero⟩⟩
    patient := fun _ => ⟨zero,zero,fun _ => call⟩
    reviewer := fun _ => ⟨zero,fun _ => call⟩ }

def abortOnce : MixDraws ℚ :=
  lowDraws fun k => if k = 0 then ⟨0,by norm_num⟩ else ⟨1/2,by norm_num⟩

/-- A rollback after the first turn shows on the second turn, which is not flagged. -/
theorem not_flagsRollbacks_abortOnce : ¬ ∀ i : ℕ, (i : ℤ) < ({} : MixArgs ℚ).codingSessions →
    FlagsRollbacks
      ((syntheticMix {} abortOnce).filter fun turn => turn.sessionId = codingId i) := by
  intro h
  have hflags := h 0 (by decide)
  rw [filter_syntheticMix {} abortOnce (by decide)] at hflags
  revert hflags
  decide +kernel

end ContextResidency
