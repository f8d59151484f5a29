import ContextResidency.Trace
import ContextResidency.Library.Labels
import ContextResidency.Library.Runs

/-! The generator of mixed workloads: long coding sessions, short patient sessions and a few
reviewer calls on one engine. What the random generator draws is an input, one draw for each
place where the source draws. -/
namespace ContextResidency

variable {F : Type} [Scalar F]

/-- `rng.random()` -/
def UnitDraw (F : Type) [Scalar F] := {u : F // 0 ≤ u ∧ u < 1}

/-- `math.exp(rng.gauss(0.0, sigma))`: any positive number, whatever `sigma` is. -/
def Factor (F : Type) [Scalar F] := {x : F // 0 < x}

/-- `rng.uniform(low, high)` -/
def uniform (low high : F) (u : UnitDraw F) : F := low+(high-low)*u.val

def lognormal (median : F) (factor : Factor F) : F := median*factor.val

/-- `round(x, 3)` -/
def roundMillis (x : F) : F := (roundHalfEven (1000*x) : F)/1000

/-- The arguments of the generator. The seed is in the draws. -/
structure MixArgs (F : Type) [Scalar F] where
  horizonS : F := 1800
  codingSessions : ℤ := 12
  patientSessions : ℤ := 20
  sharedRootTokens : ℤ := 320000
  codingTurnTokens : ℤ := 2200

/-- What is drawn for one turn of a coding session. The size of a rollback counts only when the
turn aborts. -/
structure CodingTurnDraws (F : Type) [Scalar F] where
  longTool : UnitDraw F
  gap : Factor F
  completion : UnitDraw F
  growth : UnitDraw F
  abort : UnitDraw F
  rollback : UnitDraw F
  pause : UnitDraw F

structure CodingDraws (F : Type) [Scalar F] where
  start : UnitDraw F
  tail : UnitDraw F
  count : UnitDraw F
  turn : ℕ → CodingTurnDraws F

/-- What is drawn for one turn of a patient or a reviewer. -/
structure CallDraws (F : Type) [Scalar F] where
  prompt : UnitDraw F
  completion : UnitDraw F
  eta : Factor F
  gap : Factor F

structure PatientDraws (F : Type) [Scalar F] where
  start : UnitDraw F
  count : UnitDraw F
  turn : ℕ → CallDraws F

structure ReviewerDraws (F : Type) [Scalar F] where
  start : UnitDraw F
  turn : ℕ → CallDraws F

structure MixDraws (F : Type) [Scalar F] where
  coding : ℕ → CodingDraws F
  patient : ℕ → PatientDraws F
  reviewer : ℕ → ReviewerDraws F

structure Generating (F : Type) where
  turns : List (Turn F) := []
  t : F

/-- A coding session while it is generated, with its context. -/
structure Coding (F : Type) extends Generating F where
  ctx : F

def CodingTurnDraws.Aborts (d : CodingTurnDraws F) : Prop := d.abort.val < 6/100

instance (d : CodingTurnDraws F) : Decidable d.Aborts := inferInstanceAs (Decidable (_ < _))

def CodingTurnDraws.gapS (d : CodingTurnDraws F) : F :=
  lognormal (if d.longTool.val < 18/100 then 150 else 9) d.gap

def CodingTurnDraws.completionTokens (d : CodingTurnDraws F) : ℤ :=
  truncate (uniform 120 1400 d.completion)

def CodingTurnDraws.grown (args : MixArgs F) (d : CodingTurnDraws F) : F :=
  args.codingTurnTokens*uniform (2/5) (9/5) d.growth

def CodingTurnDraws.rolledBack (d : CodingTurnDraws F) : F := uniform 2000 9000 d.rollback

def CodingTurnDraws.pauseS (d : CodingTurnDraws F) : F := uniform 1 6 d.pause

/-- The body of the loop over the turns of a coding session. The turn is appended before the
context moves, and an abort flags the turn that is already there. -/
def codingStep (args : MixArgs F) (sid : String) (d : CodingTurnDraws F) (k : ℕ) (s : Coding F) :
    Coding F :=
  let appended := s.turns ++ [{
    t := roundMillis s.t
    sessionId := sid
    role := "supervisor"
    promptTokens := truncate s.ctx
    completionTokens := d.completionTokens
    sharedPrefixTokens := args.sharedRootTokens
    toolEtaS := if k = 0 then none else some (roundMillis d.gapS) }]
  let ctx := s.ctx+d.grown args
  let t := s.t+(d.gapS+d.pauseS)
  if d.Aborts then
    { turns := appended.modifyLast fun turn => { turn with aborted := true }
      ctx := ctx-d.rolledBack
      t := t }
  else { turns := appended, ctx := ctx, t := t }

def CodingDraws.turnCount (d : CodingDraws F) : ℕ := (truncate (uniform 18 55 d.count)).toNat

def CodingDraws.startS (args : MixArgs F) (d : CodingDraws F) : F :=
  uniform 0 (args.horizonS*(3/5)) d.start

/-- Everyone starts from the same prefix and then accumulates a private tail on top of it. -/
def CodingDraws.startContext (args : MixArgs F) (d : CodingDraws F) : F :=
  args.sharedRootTokens+uniform 20000 120000 d.tail

def codingId (i : ℕ) : String := "code-" ++ toString i

def codingSession (args : MixArgs F) (i : ℕ) (d : CodingDraws F) : List (Turn F) :=
  let start : Coding F := { t := d.startS args, ctx := d.startContext args }
  (forUntil (fun k => codingStep args (codingId i) (d.turn k) k) (fun s => args.horizonS < s.t)
    d.turnCount 0 start).turns

/-- What sets apart the sessions of patients and reviewers. -/
structure CallKind (F : Type) where
  role : String
  prompt : F × F
  completion : F × F
  sharedPrefixTokens : ℤ
  etaMedian : F
  sloClass : String
  gapMedian : F

def patient : CallKind F where
  role := "patient"
  prompt := (3500,5000)
  completion := (80,512)
  sharedPrefixTokens := 4000
  etaMedian := 25
  sloClass := "interactive"
  gapMedian := 55

def reviewer : CallKind F where
  role := "reviewer"
  prompt := (28000,46000)
  completion := (800,2048)
  sharedPrefixTokens := 12000
  etaMedian := 400
  sloClass := "batch"
  gapMedian := 600

/-- The body of the loop over the turns of a patient or a reviewer. -/
def CallKind.step (kind : CallKind F) (sid : String) (d : CallDraws F) (k : ℕ)
    (s : Generating F) : Generating F where
  turns := s.turns ++ [{
    t := roundMillis s.t
    sessionId := sid
    role := kind.role
    promptTokens := truncate (uniform kind.prompt.1 kind.prompt.2 d.prompt)
    completionTokens := truncate (uniform kind.completion.1 kind.completion.2 d.completion)
    sharedPrefixTokens := kind.sharedPrefixTokens
    toolEtaS := if k = 0 then none else some (roundMillis (lognormal kind.etaMedian d.eta))
    sloClass := kind.sloClass }]
  t := s.t+lognormal kind.gapMedian d.gap

def patientSession (args : MixArgs F) (i : ℕ) (d : PatientDraws F) : List (Turn F) :=
  (forUntil (fun k => patient.step ("patient-" ++ toString i) (d.turn k) k)
    (fun s => args.horizonS < s.t) (truncate (uniform 6 14 d.count)).toNat 0
    { t := uniform 0 (args.horizonS*(17/20)) d.start }).turns

/-- The six calls of a reviewer go on past the horizon. -/
def reviewerSession (args : MixArgs F) (i : ℕ) (d : ReviewerDraws F) : List (Turn F) :=
  (forUntil (fun k => reviewer.step ("reviewer-" ++ toString i) (d.turn k) k) (fun _ => False) 6 0
    { t := uniform 0 (args.horizonS*(7/10)) d.start }).turns

def syntheticMix (args : MixArgs F) (draws : MixDraws F) : List (Turn F) :=
  inOrder ((List.range args.codingSessions.toNat).flatMap
      (fun i => codingSession args i (draws.coding i)) ++
    (List.range args.patientSessions.toNat).flatMap
      (fun i => patientSession args i (draws.patient i)) ++
    (List.range 4).flatMap (fun i => reviewerSession args i (draws.reviewer i)))

end ContextResidency
