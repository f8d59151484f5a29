import ContextResidency.Trace
import ContextResidency.Library.Json

/-! The loader of agent transcripts: one JSON record a line, of which the assistant
messages with a usage and a timestamp become turns. How a line decodes, how a timestamp
parses and how text reads as an integer is left to the libraries that do it. -/
namespace ContextResidency

/-- A point in time: what a clock shows, and its offset from UTC unless it is naive. -/
structure Datetime (F : Type) where
  clock : F
  offset : Option F

/-- What the loader asks of its libraries: a decoded line unless the line is no JSON, and a
point in time or an integer unless the text is ill-formed. -/
structure Decoders (F : Type) where
  loads : String → Option (Json F)
  fromisoformat : String → Option (Datetime F)
  int : String → Option ℤ

/-- The arguments of the loader. Only the stem of the path is used. -/
structure LoadArgs where
  stem : String
  role : String := "supervisor"
  sharedPrefixTokens : ℤ := 0

/-- What the loader carries from line to line. -/
structure Loading (F : Type) where
  out : List (Turn F) := []
  prev : Option (ℤ × ℤ) := none
  prevT : Option F := none
  t0 : Option (Datetime F) := none

variable {F : Type} [Scalar F]

/-- `(dt - origin).total_seconds()`, unless only one of the two has an offset. -/
def Datetime.since (dt origin : Datetime F) : Option F :=
  match dt.offset, origin.offset with
  | none, none => some (dt.clock-origin.clock)
  | some offset, some offset' => some ((dt.clock-offset)-(origin.clock-offset'))
  | _, _ => none

/-- The usage of an assistant record, when it has one that is not empty. -/
def usageOf (record : Fields F) : Option (Json F) :=
  match record.field "type", record.field "message" with
  | some (.str "assistant"), some (.obj message) => (Fields.field message "usage").filter Json.truthy
  | _, _ => none

def timestampOf (record : Fields F) : Option (Json F) :=
  (record.field "timestamp").filter Json.truthy

namespace Decoders

/-- The time and the usage that a record reports. A timestamp that is no text raises. -/
def stamped (d : Decoders F) (record : Fields F) :
    Except UseError (Option (Datetime F × Json F)) :=
  match usageOf record with
  | none => .ok none
  | some usage =>
    match timestampOf record with
    | none => .ok none
    | some (.str ts) =>
      .ok ((d.fromisoformat (ts.replace "Z" "+00:00")).map fun dt => (dt,usage))
    | some _ => .error .attributeError

/-- What a line reports. Anything but an object raises. -/
def reported (d : Decoders F) (line : String) : Except UseError (Option (Datetime F × Json F)) :=
  match d.loads line with
  | none => .ok none
  | some (.obj record) => d.stamped record
  | some _ => .error .attributeError

/-- `int(usage.get(name) or 0)` -/
def count (d : Decoders F) (usage : Fields F) (name : String) : Except UseError ℤ :=
  match (usage.field name).filter Json.truthy with
  | none => .ok 0
  | some v => v.toInt d.int truncate

def counts (d : Decoders F) : Json F → Except UseError (ℤ × ℤ)
  | .obj usage =>
    match d.count usage "input_tokens" with
    | .error e => .error e
    | .ok prompt => (d.count usage "output_tokens").map fun completion => (prompt,completion)
  | _ => .error .attributeError

end Decoders

namespace Loading

/-- The same API call, logged twice by the client. -/
def Repeated (s : Loading F) (t : F) (call : ℤ × ℤ) : Prop :=
  s.prev = some call ∧ ∀ last ∈ s.prevT, t-last < 3/2

instance (s : Loading F) (t : F) (call : ℤ × ℤ) : Decidable (s.Repeated t call) :=
  inferInstanceAs (Decidable (_ ∧ _))

/-- The turn of a call; the gap since the turn before it is the announced absence. -/
def turn (args : LoadArgs) (s : Loading F) (t : F) (call : ℤ × ℤ) : Turn F where
  t := t
  sessionId := String.ofList (args.stem.toList.take 12)
  role := args.role
  promptTokens := call.1
  completionTokens := call.2
  sharedPrefixTokens := min args.sharedPrefixTokens call.1
  toolEtaS := s.prevT.map fun last => max 0 (t-last)

/-- A call at a time after the origin. Records without a prompt are bookkeeping. -/
def take (args : LoadArgs) (s : Loading F) (t : F) (call : ℤ × ℤ) : Loading F :=
  if call.1 ≤ 0 then s
  else if s.Repeated t call then s
  else { s with prev := some call, prevT := some t, out := s.out ++ [s.turn args t call] }

/-- One line. The first time that is reported is the origin, even when its record is not
taken for a call. -/
def readLine (d : Decoders F) (args : LoadArgs) (s : Loading F) (line : String) :
    Except UseError (Loading F) :=
  match d.reported line with
  | .error e => .error e
  | .ok none => .ok s
  | .ok (some (dt,usage)) =>
    let t0 := s.t0.getD dt
    match dt.since t0 with
    | none => .error .typeError
    | some t => (d.counts usage).map fun call => { s with t0 := some t0 }.take args t call

end Loading

/-- `load_cc_transcript` on the lines of a file. -/
def loadCcTranscript (d : Decoders F) (args : LoadArgs) (lines : List String) :
    Except UseError (List (Turn F)) :=
  (lines.foldlM (Loading.readLine d args) {}).map (·.out)

end ContextResidency
