import ContextResidency.Trace
import ContextResidency.Library.JsonRoundTrip

/-! Trace files: a header and one JSON record a line. A record becomes a turn by its field names
alone, so the fields of a turn that is read hold whatever values the record gives them. -/
namespace ContextResidency

open JsonText PyText

variable {F : Type}

/-- A turn as it is constructed, `Turn(**rec)`: no field is converted or checked. -/
structure TurnRecord (F : Type) where
  t : JsonValue F
  sessionId : JsonValue F
  role : JsonValue F
  promptTokens : JsonValue F
  completionTokens : JsonValue F
  sharedPrefixTokens : JsonValue F := .int 0
  toolEtaS : JsonValue F := .null
  aborted : JsonValue F := .bool false
  sloClass : JsonValue F := .str (ofString "interactive")

namespace TurnRecord

/-- `asdict(turn)` -/
def asdict (record : TurnRecord F) : List (PyText × JsonValue F) :=
  [(ofString "t",record.t),(ofString "session_id",record.sessionId),(ofString "role",record.role),
    (ofString "prompt_tokens",record.promptTokens),
    (ofString "completion_tokens",record.completionTokens),
    (ofString "shared_prefix_tokens",record.sharedPrefixTokens),
    (ofString "tool_eta_s",record.toolEtaS),(ofString "aborted",record.aborted),
    (ofString "slo_class",record.sloClass)]

def fieldNames : List PyText :=
  ["t","session_id","role","prompt_tokens","completion_tokens","shared_prefix_tokens",
    "tool_eta_s","aborted","slo_class"].map ofString

def field (fields : List (PyText × JsonValue F)) (name : String) : Option (JsonValue F) :=
  (fields.reverse.find? fun p => p.1 = ofString name).map Prod.snd

/-- `Turn(**rec)`. An unknown or a missing name raises. -/
def ofFields (fields : List (PyText × JsonValue F)) : Option (TurnRecord F) :=
  if ∀ p ∈ fields, p.1 ∈ fieldNames then
    match field fields "t", field fields "session_id", field fields "role",
      field fields "prompt_tokens", field fields "completion_tokens" with
    | some t, some sessionId, some role, some promptTokens, some completionTokens => some {
        t := t
        sessionId := sessionId
        role := role
        promptTokens := promptTokens
        completionTokens := completionTokens
        sharedPrefixTokens := (field fields "shared_prefix_tokens").getD (.int 0)
        toolEtaS := (field fields "tool_eta_s").getD .null
        aborted := (field fields "aborted").getD (.bool false)
        sloClass := (field fields "slo_class").getD (.str (ofString "interactive")) }
    | _, _, _, _, _ => none
  else none

end TurnRecord

def schemaVersion : ℤ := 1

def headerKey : PyText := ofString "schema_version"

/-- What `to_jsonl` writes. -/
def toJsonl (floats : FloatText F) (records : List (TurnRecord F)) : List Char :=
  dumps floats (.obj [(headerKey,.int schemaVersion)]) ++ '\n'::
    records.flatMap fun record => dumps floats (.obj record.asdict) ++ ['\n']

/-- `"schema_version" in rec`, which looks at the names of an object, the items of a list and the
parts of a string, and raises for anything else. -/
def mentionsHeader : JsonValue F → Option Bool
  | .obj fields => some (fields.any fun p => p.1 = headerKey)
  | .arr items => some (items.any fun
    | .str s => s = headerKey
    | _ => false)
  | .str s => some (decide (headerKey <:+: s))
  | _ => none

/-- One line. What mentions the header is passed over; only an object is unpacked. -/
def readRecord (floats : FloatText F) (out : List (TurnRecord F)) (line : List Char) :
    Option (List (TurnRecord F)) :=
  match loads floats line with
  | none => none
  | some rec =>
    match mentionsHeader rec, rec with
    | none, _ => none
    | some true, _ => some out
    | some false, .obj fields => (TurnRecord.ofFields fields).map fun record => out ++ [record]
    | some false, _ => none

/-- `from_jsonl` of the text of a file. -/
def fromJsonl (floats : FloatText F) (text : List Char) : Option (List (TurnRecord F)) :=
  (splitlines text).foldlM (readRecord floats) []

/-- A turn with the types that its fields announce, its strings as Python keeps them. -/
structure TextTurn (F : Type) where
  t : F
  sessionId : PyText
  role : PyText
  promptTokens : ℤ
  completionTokens : ℤ
  sharedPrefixTokens : ℤ := 0
  toolEtaS : Option F := none
  aborted : Bool := false
  sloClass : PyText := ofString "interactive"

def TextTurn.record (turn : TextTurn F) : TurnRecord F where
  t := .float turn.t
  sessionId := .str turn.sessionId
  role := .str turn.role
  promptTokens := .int turn.promptTokens
  completionTokens := .int turn.completionTokens
  sharedPrefixTokens := .int turn.sharedPrefixTokens
  toolEtaS := turn.toolEtaS.elim .null .float
  aborted := .bool turn.aborted
  sloClass := .str turn.sloClass

namespace TurnRecord

def joined (record : TurnRecord F) : TurnRecord F where
  t := JsonText.joined record.t
  sessionId := JsonText.joined record.sessionId
  role := JsonText.joined record.role
  promptTokens := JsonText.joined record.promptTokens
  completionTokens := JsonText.joined record.completionTokens
  sharedPrefixTokens := JsonText.joined record.sharedPrefixTokens
  toolEtaS := JsonText.joined record.toolEtaS
  aborted := JsonText.joined record.aborted
  sloClass := JsonText.joined record.sloClass

theorem joinedFields_asdict (record : TurnRecord F) :
    joinedFields record.asdict = record.joined.asdict := by
  simp only [asdict,joinedFields,joinSurrogates_ofString,joined]

/-- The names of a record are the fields of a turn, each of them once. -/
theorem map_fst_asdict (record : TurnRecord F) : record.asdict.map Prod.fst = fieldNames := rfl

theorem ofFields_asdict (record : TurnRecord F) : ofFields record.asdict = some record := by
  simp [ofFields,asdict,field,fieldNames,ofString_inj]

theorem mentionsHeader_asdict (record : TurnRecord F) :
    mentionsHeader (.obj record.asdict) = some false := by
  simp [mentionsHeader,asdict,headerKey,ofString_inj]

end TurnRecord

variable {floats : FloatText F}

theorem splitlines_dumps (h : Exact floats) (v : JsonValue F) (cs : List Char) :
    splitlines (dumps floats v ++ '\n'::cs) = dumps floats v::splitlines cs :=
  splitlines_append (fun c hc => not_isLineBreak (printable_dumps h v c hc)) cs

/-- The lines of a file are the header and the records, whatever its strings hold. -/
theorem splitlines_toJsonl (h : Exact floats) (records : List (TurnRecord F)) :
    splitlines (toJsonl floats records) = dumps floats (.obj [(headerKey,.int schemaVersion)])::
      records.map fun record => dumps floats (.obj record.asdict) := by
  rw [toJsonl,splitlines_dumps h,List.cons.injEq]
  refine ⟨rfl,?_⟩
  induction records with
  | nil => rfl
  | cons record records ih =>
    rw [List.flatMap_cons,List.append_assoc,List.singleton_append,splitlines_dumps h,ih]
    rfl

theorem readRecord_header (h : Exact floats) (out : List (TurnRecord F)) :
    readRecord floats out (dumps floats (.obj [(headerKey,.int schemaVersion)])) = some out := by
  have hname : headerKey.joinSurrogates = headerKey := joinSurrogates_ofString _
  rw [readRecord,loads_dumps h,joined,joinedFields,joinedFields,hname]
  simp [mentionsHeader]

theorem readRecord_asdict (h : Exact floats) (out : List (TurnRecord F)) (record : TurnRecord F) :
    readRecord floats out (dumps floats (.obj record.asdict)) = some (out ++ [record.joined]) := by
  rw [readRecord,loads_dumps h,joined,TurnRecord.joinedFields_asdict]
  simp only [TurnRecord.mentionsHeader_asdict,TurnRecord.ofFields_asdict,Option.map_some]

/-- A file is read as the turns that it was written from, with the surrogates that meet in their
strings joined. -/
theorem fromJsonl_toJsonl_joined (h : Exact floats) (records : List (TurnRecord F)) :
    fromJsonl floats (toJsonl floats records) = some (records.map TurnRecord.joined) := by
  have hrun : ∀ out : List (TurnRecord F),
      (records.map fun record => dumps floats (.obj record.asdict)).foldlM (readRecord floats) out =
        some (out ++ records.map TurnRecord.joined) := by
    induction records with
    | nil => simp
    | cons record records ih =>
      intro out
      rw [List.map_cons,List.foldlM_cons,readRecord_asdict h]
      exact (ih _).trans (by simp)
  rw [fromJsonl,splitlines_toJsonl h,List.foldlM_cons,readRecord_header h]
  exact hrun []

/-- The strings of a turn in which no high surrogate meets a low one. -/
def TextTurn.Separate (turn : TextTurn F) : Prop :=
  turn.sessionId.Separate ∧ turn.role.Separate ∧ turn.sloClass.Separate

theorem TextTurn.joined_record_eq_iff (turn : TextTurn F) :
    turn.record.joined = turn.record ↔ turn.Separate := by
  simp only [Separate,← joinSurrogates_eq_iff,TurnRecord.joined,TextTurn.record,
    TurnRecord.mk.injEq,JsonText.joined,JsonValue.str.injEq,true_and]
  cases turn.toolEtaS <;> simp [JsonText.joined]

/-- A list of turns is read back exactly as it was written when no high surrogate meets a low one
in its strings, and only then. -/
theorem fromJsonl_toJsonl (h : Exact floats) (turns : List (TextTurn F)) :
    fromJsonl floats (toJsonl floats (turns.map TextTurn.record)) =
        some (turns.map TextTurn.record) ↔ ∀ turn ∈ turns, turn.Separate := by
  rw [fromJsonl_toJsonl_joined h,Option.some.injEq,List.map_map]
  simp only [List.map_inj_left,Function.comp_apply,TextTurn.joined_record_eq_iff]

/-- Floats without a fraction, in the range that prints without an exponent. -/
def wholeFloats : FloatText ℤ where
  repr n := (toString n).toList ++ ['.','0']
  parse cs := .inl (parseInt (cs.takeWhile (· ≠ '.')))

theorem exact_wholeFloats : Exact wholeFloats := by
  constructor
  case numeral =>
    intro n
    have hzero : ('0' : Char).isDigit = true := by decide
    exact ⟨_,['.','0'],[],integer_toString n,.digits hzero (by simp),.none,by simp,by
      simp [wholeFloats]⟩
  case parse_repr =>
    intro n
    have hpoint : ∀ c ∈ (toString n).toList, (decide (c ≠ '.')) = true := by
      intro c hc
      cases (integer_toString n).mem c hc with
      | inl hdigit =>
        rw [decide_eq_true_iff]
        rintro rfl
        exact absurd hdigit (by decide)
      | inr hminus =>
        rw [hminus]
        decide
    show Sum.inl (parseInt (((toString n).toList ++ ['.','0']).takeWhile (· ≠ '.'))) = Sum.inl n
    rw [List.takeWhile_append_of_pos hpoint,List.takeWhile_cons_of_neg (by simp),List.append_nil,
      parseInt_toString]

def quotedTurn : TextTurn ℤ where
  t := 12
  sessionId := ofString "a\"b\\\n\u2028"
  role := ofString "😀"
  promptTokens := 4096
  completionTokens := -1
  toolEtaS := some 30

theorem fromJsonl_toJsonl_quotedTurn : Exact wholeFloats ∧
    (fromJsonl wholeFloats (toJsonl wholeFloats ([quotedTurn].map TextTurn.record)) =
        some ([quotedTurn].map TextTurn.record) ↔ ∀ turn ∈ [quotedTurn], turn.Separate) :=
  ⟨exact_wholeFloats,fromJsonl_toJsonl exact_wholeFloats [quotedTurn]⟩

def surrogateTurn : TextTurn ℤ where
  t := 0
  sessionId := [0xd83d,0xde00]
  role := ofString "supervisor"
  promptTokens := 1
  completionTokens := 1

/-- It comes back named by the one character that the two surrogates stand for. -/
theorem fromJsonl_toJsonl_surrogateTurn :
    fromJsonl wholeFloats (toJsonl wholeFloats [surrogateTurn.record]) =
        some [{ surrogateTurn.record with sessionId := .str [0x1f600] }] ∧
      fromJsonl wholeFloats (toJsonl wholeFloats [surrogateTurn.record]) ≠
        some [surrogateTurn.record] := by
  rw [fromJsonl_toJsonl_joined exact_wholeFloats]
  constructor
  · have hid : joinSurrogates [0xd83d,0xde00] = [0x1f600] := by decide
    simp [TurnRecord.joined,TextTurn.record,surrogateTurn,JsonText.joined,
      joinSurrogates_ofString,hid]
  · intro h
    have hsame := List.singleton_inj.mp (Option.some.inj h)
    have hseparate := (TextTurn.joined_record_eq_iff _).mp hsame
    exact absurd hseparate.1 (by decide)

/-- A turn whose strings are Unicode text. -/
def Turn.text (turn : Turn F) : TextTurn F where
  t := turn.t
  sessionId := ofString turn.sessionId
  role := ofString turn.role
  promptTokens := turn.promptTokens
  completionTokens := turn.completionTokens
  sharedPrefixTokens := turn.sharedPrefixTokens
  toolEtaS := turn.toolEtaS
  aborted := turn.aborted
  sloClass := ofString turn.sloClass

/-- A trace of Unicode text is read back exactly as it was written. -/
theorem fromJsonl_toJsonl_text (h : Exact floats) (turns : List (Turn F)) :
    fromJsonl floats (toJsonl floats (turns.map fun turn => turn.text.record)) =
      some (turns.map fun turn => turn.text.record) := by
  have hjoined : ∀ turn : Turn F, turn.text.record.joined = turn.text.record :=
    fun turn => turn.text.joined_record_eq_iff.mpr
      ⟨separate_ofString _,separate_ofString _,separate_ofString _⟩
  rw [fromJsonl_toJsonl_joined h,List.map_map]
  simp only [Function.comp_def,hjoined]

end ContextResidency
