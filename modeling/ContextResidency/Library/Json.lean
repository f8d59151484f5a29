import Mathlib.Algebra.Order.Ring.Int
import Mathlib.Data.Int.Cast.Basic
import Mathlib.Tactic

/-! JSON values as a decoder hands them out: numbers are integers, finite floats or the
three floats that are no number or infinite. A program that uses a value as a number, a
mapping or a dictionary key either converts it or fails with an error of a known class. -/
namespace ContextResidency

/-- The floats that a scalar cannot stand for. -/
inductive NonFinite
  | nan | inf | negInf
  deriving DecidableEq

inductive Json (F : Type)
  | null
  | bool (b : Bool)
  | int (n : ℤ)
  | float (x : F)
  | nonFinite (x : NonFinite)
  | str (s : String)
  | arr (items : List (Json F))
  | obj (fields : List (String × Json F))

/-- Why a value cannot be used as it is. -/
inductive UseError
  | typeError
  | valueError
  | overflowError
  | attributeError
  deriving DecidableEq

/-- The fields of an object. Of several fields with one name the first counts. -/
abbrev Fields (F : Type) := List (String × Json F)

/-- `d.get(name)`. -/
def Fields.field {F : Type} (fields : Fields F) (name : String) : Option (Json F) :=
  (fields.find? fun p => p.1 = name).map Prod.snd

/-- How text and the special floats read as scalars. -/
structure Reading (F : Type) where
  parse : String → Option F
  special : NonFinite → F

namespace Json

variable {F : Type}

/-- Only lists and objects cannot be keys of a dictionary. -/
def hashable : Json F → Bool
  | .arr _ => false
  | .obj _ => false
  | _ => true

/-- `float(v)`. An integer overflows when it would round to a power of two that has no
float. -/
def toFloat [Ring F] (reading : Reading F) : Json F → Except UseError F
  | .null => .error .typeError
  | .bool b => .ok (if b then 1 else 0)
  | .int n => if |n| < 2^1024-2^970 then .ok n else .error .overflowError
  | .float x => .ok x
  | .nonFinite x => .ok (reading.special x)
  | .str s =>
    match reading.parse s with
    | none => .error .valueError
    | some x => .ok x
  | .arr _ => .error .typeError
  | .obj _ => .error .typeError

/-- The truth value of a value. -/
def truthy [Zero F] [DecidableEq F] : Json F → Bool
  | .null => false
  | .bool b => b
  | .int n => n ≠ 0
  | .float x => x ≠ 0
  | .nonFinite _ => true
  | .str s => s ≠ ""
  | .arr items => ¬ items.isEmpty
  | .obj fields => ¬ fields.isEmpty

/-- `int(v)`, given how text reads as an integer and how a float is truncated. -/
def toInt (parse : String → Option ℤ) (truncate : F → ℤ) : Json F → Except UseError ℤ
  | .null => .error .typeError
  | .bool b => .ok (if b then 1 else 0)
  | .int n => .ok n
  | .float x => .ok (truncate x)
  | .nonFinite .nan => .error .valueError
  | .nonFinite _ => .error .overflowError
  | .str s =>
    match parse s with
    | none => .error .valueError
    | some n => .ok n
  | .arr _ => .error .typeError
  | .obj _ => .error .typeError

/-- The values that `float` takes. -/
def Numeric [Ring F] (reading : Reading F) (v : Json F) : Prop := ∃ x, v.toFloat reading = .ok x

end Json

end ContextResidency
