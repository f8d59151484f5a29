import Mathlib
import ContextResidency.Library.CodePoints
import ContextResidency.Library.Json

/-! The text of JSON values as `json.dumps` writes it by default and `json.loads` reads it.
Strings are sequences of code points and are written in printable ASCII. How a finite float
prints and how a numeral reads as a float is left to the floats; everything else is here. An
integer prints and reads whatever its length, as it does where the interpreter sets no limit
on the digits of an integer. -/
namespace ContextResidency

/-- A JSON value with strings of Python. Of several fields with one name the last counts. -/
inductive JsonValue (F : Type)
  | null
  | bool (b : Bool)
  | int (n : ℤ)
  | float (x : F)
  | nonFinite (x : NonFinite)
  | str (s : PyText)
  | arr (items : List (JsonValue F))
  | obj (fields : List (PyText × JsonValue F))

/-- `float.__repr__` of the finite floats, and `float` of a numeral, which may overflow. -/
structure FloatText (F : Type) where
  repr : F → List Char
  parse : List Char → F ⊕ NonFinite

namespace JsonText

variable {F : Type}

/-- `\uXXXX` with lower-case digits. -/
def escapeUnit (unit : CodePoint) : List Char :=
  ['\\','u',Nat.digitChar (unit.val/0x1000%16),Nat.digitChar (unit.val/0x100%16),
    Nat.digitChar (unit.val/0x10%16),Nat.digitChar (unit.val%16)]

def escapes : List (Char × Char) :=
  [('"','"'),('\\','\\'),('n','\n'),('r','\r'),('t','\t'),('f','\x0c'),('b','\x08')]

def escapeChar (c : CodePoint) : List Char :=
  match escapes.find? fun p => p.2.toNat = c.val with
  | some (letter,_) => ['\\',letter]
  | none =>
    if 0x20 ≤ c.val ∧ c.val ≤ 0x7e then [Char.ofNat c.val] else c.units.flatMap escapeUnit

def quote (s : PyText) : List Char := '"'::(s.flatMap escapeChar ++ ['"'])

def nonFiniteText : NonFinite → List Char
  | .nan => ['N','a','N']
  | .inf => ['I','n','f','i','n','i','t','y']
  | .negInf => ['-','I','n','f','i','n','i','t','y']

def constants : List (List Char × JsonValue F) :=
  [(['n','u','l','l'],.null),(['t','r','u','e'],.bool true),(['f','a','l','s','e'],.bool false),
    (nonFiniteText .nan,.nonFinite .nan),(nonFiniteText .inf,.nonFinite .inf),
    (nonFiniteText .negInf,.nonFinite .negInf)]

mutual

/-- `json.dumps(v)` -/
def dumps (floats : FloatText F) : JsonValue F → List Char
  | .null => ['n','u','l','l']
  | .bool true => ['t','r','u','e']
  | .bool false => ['f','a','l','s','e']
  | .int n => (toString n).toList
  | .float x => floats.repr x
  | .nonFinite x => nonFiniteText x
  | .str s => quote s
  | .arr [] => ['[',']']
  | .arr (v::items) => '['::(dumps floats v ++ dumpsItems floats items)
  | .obj [] => ['\x7b','\x7d']
  | .obj ((name,v)::fields) =>
    '\x7b'::(quote name ++ ':' :: ' ' :: (dumps floats v ++ dumpsFields floats fields))

/-- The items after the first one, to the end of the list. -/
def dumpsItems (floats : FloatText F) : List (JsonValue F) → List Char
  | [] => [']']
  | v::items => ',' :: ' ' :: (dumps floats v ++ dumpsItems floats items)

def dumpsFields (floats : FloatText F) : List (PyText × JsonValue F) → List Char
  | [] => ['\x7d']
  | (name,v)::fields =>
    ',' :: ' ' :: (quote name ++ ':' :: ' ' :: (dumps floats v ++ dumpsFields floats fields))

end

def skipSpace (cs : List Char) : List Char := cs.dropWhile (· ∈ [' ','\t','\n','\r'])

def hexValue (c : Char) : Option ℕ :=
  if c.isDigit then some (c.toNat - '0'.toNat)
  else if 'a' ≤ c ∧ c ≤ 'f' then some (c.toNat - 'a'.toNat+10)
  else if 'A' ≤ c ∧ c ≤ 'F' then some (c.toNat - 'A'.toNat+10)
  else none

/-- Four hexadecimal digits. -/
def unitValue (a b c d : Char) : Option CodePoint :=
  match hexValue a, hexValue b, hexValue c, hexValue d with
  | some a, some b, some c, some d => some (Fin.ofNat _ (((a*16+b)*16+c)*16+d))
  | _, _, _, _ => none

/-- What an escape of one letter stands for. The slash is read but not written. -/
def unescape (letter : Char) : Option CodePoint :=
  ((('/','/')::escapes).find? fun p => p.1 = letter).map fun p => Fin.ofNat _ p.2.toNat

/-- The units of a string up to its closing quote, and the text after it. -/
def scanUnits : List Char → Option (PyText × List Char)
  | [] => none
  | c::cs =>
    if c = '"' then some ([],cs)
    else if c = '\\' then
      match cs with
      | [] => none
      | letter::cs =>
        if letter = 'u' then
          match cs with
          | a::b::c::d::cs =>
            match unitValue a b c d with
            | none => none
            | some unit => (scanUnits cs).map fun p => (unit::p.1,p.2)
          | _ => none
        else
          match unescape letter with
          | none => none
          | some unit => (scanUnits cs).map fun p => (unit::p.1,p.2)
    else if c.toNat < 0x20 then none
    else (scanUnits cs).map fun p => (Fin.ofNat _ c.toNat::p.1,p.2)

/-- A string after its opening quote. -/
def scanString (cs : List Char) : Option (PyText × List Char) :=
  (scanUnits cs).map fun p => (p.1.joinSurrogates,p.2)

def scanConstant (cs : List Char) : Option (JsonValue F × List Char) :=
  constants.findSome? fun p => (p.1.isPrefixOf? cs).map fun rest => (p.2,rest)

/-- `0|[1-9]\d*` -/
def scanNatural : List Char → Option (List Char × List Char)
  | [] => none
  | c::cs =>
    if c = '0' then some (['0'],cs)
    else if c.isDigit then some (c::cs.takeWhile Char.isDigit,cs.dropWhile Char.isDigit)
    else none

/-- `-?(?:0|[1-9]\d*)` -/
def scanInteger : List Char → Option (List Char × List Char)
  | '-'::cs => (scanNatural cs).map fun p => ('-'::p.1,p.2)
  | cs => scanNatural cs

/-- `(\.\d+)?` -/
def scanFraction : List Char → List Char × List Char
  | '.'::c::cs =>
    if c.isDigit then ('.'::c::cs.takeWhile Char.isDigit,cs.dropWhile Char.isDigit)
    else ([],'.'::c::cs)
  | cs => ([],cs)

/-- `[-+]?` -/
def scanSign : List Char → List Char × List Char
  | '+'::cs => (['+'],cs)
  | '-'::cs => (['-'],cs)
  | cs => ([],cs)

/-- `([eE][-+]?\d+)?` -/
def scanExponent : List Char → List Char × List Char
  | [] => ([],[])
  | e::cs =>
    let digits := (scanSign cs).2.takeWhile Char.isDigit
    if (e = 'e' ∨ e = 'E') ∧ digits ≠ [] then
      (e::((scanSign cs).1 ++ digits),(scanSign cs).2.dropWhile Char.isDigit)
    else ([],e::cs)

def parseInt (cs : List Char) : ℤ := ((String.ofList cs).toInt?).getD 0

/-- A number is an integer unless it has a fraction or an exponent. -/
def scanNumber (floats : FloatText F) (cs : List Char) : Option (JsonValue F × List Char) :=
  match scanInteger cs with
  | none => none
  | some (integer,cs) =>
    let (fraction,cs) := scanFraction cs
    let (exponent,cs) := scanExponent cs
    if fraction = [] ∧ exponent = [] then some (.int (parseInt integer),cs)
    else some ((floats.parse (integer ++ fraction ++ exponent)).elim .float .nonFinite,cs)

/-- Elements with commas between them, each read by `scan`, up to the closing character. -/
def scanSeries {α : Type} (scan : List Char → Option (α × List Char)) (close : Char) :
    ℕ → List Char → Option (List α × List Char)
  | 0, _ => none
  | n+1, cs =>
    match scan cs with
    | none => none
    | some (a,cs) =>
      match skipSpace cs with
      | [] => none
      | c::cs =>
        if c = close then some ([a],cs)
        else if c = ',' then (scanSeries scan close n (skipSpace cs)).map fun p => (a::p.1,p.2)
        else none

/-- A field of an object, from the quote of its name on. -/
def scanField (scan : List Char → Option (JsonValue F × List Char)) :
    List Char → Option ((PyText × JsonValue F) × List Char)
  | '"'::cs =>
    match scanString cs with
    | none => none
    | some (name,cs) =>
      match skipSpace cs with
      | ':'::cs => (scan (skipSpace cs)).map fun p => ((name,p.1),p.2)
      | _ => none
  | _ => none

/-- One value and the text after it. Every nested value and every further item takes a character
at least, so the length of the text is fuel enough. -/
def scanOnce (floats : FloatText F) : ℕ → List Char → Option (JsonValue F × List Char)
  | 0, _ => none
  | n+1, cs =>
    match cs with
    | '"'::cs => (scanString cs).map fun p => (.str p.1,p.2)
    | '['::cs =>
      match skipSpace cs with
      | ']'::cs => some (.arr [],cs)
      | cs => (scanSeries (scanOnce floats n) ']' n cs).map fun p => (.arr p.1,p.2)
    | '\x7b'::cs =>
      match skipSpace cs with
      | '\x7d'::cs => some (.obj [],cs)
      | cs => (scanSeries (scanField (scanOnce floats n)) '\x7d' n cs).map fun p => (.obj p.1,p.2)
    | cs => (scanConstant cs).or (scanNumber floats cs)

/-- `json.loads(text)`: one value with nothing but space around it. A text that begins with a
byte order mark raises. -/
def loads (floats : FloatText F) (cs : List Char) : Option (JsonValue F) :=
  match scanOnce floats (cs.length+1) (skipSpace cs) with
  | none => none
  | some (v,rest) => if skipSpace rest = [] then some v else none

end JsonText

end ContextResidency
