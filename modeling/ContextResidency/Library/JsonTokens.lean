import ContextResidency.Library.JsonText

/-! The strings and numbers of JSON: in front of whatever may follow them they are read as they
were written, and their text is printable ASCII. A number is described by the grammar that the
scanner follows. -/
namespace ContextResidency

namespace CodePoint

theorem units_lt {c unit : CodePoint} (h : unit ∈ c.units) : unit.val < 0x10000 := by
  by_cases hc : c.val < 0x10000
  · rw [units_of_lt hc,List.mem_singleton] at h
    rwa [h]
  · rcases units_of_ge hc with ⟨high,low,hunits,hhigh,hlow,-⟩
    rw [hunits] at h
    have hhigh := hhigh.2
    have hlow := hlow.2
    rcases List.mem_pair.mp h with rfl | rfl <;> omega

end CodePoint

namespace JsonText

variable {F : Type} {floats : FloatText F}

theorem hexValue_digitChar : ∀ k < 16, hexValue (Nat.digitChar k) = some k := by decide

theorem scanUnits_escapeUnit {unit : CodePoint} (h : unit.val < 0x10000) (cs : List Char) :
    scanUnits (escapeUnit unit ++ cs) = (scanUnits cs).map fun p => (unit::p.1,p.2) := by
  have hunit : unitValue (Nat.digitChar (unit.val/0x1000%16)) (Nat.digitChar (unit.val/0x100%16))
      (Nat.digitChar (unit.val/0x10%16)) (Nat.digitChar (unit.val%16)) = some unit := by
    have hdigit : ∀ k, hexValue (Nat.digitChar (k%16)) = some (k%16) :=
      fun k => hexValue_digitChar _ (Nat.mod_lt k (by norm_num))
    simp only [unitValue,hdigit,Option.some.injEq]
    refine Fin.ext ?_
    rw [Fin.val_ofNat]
    omega
  simp [escapeUnit,scanUnits,hunit]

theorem scanUnits_escapeUnits {units : PyText} (h : ∀ unit ∈ units, unit.val < 0x10000)
    (cs : List Char) : scanUnits (units.flatMap escapeUnit ++ cs) =
      (scanUnits cs).map fun p => (units ++ p.1,p.2) := by
  induction units with
  | nil => simp
  | cons unit units ih =>
    rcases List.forall_mem_cons.mp h with ⟨hunit,hunits⟩
    rw [List.flatMap_cons,List.append_assoc,scanUnits_escapeUnit hunit,ih hunits,Option.map_map]
    rfl

theorem scanUnits_letter {letter : Char} {unit : CodePoint} (hletter : letter ≠ 'u')
    (hread : unescape letter = some unit) (cs : List Char) :
    scanUnits ('\\'::letter::cs) = (scanUnits cs).map fun p => (unit::p.1,p.2) := by
  rw [scanUnits.eq_def]
  simp [hletter,hread]

theorem scanUnits_char {c : Char} (hquote : c ≠ '"') (hback : c ≠ '\\') (hprint : 0x20 ≤ c.toNat)
    (cs : List Char) :
    scanUnits (c::cs) = (scanUnits cs).map fun p => (Fin.ofNat _ c.toNat::p.1,p.2) := by
  rw [scanUnits.eq_def]
  simp [hquote,hback,hprint]

theorem scanUnits_escapeChar (c : CodePoint) (cs : List Char) :
    scanUnits (escapeChar c ++ cs) = (scanUnits cs).map fun p => (c.units ++ p.1,p.2) := by
  unfold escapeChar
  cases hfind : escapes.find? fun p => p.2.toNat = c.val with
  | some p =>
    have hval : p.2.toNat = c.val := by simpa using List.find?_some hfind
    have hc : Fin.ofNat _ p.2.toNat = c :=
      Fin.ext (by rw [hval,Fin.val_ofNat,Nat.mod_eq_of_lt c.isLt])
    have hescapes : ∀ p ∈ escapes, p.1 ≠ 'u' ∧ unescape p.1 = some (Fin.ofNat _ p.2.toNat) ∧
        p.2.toNat < 0x10000 := by decide
    rcases hescapes p (List.mem_of_find?_eq_some hfind) with ⟨hletter,hread,hlt⟩
    rw [hc] at hread
    rw [CodePoint.units_of_lt (hval ▸ hlt)]
    exact scanUnits_letter hletter hread cs
  | none =>
    dsimp only
    split_ifs with hprint
    · have hval : (Char.ofNat c.val).toNat = c.val := by
        rw [Char.toNat_ofNat,if_pos (Or.inl (by omega))]
      have hother : ∀ p ∈ escapes, Char.ofNat c.val ≠ p.2 := by
        intro p hp h
        have hnone := List.find?_eq_none.mp hfind p hp
        rw [← h,hval] at hnone
        exact hnone (by simp)
      have hread := scanUnits_char (hother ('"','"') (by decide)) (hother ('\\','\\') (by decide))
        (hval.symm ▸ hprint.1) cs
      rw [hval,Fin.ofNat_eq_cast,Fin.cast_val_eq_self] at hread
      rw [CodePoint.units_of_lt (by omega)]
      exact hread
    · exact scanUnits_escapeUnits (fun unit hunit => CodePoint.units_lt hunit) cs

theorem scanUnits_quote (s : PyText) (cs : List Char) :
    scanUnits (s.flatMap escapeChar ++ '"'::cs) = some (s.flatMap CodePoint.units,cs) := by
  induction s with
  | nil =>
    rw [List.flatMap_nil,List.nil_append,scanUnits.eq_def]
    simp
  | cons c s ih =>
    rw [List.flatMap_cons,List.append_assoc,scanUnits_escapeChar,ih]
    rfl

theorem scanString_quote (s : PyText) (cs : List Char) :
    scanString (s.flatMap escapeChar ++ '"'::cs) = some (s.joinSurrogates,cs) := by
  rw [scanString,scanUnits_quote,Option.map_some,PyText.joinSurrogates_units]

inductive Natural : List Char → Prop
  | zero : Natural ['0']
  | digits {c : Char} {cs : List Char} (hc : c.isDigit = true) (hne : c ≠ '0')
      (hcs : ∀ d ∈ cs, d.isDigit = true) : Natural (c::cs)

inductive Integer : List Char → Prop
  | nonneg {cs : List Char} (h : Natural cs) : Integer cs
  | neg {cs : List Char} (h : Natural cs) : Integer ('-'::cs)

inductive Fraction : List Char → Prop
  | none : Fraction []
  | digits {c : Char} {cs : List Char} (hc : c.isDigit = true)
      (hcs : ∀ d ∈ cs, d.isDigit = true) : Fraction ('.'::c::cs)

inductive Exponent : List Char → Prop
  | none : Exponent []
  | digits {e c : Char} {sign cs : List Char} (he : e = 'e' ∨ e = 'E')
      (hsign : sign = [] ∨ sign = ['+'] ∨ sign = ['-']) (hc : c.isDigit = true)
      (hcs : ∀ d ∈ cs, d.isDigit = true) : Exponent (e::(sign ++ c::cs))

/-- A number that is read as a float: it has a fraction or an exponent. -/
def FloatNumeral (cs : List Char) : Prop := ∃ integer fraction exponent, Integer integer ∧
  Fraction fraction ∧ Exponent exponent ∧ ¬ (fraction = [] ∧ exponent = []) ∧
  cs = integer ++ fraction ++ exponent

/-- What may follow a value inside a list or an object, or at the end. -/
def Delimited (cs : List Char) : Prop := ∀ c ∈ cs.head?, c ∈ [',',']','\x7d']

theorem takeWhile_digits {ds cs : List Char} (hds : ∀ d ∈ ds, d.isDigit = true)
    (hcs : ∀ c ∈ cs.head?, ¬ c.isDigit = true) : (ds ++ cs).takeWhile Char.isDigit = ds ∧
      (ds ++ cs).dropWhile Char.isDigit = cs := by
  rw [List.takeWhile_append_of_pos hds,List.dropWhile_append_of_pos hds]
  cases cs with
  | nil => simp
  | cons c cs =>
    have hc := hcs c rfl
    simp [hc]

theorem scanNatural_append {ds cs : List Char} (h : Natural ds)
    (hcs : ∀ c ∈ cs.head?, ¬ c.isDigit = true) : scanNatural (ds ++ cs) = some (ds,cs) := by
  cases h with
  | zero => rfl
  | digits hc hne hds =>
    rcases takeWhile_digits hds hcs with ⟨htake,hdrop⟩
    rw [List.cons_append,scanNatural,if_neg hne,if_pos hc,htake,hdrop]

theorem Natural.head {cs : List Char} (h : Natural cs) : ∃ c ds, cs = c::ds ∧ c.isDigit = true := by
  cases h with
  | zero => exact ⟨'0',[],rfl,by decide⟩
  | digits hc hne hcs => exact ⟨_,_,rfl,hc⟩

theorem scanInteger_append {ds cs : List Char} (h : Integer ds)
    (hcs : ∀ c ∈ cs.head?, ¬ c.isDigit = true) : scanInteger (ds ++ cs) = some (ds,cs) := by
  cases h with
  | neg h =>
    rw [List.cons_append,scanInteger,scanNatural_append h hcs]
    rfl
  | nonneg h =>
    rcases h.head with ⟨c,ds,rfl,hc⟩
    rw [← scanNatural_append h hcs]
    refine scanInteger.eq_2 _ fun rest hrest => ?_
    rw [List.cons_append,List.cons.injEq] at hrest
    rw [hrest.1] at hc
    exact absurd hc (by decide)

theorem scanFraction_append {ds cs : List Char} (h : Fraction ds)
    (hcs : ∀ c ∈ cs.head?, ¬ c.isDigit = true ∧ c ≠ '.') : scanFraction (ds ++ cs) = (ds,cs) := by
  cases h with
  | none =>
    cases cs with
    | nil => rfl
    | cons c cs => exact scanFraction.eq_2 _ fun d ds hd => (hcs c rfl).2 (List.cons.inj hd).1
  | digits hc hds =>
    rcases takeWhile_digits hds fun c hc => (hcs c hc).1 with ⟨htake,hdrop⟩
    rw [List.cons_append,List.cons_append,scanFraction,if_pos hc,htake,hdrop]

theorem scanSign_append {sign : List Char} (hsign : sign = [] ∨ sign = ['+'] ∨ sign = ['-'])
    {c : Char} (hc : c.isDigit = true) (cs : List Char) :
    scanSign (sign ++ c::cs) = (sign,c::cs) := by
  rcases hsign with rfl | rfl | rfl
  · refine scanSign.eq_3 _ (fun rest hrest => ?_) fun rest hrest => ?_ <;>
    · rw [(List.cons.inj hrest).1] at hc
      exact absurd hc (by decide)
  · rfl
  · rfl

theorem scanExponent_append {ds cs : List Char} (h : Exponent ds)
    (hcs : ∀ c ∈ cs.head?, ¬ c.isDigit = true ∧ c ≠ 'e' ∧ c ≠ 'E') :
    scanExponent (ds ++ cs) = (ds,cs) := by
  cases h with
  | none =>
    cases cs with
    | nil => rfl
    | cons c cs =>
      have hc := (hcs c rfl).2
      simp [scanExponent,hc]
  | @digits e c sign ds he hsign hc hds =>
    have hall : ∀ d ∈ c::ds, d.isDigit = true := List.forall_mem_cons.mpr ⟨hc,hds⟩
    rcases takeWhile_digits hall fun c hc => (hcs c hc).1 with ⟨htake,hdrop⟩
    rw [List.cons_append,List.append_assoc,scanExponent,List.cons_append,scanSign_append hsign hc]
    dsimp only
    rw [← List.cons_append,htake,hdrop,if_pos ⟨he,List.cons_ne_nil _ _⟩]

theorem Delimited.head {cs : List Char} (h : Delimited cs) :
    ∀ c ∈ cs.head?, ¬ c.isDigit = true ∧ c ≠ '.' ∧ c ≠ 'e' ∧ c ≠ 'E' := by
  have hall : ∀ c ∈ [',',']','\x7d'], ¬ c.isDigit = true ∧ c ≠ '.' ∧ c ≠ 'e' ∧ c ≠ 'E' := by simp
  exact fun c hc => hall c (h c hc)

theorem head_exponent_append {ds cs : List Char} (h : Exponent ds) (hcs : Delimited cs) :
    ∀ c ∈ (ds ++ cs).head?, ¬ c.isDigit = true ∧ c ≠ '.' := by
  cases h with
  | none => exact fun c hc => ⟨(hcs.head c hc).1,(hcs.head c hc).2.1⟩
  | digits he hsign hc hds =>
    rintro c ⟨⟩
    rcases he with rfl | rfl <;> decide

theorem head_fraction_append {ds cs : List Char} (h : Fraction ds)
    (hcs : ∀ c ∈ cs.head?, ¬ c.isDigit = true ∧ c ≠ '.') :
    ∀ c ∈ (ds ++ cs).head?, ¬ c.isDigit = true := by
  cases h with
  | none => exact fun c hc => (hcs c hc).1
  | digits hc hds =>
    rintro c ⟨⟩
    decide

theorem scanNumber_integer {ds cs : List Char} (h : Integer ds) (hcs : Delimited cs) :
    scanNumber floats (ds ++ cs) = some (.int (parseInt ds),cs) := by
  have hexponent := @scanExponent_append [] cs .none fun c hc =>
    ⟨(hcs.head c hc).1,(hcs.head c hc).2.2⟩
  have hfraction := @scanFraction_append [] cs .none fun c hc =>
    ⟨(hcs.head c hc).1,(hcs.head c hc).2.1⟩
  rw [List.nil_append] at hexponent hfraction
  rw [scanNumber,scanInteger_append h fun c hc => (hcs.head c hc).1]
  simp [hfraction,hexponent]

theorem scanNumber_float {ds cs : List Char} (h : FloatNumeral ds) (hcs : Delimited cs) :
    scanNumber floats (ds ++ cs) = some ((floats.parse ds).elim .float .nonFinite,cs) := by
  rcases h with ⟨integer,fraction,exponent,hinteger,hfraction,hexponent,hne,rfl⟩
  have hhead := head_exponent_append hexponent hcs
  have hrest := scanExponent_append hexponent fun c hc => ⟨(hcs.head c hc).1,(hcs.head c hc).2.2⟩
  rw [scanNumber,List.append_assoc,List.append_assoc,
    scanInteger_append hinteger (head_fraction_append hfraction hhead)]
  dsimp only
  rw [scanFraction_append hfraction hhead]
  dsimp only
  rw [hrest]
  exact if_neg hne

theorem toDigits_eq_cons {n : ℕ} (hn : 0 < n) : ∃ c cs, Nat.toDigits 10 n = c::cs ∧ c ≠ '0' := by
  induction n using Nat.strong_induction_on with
  | h n ih =>
    by_cases hlt : n < 10
    · have hdigit : ∀ k < 10, 0 < k → Nat.digitChar k ≠ '0' := by decide
      exact ⟨_,[],Nat.toDigits_of_lt_base hlt,hdigit n hlt hn⟩
    · rcases ih (n/10) (by omega) (by omega) with ⟨c,cs,hcs,hc⟩
      rw [Nat.toDigits_of_base_le (by norm_num) (not_lt.mp hlt),hcs]
      exact ⟨c,_,rfl,hc⟩

theorem natural_repr (n : ℕ) : Natural n.repr.toList := by
  rw [Nat.toList_repr]
  cases Nat.eq_zero_or_pos n with
  | inl hzero =>
    subst hzero
    exact .zero
  | inr hpos =>
    rcases toDigits_eq_cons hpos with ⟨c,cs,hcs,hne⟩
    have hdigits : ∀ d ∈ Nat.toDigits 10 n, d.isDigit = true :=
      fun d hd => Nat.isDigit_of_mem_toDigits (by norm_num) (by norm_num) hd
    rw [hcs] at hdigits ⊢
    rcases List.forall_mem_cons.mp hdigits with ⟨hc,hds⟩
    exact .digits hc hne hds

theorem integer_toString (n : ℤ) : Integer (toString n).toList := by
  cases n with
  | ofNat n => exact .nonneg (natural_repr n)
  | negSucc n =>
    show Integer ("-" ++ (n+1).repr).toList
    rw [String.toList_append]
    exact .neg (natural_repr (n+1))

theorem parseInt_toString (n : ℤ) : parseInt (toString n).toList = n := by
  rw [parseInt,String.ofList_toList]
  exact congrArg (Option.getD · 0) (Int.toInt?_repr n)

/-- The text begins with a digit, or with a minus and a digit. -/
def StartsNumber : List Char → Prop
  | c::cs => c.isDigit = true ∨ c = '-' ∧ ∃ d ds, cs = d::ds ∧ d.isDigit = true
  | [] => False

theorem Integer.startsNumber {ds : List Char} (h : Integer ds) (cs : List Char) :
    StartsNumber (ds ++ cs) := by
  cases h with
  | nonneg h =>
    rcases h.head with ⟨c,ds,rfl,hc⟩
    exact Or.inl hc
  | neg h =>
    rcases h.head with ⟨c,ds,rfl,hc⟩
    exact Or.inr ⟨rfl,c,ds ++ cs,rfl,hc⟩

theorem FloatNumeral.startsNumber {ds : List Char} (h : FloatNumeral ds) (cs : List Char) :
    StartsNumber (ds ++ cs) := by
  rcases h with ⟨integer,fraction,exponent,hinteger,-,-,-,rfl⟩
  rw [List.append_assoc,List.append_assoc]
  exact hinteger.startsNumber _

theorem StartsNumber.head {c : Char} {cs : List Char} (h : StartsNumber (c::cs)) :
    c.isDigit = true ∨ c = '-' := h.imp_right And.left

/-- No constant begins like a number. -/
theorem scanConstant_eq_none {cs : List Char} (h : StartsNumber cs) :
    scanConstant cs = (none : Option (JsonValue F × List Char)) := by
  cases cs with
  | nil => exact h.elim
  | cons c cs =>
    rcases h with hc | ⟨rfl,d,ds,rfl,hd⟩
    · have hne : ∀ w ∈ ['n','t','f','N','I','-'], (w == c) = false := by
        intro w hw
        rw [beq_eq_false_iff_ne]
        rintro rfl
        have hletter : ∀ w ∈ ['n','t','f','N','I','-'], w.isDigit = false := by simp
        rw [hletter w hw] at hc
        cases hc
      simp only [List.forall_mem_cons] at hne
      simp [scanConstant,constants,nonFiniteText,List.isPrefixOf?,hne]
    · have hne : ('I' == d) = false := by
        rw [beq_eq_false_iff_ne]
        rintro rfl
        exact absurd hd (by decide)
      simp [scanConstant,constants,nonFiniteText,List.isPrefixOf?,hne]

/-- Printable ASCII. -/
def Printable (c : Char) : Prop := 0x20 ≤ c.toNat ∧ c.toNat ≤ 0x7e

instance (c : Char) : Decidable (Printable c) := inferInstanceAs (Decidable (_ ∧ _))

theorem not_isLineBreak {c : Char} (h : Printable c) : ¬ IsLineBreak c := by
  intro hbreak
  simp only [IsLineBreak,List.mem_cons,List.not_mem_nil,or_false] at hbreak
  rcases hbreak with rfl | rfl | rfl | rfl | rfl | rfl | rfl | rfl | rfl | rfl <;>
    exact absurd h (by decide)

theorem printable_of_isDigit {c : Char} (h : c.isDigit = true) : Printable c := by
  have hrange : 48 ≤ c.toNat ∧ c.toNat ≤ 57 := Char.isDigit_iff_toNat.mp h
  unfold Printable
  omega

theorem printable_escapeUnit (unit : CodePoint) : ∀ c ∈ escapeUnit unit, Printable c := by
  have hdigit : ∀ k < 16, Printable (Nat.digitChar k) := by decide
  have hmod : ∀ k, Printable (Nat.digitChar (k%16)) :=
    fun k => hdigit _ (Nat.mod_lt k (by norm_num))
  intro c hc
  simp only [escapeUnit,List.mem_cons,List.not_mem_nil,or_false] at hc
  rcases hc with rfl | rfl | rfl | rfl | rfl | rfl
  · decide
  · decide
  all_goals exact hmod _

theorem printable_escapeChar (c : CodePoint) : ∀ d ∈ escapeChar c, Printable d := by
  unfold escapeChar
  cases hfind : escapes.find? fun p => p.2.toNat = c.val with
  | some p =>
    have hescapes : ∀ p ∈ escapes, Printable p.1 := by decide
    have hback : Printable '\\' := by decide
    have hletter := hescapes p (List.mem_of_find?_eq_some hfind)
    exact List.forall_mem_cons.mpr ⟨hback,List.forall_mem_singleton.mpr hletter⟩
  | none =>
    dsimp only
    split_ifs with hprint
    · rw [List.forall_mem_singleton,Printable,Char.toNat_ofNat,if_pos (Or.inl (by omega))]
      exact hprint
    · intro d hd
      rcases List.mem_flatMap.mp hd with ⟨unit,-,hd⟩
      exact printable_escapeUnit unit d hd

theorem printable_quote (s : PyText) : ∀ c ∈ quote s, Printable c := by
  have hquote : Printable '"' := by decide
  intro c hc
  rcases List.mem_cons.mp hc with rfl | hc
  · exact hquote
  · rcases List.mem_append.mp hc with hc | hc
    · rcases List.mem_flatMap.mp hc with ⟨d,-,hc⟩
      exact printable_escapeChar d c hc
    · rw [List.mem_singleton.mp hc]
      exact hquote

theorem Integer.mem {cs : List Char} (h : Integer cs) : ∀ c ∈ cs, c.isDigit = true ∨ c = '-' := by
  have hnatural : ∀ {cs : List Char}, Natural cs → ∀ c ∈ cs, c.isDigit = true := by
    intro cs h
    cases h with
    | zero => simp
    | digits hc hne hcs => exact List.forall_mem_cons.mpr ⟨hc,hcs⟩
  cases h with
  | nonneg h => exact fun c hc => Or.inl (hnatural h c hc)
  | neg h => exact List.forall_mem_cons.mpr ⟨Or.inr rfl,fun c hc => Or.inl (hnatural h c hc)⟩

theorem Integer.printable {cs : List Char} (h : Integer cs) : ∀ c ∈ cs, Printable c := by
  intro c hc
  cases h.mem c hc with
  | inl hdigit => exact printable_of_isDigit hdigit
  | inr hminus =>
    rw [hminus]
    decide

theorem FloatNumeral.printable {cs : List Char} (h : FloatNumeral cs) : ∀ c ∈ cs, Printable c := by
  rcases h with ⟨integer,fraction,exponent,hinteger,hfraction,hexponent,-,rfl⟩
  simp only [List.forall_mem_append]
  refine ⟨⟨hinteger.printable,?_⟩,?_⟩
  · cases hfraction with
    | none => simp
    | digits hc hcs =>
      have hdigits : ∀ d ∈ _::_, Printable d := List.forall_mem_cons.mpr
        ⟨printable_of_isDigit hc,fun d hd => printable_of_isDigit (hcs d hd)⟩
      exact List.forall_mem_cons.mpr ⟨by decide,hdigits⟩
  · cases hexponent with
    | none => simp
    | digits he hsign hc hcs =>
      refine List.forall_mem_cons.mpr ⟨?_,List.forall_mem_append.mpr ⟨?_,List.forall_mem_cons.mpr
        ⟨printable_of_isDigit hc,fun d hd => printable_of_isDigit (hcs d hd)⟩⟩⟩
      · rcases he with rfl | rfl <;> decide
      · rcases hsign with rfl | rfl | rfl <;> simp [Printable]

end JsonText

end ContextResidency
