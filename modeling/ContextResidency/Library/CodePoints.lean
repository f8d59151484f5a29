import Mathlib.Data.List.Chain
import Mathlib.Data.List.Basic
import Mathlib.Tactic

/-! Text as Python keeps it: any sequence of code points, surrogates included, and the lines of
a text file. Escapes of sixteen bits each cannot tell a code point beyond them from the two
surrogates that stand for it, so reading such escapes joins surrogates that meet. -/
namespace ContextResidency

-- Named, so that the numerals of this type are the same in every module that writes one.
instance neZero_codePoints : NeZero 0x110000 := inferInstance

abbrev CodePoint := Fin 0x110000

/-- A string of Python. -/
abbrev PyText := List CodePoint

namespace CodePoint

def IsHigh (c : CodePoint) : Prop := 0xd800 ≤ c.val ∧ c.val < 0xdc00

def IsLow (c : CodePoint) : Prop := 0xdc00 ≤ c.val ∧ c.val < 0xe000

instance (c : CodePoint) : Decidable c.IsHigh := inferInstanceAs (Decidable (_ ∧ _))

instance (c : CodePoint) : Decidable c.IsLow := inferInstanceAs (Decidable (_ ∧ _))

/-- The code point that a high and a low surrogate stand for. -/
def join (high low : CodePoint) : CodePoint :=
  Fin.ofNat _ (0x10000+(high.val-0xd800)*0x400+(low.val-0xdc00))

/-- The sixteen-bit units of a code point. -/
def units (c : CodePoint) : List CodePoint :=
  if c.val < 0x10000 then [c]
  else [Fin.ofNat _ (0xd800+(c.val-0x10000)/0x400),Fin.ofNat _ (0xdc00+(c.val-0x10000)%0x400)]

theorem units_of_lt {c : CodePoint} (h : c.val < 0x10000) : c.units = [c] := if_pos h

theorem val_join {high low : CodePoint} (hhigh : high.IsHigh) (hlow : low.IsLow) :
    (join high low).val = 0x10000+(high.val-0xd800)*0x400+(low.val-0xdc00) := by
  have h := hhigh
  have h' := hlow
  unfold IsHigh at h
  unfold IsLow at h'
  exact Nat.mod_eq_of_lt (by omega)

/-- Beyond sixteen bits the units are a high and a low surrogate, which join again. -/
theorem units_of_ge {c : CodePoint} (h : ¬ c.val < 0x10000) :
    ∃ high low : CodePoint, c.units = [high,low] ∧ high.IsHigh ∧ low.IsLow ∧ join high low = c := by
  have hc := c.isLt
  have hhigh : (Fin.ofNat 0x110000 (0xd800+(c.val-0x10000)/0x400)).val =
      0xd800+(c.val-0x10000)/0x400 := Nat.mod_eq_of_lt (by omega)
  have hlow : (Fin.ofNat 0x110000 (0xdc00+(c.val-0x10000)%0x400)).val =
      0xdc00+(c.val-0x10000)%0x400 := Nat.mod_eq_of_lt (by omega)
  have hh : IsHigh (Fin.ofNat 0x110000 (0xd800+(c.val-0x10000)/0x400)) := by
    unfold IsHigh
    omega
  have hl : IsLow (Fin.ofNat 0x110000 (0xdc00+(c.val-0x10000)%0x400)) := by
    unfold IsLow
    omega
  refine ⟨_,_,if_neg h,hh,hl,Fin.ext ?_⟩
  rw [val_join hh hl,hhigh,hlow]
  omega

end CodePoint

namespace PyText

open CodePoint

def ofString (s : String) : PyText := s.toList.map fun c => Fin.ofNat _ c.toNat

/-- Every high surrogate that meets a low one is joined to it. -/
def joinSurrogates : PyText → PyText
  | a::b::s => if a.IsHigh ∧ b.IsLow then join a b::joinSurrogates s else a::joinSurrogates (b::s)
  | s => s

/-- No high surrogate meets a low one. -/
def Separate (s : PyText) : Prop := s.IsChain fun a b => ¬ (a.IsHigh ∧ b.IsLow)

instance (s : PyText) : Decidable s.Separate := inferInstanceAs (Decidable (List.IsChain _ _))

theorem joinSurrogates_cons {a : CodePoint} {s : PyText}
    (h : a.IsHigh → ∀ b ∈ s.head?, ¬ b.IsLow) : joinSurrogates (a::s) = a::joinSurrogates s := by
  cases s with
  | nil => rfl
  | cons b s =>
    refine if_neg ?_
    rintro ⟨ha,hb⟩
    exact h ha b rfl hb

theorem joinSurrogates_pair {a b : CodePoint} (ha : a.IsHigh) (hb : b.IsLow) (s : PyText) :
    joinSurrogates (a::b::s) = join a b::joinSurrogates s := if_pos ⟨ha,hb⟩

theorem eq_nil_or_singleton {s : PyText} (hs : ∀ a b t, s = a::b::t → False) :
    s = [] ∨ ∃ a, s = [a] := by
  cases s with
  | nil => exact Or.inl rfl
  | cons a s =>
    cases s with
    | nil => exact Or.inr ⟨a,rfl⟩
    | cons b s => exact absurd rfl (hs a b s)

/-- Joining undoes the split into units, up to the surrogates that met before. -/
theorem joinSurrogates_units (s : PyText) :
    joinSurrogates (s.flatMap units) = joinSurrogates s := by
  induction s using joinSurrogates.induct with
  | case1 a b s hpair ih =>
    rcases hpair with ⟨ha,hb⟩
    have halt : a.val < 0x10000 := ha.2.trans (by norm_num)
    have hblt : b.val < 0x10000 := hb.2.trans (by norm_num)
    rw [List.flatMap_cons,List.flatMap_cons,units_of_lt halt,units_of_lt hblt]
    show joinSurrogates (a::b::s.flatMap units) = _
    rw [joinSurrogates_pair ha hb,joinSurrogates_pair ha hb,ih]
  | case2 a b s hpair ih =>
    rw [List.flatMap_cons]
    have hright : joinSurrogates (a::b::s) = a::joinSurrogates (b::s) := if_neg hpair
    rw [hright,← ih]
    by_cases halt : a.val < 0x10000
    · rw [units_of_lt halt]
      refine joinSurrogates_cons fun ha c hc => ?_
      rw [List.flatMap_cons] at hc
      by_cases hblt : b.val < 0x10000
      · rw [units_of_lt hblt] at hc
        cases hc
        exact fun hb => hpair ⟨ha,hb⟩
      · rcases units_of_ge hblt with ⟨high,low,hunits,hhigh,-,-⟩
        rw [hunits] at hc
        cases hc
        exact fun hlow => absurd hhigh.2 (not_lt.mpr hlow.1)
    · rcases units_of_ge halt with ⟨high,low,hunits,hhigh,hlow,hjoin⟩
      rw [hunits]
      show joinSurrogates (high::low::(b::s).flatMap units) = _
      rw [joinSurrogates_pair hhigh hlow,hjoin]
  | case3 s hs =>
    rcases eq_nil_or_singleton hs with rfl | ⟨a,rfl⟩
    · rfl
    · by_cases halt : a.val < 0x10000
      · rw [List.flatMap_singleton,units_of_lt halt]
      · rcases units_of_ge halt with ⟨high,low,hunits,hhigh,hlow,hjoin⟩
        rw [List.flatMap_singleton,hunits,joinSurrogates_pair hhigh hlow,hjoin]
        rfl

theorem joinSurrogates_eq_iff (s : PyText) : joinSurrogates s = s ↔ s.Separate := by
  induction s using joinSurrogates.induct with
  | case1 a b s hpair ih =>
    rw [joinSurrogates_pair hpair.1 hpair.2,Separate,List.isChain_cons_cons]
    constructor
    · intro h
      have hval := congrArg Fin.val (List.cons.inj h).1
      rw [val_join hpair.1 hpair.2] at hval
      have ha := hpair.1.2
      omega
    · exact fun h => absurd hpair h.1
  | case2 a b s hpair ih =>
    have hleft : joinSurrogates (a::b::s) = a::joinSurrogates (b::s) := if_neg hpair
    rw [hleft,Separate,List.isChain_cons_cons,List.cons.injEq,ih]
    simp only [true_and,hpair,not_false_eq_true,Separate]
  | case3 s hs =>
    rcases eq_nil_or_singleton hs with rfl | ⟨a,rfl⟩ <;> simp [joinSurrogates,Separate]

theorem val_ofNat_toNat (c : Char) : (Fin.ofNat 0x110000 c.toNat).val = c.toNat := by
  have hvalid : c.toNat < 0xd800 ∨ 0xdfff < c.toNat ∧ c.toNat < 0x110000 := c.valid
  exact Nat.mod_eq_of_lt (by omega)

theorem ofString_inj {s s' : String} : ofString s = ofString s' ↔ s = s' := by
  constructor
  · intro h
    refine String.toList_injective (List.map_injective_iff.mpr ?_ h)
    intro c c' hc
    have hval := congrArg Fin.val hc
    rw [val_ofNat_toNat,val_ofNat_toNat] at hval
    exact Char.toNat_inj.mp hval
  · rintro rfl
    rfl

theorem not_isHigh_of_mem_ofString {s : String} {a : CodePoint} (ha : a ∈ ofString s) :
    ¬ a.IsHigh := by
  rcases List.mem_map.mp ha with ⟨c,-,rfl⟩
  have hvalid : c.toNat < 0xd800 ∨ 0xdfff < c.toNat ∧ c.toNat < 0x110000 := c.valid
  unfold IsHigh
  rw [val_ofNat_toNat]
  omega

theorem separate_ofString (s : String) : (ofString s).Separate := by
  refine List.isChain_iff_forall_rel_of_append_cons_cons.mpr fun {a b front back} h hpair => ?_
  have ha : a ∈ ofString s := by
    rw [h]
    exact List.mem_append_right _ List.mem_cons_self
  exact not_isHigh_of_mem_ofString ha hpair.1

theorem joinSurrogates_ofString (s : String) : (ofString s).joinSurrogates = ofString s :=
  (joinSurrogates_eq_iff _).mpr (separate_ofString s)

end PyText

/-- Where `str.splitlines` splits. -/
def IsLineBreak (c : Char) : Prop :=
  c ∈ ['\n','\r','\x0b','\x0c','\x1c','\x1d','\x1e','\x85','\u2028','\u2029']

instance (c : Char) : Decidable (IsLineBreak c) := inferInstanceAs (Decidable (_ ∈ _))

/-- `text.splitlines()` -/
def splitlines : List Char → List (List Char)
  | [] => []
  | '\r' :: '\n' :: cs => []::splitlines cs
  | c::cs =>
    if IsLineBreak c then []::splitlines cs
    else match splitlines cs with
      | [] => [[c]]
      | line::lines => (c::line)::lines

/-- A line without breaks in it is read as it was written. -/
theorem splitlines_append {line : List Char} (h : ∀ c ∈ line, ¬ IsLineBreak c) (cs : List Char) :
    splitlines (line ++ '\n'::cs) = line::splitlines cs := by
  induction line with
  | nil => simp [splitlines,IsLineBreak]
  | cons c line ih =>
    rcases List.forall_mem_cons.mp h with ⟨hc,hline⟩
    have hreturn : c ≠ '\r' := by
      rintro rfl
      exact hc (by decide)
    rw [List.cons_append,splitlines]
    · rw [if_neg hc,ih hline]
    · exact fun _ hr => absurd hr hreturn

end ContextResidency
