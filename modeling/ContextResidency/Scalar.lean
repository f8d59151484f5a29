import Mathlib.Algebra.Order.Floor.Ring
import Mathlib.Data.Rat.Floor
import Mathlib.Analysis.SpecialFunctions.Pow.Real
import Mathlib.Tactic

/-! Exact arithmetic for the quantities that the source keeps in floats: times,
rates, probabilities and densities. The scalars are an arbitrary linearly ordered
field with a floor, and the two library functions of the source are operations of
it. The reals are the intended reading; the rationals run. As everywhere in such
a field, a quotient by zero is zero where the source would raise. -/
namespace ContextResidency

section Numerals

/-! The numerals that several modules write. That such a number is at least two is proved once
and named here: otherwise each module makes a lemma of its own of it, and one definition in
terms of the other no longer means the same in both. -/

instance atLeastTwo_2 : Nat.AtLeastTwo 2 := inferInstance
instance atLeastTwo_3 : Nat.AtLeastTwo 3 := inferInstance
instance atLeastTwo_4 : Nat.AtLeastTwo 4 := inferInstance
instance atLeastTwo_5 : Nat.AtLeastTwo 5 := inferInstance
instance atLeastTwo_6 : Nat.AtLeastTwo 6 := inferInstance
instance atLeastTwo_7 : Nat.AtLeastTwo 7 := inferInstance
instance atLeastTwo_8 : Nat.AtLeastTwo 8 := inferInstance
instance atLeastTwo_9 : Nat.AtLeastTwo 9 := inferInstance
instance atLeastTwo_10 : Nat.AtLeastTwo 10 := inferInstance
instance atLeastTwo_20 : Nat.AtLeastTwo 20 := inferInstance
instance atLeastTwo_55 : Nat.AtLeastTwo 55 := inferInstance
instance atLeastTwo_60 : Nat.AtLeastTwo 60 := inferInstance
instance atLeastTwo_100 : Nat.AtLeastTwo 100 := inferInstance
instance atLeastTwo_120 : Nat.AtLeastTwo 120 := inferInstance
instance atLeastTwo_264 : Nat.AtLeastTwo 264 := inferInstance
instance atLeastTwo_900 : Nat.AtLeastTwo 900 := inferInstance
instance atLeastTwo_1000 : Nat.AtLeastTwo 1000 := inferInstance
instance atLeastTwo_1024 : Nat.AtLeastTwo 1024 := inferInstance
instance atLeastTwo_11100 : Nat.AtLeastTwo 11100 := inferInstance
instance atLeastTwo_57753 : Nat.AtLeastTwo 57753 := inferInstance

end Numerals

class Scalar (F : Type) extends Field F, LinearOrder F, IsStrictOrderedRing F, FloorRing F where
  exp : F → F
  pow : F → F → F

noncomputable instance : Scalar ℝ where
  exp := Real.exp
  pow := (· ^ ·)

/-- On rationals the exponential is the compound-interest approximation, and a
power rounds its exponent down. -/
instance : Scalar ℚ where
  exp x := (1+x/1024)^1024
  pow x y := x^⌊y⌋

variable {F : Type} [Scalar F]

/-- `int(x)`: truncation toward zero. -/
def truncate (x : F) : ℤ := if 0 ≤ x then ⌊x⌋ else ⌈x⌉

/-- `round(x)`: the nearest integer, and the even one of two nearest integers. -/
def roundHalfEven (x : F) : ℤ :=
  let low := ⌊x⌋
  let rest := x-low
  if rest < 1/2 then low
  else if 1/2 < rest then low+1
  else if low % 2 = 0 then low else low+1

/-- Rounding moves a number by half a unit at most. -/
theorem abs_roundHalfEven_sub_le (x : F) : |(roundHalfEven x : F)-x| ≤ 1/2 := by
  have hlow := Int.floor_le x
  have hhigh := Int.lt_floor_add_one x
  rw [abs_le]
  unfold roundHalfEven
  dsimp only
  split_ifs with hbelow habove
  · constructor <;> linarith
  · push_cast
    constructor <;> linarith
  · constructor <;> linarith
  · push_cast
    constructor <;> linarith

@[gcongr] theorem truncate_mono {x y : F} (h : x ≤ y) : truncate x ≤ truncate y := by
  unfold truncate
  split_ifs with hx hy hy
  · exact Int.floor_le_floor h
  · exact absurd (hx.trans h) hy
  · exact (Int.ceil_nonpos.mpr (not_le.mp hx).le).trans (Int.floor_nonneg.mpr hy)
  · exact Int.ceil_le_ceil h

theorem truncate_nonneg {x : F} (h : 0 ≤ x) : 0 ≤ truncate x := by
  simpa [truncate,h] using Int.floor_nonneg.mpr h

theorem truncate_nonpos {x : F} (h : x ≤ 0) : truncate x ≤ 0 := by
  have h0 : truncate (0 : F) = 0 := by simp [truncate]
  exact h0 ▸ truncate_mono h

end ContextResidency
