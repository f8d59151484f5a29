import Mathlib.Algebra.Order.Field.Basic
import Mathlib.Tactic

/-! Moving averages of the gaps of a sequence. The average starts with the first gap, and each
later one enters with a weight of its own while the past keeps the other weight. A past that
keeps some weight is never forgotten: averages that differ once differ ever after. -/
namespace ContextResidency

variable {F : Type} [Field F]

def gaps : List F → List F
  | a::b::rest => (b-a)::gaps (b::rest)
  | _ => []

@[simp] theorem gaps_cons_cons (a b : F) (rest : List F) :
    gaps (a::b::rest) = (b-a)::gaps (b::rest) := rfl

theorem gaps_replicate_append (z : ℕ) (a b : F) (rest : List F) :
    gaps (List.replicate (z+1) a ++ b::rest) =
      List.replicate z 0 ++ (b-a)::gaps (b::rest) := by
  induction z with
  | zero => rfl
  | succ z ih =>
    have hfirst : List.replicate (z+1+1) a ++ b::rest =
        a::a::(List.replicate z a ++ b::rest) := rfl
    have hrest : a::(List.replicate z a ++ b::rest) = List.replicate (z+1) a ++ b::rest := rfl
    rw [hfirst,gaps_cons_cons,hrest,ih,sub_self]
    rfl

/-- One more value, with the weights of the past and of the value. -/
def blend (past new ema g : F) : F := past*ema+new*g

def movingAverage (past new : F) : List F → Option F
  | [] => none
  | g::gs => some (gs.foldl (blend past new) g)

variable {past new : F}

theorem foldl_blend_injective (hpast : past ≠ 0) (gs : List F) :
    Function.Injective fun ema => gs.foldl (blend past new) ema := by
  induction gs with
  | nil => exact Function.injective_id
  | cons g gs ih =>
    intro e e' h
    have hfirst : blend past new e g = blend past new e' g := ih h
    exact mul_left_cancel₀ hpast (add_right_cancel hfirst)

theorem foldl_blend_zeros (z : ℕ) : (List.replicate z 0).foldl (blend past new) 0 = 0 := by
  induction z with
  | zero => rfl
  | succ z ih =>
    have hstill : blend past new 0 0 = 0 := by simp [blend]
    rw [List.replicate_succ,List.foldl_cons,hstill,ih]

theorem movingAverage_eq_none {gs : List F} : movingAverage past new gs = none ↔ gs = [] := by
  cases gs <;> simp [movingAverage]

/-- The average over some gaps of zero and two more gaps. -/
theorem movingAverage_zeros (z : ℕ) (g h : F) (gs : List F) :
    movingAverage past new (List.replicate z 0 ++ g::h::gs) =
      some (gs.foldl (blend past new) (blend past new (if z = 0 then g else new*g) h)) := by
  cases z with
  | zero => rfl
  | succ z =>
    rw [List.replicate_succ,List.cons_append,movingAverage,List.foldl_append,foldl_blend_zeros]
    have hfirst : blend past new 0 g = new*g := by rw [blend,mul_zero,zero_add]
    rw [List.foldl_cons,List.foldl_cons,hfirst,if_neg (Nat.succ_ne_zero z)]

end ContextResidency
