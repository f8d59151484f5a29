import ContextResidency.Library.Elimination

/-! Linear least squares through the normal equations, over any ordered field and in any number
of unknowns. A row of the data holds the coefficients of the unknowns and, last, the value that
is measured. -/
namespace ContextResidency

variable {F : Type} [Field F] {k : ℕ}

def residual (row : Fin (k+1) → F) (x : Fin k → F) : F :=
  ∑ j, row (Fin.castSucc j)*x j-row (Fin.last k)

def squaredError (rows : List (Fin (k+1) → F)) (x : Fin k → F) : F :=
  (rows.map fun row => residual row x^2).sum

/-- The products of the columns, those with the measured values last. -/
def normalEquations (rows : List (Fin (k+1) → F)) : LinearSystem F k :=
  fun i j => (rows.map fun row => row i.castSucc*row j).sum

/-- No two choices of the unknowns agree on every row. -/
def Determined (rows : List (Fin (k+1) → F)) : Prop :=
  ∀ x : Fin k → F, (∀ row ∈ rows, ∑ j, row (Fin.castSucc j)*x j = 0) → x = 0

theorem residual_eq (row : Fin (k+1) → F) (x : Fin k → F) :
    residual row x = ∑ j, row j*(Fin.snoc x (-1) : Fin (k+1) → F) j := by
  rw [residual,Fin.sum_univ_castSucc]
  simp [sub_eq_add_neg]

theorem residual_sub (row : Fin (k+1) → F) (x x' : Fin k → F) :
    residual row x' = residual row x+∑ j, row (Fin.castSucc j)*(x' j-x j) := by
  simp only [residual,mul_sub,Finset.sum_sub_distrib]
  ring

/-- Weighing the normal equations is summing, over the rows, what the weights and the vector
make of them. -/
theorem sum_mul_normalEquations (rows : List (Fin (k+1) → F)) (d : Fin k → F)
    (y : Fin (k+1) → F) : ∑ i, d i*(normalEquations rows).mulVec y i =
      (rows.map fun row => (∑ j, row (Fin.castSucc j)*d j)*∑ j, row j*y j).sum := by
  induction rows with
  | nil => simp [normalEquations,Matrix.mulVec,dotProduct]
  | cons row rows ih =>
    have hrow : ∀ i, (normalEquations (row::rows)).mulVec y i =
        row (Fin.castSucc i)*∑ j, row j*y j+(normalEquations rows).mulVec y i := by
      intro i
      simp only [normalEquations,Matrix.mulVec,dotProduct,List.map_cons,List.sum_cons,add_mul,
        Finset.sum_add_distrib,Finset.mul_sum,mul_assoc]
    simp only [hrow,mul_add,Finset.sum_add_distrib,ih,List.map_cons,List.sum_cons,add_left_inj]
    rw [Finset.sum_mul]
    exact Finset.sum_congr rfl fun i _ => by ring

/-- Around a solution of the normal equations the error grows by the squares of the change. -/
theorem squaredError_eq {rows : List (Fin (k+1) → F)} {x : Fin k → F}
    (hx : (normalEquations rows).Solves x) (x' : Fin k → F) :
    squaredError rows x' = squaredError rows x+
      (rows.map fun row => (∑ j, row (Fin.castSucc j)*(x' j-x j))^2).sum := by
  have hcross := sum_mul_normalEquations rows (fun j => x' j-x j) (Fin.snoc x (-1))
  simp only [LinearSystem.solves_iff.mp hx,Pi.zero_apply,mul_zero,Finset.sum_const_zero,
    ← residual_eq] at hcross
  have hrow : ∀ row : Fin (k+1) → F, residual row x'^2 = residual row x^2+
      ((∑ j, row (Fin.castSucc j)*(x' j-x j))^2+
        2*((∑ j, row (Fin.castSucc j)*(x' j-x j))*residual row x)) := by
    intro row
    rw [residual_sub row x x']
    ring
  simp only [squaredError,hrow,List.sum_map_add,List.sum_map_mul_left,← hcross,mul_zero,add_zero]

variable [LinearOrder F] [IsStrictOrderedRing F]

theorem sum_sq_nonneg {α : Type} (f : α → F) (l : List α) : 0 ≤ (l.map fun a => f a^2).sum :=
  List.sum_nonneg (by simp [sq_nonneg])

theorem squaredError_nonneg (rows : List (Fin (k+1) → F)) (x : Fin k → F) :
    0 ≤ squaredError rows x := sum_sq_nonneg _ _

theorem sum_sq_eq_zero {α : Type} {f : α → F} {l : List α} (h : (l.map fun a => f a^2).sum ≤ 0) :
    ∀ a ∈ l, f a = 0 := by
  intro a ha
  have hnonneg : ∀ x ∈ l.map fun a => f a^2, 0 ≤ x := by simp [sq_nonneg]
  have hle := List.single_le_sum hnonneg _ (List.mem_map_of_mem ha)
  exact (pow_eq_zero_iff two_ne_zero).mp (le_antisymm (hle.trans h) (sq_nonneg _))

theorem Determined.regular {rows : List (Fin (k+1) → F)} (h : Determined rows) :
    (normalEquations rows).Regular := by
  intro y hy hlast
  have hdot : ∀ row : Fin (k+1) → F,
      ∑ j, row j*y j = ∑ j, row (Fin.castSucc j)*y (Fin.castSucc j) := by
    intro row
    rw [Fin.sum_univ_castSucc,hlast,mul_zero,add_zero]
  have hsum := sum_mul_normalEquations rows (fun j => y (Fin.castSucc j)) y
  simp only [hy,Pi.zero_apply,mul_zero,Finset.sum_const_zero,hdot,← sq] at hsum
  have hzero := h _ (sum_sq_eq_zero hsum.ge)
  funext j
  cases j using Fin.lastCases with
  | last => exact hlast
  | cast j => exact congrFun hzero j

def leastSquares (rows : List (Fin (k+1) → F)) : Option (Fin k → F) :=
  (normalEquations rows).gaussJordan

/-- When the rows determine the unknowns, the elimination divides by no zero and finds the only
choice of least error. -/
theorem leastSquares_spec {rows : List (Fin (k+1) → F)} (h : Determined rows) :
    ∃ x, leastSquares rows = some x ∧ ∀ x', squaredError rows x ≤ squaredError rows x' ∧
      (squaredError rows x' ≤ squaredError rows x → x' = x) := by
  rcases LinearSystem.gaussJordan_spec h.regular with ⟨x,hx,hsolves,-⟩
  refine ⟨x,hx,fun x' => ?_⟩
  rw [squaredError_eq hsolves x']
  constructor
  · exact le_add_of_nonneg_right (sum_sq_nonneg _ _)
  · intro hle
    have hzero := h (fun j => x' j-x j) (sum_sq_eq_zero (by linarith))
    funext j
    exact sub_eq_zero.mp (congrFun hzero j)

end ContextResidency
