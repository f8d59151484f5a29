import Mathlib.Data.List.FinRange
import Mathlib.Data.List.MinMax
import Mathlib.LinearAlgebra.Matrix.RowCol
import Mathlib.Tactic

/-! Gauss-Jordan elimination with partial pivoting, over any ordered field and in any number of
unknowns. The matrix of a system has one column more than rows, which holds the right-hand
side. A vector solves the system when the matrix annihilates it, extended by minus one, and
every row operation keeps the vectors that the matrix annihilates. -/
namespace ContextResidency

variable {F : Type} [Field F] [LinearOrder F] {n : ℕ}

/-- A square system with its right-hand side in the last column. -/
abbrev LinearSystem (F : Type) (n : ℕ) := Matrix (Fin n) (Fin (n+1)) F

namespace LinearSystem

/-- The first row from `col` on whose entry in `col` is largest in absolute value. -/
def pivotRow (m : LinearSystem F n) (col : Fin n) : Fin n :=
  (((List.finRange n).filter (col ≤ ·)).argmax fun r => |m r col.castSucc|).getD col

def swapRows (m : LinearSystem F n) (a b : Fin n) : LinearSystem F n :=
  m.submatrix (Equiv.swap a b) id

/-- Subtract the multiple of the row `col` that clears the entry in `col`. A quotient by zero
raises. -/
def clearRow (col : Fin n) (m : LinearSystem F n) (r : Fin n) : Option (LinearSystem F n) :=
  if r = col then some m
  else if m col col.castSucc = 0 then none
  else
    let factor := m r col.castSucc/m col col.castSucc
    some (m.updateRow r fun j => m r j-factor*m col j)

/-- Move the pivot into place and clear the rest of its column. -/
def eliminateColumn (m : LinearSystem F n) (col : Fin n) : Option (LinearSystem F n) :=
  (List.finRange n).foldlM (clearRow col) (m.swapRows col (m.pivotRow col))

/-- Eliminate column after column, then divide by the diagonal. -/
def gaussJordan (m : LinearSystem F n) : Option (Fin n → F) :=
  match (List.finRange n).foldlM eliminateColumn m with
  | none => none
  | some m =>
    if ∀ i, m i (Fin.castSucc i) ≠ 0 then some fun i => m i (Fin.last n)/m i (Fin.castSucc i)
    else none

def Solves (m : LinearSystem F n) (x : Fin n → F) : Prop :=
  ∀ r, ∑ j, m r (Fin.castSucc j)*x j = m r (Fin.last n)

def SameKernel (m m' : LinearSystem F n) : Prop := ∀ y, m.mulVec y = 0 ↔ m'.mulVec y = 0

/-- No combination of the columns before the last one vanishes. -/
def Regular (m : LinearSystem F n) : Prop :=
  ∀ y, m.mulVec y = 0 → y (Fin.last n) = 0 → y = 0

/-- The columns before `k` are those of a diagonal matrix without zeros on the diagonal. -/
def ReducedTo (k : ℕ) (m : LinearSystem F n) : Prop :=
  ∀ j : Fin n, j.val < k → m j j.castSucc ≠ 0 ∧ ∀ r, r ≠ j → m r j.castSucc = 0

section Rows

omit [LinearOrder F]

variable {m : LinearSystem F n} {col : Fin n}

theorem mulVec_snoc (m : LinearSystem F n) (x : Fin n → F) (c : F) (r : Fin n) :
    m.mulVec (Fin.snoc x c) r = ∑ j, m r (Fin.castSucc j)*x j+m r (Fin.last n)*c := by
  rw [Matrix.mulVec,dotProduct,Fin.sum_univ_castSucc]
  simp

theorem solves_iff {x : Fin n → F} : m.Solves x ↔ m.mulVec (Fin.snoc x (-1)) = 0 := by
  simp only [Solves,funext_iff,mulVec_snoc,Pi.zero_apply,mul_neg_one,add_neg_eq_zero]

theorem SameKernel.solves {m' : LinearSystem F n} (h : SameKernel m m') {x : Fin n → F} :
    m.Solves x ↔ m'.Solves x := by
  rw [solves_iff,solves_iff,h]

theorem SameKernel.trans {m' m'' : LinearSystem F n} (h : SameKernel m m')
    (h' : SameKernel m' m'') : SameKernel m m'' := fun y => (h y).trans (h' y)

theorem SameKernel.regular {m' : LinearSystem F n} (h : SameKernel m m') (hm : Regular m) :
    Regular m' := fun y hy => hm y ((h y).mpr hy)

theorem Regular.unique (h : Regular m) {x x' : Fin n → F} (hx : m.Solves x) (hx' : m.Solves x') :
    x' = x := by
  have hzero : (Fin.snoc (x'-x) 0 : Fin (n+1) → F) = 0 := by
    apply h
    · funext r
      have hr := hx r
      have hr' := hx' r
      simp only [mulVec_snoc,Pi.sub_apply,mul_sub,Finset.sum_sub_distrib,hr,hr']
      simp
    · simp
  funext j
  have hj := congrFun hzero (Fin.castSucc j)
  simpa [sub_eq_zero] using hj

theorem sameKernel_swapRows (m : LinearSystem F n) (a b : Fin n) :
    SameKernel m (m.swapRows a b) := by
  intro y
  have hrow : ∀ r, (m.swapRows a b).mulVec y r = m.mulVec y (Equiv.swap a b r) := fun r => rfl
  simp only [funext_iff,hrow,Pi.zero_apply]
  exact (Equiv.swap a b).forall_congr_right.symm

def clearRows (m : LinearSystem F n) (col : Fin n) (rows : List (Fin n)) : LinearSystem F n :=
  fun r j => if r ∈ rows ∧ r ≠ col then m r j-m r col.castSucc/m col col.castSucc*m col j else m r j

theorem clearRows_pivot (m : LinearSystem F n) (col : Fin n) (rows : List (Fin n)) :
    m.clearRows col rows col = m col := by
  funext j
  simp [clearRows]

theorem mulVec_clearRows (m : LinearSystem F n) {r : Fin n} (y : Fin (n+1) → F) (hr : r ≠ col) :
    (m.clearRows col (List.finRange n)).mulVec y r =
      m.mulVec y r-m r col.castSucc/m col col.castSucc*m.mulVec y col := by
  simp only [Matrix.mulVec,dotProduct,Finset.mul_sum]
  rw [← Finset.sum_sub_distrib]
  refine Finset.sum_congr rfl fun j _ => ?_
  simp only [clearRows,List.mem_finRange,hr,ne_eq,not_false_eq_true,and_self,if_true]
  ring

theorem sameKernel_clearRows (m : LinearSystem F n) (col : Fin n) :
    SameKernel m (m.clearRows col (List.finRange n)) := by
  intro y
  have hcol : (m.clearRows col (List.finRange n)).mulVec y col = m.mulVec y col := by
    simp only [Matrix.mulVec,clearRows_pivot]
  constructor
  · intro h
    funext r
    by_cases hr : r = col
    · rw [hr,hcol,h]
    · rw [mulVec_clearRows m y hr,h]
      simp
  · intro h
    have hpivot : m.mulVec y col = 0 := by rw [← hcol,h,Pi.zero_apply]
    funext r
    by_cases hr : r = col
    · rw [hr,hpivot,Pi.zero_apply]
    · have hrow := congrFun h r
      rwa [mulVec_clearRows m y hr,hpivot,mul_zero,sub_zero] at hrow

/-- When the columns before `col` are diagonal, the weights with which they add up to `col`. -/
def combination (m : LinearSystem F n) (col : Fin n) : Fin n → F := fun j =>
  if j = col then 1 else if j < col then -(m j col.castSucc/m j j.castSucc) else 0

/-- Without a pivot, the column is a combination of the columns before it. -/
theorem mulVec_combination (hreduced : ReducedTo col.val m)
    (hpivot : ∀ r, col ≤ r → m r col.castSucc = 0) :
    m.mulVec (Fin.snoc (m.combination col) 0) = 0 := by
  funext r
  rw [mulVec_snoc,mul_zero,add_zero,Pi.zero_apply]
  have hother : ∀ j, j ≠ r ∧ j ≠ col → m r j.castSucc*m.combination col j = 0 := by
    rintro j ⟨hr,hcol⟩
    by_cases hj : j < col
    · rw [(hreduced j hj).2 r hr.symm,zero_mul]
    · simp [combination,hj,hcol]
  by_cases hr : r < col
  · rw [Fintype.sum_eq_add r col hr.ne hother]
    have hdiag := (hreduced r hr).1
    simp only [combination,hr.ne,hr,if_true,if_false]
    field_simp
    ring
  · have hcol := hpivot r (not_lt.mp hr)
    refine Finset.sum_eq_zero fun j _ => ?_
    by_cases hj : j = r ∨ j = col
    · rcases hj with rfl | rfl
      · by_cases hj : j = col
        · rw [hj] at hcol ⊢
          rw [hcol,zero_mul]
        · simp [combination,hr,hj]
      · rw [hcol,zero_mul]
    · exact hother j (not_or.mp hj)

theorem ReducedTo.swapRows (h : ReducedTo col.val m) {p : Fin n} (hp : col ≤ p) :
    ReducedTo col.val (m.swapRows col p) := by
  intro j hj
  have hfixed : Equiv.swap col p j = j :=
    Equiv.swap_apply_of_ne_of_ne (Fin.ne_of_lt hj) (Fin.ne_of_lt (lt_of_lt_of_le hj hp))
  constructor
  · show m (Equiv.swap col p j) j.castSucc ≠ 0
    rw [hfixed]
    exact (h j hj).1
  · intro r hr
    refine (h j hj).2 (Equiv.swap col p r) fun hswap => hr ?_
    rw [← hfixed] at hswap
    exact (Equiv.swap col p).injective hswap

theorem ReducedTo.clearRows (h : ReducedTo col.val m) (hpivot : m col col.castSucc ≠ 0) :
    ReducedTo (col.val+1) (m.clearRows col (List.finRange n)) := by
  intro j hj
  cases (Nat.lt_succ_iff_lt_or_eq.mp hj) with
  | inl hj =>
    have hcol : m col j.castSucc = 0 := (h j hj).2 col (Fin.ne_of_gt hj)
    have hsame : ∀ r, m.clearRows col (List.finRange n) r j.castSucc = m r j.castSucc := by
      intro r
      simp [LinearSystem.clearRows,hcol]
    simp only [hsame]
    exact h j hj
  | inr hj =>
    rw [Fin.ext hj,clearRows_pivot]
    refine ⟨hpivot,fun r hr => ?_⟩
    simp [LinearSystem.clearRows,hr,hpivot]

theorem ReducedTo.solves (h : ReducedTo n m) :
    m.Solves fun i => m i (Fin.last n)/m i (Fin.castSucc i) := by
  intro r
  rw [Finset.sum_eq_single r]
  · exact mul_div_cancel₀ _ (h r r.isLt).1
  · intro j _ hj
    rw [(h j j.isLt).2 r hj.symm,zero_mul]
  · intro hr
    exact absurd (Finset.mem_univ r) hr

end Rows

theorem foldlM_clearRow {m : LinearSystem F n} {col : Fin n} (hpivot : m col col.castSucc ≠ 0)
    {rows : List (Fin n)} (hrows : rows.Nodup) :
    rows.foldlM (clearRow col) m = some (m.clearRows col rows) := by
  induction rows using List.reverseRecOn with
  | nil =>
    simp only [List.foldlM_nil,Option.pure_def,Option.some.injEq]
    funext r j
    simp [clearRows]
  | append_singleton rows r ih =>
    have hnew : r ∉ rows := fun hr => (List.nodup_append'.mp hrows).2.2 hr (by simp)
    rw [List.foldlM_append,ih (List.nodup_append'.mp hrows).1]
    simp only [Option.bind_eq_bind,Option.bind_some,List.foldlM_cons,List.foldlM_nil]
    have hrow : m.clearRows col rows r = m r := by
      funext j
      simp [clearRows,hnew]
    by_cases hr : r = col
    · simp only [clearRow,if_pos hr,Option.bind_some,Option.pure_def,Option.some.injEq]
      funext s j
      by_cases hs : s = col
      · simp [clearRows,hs]
      · simp [clearRows,hs,hr]
    · simp only [clearRow,if_neg hr,clearRows_pivot,if_neg hpivot,hrow,Option.bind_some,
        Option.pure_def,Option.some.injEq]
      funext s j
      by_cases hs : s = r
      · simp [clearRows,hs,hr]
      · simp [clearRows,hs,Matrix.updateRow_ne]

theorem pivotRow_spec (m : LinearSystem F n) (col : Fin n) : col ≤ m.pivotRow col ∧
    ∀ r, col ≤ r → |m r col.castSucc| ≤ |m (m.pivotRow col) col.castSucc| := by
  unfold pivotRow
  have hmem : ∀ r, r ∈ (List.finRange n).filter (col ≤ ·) ↔ col ≤ r := by simp
  cases h : ((List.finRange n).filter (col ≤ ·)).argmax fun r => |m r col.castSucc| with
  | none =>
    rw [List.argmax_eq_none] at h
    exact absurd ((hmem col).mpr le_rfl) (by rw [h]; exact List.not_mem_nil)
  | some p =>
    refine ⟨(hmem p).mp (List.argmax_mem h),fun r hr => ?_⟩
    exact @List.le_of_mem_argmax _ _ _ (fun r => |m r col.castSucc|) _ _ _ ((hmem r).mpr hr) h

section Pivot

variable [IsStrictOrderedRing F] {m : LinearSystem F n} {col : Fin n}

/-- In a regular system the largest entry is never zero. -/
theorem Regular.pivot (h : Regular m) (hreduced : ReducedTo col.val m) :
    m (m.pivotRow col) col.castSucc ≠ 0 := by
  intro hzero
  have hlargest := (m.pivotRow_spec col).2
  rw [hzero,abs_zero] at hlargest
  have hvanish := h _ (mulVec_combination hreduced fun r hr => abs_nonpos_iff.mp (hlargest r hr))
    (by simp)
  have hone := congrFun hvanish col.castSucc
  simp [combination] at hone

theorem eliminateColumn_spec (h : Regular m) (hreduced : ReducedTo col.val m) :
    ∃ m', m.eliminateColumn col = some m' ∧ SameKernel m m' ∧ ReducedTo (col.val+1) m' := by
  have hpivot : m.swapRows col (m.pivotRow col) col col.castSucc ≠ 0 := by
    show m (Equiv.swap col (m.pivotRow col) col) col.castSucc ≠ 0
    rw [Equiv.swap_apply_left]
    exact h.pivot hreduced
  refine ⟨_,foldlM_clearRow hpivot (List.nodup_finRange n),?_,?_⟩
  · exact (sameKernel_swapRows m _ _).trans (sameKernel_clearRows _ col)
  · exact (hreduced.swapRows (m.pivotRow_spec col).1).clearRows hpivot

theorem eliminateColumns_spec (h : Regular m) {cols : List (Fin n)}
    (hcols : cols.map (·.val) = List.range cols.length) :
    ∃ m', cols.foldlM eliminateColumn m = some m' ∧ SameKernel m m' ∧ ReducedTo cols.length m' := by
  induction cols using List.reverseRecOn with
  | nil => exact ⟨m,rfl,fun _ => Iff.rfl,fun j hj => absurd hj (Nat.not_lt_zero j.val)⟩
  | append_singleton cols col ih =>
    simp only [List.map_append,List.length_append,List.map_cons,List.map_nil,List.length_singleton,
      List.range_succ] at hcols
    have hlast := List.append_inj' hcols rfl
    have hcol : col.val = cols.length := List.singleton_inj.mp hlast.2
    rcases ih hlast.1 with ⟨m',hm',hkernel,hreduced⟩
    rw [← hcol] at hreduced
    rcases eliminateColumn_spec (hkernel.regular h) hreduced with ⟨m'',hm'',hkernel',hreduced'⟩
    refine ⟨m'',?_,hkernel.trans hkernel',?_⟩
    · rw [List.foldlM_append,hm']
      simpa using hm''
    · rwa [List.length_append,← hcol]

/-- On a regular system the elimination divides by no zero and returns the only solution. -/
theorem gaussJordan_spec (h : Regular m) :
    ∃ x, m.gaussJordan = some x ∧ m.Solves x ∧ ∀ x', m.Solves x' → x' = x := by
  have hcols : (List.finRange n).map (·.val) = List.range (List.finRange n).length := by
    rw [List.length_finRange,List.map_coe_finRange_eq_range]
  rcases eliminateColumns_spec h hcols with ⟨m',hm',hkernel,hreduced⟩
  rw [List.length_finRange] at hreduced
  have hsolves := hkernel.solves.mpr hreduced.solves
  refine ⟨_,?_,hsolves,fun x' hx' => h.unique hsolves hx'⟩
  simp only [gaussJordan,hm']
  exact if_pos fun i => (hreduced i i.isLt).1

end Pivot

end LinearSystem

end ContextResidency
