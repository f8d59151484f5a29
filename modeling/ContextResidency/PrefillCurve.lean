import ContextResidency.Library.LeastSquares

/-! The calibration of the recompute cost: cold prefill times are fitted by a quadratic in the
number of tokens. Times and token counts are exact here; the source keeps them in floats. -/
namespace ContextResidency

variable {F : Type} [Field F] [LinearOrder F]

/-- One measurement as a row of the linear system: the powers of `n`, then the time. -/
def curveRow (point : F × F) : Fin 4 → F := ![1,point.1,point.1*point.1,point.2]

/-- `T(n) = a + b·n + c·n²` on tokens and seconds, by the normal equations for three unknowns.
A division by zero raises. -/
def fitQuadratic (points : List (F × F)) : Option (F × F × F) :=
  (normalEquations (points.map curveRow)).gaussJordan.map fun x => (x 0,x 1,x 2)

/-- The squares by which a quadratic misses the measurements. -/
def curveError (points : List (F × F)) (a b c : F) : F :=
  (points.map fun point => (a+b*point.1+c*point.1^2-point.2)^2).sum

omit [LinearOrder F] in
theorem curveError_eq (points : List (F × F)) (x : Fin 3 → F) :
    curveError points (x 0) (x 1) (x 2) = squaredError (points.map curveRow) x := by
  rw [squaredError,List.map_map,curveError]
  congr 2
  funext point
  simp [residual,curveRow,Fin.sum_univ_three]
  ring

/-- A quadratic with three zeros vanishes. -/
theorem determined_curveRow {points : List (F × F)}
    (h : 3 ≤ (points.map Prod.fst).toFinset.card) : Determined (points.map curveRow) := by
  intro x hx
  rcases Finset.two_lt_card.mp h with ⟨u,hu,v,hv,w,hw,huv,huw,hvw⟩
  have hzero : ∀ n ∈ (points.map Prod.fst).toFinset, x 0+n*x 1+n*n*x 2 = 0 := by
    intro n hn
    rcases List.mem_map.mp (List.mem_toFinset.mp hn) with ⟨point,hpoint,rfl⟩
    have hrow := hx _ (List.mem_map_of_mem hpoint)
    simpa [curveRow,Fin.sum_univ_three] using hrow
  have hslope : ∀ n, n ≠ u → x 0+n*x 1+n*n*x 2 = 0 → x 1+(u+n)*x 2 = 0 := by
    intro n hn hn0
    apply mul_left_cancel₀ (sub_ne_zero.mpr hn)
    linear_combination hn0-hzero u hu
  have hv0 := hslope v huv.symm (hzero v hv)
  have hw0 := hslope w huw.symm (hzero w hw)
  have hc : x 2 = 0 := by
    apply mul_left_cancel₀ (sub_ne_zero.mpr hvw)
    linear_combination hv0-hw0
  have hb : x 1 = 0 := by simpa [hc] using hv0
  have ha : x 0 = 0 := by simpa [hb,hc] using hzero u hu
  funext j
  fin_cases j
  · exact ha
  · exact hb
  · exact hc

variable [IsStrictOrderedRing F]

/-- Three context lengths make the fit divide by no zero and return the only quadratic of least
squares. -/
theorem fitQuadratic_leastSquares (points : List (F × F))
    (h : 3 ≤ (points.map Prod.fst).toFinset.card) : ∃ a b c, fitQuadratic points = some (a,b,c) ∧
      ∀ a' b' c', curveError points a b c ≤ curveError points a' b' c' ∧
        (curveError points a' b' c' ≤ curveError points a b c → (a',b',c') = (a,b,c)) := by
  rcases leastSquares_spec (determined_curveRow h) with ⟨x,hx,hleast⟩
  refine ⟨x 0,x 1,x 2,?_,fun a' b' c' => ?_⟩
  · rw [fitQuadratic]
    exact congrArg (Option.map fun x => (x 0,x 1,x 2)) hx
  · have hx' := hleast ![a',b',c']
    rw [← curveError_eq,← curveError_eq] at hx'
    refine ⟨hx'.1,fun hle => ?_⟩
    have heq := hx'.2 hle
    rw [← heq]
    rfl

/-- Four measurements, two of them of the same length, on no quadratic. -/
theorem fitQuadratic_leastSquares_fourPoints :
    3 ≤ (([(0,1),(1,2),(2,5),(2,7)] : List (ℚ × ℚ)).map Prod.fst).toFinset.card ∧
    ∃ a b c, fitQuadratic ([(0,1),(1,2),(2,5),(2,7)] : List (ℚ × ℚ)) = some (a,b,c) ∧
      ∀ a' b' c', curveError [(0,1),(1,2),(2,5),(2,7)] a b c ≤
          curveError [(0,1),(1,2),(2,5),(2,7)] a' b' c' ∧
        (curveError [(0,1),(1,2),(2,5),(2,7)] a' b' c' ≤
          curveError [(0,1),(1,2),(2,5),(2,7)] a b c → (a',b',c') = (a,b,c)) :=
  ⟨by decide,fitQuadratic_leastSquares _ (by decide)⟩

/-- Measurements that lie on a quadratic give it back. -/
theorem fitQuadratic_of_exact {points : List (F × F)}
    (h : 3 ≤ (points.map Prod.fst).toFinset.card) {a b c : F}
    (hexact : ∀ point ∈ points, point.2 = a+b*point.1+c*point.1^2) :
    fitQuadratic points = some (a,b,c) := by
  rcases leastSquares_spec (determined_curveRow h) with ⟨x,hx,hleast⟩
  have hzero : squaredError (points.map curveRow) ![a,b,c] = 0 := by
    rw [← curveError_eq]
    refine List.sum_eq_zero fun e he => ?_
    rcases List.mem_map.mp he with ⟨point,hpoint,rfl⟩
    rw [hexact point hpoint]
    simp
  have heq := (hleast ![a,b,c]).2 (hzero.trans_le (squaredError_nonneg _ x))
  rw [fitQuadratic]
  refine (congrArg (Option.map fun x => (x 0,x 1,x 2)) hx).trans ?_
  rw [← heq]
  rfl

end ContextResidency
