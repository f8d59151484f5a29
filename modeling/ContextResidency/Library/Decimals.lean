import Mathlib.Data.List.DropRight
import Mathlib.Algebra.Field.Basic
import Mathlib.Tactic

/-! Decimal numerals with two places: the digits before the point in groups of three, and no
zeros at the end that say nothing. Read back, such a numeral is the number it was written for. -/
namespace ContextResidency

/-- A comma after every third digit, for digits from the last to the first. -/
def commas : List Char → List Char
  | a::b::c::d::rest => a::b::c:: ','::commas (d::rest)
  | digits => digits

/-- `f"{n:,}"`. -/
def grouped (n : ℕ) : List Char := (commas (Nat.toDigits 10 n).reverse).reverse

/-- A number of hundredths, with both places. -/
def hundredths (n : ℕ) : List Char :=
  grouped (n/100) ++ ['.',Nat.digitChar (n/10%10),Nat.digitChar (n%10)]

/-- `text.rstrip("0").rstrip(".")`. -/
def stripped (text : List Char) : List Char := (text.rdropWhile (· = '0')).rdropWhile (· = '.')

/-- The number that a numeral is read as. -/
def readDecimal {K : Type} [Field K] (text : List Char) : K :=
  let whole := (text.takeWhile (· ≠ '.')).filter (· ≠ ',')
  let places := (text.dropWhile (· ≠ '.')).drop 1
  Nat.ofDigitChars 10 whole 0+Nat.ofDigitChars 10 places 0/10^places.length

theorem filter_commas {digits : List Char} (h : ∀ c ∈ digits, c ≠ ',') :
    (commas digits).filter (· ≠ ',') = digits := by
  fun_induction commas digits with
  | case1 a b c d rest ih =>
    simp only [List.forall_mem_cons] at h
    obtain ⟨ha,hb,hc,hrest⟩ := h
    simpa [ha,hb,hc] using ih (List.forall_mem_cons.mpr hrest)
  | case2 digits => exact List.filter_eq_self.mpr fun c hc => by simpa using h c hc

theorem mem_commas {digits : List Char} {c : Char} (h : c ∈ commas digits) :
    c = ',' ∨ c ∈ digits := by
  fun_induction commas digits with
  | case1 a b c' d rest ih =>
    simp only [List.mem_cons] at h ih ⊢
    tauto
  | case2 digits => exact Or.inr h

theorem digit_ne {n : ℕ} {c : Char} (h : c ∈ Nat.toDigits 10 n) {d : Char}
    (hd : d.isDigit = false) : c ≠ d := by
  rintro rfl
  rw [Nat.isDigit_of_mem_toDigits (by norm_num) (by norm_num) h] at hd
  cases hd

theorem filter_grouped (n : ℕ) : (grouped n).filter (· ≠ ',') = Nat.toDigits 10 n := by
  have hdigits : ∀ c ∈ (Nat.toDigits 10 n).reverse, c ≠ ',' := fun c hc =>
    digit_ne (List.mem_reverse.mp hc) rfl
  rw [grouped,List.filter_reverse,filter_commas hdigits,List.reverse_reverse]

theorem point_not_mem_grouped (n : ℕ) : '.' ∉ grouped n := by
  intro hpoint
  rw [grouped,List.mem_reverse] at hpoint
  cases mem_commas hpoint with
  | inl hcomma => exact absurd hcomma (by decide)
  | inr hdigit => exact digit_ne (List.mem_reverse.mp hdigit) rfl rfl

theorem ofDigitChars_grouped (n : ℕ) :
    Nat.ofDigitChars 10 ((grouped n).filter (· ≠ ',')) 0 = n := by
  rw [filter_grouped,Nat.ofDigitChars_ten_toDigits]

theorem readDecimal_append {K : Type} [Field K] (n : ℕ) (places : List Char) :
    (readDecimal (grouped n ++ '.'::places) : K) =
      n+Nat.ofDigitChars 10 places 0/10^places.length := by
  have hpoint : ∀ c ∈ grouped n, decide (c ≠ '.') = true := fun c hc =>
    decide_eq_true fun h => point_not_mem_grouped n (h ▸ hc)
  have htake : (grouped n ++ '.'::places).takeWhile (· ≠ '.') = grouped n := by
    rw [List.takeWhile_append_of_pos hpoint]
    simp
  have hdrop : (grouped n ++ '.'::places).dropWhile (· ≠ '.') = '.'::places := by
    rw [List.dropWhile_append_of_pos hpoint]
    simp
  rw [readDecimal,htake,hdrop,ofDigitChars_grouped]
  rfl

theorem readDecimal_grouped {K : Type} [Field K] (n : ℕ) : (readDecimal (grouped n) : K) = n := by
  have hpoint : ∀ c ∈ grouped n, decide (c ≠ '.') = true := fun c hc =>
    decide_eq_true fun h => point_not_mem_grouped n (h ▸ hc)
  have htake : (grouped n).takeWhile (· ≠ '.') = grouped n := List.takeWhile_eq_self_iff.mpr hpoint
  have hdrop : (grouped n).dropWhile (· ≠ '.') = [] := List.dropWhile_eq_nil_iff.mpr hpoint
  rw [readDecimal,htake,hdrop,ofDigitChars_grouped]
  simp

theorem digitChar_eq_zero_iff {k : ℕ} (hk : k < 10) : Nat.digitChar k = '0' ↔ k = 0 := by
  revert k
  decide

/-- Stripping stops at the point at the latest, so the whole part is never cut. -/
theorem stripped_hundredths {sign : List Char} (hsign : '.' ∉ sign) (n : ℕ) :
    stripped (sign ++ hundredths n) = sign ++
      if n%100 = 0 then grouped (n/100)
      else if n%10 = 0 then grouped (n/100) ++ ['.',Nat.digitChar (n/10%10)]
      else hundredths n := by
  have hsplit : sign ++ hundredths n = ((sign ++ grouped (n/100)) ++ ['.'] ++
      [Nat.digitChar (n/10%10)]) ++ [Nat.digitChar (n%10)] := by simp [hundredths]
  have hlast : decide (Nat.digitChar (n%10) = '0') = decide (n%10 = 0) :=
    decide_eq_decide.mpr (digitChar_eq_zero_iff (Nat.mod_lt n (by norm_num)))
  have htenth : decide (Nat.digitChar (n/10%10) = '0') = decide (n/10%10 = 0) :=
    decide_eq_decide.mpr (digitChar_eq_zero_iff (Nat.mod_lt _ (by norm_num)))
  have hwhole : (sign ++ grouped (n/100)).rdropWhile (· = '.') = sign ++ grouped (n/100) := by
    rw [List.rdropWhile_eq_self_iff]
    intro hne hpoint
    cases List.mem_append.mp (of_decide_eq_true hpoint ▸ List.getLast_mem hne) with
    | inl hmem => exact hsign hmem
    | inr hmem => exact point_not_mem_grouped _ hmem
  rw [stripped,hsplit,List.rdropWhile_concat,List.rdropWhile_concat,hlast,htenth]
  simp only [decide_eq_true_eq]
  by_cases hzero : n%10 = 0
  · by_cases hzeros : n/10%10 = 0
    · rw [if_pos hzero,if_pos hzeros,if_pos (by omega),List.rdropWhile_concat_neg _ _ _ (by decide),
        List.rdropWhile_concat_pos _ _ _ (by decide),hwhole]
    · rw [if_pos hzero,if_neg hzeros,if_neg (by omega),if_pos hzero,
        List.rdropWhile_concat_neg _ _ _ (by simp)]
      simp
  · rw [if_neg hzero,if_neg (by omega),if_neg hzero,List.rdropWhile_concat_neg _ _ _ (by simp)]
    simp [hundredths]

theorem readDecimal_places {K : Type} [Field K] [CharZero K] (n : ℕ) :
    (readDecimal (if n%100 = 0 then grouped (n/100)
      else if n%10 = 0 then grouped (n/100) ++ ['.',Nat.digitChar (n/10%10)]
      else hundredths n) : K) = n/100 := by
  have hlast : n%10 < 10 := Nat.mod_lt n (by norm_num)
  have htenth : n/10%10 < 10 := Nat.mod_lt _ (by norm_num)
  split_ifs with hzeros hzero
  · have hn : (n : K) = 100*((n/100 : ℕ) : K) := by
      exact_mod_cast (by omega : n = 100*(n/100))
    rw [readDecimal_grouped,hn]
    field_simp
  · have hn : (n : K) = 100*((n/100 : ℕ) : K)+10*((n/10%10 : ℕ) : K) := by
      exact_mod_cast (by omega : n = 100*(n/100)+10*(n/10%10))
    rw [readDecimal_append,hn,Nat.ofDigitChars_cons_digitChar_of_lt_ten htenth,
      Nat.ofDigitChars_nil]
    simp only [List.length_singleton,Nat.mul_zero,Nat.zero_add]
    field_simp
    ring
  · have hn : (n : K) = 100*((n/100 : ℕ) : K)+10*((n/10%10 : ℕ) : K)+((n%10 : ℕ) : K) := by
      exact_mod_cast (by omega : n = 100*(n/100)+10*(n/10%10)+n%10)
    rw [hundredths,readDecimal_append,hn,Nat.ofDigitChars_cons_digitChar_of_lt_ten htenth,
      Nat.ofDigitChars_cons_digitChar_of_lt_ten hlast,Nat.ofDigitChars_nil]
    simp only [List.length_cons,List.length_nil,Nat.mul_zero,Nat.zero_add,Nat.cast_add,
      Nat.cast_mul,Nat.cast_ofNat]
    field_simp
    ring

/-- The number that a signed numeral is read as. -/
def readSigned {K : Type} [Field K] : List Char → K
  | '-'::text => -readDecimal text
  | text => readDecimal text

theorem grouped_head (n : ℕ) : ∃ c text, grouped n = c::text ∧ c ≠ '-' := by
  cases hgrouped : grouped n with
  | nil =>
    have hdigits := filter_grouped n
    rw [hgrouped] at hdigits
    exact absurd hdigits.symm Nat.toDigits_ne_nil
  | cons c text =>
    refine ⟨c,text,rfl,?_⟩
    rintro rfl
    have hmem : '-' ∈ grouped n := hgrouped ▸ List.mem_cons_self
    rw [grouped,List.mem_reverse] at hmem
    cases mem_commas hmem with
    | inl hcomma => exact absurd hcomma (by decide)
    | inr hdigit => exact digit_ne (List.mem_reverse.mp hdigit) rfl rfl

theorem readSigned_grouped {K : Type} [Field K] (n : ℕ) (text : List Char) :
    (readSigned (grouped n ++ text) : K) = readDecimal (grouped n ++ text) := by
  obtain ⟨c,rest,hgrouped,hsign⟩ := grouped_head n
  rw [hgrouped,List.cons_append]
  unfold readSigned
  split
  · rename_i htext
    exact absurd (List.cons.inj htext).1 hsign
  · rfl

/-- Written with its sign and stripped, a number of hundredths is read back. -/
theorem readSigned_stripped {K : Type} [Field K] [CharZero K] (negative : Bool) (n : ℕ) :
    (readSigned (stripped ((if negative then ['-'] else []) ++ hundredths n)) : K) =
      if negative then -((n : K)/100) else n/100 := by
  cases negative with
  | true =>
    simp only [if_true]
    rw [stripped_hundredths (by decide),← readDecimal_places n]
    rfl
  | false =>
    simp only [Bool.false_eq_true,if_false]
    rw [stripped_hundredths (List.not_mem_nil),List.nil_append,← readDecimal_places n]
    split_ifs
    · simpa using readSigned_grouped (K := K) (n/100) []
    · exact readSigned_grouped _ _
    · exact readSigned_grouped _ _

end ContextResidency
