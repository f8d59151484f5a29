import ContextResidency.ReuseEstimate
import ContextResidency.Library.Averages

/-! The inter-arrival history of a block. The record asks by its time whether there was an
earlier use, so uses at time zero leave no trace in the average: what it holds is the
average of the uses after them. -/
namespace ContextResidency

variable {F : Type} [Scalar F]

namespace BlockInfo

def unobserved (info : BlockInfo F) : BlockInfo F :=
  { info with lastUse := 0, uses := 0, iatEma := none }

def observed (info : BlockInfo F) (times : List F) : BlockInfo F :=
  times.foldl observeUse info.unobserved

/-- The history is on record: the average of all the gaps, the number of the uses and the time
of the last one. -/
structure HistoryKept (info : BlockInfo F) (times : List F) : Prop where
  known : (info.observed times).iatEma ≠ none
  average : (info.observed times).iatEma = movingAverage (7/10) (3/10) (gaps times)
  uses : (info.observed times).uses = times.length
  lastUse : times.getLast? = some (info.observed times).lastUse

theorem uses_foldl (info : BlockInfo F) (times : List F) :
    (times.foldl observeUse info).uses = info.uses+times.length := by
  induction times generalizing info with
  | nil => rfl
  | cons t times ih =>
    rw [List.foldl_cons,ih,List.length_cons]
    show info.uses+1+times.length = _
    omega

theorem lastUse_foldl (info : BlockInfo F) (times : List F) :
    (times.foldl observeUse info).lastUse = times.getLast?.getD info.lastUse := by
  induction times using List.reverseRecOn with
  | nil => rfl
  | append_singleton times t ih =>
    rw [List.foldl_append,List.getLast?_concat]
    rfl

variable {info : BlockInfo F} {t : F} {times : List F}

theorem iatEma_next (hlast : info.lastUse = t) (hpos : 0 < t) {next : F} (hle : t ≤ next) :
    (info.observeUse next).iatEma =
      some (info.iatEma.elim (next-t) fun ema => blend (7/10) (3/10) ema (next-t)) := by
  rw [iatEma_observeUse (hlast ▸ hpos.ne'),hlast,max_eq_right (sub_nonneg.mpr hle)]
  cases info.iatEma with
  | none => rfl
  | some ema => rfl

theorem iatEma_foldl_some (hlast : info.lastUse = t) (hpos : 0 < t) {ema : F}
    (hema : info.iatEma = some ema) (hsorted : (t::times).Pairwise (· ≤ ·)) :
    (times.foldl observeUse info).iatEma =
      some ((gaps (t::times)).foldl (blend (7/10) (3/10)) ema) := by
  induction times generalizing info t ema with
  | nil => exact hema
  | cons next times ih =>
    obtain ⟨hfrom,hrest⟩ := List.pairwise_cons.mp hsorted
    have hle : t ≤ next := hfrom next (by simp)
    have hnext : (info.observeUse next).iatEma = some (blend (7/10) (3/10) ema (next-t)) := by
      rw [iatEma_next hlast hpos hle,hema,Option.elim_some]
    exact ih rfl (hpos.trans_le hle) hnext hrest

theorem iatEma_foldl_none (hlast : info.lastUse = t) (hpos : 0 < t) (hema : info.iatEma = none)
    (hsorted : (t::times).Pairwise (· ≤ ·)) : (times.foldl observeUse info).iatEma =
      movingAverage (7/10) (3/10) (gaps (t::times)) := by
  cases times with
  | nil => exact hema
  | cons next times =>
    obtain ⟨hfrom,hrest⟩ := List.pairwise_cons.mp hsorted
    have hle : t ≤ next := hfrom next (by simp)
    have hnext : (info.observeUse next).iatEma = some (next-t) := by
      rw [iatEma_next hlast hpos hle,hema,Option.elim_none]
    exact iatEma_foldl_some rfl (hpos.trans_le hle) hnext hrest

/-- Uses at time zero look like none. -/
theorem foldl_zeros (hlast : info.lastUse = 0) (hema : info.iatEma = none) (z : ℕ) :
    ((List.replicate z 0).foldl observeUse info).lastUse = 0 ∧
      ((List.replicate z 0).foldl observeUse info).iatEma = none := by
  induction z generalizing info with
  | zero => exact ⟨hlast,hema⟩
  | succ z ih =>
    have hnext : (info.observeUse 0).iatEma = none := by simp [observeUse,hlast,hema]
    exact ih rfl hnext

theorem iatEma_observed (info : BlockInfo F) (z : ℕ) {rest : List F} (hpos : ∀ t ∈ rest, 0 < t)
    (hsorted : rest.Pairwise (· ≤ ·)) : (info.observed (List.replicate z 0 ++ rest)).iatEma =
      movingAverage (7/10) (3/10) (gaps rest) := by
  have hunobserved : info.unobserved.lastUse = 0 := rfl
  obtain ⟨hlast,hema⟩ := foldl_zeros hunobserved rfl z
  rw [observed,List.foldl_append]
  cases rest with
  | nil => exact hema
  | cons t rest =>
    have hfirst : (((List.replicate z 0).foldl observeUse info.unobserved).observeUse t).iatEma =
        none := by simp [observeUse,hlast,hema]
    have hat : (((List.replicate z 0).foldl observeUse info.unobserved).observeUse t).lastUse =
        t := rfl
    exact iatEma_foldl_none hat (hpos t (by simp)) hfirst hsorted

/-- A history from time zero on, split where it leaves it. -/
theorem exists_zeros (hnonneg : ∀ t ∈ times, 0 ≤ t) (hsorted : times.Pairwise (· ≤ ·)) :
    ∃ z rest, times = List.replicate z 0 ++ rest ∧ ∀ t ∈ rest, 0 < t := by
  induction times with
  | nil => exact ⟨0,[],rfl,by simp⟩
  | cons t times ih =>
    obtain ⟨hfrom,hrest⟩ := List.pairwise_cons.mp hsorted
    cases (hnonneg t (by simp)).eq_or_lt with
    | inl hzero =>
      obtain ⟨z,rest,rfl,hpos⟩ := ih (fun t ht => hnonneg t (by simp [ht])) hrest
      exact ⟨z+1,rest,by rw [← hzero]; rfl,hpos⟩
    | inr hpos =>
      refine ⟨0,t::times,rfl,fun t' ht' => ?_⟩
      cases List.mem_cons.mp ht' with
      | inl hfirst => exact hfirst ▸ hpos
      | inr hlater => exact hpos.trans_le (hfrom t' hlater)

/-- What the uses at time zero would add to the average. -/
theorem average_zeros_iff (z : ℕ) (a b : F) (more : List F) :
    movingAverage (7/10) (3/10) (gaps (a::b::more)) =
        movingAverage (7/10) (3/10) (gaps (List.replicate (z+1) 0 ++ a::b::more)) ↔
      b-a = if z = 0 then a else 3/10*a := by
  have hpast : (7/10 : F) ≠ 0 := by norm_num
  rw [gaps_replicate_append,gaps_cons_cons,movingAverage_zeros,movingAverage,Option.some.injEq,
    (foldl_blend_injective hpast _).eq_iff,blend,sub_zero]
  constructor <;> intro h <;> linarith

/-- The history does not start at time zero; or it does, and the gap that the average starts
with is what the average of the gaps before it would be. -/
def Unharmed (times : List F) : Prop :=
  times.head? ≠ some 0 ∨ ∃ (z : ℕ) (a b : F) (more : List F), 0 < a ∧
    times = List.replicate (z+1) 0 ++ a::b::more ∧ b-a = if z = 0 then a else 3/10*a

theorem historyKept_of_average (hmany : 2 ≤ times.length)
    (haverage : (info.observed times).iatEma = movingAverage (7/10) (3/10) (gaps times)) :
    info.HistoryKept times := by
  obtain ⟨first,second,rest,rfl⟩ : ∃ first second rest, times = first::second::rest := by
    match times with
    | first::second::rest => exact ⟨first,second,rest,rfl⟩
  constructor
  case known => simp [haverage,movingAverage_eq_none]
  case average => exact haverage
  case uses => exact (uses_foldl _ _).trans (Nat.zero_add _)
  case lastUse =>
    rw [observed,lastUse_foldl,List.getLast?_cons_cons]
    cases hlast : (second::rest).getLast? with
    | none => simp at hlast
    | some last => rfl

/-- After two uses or more at times that do not decrease, the history is on record exactly when
it does not start at time zero or what is lost of it makes no difference. -/
theorem historyKept_iff (info : BlockInfo F) (times : List F) (hmany : 2 ≤ times.length)
    (hnonneg : ∀ t ∈ times, 0 ≤ t) (hsorted : times.Pairwise (· ≤ ·)) :
    info.HistoryKept times ↔ Unharmed times := by
  constructor
  · intro hkept
    obtain ⟨z,rest,rfl,hpos⟩ := exists_zeros hnonneg hsorted
    have hobserved := info.iatEma_observed z hpos (List.pairwise_append.mp hsorted).2.1
    cases z with
    | zero =>
      refine Or.inl fun hzero => ?_
      exact absurd (hpos 0 (List.mem_of_mem_head? hzero)) (lt_irrefl 0)
    | succ z =>
      match rest with
      | [] => exact absurd hobserved hkept.known
      | [a] => exact absurd hobserved hkept.known
      | a::b::more =>
        refine Or.inr ⟨z,a,b,more,hpos a (by simp),rfl,?_⟩
        exact (average_zeros_iff z a b more).mp (hobserved.symm.trans hkept.average)
  · intro hunharmed
    apply historyKept_of_average hmany
    cases hunharmed with
    | inl hstart =>
      obtain ⟨z,rest,rfl,hpos⟩ := exists_zeros hnonneg hsorted
      cases z with
      | zero => exact info.iatEma_observed 0 hpos hsorted
      | succ z => exact absurd rfl hstart
    | inr hsame =>
      obtain ⟨z,a,b,more,ha,rfl,hgap⟩ := hsame
      have hrest := (List.pairwise_append.mp hsorted).2.1
      have hpos : ∀ t ∈ a::b::more, 0 < t := by
        intro t ht
        cases List.mem_cons.mp ht with
        | inl hfirst => exact hfirst ▸ ha
        | inr hlater => exact ha.trans_le ((List.pairwise_cons.mp hrest).1 t hlater)
      exact (info.iatEma_observed (z+1) hpos hrest).trans ((average_zeros_iff z a b more).mpr hgap)

theorem historyKept_iff_small : unusedInfo.HistoryKept [0,1,2] :=
  (historyKept_iff unusedInfo [0,1,2] (by decide) (by norm_num) (by norm_num)).mpr
    (Or.inr ⟨0,1,2,[],one_pos,rfl,by norm_num⟩)

/-- Used at time zero and a second later, a record has no average. -/
theorem history_lost : ¬ ∀ (info : BlockInfo ℝ) (times : List ℝ), 2 ≤ times.length →
    (∀ t ∈ times, 0 ≤ t) → times.Pairwise (· ≤ ·) → info.HistoryKept times := by
  intro h
  have hkept := h unusedInfo [0,1] (by decide) (by norm_num) (by norm_num)
  exact hkept.known (by simp [observed,unobserved,observeUse,unusedInfo])

end BlockInfo
end ContextResidency
