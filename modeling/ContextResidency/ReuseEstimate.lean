import ContextResidency.EnginePolicy
import ContextResidency.Index

/-! The reuse estimate of one block in the replay and in the engine. Both keep a moving
average of the gaps between uses. The replay starts it with the first gap, the engine with
the first gap that is not zero, so two uses in one instant set them apart for good. -/
namespace ContextResidency

variable {F K B : Type} [Scalar F]

def BlockInfo.usedAt (info : BlockInfo F) (times : List F) : BlockInfo F :=
  times.foldl observeUse { info with lastUse := 0, iatEma := none }

namespace AcrValuePolicy

/-- The statistics of a block after touches without hints. -/
def touchedAt (params : PolicyParams F) (m : Meta F) (times : List F) : Meta F :=
  times.foldl (fun m t => touched params none t m) m

variable [DecidableEq K]

def usedAt (policy : AcrValuePolicy F K B) (refCnt : B → ℤ) (key : K) (block : B) (first : F)
    (rest : List F) : AcrValuePolicy F K B :=
  rest.foldl (fun policy t => policy.touch [key] none t) (policy.insert refCnt key block first)

theorem get_foldl_touch (policy : AcrValuePolicy F K B) {key : K} {m : Meta F}
    (h : policy.blockMeta.get key = some m) (times : List F) :
    (times.foldl (fun policy t => policy.touch [key] none t) policy).blockMeta.get key =
      some (touchedAt policy.params m times) := by
  induction times generalizing policy m with
  | nil => exact h
  | cons t times ih =>
    have htouch : (policy.touch [key] none t).blockMeta.get key =
        some (touched policy.params none t m) := by
      simp [touch,Dict.get_modify,h]
    exact ih _ htouch

theorem get_usedAt (policy : AcrValuePolicy F K B) (refCnt : B → ℤ) {key : K}
    (hnew : key ∉ policy.blockMeta) (block : B) (first : F) (rest : List F) :
    (policy.usedAt refCnt key block first rest).blockMeta.get key =
      some (touchedAt policy.params { lastUse := first, bytes := policy.bytesOf } rest) := by
  apply get_foldl_touch (policy.insert refCnt key block first)
  simp [insert,Dict.get_eq_none.mpr hnew,Dict.get_set]

end AcrValuePolicy

open AcrValuePolicy

/-! The two averages of a block that was last used at the same positive time. -/
section Averages

/-- Both have seen a gap, and they agree. -/
structure Steady (info : BlockInfo F) (m : Meta F) : Prop where
  lastUse : info.lastUse = m.lastUse
  used : 0 < m.lastUse
  seen : 0 < m.iat
  average : info.iatEma = some m.iat

/-- The average of the replay started earlier and stays below. -/
structure Lagging (info : BlockInfo F) (m : Meta F) : Prop where
  used : 0 < info.lastUse
  lastUse : info.lastUse = m.lastUse
  below : ∃ ema, info.iatEma = some ema ∧ 0 ≤ ema ∧ ema < m.iat

/-- All uses so far were in one instant. -/
structure Still (info : BlockInfo F) (m : Meta F) (t : F) : Prop where
  used : 0 < t
  lastUse : info.lastUse = t
  lastUse' : m.lastUse = t
  iat : m.iat = 0
  average : info.iatEma.getD 0 = 0

variable (params : PolicyParams F) {info : BlockInfo F} {m : Meta F} {t : F}

theorem iatEma_observeUse (hused : info.lastUse ≠ 0) : (info.observeUse t).iatEma =
    some (info.iatEma.elim (max 0 (t-info.lastUse)) fun ema =>
      7/10*ema+3/10*max 0 (t-info.lastUse)) := by
  cases hema : info.iatEma <;> simp [BlockInfo.observeUse,hused,hema]

theorem iat_touched (hseen : 0 < m.iat) :
    (touched params none t m).iat = 7/10*m.iat+3/10*max 0 (t-m.lastUse) := by
  simp [touched,not_le.mpr hseen]

theorem iat_touched_first (hunseen : m.iat = 0) :
    (touched params none t m).iat = max 0 (t-m.lastUse) := by
  simp [touched,hunseen]

theorem Steady.step (h : Steady info m) (ht : 0 < t) :
    Steady (info.observeUse t) (touched params none t m) := by
  have hseen := h.seen
  have hgap : 0 ≤ max 0 (t-m.lastUse) := le_max_left _ _
  have hused : info.lastUse ≠ 0 := h.lastUse ▸ h.used.ne'
  constructor
  case lastUse => rfl
  case used => exact ht
  case seen =>
    rw [iat_touched params hseen]
    linarith
  case average =>
    rw [iatEma_observeUse hused,iat_touched params hseen,h.average,h.lastUse]
    rfl

theorem Lagging.step (h : Lagging info m) (ht : 0 < t) :
    Lagging (info.observeUse t) (touched params none t m) := by
  obtain ⟨ema,hema,hnonneg,hless⟩ := h.below
  have hgap : 0 ≤ max 0 (t-m.lastUse) := le_max_left _ _
  constructor
  case used => exact ht
  case lastUse => rfl
  case below =>
    refine ⟨7/10*ema+3/10*max 0 (t-m.lastUse),?_,by linarith,?_⟩
    · rw [iatEma_observeUse h.used.ne',hema,h.lastUse]
      rfl
    · rw [iat_touched params (hnonneg.trans_lt hless)]
      linarith

theorem Still.step (h : Still info m t) :
    Still (info.observeUse t) (touched params none t m) t := by
  have hused : info.lastUse ≠ 0 := h.lastUse ▸ h.used.ne'
  constructor
  case used => exact h.used
  case lastUse => rfl
  case lastUse' => rfl
  case iat =>
    rw [iat_touched_first params h.iat,h.lastUse']
    simp
  case average =>
    have hbefore := h.average
    rw [iatEma_observeUse hused,h.lastUse]
    cases hema : info.iatEma with
    | none => simp
    | some ema =>
      rw [hema,Option.getD_some] at hbefore
      simp [hbefore]

/-- The first gap after uses in one instant: only part of it enters the average of the
replay, and all of it that of the engine. -/
theorem Still.lag {later : F} {ema : F} (h : Still info m t) (hema : info.iatEma = some ema)
    (ht : t < later) : Lagging (info.observeUse later) (touched params none later m) := by
  have hused : info.lastUse ≠ 0 := h.lastUse ▸ h.used.ne'
  have hzero : ema = 0 := by simpa [hema] using h.average
  have hgap : max 0 (later-t) = later-t := max_eq_right (sub_nonneg.mpr ht.le)
  constructor
  case used => exact h.used.trans ht
  case lastUse => rfl
  case below =>
    refine ⟨3/10*(later-t),?_,by linarith,?_⟩
    · rw [iatEma_observeUse hused,hema,h.lastUse,hgap]
      simp [hzero]
    · rw [iat_touched_first params h.iat,h.lastUse',hgap]
      linarith

theorem Still.start {later : F} (h : Still info m t) (hema : info.iatEma = none)
    (ht : t < later) : Steady (info.observeUse later) (touched params none later m) := by
  have hused : info.lastUse ≠ 0 := h.lastUse ▸ h.used.ne'
  have hgap : max 0 (later-t) = later-t := max_eq_right (sub_nonneg.mpr ht.le)
  constructor
  case lastUse => rfl
  case used => exact h.used.trans ht
  case seen =>
    rw [iat_touched_first params h.iat,h.lastUse',hgap]
    linarith
  case average =>
    rw [iatEma_observeUse hused,iat_touched_first params h.iat,hema,h.lastUse,h.lastUse']
    rfl

/-! Whole histories, from the state that they start in. -/

variable {times : List F}

theorem Steady.run (h : Steady info m) (hpos : ∀ t ∈ times, 0 < t) :
    Steady (times.foldl BlockInfo.observeUse info) (touchedAt params m times) := by
  induction times generalizing info m with
  | nil => exact h
  | cons t times ih => exact ih (h.step params (hpos t (by simp))) fun t ht => hpos t (by simp [ht])

theorem Lagging.run (h : Lagging info m) (hpos : ∀ t ∈ times, 0 < t) :
    Lagging (times.foldl BlockInfo.observeUse info) (touchedAt params m times) := by
  induction times generalizing info m with
  | nil => exact h
  | cons t times ih => exact ih (h.step params (hpos t (by simp))) fun t ht => hpos t (by simp [ht])

theorem Still.run (h : Still info m t) (hsame : ∀ t' ∈ times, t' = t) :
    Still (times.foldl BlockInfo.observeUse info) (touchedAt params m times) t := by
  induction times generalizing info m with
  | nil => exact h
  | cons first times ih =>
    obtain rfl := hsame first (by simp)
    exact ih (h.step params) fun t' ht' => hsame t' (by simp [ht'])

/-- Once the replay has an average of zero, the next gap sets the two apart. -/
theorem Still.run_lag {ema : F} (h : Still info m t) (hema : info.iatEma = some ema)
    (hsorted : (t::times).Pairwise (· ≤ ·)) (hmoved : ∃ t' ∈ times, t' ≠ t) :
    Lagging (times.foldl BlockInfo.observeUse info) (touchedAt params m times) := by
  induction times generalizing info m ema with
  | nil => simp at hmoved
  | cons first times ih =>
    obtain ⟨hfrom,hrest⟩ := List.pairwise_cons.mp hsorted
    by_cases hfirst : first = t
    · subst hfirst
      have hused : info.lastUse ≠ 0 := h.lastUse ▸ h.used.ne'
      exact ih (h.step params) (iatEma_observeUse hused) hrest (by simpa using hmoved)
    · have hlater : t < first := lt_of_le_of_ne (hfrom first (by simp)) (Ne.symm hfirst)
      apply (h.lag params hema hlater).run params
      exact fun t' ht' => h.used.trans_le (hfrom t' (by simp [ht']))

end Averages

/-! Over the reals, equal averages give equal probabilities. -/
section Estimates

/-- The same average, and the same reuse probability at every time and for every index that
files the record. -/
def EstimatesAlike (policy : AcrValuePolicy ℝ K B) (info : BlockInfo ℝ) (m : Meta ℝ) : Prop :=
  info.iatEma.getD 0 = m.iat ∧ ∀ (index : PrefixIndex ℝ) (key : BlockKey) (now : ℝ),
    index.blocks.get key = some info →
    index.liveReuseProb key now policy.params.horizonS =
      policy.reuseProb { m with leases := (index.liveLeases key now).card } now

theorem shared_prob {p q : ℝ} (h : p = q) (leases : ℕ) :
    (if max 1 leases ≤ 1 then p else 1-(1-p)^(min (max 1 leases) 8)) =
      if max 1 (leases : ℝ) ≤ 1 then q else 1-Scalar.pow (1-q) (min (max 1 (leases : ℝ)) 8) := by
  have hone : max 1 leases ≤ 1 ↔ max 1 (leases : ℝ) ≤ 1 := by norm_cast
  have hpow : Scalar.pow (1-q) (min (max 1 (leases : ℝ)) 8) = (1-q)^(min (max 1 leases) 8) := by
    show Real.rpow (1-q) _ = _
    rw [← Real.rpow_natCast]
    push_cast
    rfl
  rw [hpow,h]
  simp only [hone]

theorem estimatesAlike_of_average (policy : AcrValuePolicy ℝ K B) {info : BlockInfo ℝ}
    {m : Meta ℝ} (hlast : info.lastUse = m.lastUse) (haverage : info.iatEma.getD 0 = m.iat) :
    EstimatesAlike policy info m := by
  refine ⟨haverage,fun index key now hinfo => ?_⟩
  rw [PrefixIndex.liveReuseProb,hinfo,reuseProb]
  refine shared_prob ?_ _
  cases hema : info.iatEma with
  | none =>
    rw [hema,Option.getD_none] at haverage
    norm_num [← haverage]
  | some ema =>
    rw [hema,Option.getD_some] at haverage
    norm_num [← haverage,hlast]

theorem still_start (info : BlockInfo F) {first : F} (hpos : 0 < first) (bytes : F) :
    Still (info.usedAt [first]) { lastUse := first, bytes := bytes } first := by
  constructor <;> simp [BlockInfo.usedAt,BlockInfo.observeUse,hpos]

variable [DecidableEq K]

section History

variable (policy : AcrValuePolicy ℝ K B) (refCnt : B → ℤ) (key : K) (block : B)
  (info : BlockInfo ℝ) (first : ℝ) (rest : List ℝ)

/-- The two estimates of a block that is used at the given times. -/
def Alike : Prop :=
  ∃ m, (policy.usedAt refCnt key block first rest).blockMeta.get key = some m ∧
    EstimatesAlike (policy.usedAt refCnt key block first rest) (info.usedAt (first::rest)) m

variable {policy refCnt key block info first rest} (hnew : key ∉ policy.blockMeta)
  (hpos : 0 < first) (hsorted : (first::rest).Pairwise (· ≤ ·))
include hnew hpos hsorted

/-- Two uses in one instant and a later one set the averages apart. -/
theorem not_alike (htwice : rest.head? = some first) (hmoved : ∃ t ∈ rest, t ≠ first) :
    ¬ Alike policy refCnt key block info first rest := by
  rintro ⟨m,hm,haverage,_⟩
  have hstats := policy.get_usedAt refCnt hnew block first rest
  obtain rfl := Option.some.inj (hstats.symm.trans hm)
  cases rest with
  | nil => cases htwice
  | cons second rest =>
    obtain rfl : second = first := Option.some.inj htwice
    have hstart := still_start info hpos policy.bytesOf
    have hused : (info.usedAt [second]).lastUse ≠ 0 := hpos.ne'
    have hlag := (hstart.step policy.params).run_lag policy.params (iatEma_observeUse hused)
      (List.pairwise_cons.mp hsorted).2 (by simpa using hmoved)
    obtain ⟨ema,hema,_,hbelow⟩ := hlag.below
    have hsim : (info.usedAt (second::second::rest)).iatEma = some ema := hema
    rw [hsim] at haverage
    exact absurd haverage hbelow.ne

theorem alike_of_gap {second : ℝ} (hsecond : rest.head? = some second) (hlt : first < second) :
    Alike policy refCnt key block info first rest := by
  refine ⟨_,policy.get_usedAt refCnt hnew block first rest,?_⟩
  cases rest with
  | nil => cases hsecond
  | cons t rest =>
    obtain rfl : t = second := Option.some.inj hsecond
    have hlater : ∀ t' ∈ rest, 0 < t' := fun t' ht' =>
      hpos.trans_le ((List.pairwise_cons.mp hsorted).1 t' (by simp [ht']))
    have hfresh : (info.usedAt [first]).iatEma = none := by
      simp [BlockInfo.usedAt,BlockInfo.observeUse]
    have hstart := still_start info hpos policy.bytesOf
    have hsteady := (hstart.start policy.params hfresh hlt).run policy.params hlater
    refine estimatesAlike_of_average _ hsteady.lastUse ?_
    have haverage : (info.usedAt (first::t::rest)).iatEma = _ := hsteady.average
    rw [haverage]
    rfl

omit hsorted in
theorem alike_of_instant (hsame : ∀ t ∈ rest, t = first) :
    Alike policy refCnt key block info first rest := by
  refine ⟨_,policy.get_usedAt refCnt hnew block first rest,?_⟩
  have hstill := (still_start info hpos policy.bytesOf).run policy.params hsame
  exact estimatesAlike_of_average _ (hstill.lastUse.trans hstill.lastUse'.symm)
    (hstill.average.trans hstill.iat.symm)

end History

/-- After a history of uses, the two estimates of a block agree exactly when its second use
comes after the first, or all of its uses are at once. -/
theorem alike_iff (policy : AcrValuePolicy ℝ K B) (refCnt : B → ℤ) (key : K) (block : B)
    (info : BlockInfo ℝ) (first : ℝ) (rest : List ℝ) (hnew : key ∉ policy.blockMeta)
    (hpos : 0 < first) (hsorted : (first::rest).Pairwise (· ≤ ·)) :
    Alike policy refCnt key block info first rest ↔
      (∀ second ∈ rest.head?, first < second) ∨ ∀ t ∈ rest, t = first := by
  constructor
  · intro halike
    by_contra hneither
    obtain ⟨hsecond,hmoved⟩ := not_or.mp hneither
    cases hhead : rest.head? with
    | none => simp [hhead] at hsecond
    | some second =>
      have hle : first ≤ second :=
        (List.pairwise_cons.mp hsorted).1 second (List.mem_of_mem_head? hhead)
      have htwice : second = first := le_antisymm (by simpa [hhead] using hsecond) hle
      exact not_alike hnew hpos hsorted (htwice ▸ hhead) (by simpa using hmoved) halike
  · intro hhistory
    cases hhistory with
    | inl hsecond =>
      cases hhead : rest.head? with
      | none =>
        have hnil : rest = [] := List.head?_eq_none_iff.mp hhead
        exact alike_of_instant hnew hpos (by simp [hnil])
      | some second => exact alike_of_gap hnew hpos hsorted hhead (hsecond second hhead)
    | inr hsame => exact alike_of_instant hnew hpos hsame

def unusedInfo : BlockInfo ℝ where
  tokens := 816
  nbytes := 816
  depth := 0
  shared := false
  createdAt := 0
  lastUse := 0
  uses := 0
  iatEma := none
  refs := ∅
  roles := ∅

theorem alike_iff_small :
    Alike (.new 2 {} : AcrValuePolicy ℝ ℕ ℕ) (fun _ => 0) 0 0 unusedInfo 1 [2,3] :=
  (alike_iff (.new 2 {} : AcrValuePolicy ℝ ℕ ℕ) (fun _ => 0) 0 0 unusedInfo 1 [2,3]
    (by simp [new]) one_pos (by norm_num)).mpr (Or.inl (by norm_num))

/-- Used twice in the first second and once in the next. -/
theorem estimates_drift : ¬ ∀ (policy : AcrValuePolicy ℝ ℕ ℕ) (refCnt : ℕ → ℤ) (key block : ℕ)
    (info : BlockInfo ℝ) (first : ℝ) (rest : List ℝ), key ∉ policy.blockMeta → 0 < first →
    (first::rest).Pairwise (· ≤ ·) → Alike policy refCnt key block info first rest := by
  intro h
  have hnew : 0 ∉ (new 2 {} : AcrValuePolicy ℝ ℕ ℕ).blockMeta := by simp [new]
  exact not_alike hnew one_pos (by norm_num) rfl
    ⟨2,by simp,by norm_num⟩
    (h (.new 2 {}) (fun _ => 0) 0 0 unusedInfo 1 [1,2] hnew one_pos (by norm_num))

end Estimates

end ContextResidency
