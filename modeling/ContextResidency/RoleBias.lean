import ContextResidency.EngineFacts

/-! Which of two blocks with the same statistics goes first when their role weights
differ. The weight multiplies the whole score, so it protects the heavier block as
long as the expected saving is worth more than the rent and the transfers, and
condemns it otherwise. -/
namespace ContextResidency

namespace AcrValuePolicy

variable {F K B : Type} [Scalar F] [DecidableEq K]

/-- Rent for the memory of a block at the present fill. -/
def rent (policy : AcrValuePolicy F K B) (m : Meta F) : F :=
  policy.params.lambdaMem*(policy.nbytes m/1024^3)*policy.pressure*(1/10)

/-- Seconds that keeping a block is expected to save, less its transfers. -/
def expectedSaving (policy : AcrValuePolicy F K B) (m : Meta F) (now : F) : F :=
  policy.reuseProb m now*(max 0 (policy.tRecompute m-policy.tRestore m)-
    policy.params.lambdaIo*(policy.nbytes m/1024^3)*(1/100))

theorem score_of_meta {policy : AcrValuePolicy F K B} {key : K} {m : Meta F}
    (h : policy.blockMeta.get key = some m) (now : F) :
    policy.score key now = (policy.expectedSaving m now-policy.rent m)*m.weight := by
  simp only [score,h,expectedSaving,rent]
  ring

/-- Two resident blocks that may be evicted and whose statistics differ in the role
weight alone. -/
structure Rivals (policy : AcrValuePolicy F K B) (heavy light : K) (m : Meta F) (weight : F) :
    Prop where
  heavyMeta : policy.blockMeta.get heavy = some m
  lightMeta : policy.blockMeta.get light = some { m with weight := weight }
  positive : 0 < weight
  heavier : weight < m.weight
  heavyEvictable : heavy ∈ policy.evictable
  lightEvictable : light ∈ policy.evictable
  heavyResident : heavy ∈ policy.blocks
  lightResident : light ∈ policy.blocks

/-- Some eviction returns the first block, protects neither and leaves the second one. -/
def Inverts (policy : AcrValuePolicy F K B) (now : F) (heavy light : K) : Prop :=
  ∃ (order : Listing policy.evictable) (n : ℤ) (protectedKeys : Finset K) (out : List (K × B))
    (after : AcrValuePolicy F K B), heavy ∉ protectedKeys ∧ light ∉ protectedKeys ∧
      policy.evict order n protectedKeys now = .ok (some out,after) ∧
      heavy ∈ out.map Prod.fst ∧ light ∈ after.blocks

section Rivals

variable {policy : AcrValuePolicy F K B} {heavy light : K} {m : Meta F} {weight : F}

theorem Rivals.ne (h : Rivals policy heavy light m weight) : heavy ≠ light := by
  intro he
  have hm := h.heavyMeta
  rw [he,h.lightMeta] at hm
  have hw : weight = m.weight := congrArg Meta.weight (Option.some.inj hm)
  exact h.heavier.ne hw

theorem Rivals.score_heavy (h : Rivals policy heavy light m weight) (now : F) :
    policy.score heavy now = (policy.expectedSaving m now-policy.rent m)*m.weight :=
  score_of_meta h.heavyMeta now

/-- The weight enters a score nowhere but in its last factor. -/
theorem Rivals.score_light (h : Rivals policy heavy light m weight) (now : F) :
    policy.score light now = (policy.expectedSaving m now-policy.rent m)*weight :=
  score_of_meta h.lightMeta now

theorem Rivals.score_lt_iff (h : Rivals policy heavy light m weight) (now : F) :
    policy.score light now < policy.score heavy now ↔
      policy.rent m < policy.expectedSaving m now := by
  rw [h.score_light,h.score_heavy,← sub_pos,← mul_sub,← sub_pos (a := policy.expectedSaving m now)]
  exact mul_pos_iff_of_pos_right (sub_pos.mpr h.heavier)

theorem Rivals.score_le_iff (h : Rivals policy heavy light m weight) (now : F) :
    policy.score light now ≤ policy.score heavy now ↔
      policy.rent m ≤ policy.expectedSaving m now := by
  rw [h.score_light,h.score_heavy,← sub_nonneg,← mul_sub,
    ← sub_nonneg (a := policy.expectedSaving m now)]
  exact mul_nonneg_iff_of_pos_right (sub_pos.mpr h.heavier)

theorem Rivals.rank_eq (h : Rivals policy heavy light m weight) (now : F) :
    policy.rank now heavy = toLex (policy.score heavy now,toLex (m.lastUse,m.uses)) ∧
      policy.rank now light = toLex (policy.score light now,toLex (m.lastUse,m.uses)) := by
  simp [rank,h.heavyMeta,h.lightMeta]

/-- While the heavier block scores higher, whatever takes it takes the lighter one too. -/
theorem Rivals.not_inverts (h : Rivals policy heavy light m weight) {now : F}
    (hearn : policy.Rated → policy.rent m < policy.expectedSaving m now) :
    ¬ policy.Inverts now heavy light := by
  rintro ⟨order,n,protectedKeys,out,after,hheavy,hlight,hevict,hout,hleft⟩
  cases evict_some hevict with
  | inl hsame => simp [hsame.1] at hout
  | inr hcases =>
    obtain ⟨hrated,htaken,hafter⟩ := hcases
    have hhere : heavy ∈ policy.candidates order protectedKeys :=
      mem_candidates.mpr ⟨h.heavyEvictable,hheavy⟩
    have hother : light ∈ policy.candidates order protectedKeys :=
      mem_candidates.mpr ⟨h.lightEvictable,hlight⟩
    have hscored : policy.Rated := by
      cases hrated with
      | inl hr => exact hr
      | inr hnone => exact absurd (Dict.mem_iff_get.mpr ⟨m,h.heavyMeta⟩) (hnone heavy hhere)
    have hrank : policy.rank now light < policy.rank now heavy := by
      rw [(h.rank_eq now).1,(h.rank_eq now).2]
      apply Prod.Lex.toLex_lt_toLex.mpr
      left
      exact (h.score_lt_iff now).mpr (hearn hscored)
    rw [htaken.keys] at hout
    have hgone : light ∈ out.map Prod.fst := by
      rw [htaken.keys]
      exact mem_initial_of_lt (sliceTo_initial _ _) hout hother hrank
    rw [hafter,without,Dict.mem_eraseAll] at hleft
    exact hleft.2 hgone

noncomputable def frontListing (s : Finset K) (a b : K) (ha : a ∈ s) (hb : b ∈ s)
    (hab : a ≠ b) : Listing s where
  keys := a::b::((s.erase a).erase b).toList
  nodup := by simp [hab,Finset.nodup_toList]
  mem_keys k := by
    by_cases hka : k = a
    · simp [hka,ha]
    · by_cases hkb : k = b
      · simp [hkb,hb]
      · simp [hka,hkb]

/-- With the two rivals alone unprotected and the heavier one listed first, one
eviction takes the heavier one unless it scores higher. -/
theorem Rivals.inverts (h : Rivals policy heavy light m weight) {now : F}
    (hrated : policy.Rated) (hlow : policy.expectedSaving m now ≤ policy.rent m) :
    policy.Inverts now heavy light := by
  have hscore : policy.score heavy now ≤ policy.score light now :=
    not_lt.mp fun hlt => not_lt.mpr hlow ((h.score_lt_iff now).mp hlt)
  have hrank : policy.rank now heavy ≤ policy.rank now light := by
    rw [(h.rank_eq now).1,(h.rank_eq now).2,Prod.Lex.toLex_le_toLex]
    cases hscore.lt_or_eq with
    | inl hlt => exact Or.inl hlt
    | inr heq => exact Or.inr ⟨heq,le_rfl⟩
  let order := frontListing policy.evictable heavy light h.heavyEvictable h.lightEvictable h.ne
  let others := (policy.evictable.erase heavy).erase light
  have hcandidates : order.keys.filter (· ∉ others) = [heavy,light] := by
    have hh : heavy ∉ others := by simp [others]
    have hl : light ∉ others := by simp [others]
    show (heavy::light::others.toList).filter (· ∉ others) = _
    simp [hh,hl,List.filter_eq_nil_iff]
  have hsorted : sortedBy (policy.rank now) [heavy,light] = [heavy,light] := by
    simp [sortedBy,hrank]
  obtain ⟨block,hblock⟩ := Dict.mem_iff_get.mp h.heavyResident
  refine ⟨order,1,others,[(heavy,block)],policy.remove heavy,by simp [others],by simp [others],
    ?_,by simp,?_⟩
  · simp only [evict,hcandidates,hsorted,hrated]
    simp [sliceTo,lookup,hblock,bind,Except.bind,pure,Except.pure]
  · simpa [remove] using ⟨h.lightResident,h.ne.symm⟩

end Rivals

/-- Two blocks offloaded at once into a tier of two blocks, one of them used by a
patient and the other by a reviewer. -/
def coldPair : AcrValuePolicy F ℕ ℤ :=
  let filled := ((new 2 {}).insert id 0 0 0).insert id 1 0 0
  (filled.touch [0] (some { role := some "patient" }) 0).touch [1]
    (some { role := some "reviewer" }) 0

def coldMeta (weight : F) : Meta F :=
  { lastUse := 0, uses := 1, weight := weight, bytes := 816*57753 }

theorem coldPair_rivals : Rivals (coldPair : AcrValuePolicy F ℕ ℤ) 0 1 (coldMeta (8/5)) 1 where
  heavyMeta := by
    simp [coldPair,touch,insert,new,coldMeta,touched,bytesOf,Dict.get_modify,Dict.get_set,Dict.ofList]
  lightMeta := by
    simp [coldPair,touch,insert,new,coldMeta,touched,bytesOf,Dict.get_modify,Dict.get_set,Dict.ofList]
  positive := one_pos
  heavier := by norm_num [coldMeta]
  heavyEvictable := by simp [coldPair,touch,insert,new]
  lightEvictable := by simp [coldPair,touch,insert,new]
  heavyResident := by simp [coldPair,touch,insert,new]
  lightResident := by simp [coldPair,touch,insert,new]

theorem coldPair_rated : (coldPair : AcrValuePolicy F ℕ ℤ).Rated := by
  constructor <;> norm_num [coldPair,touch,insert,new]

/-- Neither block has history, so a return is as unlikely as the floor, and the tier is
full. -/
theorem coldPair_loses (weight now : F) :
    (coldPair : AcrValuePolicy F ℕ ℤ).expectedSaving (coldMeta weight) now ≤
      coldPair.rent (coldMeta weight) := by
  have hn : (coldPair : AcrValuePolicy F ℕ ℤ).nbytes (coldMeta weight) = 816*57753 := by
    simp [nbytes,coldMeta]
  have hp : (coldPair : AcrValuePolicy F ℕ ℤ).reuseProb (coldMeta weight) now = 1/20 := by
    simp [reuseProb,coldMeta]
  have hfull : (coldPair : AcrValuePolicy F ℕ ℤ).pressure = 1 := by
    simp [pressure,coldPair,touch,insert,new,Dict.items_set_new]
  have hrates : (coldPair : AcrValuePolicy F ℕ ℤ).params = {} := rfl
  simp only [expectedSaving,rent,tRecompute,tRestore,hn,hp,hfull,hrates]
  norm_num

/-- A larger role weight protects exactly as long as the expected saving exceeds the
rent; the score itself is still monotone when the two are equal. A policy with a rate of
zero never gets to compare two scores. -/
theorem role_bias_iff {policy : AcrValuePolicy F K B} {heavy light : K} {m : Meta F} {weight : F}
    (h : Rivals policy heavy light m weight) (now : F) :
    (¬ policy.Inverts now heavy light ↔
        (policy.Rated → policy.rent m < policy.expectedSaving m now)) ∧
      ((policy.Rated → policy.score light now ≤ policy.score heavy now) ↔
        (policy.Rated → policy.rent m ≤ policy.expectedSaving m now)) := by
  constructor
  · constructor
    · intro hno hrated
      by_contra hlow
      exact hno (h.inverts hrated (not_lt.mp hlow))
    · exact h.not_inverts
  · exact imp_congr_right fun _ => h.score_le_iff now

theorem role_bias_iff_coldPair :
    (¬ (coldPair : AcrValuePolicy ℝ ℕ ℤ).Inverts 0 0 1 ↔
        ((coldPair : AcrValuePolicy ℝ ℕ ℤ).Rated →
          coldPair.rent (coldMeta (8/5) : Meta ℝ) < coldPair.expectedSaving (coldMeta (8/5)) 0)) ∧
      (((coldPair : AcrValuePolicy ℝ ℕ ℤ).Rated →
          (coldPair : AcrValuePolicy ℝ ℕ ℤ).score 1 0 ≤ coldPair.score 0 0) ↔
        ((coldPair : AcrValuePolicy ℝ ℕ ℤ).Rated →
          coldPair.rent (coldMeta (8/5) : Meta ℝ) ≤ coldPair.expectedSaving (coldMeta (8/5)) 0)) :=
  role_bias_iff coldPair_rivals 0

/-- In a full tier the patient's block is evicted and the reviewer's block stays. -/
theorem patient_goes_first :
    Rivals (coldPair : AcrValuePolicy ℝ ℕ ℤ) 0 1 (coldMeta (8/5)) 1 ∧
      (coldPair : AcrValuePolicy ℝ ℕ ℤ).Inverts 0 0 1 :=
  ⟨coldPair_rivals,coldPair_rivals.inverts coldPair_rated (coldPair_loses _ _)⟩

end AcrValuePolicy
end ContextResidency
