import ContextResidency.AtomicEviction
import ContextResidency.Library.Ties

/-! Which blocks the value policy gives up, when the set of candidates is iterated in an
arbitrary order. The sort key is score, last use and number of uses, so blocks that entered
in one instant and are used alike tie, and the order of iteration decides between them when
the cut falls among them. -/
namespace ContextResidency

variable {F K B : Type} [Scalar F] [DecidableEq K]

namespace AcrValuePolicy

/-- The keys that an eviction hands over: nothing is handed over when it raises, and none
when there are too few candidates. -/
def victims (policy : AcrValuePolicy F K B) (order : Listing policy.evictable) (n : ℤ)
    (protectedKeys : Finset K) (now : F) : Option (Option (Finset K)) :=
  match policy.evict order n protectedKeys now with
  | .error _ => none
  | .ok (out,_) => some (out.map fun out => (out.map Prod.fst).toFinset)

/-- The order of iteration does not matter to the choice. -/
def SameVictims (policy : AcrValuePolicy F K B) (n : ℤ) (protectedKeys : Finset K) (now : F) :
    Prop :=
  ∀ order order', policy.victims order n protectedKeys now =
    policy.victims order' n protectedKeys now

def eligible (policy : AcrValuePolicy F K B) (protectedKeys : Finset K) : Finset K :=
  policy.evictable \ protectedKeys

/-- Where an eviction cuts its ranking. A negative number counts from the end. -/
def cut (policy : AcrValuePolicy F K B) (n : ℤ) (protectedKeys : Finset K) : ℕ :=
  if 0 ≤ n then n.toNat else (policy.eligible protectedKeys).card-n.natAbs

def Unscored (policy : AcrValuePolicy F K B) (protectedKeys : Finset K) : Prop :=
  ¬ policy.Rated ∧ ∃ key ∈ policy.eligible protectedKeys, key ∈ policy.blockMeta

/-- Candidates that tie across the cut cannot be handed over in any order: an absent key
comes before them, or too few of the keys up to them are there. -/
def TieRaises (policy : AcrValuePolicy F K B) (n : ℤ) (protectedKeys : Finset K) (now : F)
    (key : K) : Prop :=
  (∃ k ∈ policy.eligible protectedKeys, policy.rank now k < policy.rank now key ∧
      k ∉ policy.blocks) ∨
    ((policy.eligible protectedKeys).filter fun k =>
      policy.rank now k ≤ policy.rank now key ∧ k ∈ policy.blocks).card < policy.cut n protectedKeys

section Choice

variable {policy : AcrValuePolicy F K B} {n : ℤ} {protectedKeys : Finset K} {now : F}

def front (policy : AcrValuePolicy F K B) (order : Listing policy.evictable) (n : ℤ)
    (protectedKeys : Finset K) (now : F) : Finset K :=
  ((sortedBy (policy.rank now) (policy.candidates order protectedKeys)).take
    (policy.cut n protectedKeys)).toFinset

/-- What some order of iteration may put first. -/
abbrev Choice (policy : AcrValuePolicy F K B) (n : ℤ) (protectedKeys : Finset K) (now : F)
    (chosen : Finset K) : Prop :=
  FirstOf (policy.rank now) (policy.eligible protectedKeys) (policy.cut n protectedKeys) chosen

/-- A choice is handed over when all of its keys have a block. -/
def handed (policy : AcrValuePolicy F K B) (chosen : Finset K) : Option (Option (Finset K)) :=
  if ∀ key ∈ chosen, key ∈ policy.blocks then some (some chosen) else none

theorem victims_none (hfew : ((policy.eligible protectedKeys).card : ℤ) < n)
    (order : Listing policy.evictable) :
    policy.victims order n protectedKeys now = some none := by
  rw [victims,evict_few hfew]
  rfl

theorem victims_unscored (hzero : n ≠ 0) (hfew : ¬ ((policy.eligible protectedKeys).card : ℤ) < n)
    (hscore : policy.Unscored protectedKeys) (order : Listing policy.evictable) :
    policy.victims order n protectedKeys now = none := by
  rw [eligible,← length_candidates order] at hfew
  rcases hscore with ⟨hrated,key,hkey,hstats⟩
  have hcand : key ∈ policy.candidates order protectedKeys :=
    mem_candidates.mpr (Finset.mem_sdiff.mp hkey)
  have hraise : policy.evict order n protectedKeys now = .error .zeroDivision := by
    rw [evict,if_neg hzero]
    refine (if_neg hfew).trans ?_
    exact if_pos ⟨hrated,key,hcand,hstats⟩
  rw [victims,hraise]

theorem lookups_eq (policy : AcrValuePolicy F K B) (keys : List K) :
    (match keys.mapM policy.lookup with
      | .error _ => none
      | .ok out => some (some (out.map Prod.fst).toFinset)) = policy.handed keys.toFinset := by
  unfold handed
  by_cases hthere : ∀ key ∈ keys.toFinset, key ∈ policy.blocks
  · rw [if_pos hthere]
    obtain ⟨out,hout⟩ := Dict.exists_mapM_fetch (d := policy.blocks) (@EvictError.keyError K)
      fun key hkey => hthere key (List.mem_toFinset.mpr hkey)
    have hlook : keys.mapM policy.lookup = .ok out := hout
    rw [hlook,← (Dict.mapM_fetch_eq_ok.mp hout).1]
  · rw [if_neg hthere]
    cases hlook : keys.mapM policy.lookup with
    | error e => rfl
    | ok out =>
      have hfetched := Dict.mapM_fetch_eq_ok.mp
        (show keys.mapM (policy.blocks.fetch _) = _ from hlook)
      refine absurd (fun key hkey => ?_) hthere
      rw [List.mem_toFinset,← hfetched.1] at hkey
      rcases List.mem_map.mp hkey with ⟨p,hp,rfl⟩
      exact Dict.mem_of_item (hfetched.2 p hp)

theorem sliceTo_candidates (order : Listing policy.evictable) :
    sliceTo n (sortedBy (policy.rank now) (policy.candidates order protectedKeys)) =
      (sortedBy (policy.rank now) (policy.candidates order protectedKeys)).take
        (policy.cut n protectedKeys) := by
  rw [sliceTo,(sortedBy_perm _ _).length_eq,length_candidates order]
  rfl

theorem evict_scored (hzero : n ≠ 0) (hfew : ¬ ((policy.eligible protectedKeys).card : ℤ) < n)
    (hscore : ¬ policy.Unscored protectedKeys) (order : Listing policy.evictable) :
    policy.evict order n protectedKeys now =
      match (sliceTo n (sortedBy (policy.rank now) (policy.candidates order protectedKeys))).mapM
          policy.lookup with
      | .error e => .error e
      | .ok out => .ok (some out,out.foldl (fun policy p => policy.remove p.1) policy) := by
  rw [eligible,← length_candidates order] at hfew
  have hrated : ¬ (¬ policy.Rated ∧ ∃ k ∈ policy.candidates order protectedKeys,
      k ∈ policy.blockMeta) := by
    rintro ⟨hr,k,hk,hstats⟩
    exact hscore ⟨hr,k,Finset.mem_sdiff.mpr (mem_candidates.mp hk),hstats⟩
  rw [evict,if_neg hzero]
  exact (if_neg hfew).trans (if_neg hrated)

theorem victims_scored (hzero : n ≠ 0) (hfew : ¬ ((policy.eligible protectedKeys).card : ℤ) < n)
    (hscore : ¬ policy.Unscored protectedKeys) (order : Listing policy.evictable) :
    policy.victims order n protectedKeys now =
      policy.handed (policy.front order n protectedKeys now) := by
  rw [victims,evict_scored hzero hfew hscore,front,← lookups_eq,← sliceTo_candidates order]
  cases (sliceTo n (sortedBy (policy.rank now)
    (policy.candidates order protectedKeys))).mapM policy.lookup <;> rfl

theorem exists_order {chosen : Finset K} (h : policy.Choice n protectedKeys now chosen) :
    ∃ order, policy.front order n protectedKeys now = chosen := by
  rcases h.exists_listing with ⟨xs,hn,hxs,htake⟩
  have hmem : ∀ key, key ∈ xs ↔ key ∈ policy.evictable ∧ key ∉ protectedKeys := fun key =>
    (hxs key).trans Finset.mem_sdiff
  set rest := (policy.evictable ∩ protectedKeys).toList
  have hrest : ∀ key, key ∈ rest ↔ key ∈ policy.evictable ∧ key ∈ protectedKeys := by simp [rest]
  have hnodup : (xs ++ rest).Nodup := by
    rw [List.nodup_append]
    refine ⟨hn,Finset.nodup_toList _,?_⟩
    rintro key hkey _ hkey' rfl
    exact ((hmem key).mp hkey).2 ((hrest key).mp hkey').2
  refine ⟨⟨xs ++ rest,hnodup,fun key => ?_⟩,?_⟩
  · rw [List.mem_append,hmem,hrest]
    tauto
  · have hcand : (xs ++ rest).filter (· ∉ protectedKeys) = xs := by
      rw [List.filter_append,List.filter_eq_self.mpr,List.filter_eq_nil_iff.mpr,List.append_nil]
      · intro key hkey
        simpa using ((hrest key).mp hkey).2
      · intro key hkey
        simpa using ((hmem key).mp hkey).2
    rw [front,candidates,hcand]
    exact htake

theorem choice_front (n : ℤ) (now : F) (order : Listing policy.evictable) :
    policy.Choice n protectedKeys now (policy.front order n protectedKeys now) :=
  .of_take (order.nodup.filter _) fun _ => mem_candidates.trans Finset.mem_sdiff.symm

theorem sameVictims_scored (hzero : n ≠ 0)
    (hfew : ¬ ((policy.eligible protectedKeys).card : ℤ) < n)
    (hscore : ¬ policy.Unscored protectedKeys) : policy.SameVictims n protectedKeys now ↔
      ∀ chosen other, policy.Choice n protectedKeys now chosen →
        policy.Choice n protectedKeys now other →
        policy.handed chosen = policy.handed other := by
  constructor
  · rintro h chosen other hchosen hother
    rcases exists_order hchosen with ⟨order,horder⟩
    rcases exists_order hother with ⟨order',horder'⟩
    have hsame := h order order'
    rw [victims_scored hzero hfew hscore,victims_scored hzero hfew hscore] at hsame
    rwa [horder,horder'] at hsame
  · intro h order order'
    rw [victims_scored hzero hfew hscore,victims_scored hzero hfew hscore]
    exact h _ _ (choice_front n now order) (choice_front n now order')

theorem handed_of_tieRaises {key : K} (hcut : Straddles (policy.rank now)
      (policy.eligible protectedKeys) (policy.cut n protectedKeys) (policy.rank now key))
    (htie : policy.TieRaises n protectedKeys now key) {chosen : Finset K}
    (h : policy.Choice n protectedKeys now chosen) : policy.handed chosen = none := by
  rcases (FirstOf.iff_between hcut).mp h with ⟨hlow,hhigh,hcard⟩
  unfold handed
  rw [if_neg]
  intro hthere
  cases htie with
  | inl habsent =>
    rcases habsent with ⟨k,hk,hlt,hnone⟩
    exact hnone (hthere k (hlow (Finset.mem_filter.mpr ⟨hk,hlt⟩)))
  | inr hfew =>
    have hsub : chosen ⊆ (policy.eligible protectedKeys).filter fun k =>
        policy.rank now k ≤ policy.rank now key ∧ k ∈ policy.blocks := by
      intro k hk
      rcases Finset.mem_filter.mp (hhigh hk) with ⟨hks,hle⟩
      exact Finset.mem_filter.mpr ⟨hks,hle,hthere k hk⟩
    have := Finset.card_le_card hsub
    omega

/-- Around a tie that can be handed over, the victims depend on the order. -/
theorem exists_differ {key : K} (hcut : Straddles (policy.rank now)
      (policy.eligible protectedKeys) (policy.cut n protectedKeys) (policy.rank now key))
    (htie : ¬ policy.TieRaises n protectedKeys now key) : ∃ chosen other,
      policy.Choice n protectedKeys now chosen ∧ policy.Choice n protectedKeys now other ∧
      policy.handed chosen ≠ policy.handed other := by
  rcases not_or.mp htie with ⟨hlow,henough⟩
  push Not at hlow
  have hsub : ((policy.eligible protectedKeys).filter fun k =>
      policy.rank now k < policy.rank now key) ⊆
      (policy.eligible protectedKeys).filter fun k =>
        policy.rank now k ≤ policy.rank now key ∧ k ∈ policy.blocks := by
    intro k hk
    rcases Finset.mem_filter.mp hk with ⟨hks,hlt⟩
    exact Finset.mem_filter.mpr ⟨hks,hlt.le,hlow k hks hlt⟩
  rcases Finset.exists_subsuperset_card_eq hsub hcut.below.le (not_lt.mp henough)
    with ⟨chosen,hbelow,habove,hcard⟩
  have hthere : ∀ k ∈ chosen, k ∈ policy.blocks := fun k hk =>
    (Finset.mem_filter.mp (habove hk)).2.2
  have hchosen := (FirstOf.iff_between hcut).mpr ⟨hbelow,fun k hk => by
    rcases Finset.mem_filter.mp (habove hk) with ⟨hks,hle,-⟩
    exact Finset.mem_filter.mpr ⟨hks,hle⟩,hcard⟩
  rcases FirstOf.exists_other hcut hchosen with ⟨other,hother,hne⟩
  refine ⟨chosen,other,hchosen,hother,fun hsame => hne ?_⟩
  unfold handed at hsame
  rw [if_pos hthere] at hsame
  split at hsame
  · exact (Option.some.inj (Option.some.inj hsame)).symm
  · cases hsame

/-- No tie across the cut, or one that raises in every order. -/
def Separated (policy : AcrValuePolicy F K B) (n : ℤ) (protectedKeys : Finset K) (now : F) : Prop :=
  policy.Unscored protectedKeys ∨ ∀ key ∈ policy.eligible protectedKeys,
    Straddles (policy.rank now) (policy.eligible protectedKeys) (policy.cut n protectedKeys)
      (policy.rank now key) → policy.TieRaises n protectedKeys now key

theorem sameVictims_iff_separated (policy : AcrValuePolicy F K B) (n : ℤ)
    (protectedKeys : Finset K) (now : F) :
    policy.SameVictims n protectedKeys now ↔ policy.Separated n protectedKeys now := by
  by_cases hzero : n = 0
  · refine iff_of_true ?_ (Or.inr fun key hkey hcut => ?_)
    · intro order order'
      rw [victims,victims,evict,evict,if_pos hzero,if_pos hzero]
    · have hbelow := hcut.below
      simp [cut,hzero] at hbelow
  · by_cases hfew : ((policy.eligible protectedKeys).card : ℤ) < n
    · refine iff_of_true ?_ (Or.inr fun key hkey hcut => ?_)
      · intro order order'
        rw [victims_none hfew,victims_none hfew]
      · have habove := hcut.above.trans_le (Finset.card_le_card (Finset.filter_subset _ _))
        unfold cut at habove
        split_ifs at habove <;> omega
    · by_cases hscore : policy.Unscored protectedKeys
      · refine iff_of_true ?_ (Or.inl hscore)
        intro order order'
        rw [victims_unscored hzero hfew hscore,victims_unscored hzero hfew hscore]
      · rw [sameVictims_scored hzero hfew hscore]
        constructor
        · intro h
          refine Or.inr fun key hkey hcut => ?_
          by_contra htie
          rcases exists_differ hcut htie with ⟨chosen,other,hchosen,hother,hne⟩
          exact hne (h chosen other hchosen hother)
        · intro h chosen other hchosen hother
          by_cases hsame : chosen = other
          · rw [hsame]
          · rcases hchosen.straddles hother hsame with ⟨key,hkey,hcut⟩
            have htie := h.resolve_left hscore key hkey hcut
            rw [handed_of_tieRaises hcut htie hchosen,handed_of_tieRaises hcut htie hother]

/-- When only blocks are evictable, every tie across the cut can be handed over. -/
theorem Aligned.separated_iff (h : Aligned policy) : policy.Separated n protectedKeys now ↔
    policy.Unscored protectedKeys ∨ ∀ key ∈ policy.eligible protectedKeys,
      ¬ Straddles (policy.rank now) (policy.eligible protectedKeys) (policy.cut n protectedKeys)
        (policy.rank now key) := by
  have hthere : ∀ k ∈ policy.eligible protectedKeys, k ∈ policy.blocks := fun k hk =>
    h.evictable k (Finset.mem_sdiff.mp hk).1
  refine or_congr_right (forall₂_congr fun key hkey => imp_congr_right fun hcut => ?_)
  refine iff_of_false ?_ fun hno => hno
  rintro (⟨k,hk,-,hnone⟩ | hfew)
  · exact hnone (hthere k hk)
  · have hsub : ((policy.eligible protectedKeys).filter fun k =>
        policy.rank now k ≤ policy.rank now key) ⊆
        (policy.eligible protectedKeys).filter fun k =>
          policy.rank now k ≤ policy.rank now key ∧ k ∈ policy.blocks := by
      intro k hk
      rcases Finset.mem_filter.mp hk with ⟨hks,hle⟩
      exact Finset.mem_filter.mpr ⟨hks,hle,hthere k hks⟩
    have := hcut.above.trans_le (Finset.card_le_card hsub)
    omega

end Choice

/-- In every state that calls can reach, an eviction picks the same victims in every order of
iteration exactly when no tie of rank lies across its cut, or when the tie cannot be handed
over in any order. -/
theorem sameVictims_iff (cacheCapacity : ℤ) (params : PolicyParams F)
    (calls : List ((B → ℤ) × EngineCall F K B)) (n : ℤ) (protectedKeys : Finset K) (now : F) :
    (called cacheCapacity params calls).SameVictims n protectedKeys now ↔
      (called cacheCapacity params calls).Separated n protectedKeys now :=
  sameVictims_iff_separated _ n protectedKeys now

def twins : List ((ℕ → ℤ) × EngineCall ℚ ℕ ℕ) :=
  [(fun _ => 0,.insert 0 0 1),(fun _ => 0,.insert 1 1 1)]

/-- The set decides which of the two goes. -/
theorem twins_differ : ¬ ∀ (cacheCapacity : ℤ) (params : PolicyParams ℚ)
    (calls : List ((ℕ → ℤ) × EngineCall ℚ ℕ ℕ)) (n : ℤ) (protectedKeys : Finset ℕ) (now : ℚ),
    (calls.filterMap (·.2.reading)).Pairwise (· ≤ ·) →
    (called cacheCapacity params calls).SameVictims n protectedKeys now := by
  intro h
  have hsame := h 2 {} twins 1 ∅ 2 (by decide +kernel)
  cases (sameVictims_iff_separated _ 1 ∅ 2).mp hsame with
  | inl hscore => exact hscore.1 (by decide +kernel)
  | inr hseparated =>
    cases hseparated 0 (by decide +kernel) ⟨by decide +kernel,by decide +kernel⟩ with
    | inl habsent => exact absurd habsent (by decide +kernel)
    | inr hfew => exact absurd hfew (by decide +kernel)

end AcrValuePolicy

end ContextResidency
