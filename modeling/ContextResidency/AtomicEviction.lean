import ContextResidency.InFlight

/-! The three records of the value policy and its eviction. Whatever is called, the blocks
and their statistics have the same keys, so an eviction finds every block that it ranks: it
takes as many as it was asked for, the least valuable ones, or none at all. -/
namespace ContextResidency

variable {F K B : Type} [Scalar F] [DecidableEq K]

namespace AcrValuePolicy

/-- One call of the engine, under the reference counts of that moment. -/
def answer (policy : AcrValuePolicy F K B) (call : (B → ℤ) × EngineCall F K B) :
    AcrValuePolicy F K B := CachePolicy.call call.1 policy call.2

def called (cacheCapacity : ℤ) (params : PolicyParams F)
    (calls : List ((B → ℤ) × EngineCall F K B)) : AcrValuePolicy F K B :=
  calls.foldl answer (new cacheCapacity params)

def MarksResident (policy : AcrValuePolicy F K B) : (B → ℤ) × EngineCall F K B → Prop
  | (_,.markEvictable key) => key ∈ policy.blocks
  | _ => True

/-- Every block has its statistics, and only blocks are evictable. -/
structure Aligned (policy : AcrValuePolicy F K B) : Prop where
  keys : ∀ key, key ∈ policy.blockMeta ↔ key ∈ policy.blocks
  evictable : ∀ key ∈ policy.evictable, key ∈ policy.blocks

omit [DecidableEq K] in
theorem new_aligned (cacheCapacity : ℤ) (params : PolicyParams F) :
    Aligned (new cacheCapacity params : AcrValuePolicy F K B) := by
  constructor
  case keys => simp [new]
  case evictable => simp [new]

section Step

variable {policy : AcrValuePolicy F K B} (h : Aligned policy)
include h

theorem Aligned.insert (refCnt : B → ℤ) (key : K) (block : B) (now : F) :
    Aligned (policy.insert refCnt key block now) := by
  constructor
  case keys =>
    intro k
    have hkeys := h.keys k
    simp only [AcrValuePolicy.insert,Dict.mem_set]
    cases hstats : policy.blockMeta.get key with
    | none => simp [hkeys]
    | some m =>
      have hkey : key ∈ policy.blocks := (h.keys key).mp (Dict.mem_iff_get.mpr ⟨m,hstats⟩)
      by_cases hk : k = key
      · simp [hk,hkey,h.keys key]
      · simp [hk,hkeys]
  case evictable =>
    intro k hk
    have hold := h.evictable k
    simp only [AcrValuePolicy.insert,Dict.mem_set] at hk ⊢
    by_cases hzero : refCnt block = 0
    · rw [if_pos hzero,Finset.mem_insert] at hk
      exact hk.imp_right hold
    · rw [if_neg hzero] at hk
      exact Or.inr (hold hk)

theorem Aligned.without (out : List K) : Aligned (policy.without out) := by
  constructor
  case keys =>
    intro k
    simp only [AcrValuePolicy.without,Dict.mem_eraseAll,h.keys]
  case evictable =>
    intro k hk
    simp only [AcrValuePolicy.without,Finset.mem_sdiff,List.mem_toFinset,Dict.mem_eraseAll] at hk ⊢
    exact ⟨h.evictable k hk.1,hk.2⟩

theorem Aligned.touch (keys : List K) (hints : Option (Hints F)) (now : F) :
    Aligned (policy.touch keys hints now) := by
  constructor
  case keys => exact fun k => Dict.mem_foldl_modify.trans (h.keys k)
  case evictable => exact h.evictable

theorem Aligned.evict (order : Listing policy.evictable) (n : ℤ) (protectedKeys : Finset K)
    (now : F) : Aligned (outcome policy (policy.evict order n protectedKeys now)) := by
  obtain ⟨out,hout⟩ := exists_outcome policy order n protectedKeys now
  rw [hout]
  exact h.without out

theorem Aligned.answer {call : (B → ℤ) × EngineCall F K B} (hmark : policy.MarksResident call) :
    Aligned (policy.answer call) := by
  obtain ⟨refCnt,c⟩ := call
  cases c with
  | get key => exact h
  | insert key block now => exact h.insert refCnt key block now
  | remove key =>
    show Aligned (policy.remove key)
    rw [remove_eq]
    exact h.without [key]
  | touch keys hints now => exact h.touch keys hints now
  | markEvictable key =>
    refine ⟨h.keys,fun k hk => ?_⟩
    cases Finset.mem_insert.mp hk with
    | inl hk => exact hk ▸ hmark
    | inr hk => exact h.evictable k hk
  | markNonEvictable key => exact ⟨h.keys,fun k hk => h.evictable k (Finset.mem_of_mem_erase hk)⟩
  | evict order n protectedKeys now => exact h.evict _ n protectedKeys now
  | clear => exact new_aligned policy.cacheCapacity policy.params

end Step

theorem called_aligned {cacheCapacity : ℤ} {params : PolicyParams F}
    {calls : List ((B → ℤ) × EngineCall F K B)}
    (hmarks : Along answer MarksResident (new cacheCapacity params) calls) :
    Aligned (called cacheCapacity params calls) :=
  run_invariant (fun _ _ h hmark => h.answer hmark) hmarks (new_aligned cacheCapacity params)

/-- What an eviction of `n` blocks hands over. -/
structure Taken (policy : AcrValuePolicy F K B) (n : ℤ) (protectedKeys : Finset K) (now : F)
    (out : List (K × B)) : Prop where
  count : (out.length : ℤ) = n
  distinct : (out.map Prod.fst).Nodup
  stored : ∀ p ∈ out, policy.get p.1 = some p.2
  candidate : ∀ p ∈ out, p.1 ∈ policy.evictable \ protectedKeys
  least : ∀ p ∈ out, ∀ key ∈ policy.evictable \ protectedKeys, key ∉ out.map Prod.fst →
    policy.rank now p.1 ≤ policy.rank now key

/-- An eviction takes as many blocks as it was asked for, or it changes nothing: because
there are too few, or because a score divides by a rate of zero. Under a negative horizon,
where the exponential of a score can overflow, nothing is said of an eviction that scores. -/
structure Atomic (policy : AcrValuePolicy F K B) (order : Listing policy.evictable) (n : ℤ)
    (protectedKeys : Finset K) (now : F) : Prop where
  few : policy.evict order n protectedKeys now = .ok (none,policy) ↔
    ((policy.evictable \ protectedKeys).card : ℤ) < n
  enough : n ≤ ((policy.evictable \ protectedKeys).card : ℤ) →
    n = 0 ∨ 0 ≤ policy.params.horizonS ∧ policy.Rated →
    ∃ out, policy.evict order n protectedKeys now =
        .ok (some out,policy.without (out.map Prod.fst)) ∧
      Taken policy n protectedKeys now out
  unrated : n ≤ ((policy.evictable \ protectedKeys).card : ℤ) → 0 < n →
    0 ≤ policy.params.horizonS → ¬ policy.Rated →
    policy.evict order n protectedKeys now = .error .zeroDivision

section Evict

variable {policy : AcrValuePolicy F K B} {order : Listing policy.evictable} {n : ℤ}
  {protectedKeys : Finset K} {now : F}

theorem length_candidates (order : Listing policy.evictable) :
    (policy.candidates order protectedKeys).length = (policy.evictable \ protectedKeys).card := by
  have hset : (policy.candidates order protectedKeys).toFinset =
      policy.evictable \ protectedKeys := by
    ext key
    simp
  have hnodup : (policy.candidates order protectedKeys).Nodup := order.nodup.filter _
  rw [← hset,List.toFinset_card_of_nodup hnodup]

theorem evict_few (hfew : ((policy.evictable \ protectedKeys).card : ℤ) < n) :
    policy.evict order n protectedKeys now = .ok (none,policy) := by
  rw [← length_candidates order] at hfew
  have hzero : n ≠ 0 := by omega
  rw [evict,if_neg hzero]
  exact if_pos hfew

/-- The first of the ranked candidates are the least valuable ones. -/
theorem taken_of_takenFrom {out : List (K × B)} (hn : 0 ≤ n)
    (henough : n ≤ ((policy.evictable \ protectedKeys).card : ℤ))
    (h : TakenFrom policy.blocks (sortedBy (policy.rank now) (policy.candidates order protectedKeys))
      n out) : Taken policy n protectedKeys now out := by
  rw [← length_candidates order] at henough
  have hkeys := h.keys
  set ranked := sortedBy (policy.rank now) (policy.candidates order protectedKeys)
  have hperm : ranked.Perm (policy.candidates order protectedKeys) := sortedBy_perm _ _
  have hinitial : sliceTo n ranked <+: ranked := sliceTo_initial n ranked
  have hranked : ∀ key, key ∈ ranked ↔ key ∈ policy.evictable \ protectedKeys := fun key => by
    rw [hperm.mem_iff,mem_candidates,Finset.mem_sdiff]
  constructor
  case count =>
    have hlength := congrArg List.length hkeys
    rw [List.length_map,sliceTo,if_pos hn,List.length_take,hperm.length_eq] at hlength
    omega
  case distinct =>
    rw [hkeys]
    exact hinitial.sublist.nodup (hperm.nodup_iff.mpr (order.nodup.filter _))
  case stored => exact fun p hp => Dict.get_eq_some.mpr (h.stored p hp)
  case candidate => exact fun p hp => (hranked p.1).mp (h.mem_ranked hp)
  case least =>
    intro p hp key hkey hleft
    have htaken : p.1 ∈ out.map Prod.fst := List.mem_map_of_mem hp
    rw [hkeys] at htaken hleft
    by_contra hless
    have hlive : key ∈ policy.candidates order protectedKeys :=
      hperm.mem_iff.mp ((hranked key).mpr hkey)
    exact hleft (mem_initial_of_lt hinitial htaken hlive (not_le.mp hless))

variable (h : Aligned policy)
include h

theorem Aligned.evict_unrated (henough : n ≤ ((policy.evictable \ protectedKeys).card : ℤ))
    (hn : 0 < n) (hrated : ¬ policy.Rated) :
    policy.evict order n protectedKeys now = .error .zeroDivision := by
  rw [← length_candidates order] at henough
  have hzero : n ≠ 0 := by omega
  have hsome : policy.candidates order protectedKeys ≠ [] := fun hnil => by
    simp [hnil] at henough
    omega
  obtain ⟨key,hkey⟩ := List.exists_mem_of_ne_nil _ hsome
  have hstats : key ∈ policy.blockMeta :=
    (h.keys key).mpr (h.evictable key (mem_candidates.mp hkey).1)
  rw [AcrValuePolicy.evict,if_neg hzero]
  refine (if_neg (not_lt.mpr henough)).trans ?_
  exact if_pos ⟨hrated,key,hkey,hstats⟩

theorem Aligned.exists_lookups (order : Listing policy.evictable) (n : ℤ)
    (protectedKeys : Finset K) (now : F) : ∃ out,
    (sliceTo n (sortedBy (policy.rank now) (policy.candidates order protectedKeys))).mapM
        policy.lookup = .ok out ∧
      TakenFrom policy.blocks
        (sortedBy (policy.rank now) (policy.candidates order protectedKeys)) n out := by
  have hthere : ∀ key ∈ sliceTo n (sortedBy (policy.rank now)
      (policy.candidates order protectedKeys)), key ∈ policy.blocks := fun key hkey => by
    have hlive := mem_sortedBy.mp ((sliceTo_initial n _).subset hkey)
    exact h.evictable key (mem_candidates.mp hlive).1
  obtain ⟨out,hout⟩ := Dict.exists_mapM_fetch EvictError.keyError hthere
  have hfetched := Dict.mapM_fetch_eq_ok.mp hout
  exact ⟨out,hout,⟨hfetched.2,hfetched.1⟩⟩

theorem Aligned.evict_enough (hn : 0 ≤ n)
    (henough : n ≤ ((policy.evictable \ protectedKeys).card : ℤ)) (hrated : n = 0 ∨ policy.Rated) :
    ∃ out, policy.evict order n protectedKeys now =
        .ok (some out,policy.without (out.map Prod.fst)) ∧
      Taken policy n protectedKeys now out := by
  by_cases hzero : n = 0
  · refine ⟨[],?_,?_⟩
    · rw [AcrValuePolicy.evict,if_pos hzero,List.map_nil,without_nil]
    · constructor <;> simp [hzero]
  · obtain ⟨out,hlook,htaken⟩ := h.exists_lookups order n protectedKeys now
    refine ⟨out,?_,taken_of_takenFrom hn henough htaken⟩
    rw [← length_candidates order] at henough
    rw [candidates] at hlook
    rw [AcrValuePolicy.evict,if_neg hzero]
    refine (if_neg (not_lt.mpr henough)).trans ?_
    refine (if_neg fun hbad => hbad.1 (hrated.resolve_left hzero)).trans ?_
    rw [hlook,← removeAll_eq]

/-- Only for want of candidates nothing is handed over. -/
theorem Aligned.evict_none_iff (hn : 0 ≤ n) :
    policy.evict order n protectedKeys now = .ok (none,policy) ↔
      ((policy.evictable \ protectedKeys).card : ℤ) < n := by
  refine ⟨fun hnone => not_le.mp fun henough => ?_,evict_few⟩
  by_cases hrated : n = 0 ∨ policy.Rated
  · obtain ⟨out,hout,_⟩ := h.evict_enough hn henough hrated
    rw [hout] at hnone
    cases hnone
  · obtain ⟨hzero,hrated⟩ := not_or.mp hrated
    rw [h.evict_unrated henough (by omega) hrated] at hnone
    cases hnone

theorem Aligned.evict_ne_keyError (key : K) :
    policy.evict order n protectedKeys now ≠ .error (.keyError key) := by
  obtain ⟨out,hlook,_⟩ := h.exists_lookups order n protectedKeys now
  rw [candidates] at hlook
  intro hraise
  rw [AcrValuePolicy.evict] at hraise
  simp only [hlook] at hraise
  split_ifs at hraise
  cases hraise

end Evict

/-- In every state that calls can reach, the blocks and their statistics have the same keys,
no eviction misses a block, and each one is atomic. -/
theorem evict_atomic (cacheCapacity : ℤ) (params : PolicyParams F)
    (calls : List ((B → ℤ) × EngineCall F K B))
    (hmarks : Along answer MarksResident (new cacheCapacity params) calls) :
    Aligned (called cacheCapacity params calls) ∧ ∀ order n protectedKeys now,
      (∀ key, (called cacheCapacity params calls).evict order n protectedKeys now ≠
        .error (.keyError key)) ∧
      (0 ≤ n → Atomic (called cacheCapacity params calls) order n protectedKeys now) := by
  have haligned := called_aligned hmarks
  refine ⟨haligned,fun order n protectedKeys now => ⟨haligned.evict_ne_keyError,fun hn => ?_⟩⟩
  constructor
  case few => exact haligned.evict_none_iff hn
  case enough =>
    exact fun henough hscored => haligned.evict_enough hn henough (hscored.imp_right And.right)
  case unrated => exact fun henough hpos _ hrated => haligned.evict_unrated henough hpos hrated

/-- Two idle blocks, of which the first is used again. -/
def twoIdle : List ((ℕ → ℤ) × EngineCall ℚ ℕ ℕ) :=
  [(fun _ => 0,.insert 0 0 1),(fun _ => 0,.insert 1 1 2),(fun _ => 0,.touch [0] none 3)]

instance (policy : AcrValuePolicy F K B) :
    (call : (B → ℤ) × EngineCall F K B) → Decidable (policy.MarksResident call)
  | (_,.markEvictable key) => inferInstanceAs (Decidable (key ∈ policy.blocks))
  | (_,.get _) => .isTrue trivial
  | (_,.insert _ _ _) => .isTrue trivial
  | (_,.remove _) => .isTrue trivial
  | (_,.touch _ _ _) => .isTrue trivial
  | (_,.markNonEvictable _) => .isTrue trivial
  | (_,.evict _ _ _ _) => .isTrue trivial
  | (_,.clear) => .isTrue trivial

theorem evict_atomic_twoIdle : ∃ out, (called 2 {} twoIdle).evict (ascending _) 1 ∅ 4 =
      .ok (some out,(called 2 {} twoIdle).without (out.map Prod.fst)) ∧
    Taken (called 2 {} twoIdle) 1 ∅ 4 out :=
  (((evict_atomic 2 {} twoIdle (by decide +kernel)).2 (ascending _) 1 ∅ 4).2
    (by decide)).enough (by decide +kernel) (Or.inr ⟨by decide +kernel,by decide +kernel⟩)

/-- Without a prefill rate there is no score, and nothing can be evicted. -/
theorem evict_raises : ¬ ∀ (cacheCapacity : ℤ) (params : PolicyParams ℚ)
    (calls : List ((ℕ → ℤ) × EngineCall ℚ ℕ ℕ)),
    Along answer MarksResident (new cacheCapacity params) calls →
    ∀ order n protectedKeys now, 0 ≤ n →
      n ≤ (((called cacheCapacity params calls).evictable \ protectedKeys).card : ℤ) →
      ∃ out, (called cacheCapacity params calls).evict order n protectedKeys now =
          .ok (some out,(called cacheCapacity params calls).without (out.map Prod.fst)) ∧
        Taken (called cacheCapacity params calls) n protectedKeys now out := by
  intro h
  let params : PolicyParams ℚ := { prefillTokensPerS := 0 }
  obtain ⟨out,hout,_⟩ := h 2 params twoIdle (by decide +kernel) (ascending _) 1 ∅ 4 (by decide)
    (by decide +kernel)
  have haligned : Aligned (called 2 params twoIdle) := called_aligned (by decide +kernel)
  rw [haligned.evict_unrated (by decide +kernel) (by decide) (by decide +kernel)] at hout
  cases hout

end AcrValuePolicy
end ContextResidency
