import ContextResidency.EngineCalls

/-! What an eviction does to either engine policy: it removes from every record exactly
the keys it returns, and it returns nothing that was not a candidate. -/
namespace ContextResidency

/-- The first `n` keys of a ranking, each with the block stored for it. -/
structure TakenFrom {K B : Type} (blocks : Dict K B) (ranked : List K) (n : ℤ)
    (out : List (K × B)) : Prop where
  stored : ∀ p ∈ out, p ∈ blocks.items
  keys : out.map Prod.fst = sliceTo n ranked

theorem TakenFrom.mem_ranked {K B : Type} {blocks : Dict K B} {ranked : List K} {n : ℤ}
    {out : List (K × B)} (h : TakenFrom blocks ranked n out) {p : K × B} (hp : p ∈ out) :
    p.1 ∈ ranked := by
  have hkey : p.1 ∈ out.map Prod.fst := List.mem_map_of_mem hp
  rw [h.keys] at hkey
  exact (sliceTo_initial n ranked).subset hkey

variable {F K B : Type} [Scalar F] [DecidableEq K]

namespace AcrValuePolicy

def without (policy : AcrValuePolicy F K B) (out : List K) : AcrValuePolicy F K B :=
  { policy with
    blocks := policy.blocks.eraseAll out
    evictable := policy.evictable \ out.toFinset
    blockMeta := policy.blockMeta.eraseAll out }

theorem without_nil (policy : AcrValuePolicy F K B) : policy.without [] = policy := by
  simp [without]

theorem remove_eq (policy : AcrValuePolicy F K B) (key : K) :
    policy.remove key = policy.without [key] := by
  simp [remove,without,Dict.erase,Dict.eraseAll,Finset.sdiff_singleton_eq_erase]

theorem removeAll_eq (policy : AcrValuePolicy F K B) (out : List (K × B)) :
    out.foldl (fun policy p => policy.remove p.1) policy = policy.without (out.map Prod.fst) := by
  induction out generalizing policy with
  | nil => simp [without]
  | cons p out ih =>
    rw [List.foldl_cons,ih,remove,without,without]
    simp only [Dict.eraseAll_erase,List.map_cons,List.toFinset_cons]
    congr 1
    ext k
    simp only [Finset.mem_sdiff,Finset.mem_erase,Finset.mem_insert]
    tauto

/-- The evictable keys that are not protected, as they are iterated. -/
def candidates (policy : AcrValuePolicy F K B) (order : Listing policy.evictable)
    (protectedKeys : Finset K) : List K := order.keys.filter (· ∉ protectedKeys)

variable {policy : AcrValuePolicy F K B} {order : Listing policy.evictable} {n : ℤ}
  {protectedKeys : Finset K} {now : F} {out : List (K × B)} {after : AcrValuePolicy F K B}

@[simp] theorem mem_candidates {key : K} :
    key ∈ policy.candidates order protectedKeys ↔ key ∈ policy.evictable ∧ key ∉ protectedKeys := by
  simp [candidates,order.mem_keys]

/-- An eviction that goes through takes nothing, or the first of the ranked candidates. -/
theorem evict_some (h : policy.evict order n protectedKeys now = .ok (some out,after)) :
    out = [] ∧ after = policy ∨
      (policy.Rated ∨ ∀ k ∈ policy.candidates order protectedKeys, k ∉ policy.blockMeta) ∧
      TakenFrom policy.blocks (sortedBy (policy.rank now) (policy.candidates order protectedKeys))
        n out ∧
      after = policy.without (out.map Prod.fst) := by
  rw [evict] at h
  by_cases hn : n = 0
  · rw [if_pos hn] at h
    cases h
    exact Or.inl ⟨rfl,rfl⟩
  · rw [if_neg hn] at h
    simp only at h
    split_ifs at h with hfew hrated
    · cases h
    · split at h
      · cases h
      · rename_i taken hlook
        cases h
        obtain ⟨hkeys,hstored⟩ := Dict.mapM_fetch_eq_ok.mp hlook
        refine Or.inr ⟨?_,⟨hstored,hkeys⟩,removeAll_eq policy out⟩
        by_cases hr : policy.Rated
        · exact Or.inl hr
        · right
          intro k hk hstats
          exact hrated ⟨hr,k,hk,hstats⟩

theorem evict_none (h : policy.evict order n protectedKeys now = .ok (none,after)) :
    after = policy := by
  rw [evict] at h
  split_ifs at h with hn
  · cases h
  · simp only at h
    split_ifs at h with hfew hrated
    · cases h
      rfl
    · split at h <;> cases h

theorem given_of_evict (h : policy.evict order n protectedKeys now = .ok (some out,after))
    {p : K × B} (hp : p ∈ out) :
    p ∈ policy.blocks.items ∧ p.1 ∈ policy.candidates order protectedKeys := by
  cases evict_some h with
  | inl hnone => simp [hnone.1] at hp
  | inr htaken => exact ⟨htaken.2.1.stored p hp,mem_sortedBy.mp (htaken.2.1.mem_ranked hp)⟩

/-- However an eviction ends, it takes some keys out of every record. -/
theorem exists_outcome (policy : AcrValuePolicy F K B) (order : Listing policy.evictable) (n : ℤ)
    (protectedKeys : Finset K) (now : F) : ∃ out,
    outcome policy (policy.evict order n protectedKeys now) = policy.without out := by
  cases hevict : policy.evict order n protectedKeys now with
  | error e => exact ⟨[],policy.without_nil.symm⟩
  | ok r =>
    obtain ⟨result,after⟩ := r
    cases result with
    | none => exact ⟨[],(evict_none hevict).trans policy.without_nil.symm⟩
    | some out =>
      cases evict_some hevict with
      | inl hsame => exact ⟨[],hsame.2.trans policy.without_nil.symm⟩
      | inr htaken => exact ⟨out.map Prod.fst,htaken.2.2⟩

end AcrValuePolicy

namespace SessionTtlPolicy

def without (policy : SessionTtlPolicy F K B) (out : List K) : SessionTtlPolicy F K B :=
  { policy with
    blocks := policy.blocks.eraseAll out
    expires := policy.expires.eraseAll out
    role := policy.role.eraseAll out
    pinned := policy.pinned \ out.toFinset }

theorem without_nil (policy : SessionTtlPolicy F K B) : policy.without [] = policy := by
  simp [without]

theorem remove_eq (policy : SessionTtlPolicy F K B) (key : K) :
    policy.remove key = policy.without [key] := by
  simp [remove,without,Dict.erase,Dict.eraseAll,Finset.sdiff_singleton_eq_erase]

theorem removeAll_eq (policy : SessionTtlPolicy F K B) (out : List (K × B)) :
    out.foldl (fun policy p => policy.remove p.1) policy = policy.without (out.map Prod.fst) := by
  induction out generalizing policy with
  | nil => simp [without]
  | cons p out ih =>
    rw [List.foldl_cons,ih,remove,without,without]
    simp only [Dict.eraseAll_erase,List.map_cons,List.toFinset_cons]
    congr 1
    ext k
    simp only [Finset.mem_sdiff,Finset.mem_erase,Finset.mem_insert]
    tauto

variable {policy : SessionTtlPolicy F K B} {n : ℤ} {protectedKeys : Finset K} {now : F}
  {out : List (K × B)} {after : SessionTtlPolicy F K B}

@[simp] theorem mem_live {key : K} : key ∈ policy.live protectedKeys ↔
    key ∈ policy.blocks ∧ key ∉ protectedKeys ∧ key ∉ policy.pinned := by
  simp [live,Dict.mem_def]

@[simp] theorem mem_victims {key : K} :
    key ∈ policy.victims protectedKeys now ↔ key ∈ policy.live protectedKeys := by
  by_cases h : policy.expiry key ≤ now
  · simp [victims,h]
  · have hlater := not_le.mp h
    simp only [victims,List.mem_append,List.mem_filter,mem_sortedBy,decide_eq_true_eq]
    tauto

theorem evict_some (h : policy.evict n protectedKeys now = .ok (some out,after)) :
    out = [] ∧ after = policy ∨
      TakenFrom policy.blocks (policy.victims protectedKeys now) n out ∧
      after = policy.without (out.map Prod.fst) := by
  rw [evict] at h
  split_ifs at h with hn hfew
  · cases h
    exact Or.inl ⟨rfl,rfl⟩
  · cases h
  · split at h
    · cases h
    · split at h
      · cases h
      · rename_i taken hlook
        cases h
        obtain ⟨hkeys,hstored⟩ := Dict.mapM_fetch_eq_ok.mp hlook
        exact Or.inr ⟨⟨hstored,hkeys⟩,removeAll_eq policy out⟩

theorem evict_none (h : policy.evict n protectedKeys now = .ok (none,after)) : after = policy := by
  rw [evict] at h
  split_ifs at h with hn hfew
  · cases h
  · cases h
    rfl
  · split at h
    · cases h
    · split at h <;> cases h

theorem given_of_evict (h : policy.evict n protectedKeys now = .ok (some out,after)) {p : K × B}
    (hp : p ∈ out) : p ∈ policy.blocks.items ∧ p.1 ∈ policy.live protectedKeys := by
  cases evict_some h with
  | inl hnone => simp [hnone.1] at hp
  | inr htaken => exact ⟨htaken.1.stored p hp,mem_victims.mp (htaken.1.mem_ranked hp)⟩

theorem exists_outcome (policy : SessionTtlPolicy F K B) (n : ℤ) (protectedKeys : Finset K)
    (now : F) : ∃ out,
    outcome policy (policy.evict n protectedKeys now) = policy.without out := by
  cases hevict : policy.evict n protectedKeys now with
  | error e => exact ⟨[],policy.without_nil.symm⟩
  | ok r =>
    obtain ⟨result,after⟩ := r
    cases result with
    | none => exact ⟨[],(evict_none hevict).trans policy.without_nil.symm⟩
    | some out =>
      cases evict_some hevict with
      | inl hsame => exact ⟨[],hsame.2.trans policy.without_nil.symm⟩
      | inr htaken => exact ⟨out.map Prod.fst,htaken.2⟩

end SessionTtlPolicy
end ContextResidency
