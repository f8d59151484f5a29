import ContextResidency.Policies

/-! The contract of eviction. Every policy first leaves the entries alone or sweeps
the expired ones, and from what is left it then removes exactly the keys it returns. -/
namespace ContextResidency

/-- An eviction result accounts for itself: `none` changes nothing, and otherwise the
entries lose exactly the returned keys, each of them once. -/
def Accounted {F : Type} (before : Entries F) (result : Option (List BlockKey) × Entries F) :
    Prop :=
  match result.1 with
  | none => result.2 = before
  | some out => out.Nodup ∧ (∀ k ∈ out, k ∈ before) ∧ result.2 = before.eraseAll out

/-- No protected key that was resident is lost. -/
def Protects {F : Type} (protectedKeys : Finset BlockKey) (before : Entries F)
    (result : Option (List BlockKey) × Entries F) : Prop :=
  ∀ k ∈ protectedKeys, k ∈ before → k ∈ result.2

/-- Distinct unprotected residents. -/
structure Victims {F : Type} (entries : Entries F) (protectedKeys : Finset BlockKey)
    (out : List BlockKey) : Prop where
  nodup : out.Nodup
  resident : ∀ k ∈ out, k ∈ entries
  unprotected : ∀ k ∈ out, k ∉ protectedKeys

variable {F : Type}

/-- What an eviction of the given victims returns. -/
def evicted (entries : Entries F) (out : List BlockKey) : Option (List BlockKey) × Entries F :=
  (if out = [] then none else some out,entries.eraseAll out)

@[simp] theorem evicted_keys (entries : Entries F) (out : List BlockKey) :
    (evicted entries out).1.getD [] = out := by
  by_cases hout : out = [] <;> simp [evicted,hout]

section Victims

variable {entries : Entries F} {protectedKeys : Finset BlockKey} {out : List BlockKey}

theorem evicted_accounted (h : Victims entries protectedKeys out) :
    Accounted entries (evicted entries out) := by
  by_cases ho : out = []
  · subst ho
    exact entries.eraseAll_nil
  · simp only [Accounted,evicted,ho,if_false]
    exact ⟨h.nodup,h.resident,trivial⟩

theorem evicted_protects (h : Victims entries protectedKeys out) :
    Protects protectedKeys entries (evicted entries out) := fun k hk hmem =>
  Dict.mem_eraseAll.mpr ⟨hmem,fun hout => h.unprotected k hout hk⟩

theorem victims_of_subperm (h : out.Subperm
    ((entries.items.filter fun p => p.1 ∉ protectedKeys).map Prod.fst)) :
    Victims entries protectedKeys out := by
  have hitem : ∀ k ∈ out, ∃ p ∈ entries.items, p.1 ∉ protectedKeys ∧ p.1 = k := by
    intro k hk
    obtain ⟨p,hp,rfl⟩ := List.mem_map.mp (h.subset hk)
    have hp' := List.mem_filter.mp hp
    exact ⟨p,hp'.1,by simpa using hp'.2,rfl⟩
  refine ⟨?_,fun k hk => ?_,fun k hk => ?_⟩
  · obtain ⟨l,hl,hsub⟩ := h
    exact hl.nodup_iff.mp (hsub.nodup ((List.filter_sublist.map _).nodup entries.nodup))
  · obtain ⟨p,hp,_,rfl⟩ := hitem k hk
    exact Dict.mem_of_item hp
  · obtain ⟨p,_,hp,rfl⟩ := hitem k hk
    exact hp

end Victims

theorem take_eq_evicted (order : List (BlockKey × Entry F)) (neededBytes : ℤ)
    (entries : Entries F) :
    take order neededBytes entries =
      evicted entries ((takeUntil (·.2.nbytes) neededBytes 0 order).map Prod.fst) := by
  simp only [take,evicted]
  split
  · rename_i h
    rw [h,Dict.eraseAll_nil]
  · rfl

theorem evictBy_eq_evicted {κ : Type} [LinearOrder κ] (key : Entry F → κ) (entries : Entries F)
    (neededBytes : ℤ) (protectedKeys : Finset BlockKey) :
    ∃ out, Victims entries protectedKeys out ∧
      evictBy key entries neededBytes protectedKeys = evicted entries out := by
  refine ⟨_,victims_of_subperm ?_,take_eq_evicted _ _ _⟩
  exact (((takeUntil_initial _ _ _ _).sublist.map _).subperm).trans
    ((sortedBy_perm _ _).map _).subperm

namespace AdaptiveValuePolicy

theorem dropChain_initial (neededBytes freed : ℤ) (chain : List (BlockKey × Entry F)) :
    (dropChain neededBytes freed chain).1 <+: chain.map Prod.fst := by
  induction chain generalizing freed with
  | nil => simp [dropChain]
  | cons e rest ih =>
    rw [dropChain]
    split
    · exact List.nil_prefix
    · exact (List.prefix_cons_inj _).mpr (ih _)

/-- Victims come from the ranked chains, each block at most once. -/
theorem dropChains_subperm (neededBytes freed : ℤ) (probe : Probe F)
    (ranked : List (List (BlockKey × Entry F))) :
    (dropChains neededBytes probe freed ranked).Subperm (ranked.flatten.map Prod.fst) := by
  induction ranked generalizing freed with
  | nil => simp [dropChains]
  | cons chain rest ih =>
    have hhead := ((dropChain_initial neededBytes freed
      (sortedBy (fun p => OrderDual.toDual (depth p.1 probe)) chain)).sublist.subperm).trans
        ((sortedBy_perm _ chain).map Prod.fst).subperm
    rw [dropChains,List.flatten_cons,List.map_append]
    split
    · exact hhead.trans (List.sublist_append_left _ _).subperm
    · exact hhead.append (ih _)

variable [Scalar F]

theorem chains_perm (now : F) (probe : Probe F) (candidates : List (BlockKey × Entry F)) :
    (chains now probe candidates).values.flatten.Perm candidates := by
  simpa [chains,Dict.values] using
    Dict.foldl_push_values_perm (fun p => chainOf p.1 now probe) id candidates Dict.empty

theorem evict_eq_evicted (horizonS : F) (priors : Dict String F) (entries : Entries F) (now : F)
    (probe : Probe F) (neededBytes : ℤ) (protectedKeys : Finset BlockKey) :
    ∃ out, Victims (expire entries now) protectedKeys out ∧
      evict horizonS priors entries now probe neededBytes protectedKeys =
        evicted (expire entries now) out := by
  simp only [evict]
  split
  · exact ⟨[],⟨by simp,by simp,by simp⟩,by simp [evicted]⟩
  · refine ⟨_,victims_of_subperm ?_,rfl⟩
    refine (dropChains_subperm _ _ _ _).trans (List.Perm.map Prod.fst ?_).subperm
    exact (sortedBy_perm _ _).flatten.trans (chains_perm now probe _)

end AdaptiveValuePolicy

variable [Scalar F]

namespace TierPolicy

variable (policy : TierPolicy F)

def swept (now : F) : Entries F :=
  if policy.kind.sweeps then expire policy.entries now else policy.entries

theorem swept_eq_entries {policy : TierPolicy F} (h : policy.kind.sweeps = false) (now : F) :
    policy.swept now = policy.entries := by
  rw [swept,h]
  rfl

theorem evictEntries_eq_evicted (neededBytes : ℤ) (protectedKeys : Finset BlockKey) (now : F)
    (probe : Probe F) :
    ∃ out, Victims (policy.swept now) protectedKeys out ∧
      policy.evictEntries neededBytes protectedKeys now probe =
        evicted (policy.swept now) out := by
  unfold swept evictEntries
  cases policy.kind with
  | lru => exact evictBy_eq_evicted _ _ _ _
  | lfu => exact evictBy_eq_evicted _ _ _ _
  | fixedTtl baseS perGibS => exact evictBy_eq_evicted _ _ _ _
  | continuumTtl k minS maxS => exact evictBy_eq_evicted _ _ _ _
  | adaptiveValue horizonS priors => exact AdaptiveValuePolicy.evict_eq_evicted _ _ _ _ _ _ _
  | oracle => exact evictBy_eq_evicted _ _ _ _

theorem swept_eq_iff (now : F) : policy.swept now = policy.entries ↔
    (policy.kind.sweeps = true → ∀ p ∈ policy.entries.items, ¬ p.2.expiresAt ≤ now) := by
  unfold swept
  cases policy.kind.sweeps with
  | false => simp
  | true =>
    simp only [if_true,forall_const]
    constructor
    · intro h p hp
      rw [← h] at hp
      simpa [expire] using (List.mem_filter.mp hp).2
    · intro h
      ext1
      exact List.filter_eq_self.mpr fun p hp => by simpa using h p hp

theorem item_of_mem_swept {now : F} {p : BlockKey × Entry F}
    (h : p ∈ (policy.swept now).items) : p ∈ policy.entries.items := by
  unfold swept at h
  split at h
  · exact (List.mem_filter.mp h).1
  · exact h

/-- What is left after an eviction is left as it was. -/
theorem get_evict {neededBytes : ℤ} {protectedKeys : Finset BlockKey} {now : F} {probe : Probe F}
    {key : BlockKey} {e : Entry F}
    (h : (policy.evict neededBytes protectedKeys now probe).2.get key = some e) :
    policy.get key = some e := by
  obtain ⟨out,_,hout⟩ := policy.evictEntries_eq_evicted neededBytes protectedKeys now probe
  have hget : ((policy.swept now).eraseAll out).get key = some e := by
    rw [← h,evict,hout,evicted]
    rfl
  rw [Dict.get_eq_some] at hget
  exact Dict.get_eq_some.mpr (policy.item_of_mem_swept (List.mem_filter.mp hget).1)

theorem swept_eq_of_accounted {now : F} {result : Option (List BlockKey) × Entries F}
    {out : List BlockKey} (hout : ∀ k ∈ out, k ∈ policy.swept now)
    (hr : result = evicted (policy.swept now) out) (h : Accounted policy.entries result) :
    policy.swept now = policy.entries := by
  subst hr
  by_cases ho : out = []
  · subst ho
    simpa [Accounted,evicted] using h
  · simp only [Accounted,evicted,ho,if_false] at h
    refine (policy.swept_eq_iff now).mpr fun hsweeps p hp hexp => ?_
    -- An expired resident is neither among the victims nor among the survivors.
    have hgone : p.1 ∉ policy.swept now := by
      rw [swept,if_pos hsweeps]
      intro hmem
      obtain ⟨e,he,hlive⟩ := Dict.mem_filter.mp hmem
      have hpe := Dict.item_unique hp (Dict.get_eq_some.mp he)
      simp [← hpe,hexp] at hlive
    have hkept : p.1 ∈ (policy.swept now).eraseAll out := by
      rw [h.2.2]
      exact Dict.mem_eraseAll.mpr ⟨Dict.mem_of_item hp,fun hk => hgone (hout _ hk)⟩
    exact hgone (Dict.mem_eraseAll.mp hkept).1

/-- Eviction is exact and keeps what is protected exactly when no sweep removes an
entry behind the caller's back. -/
theorem evict_contract_iff (neededBytes : ℤ) (protectedKeys : Finset BlockKey) (now : F)
    (probe : Probe F) :
    (Accounted policy.entries ((policy.evict neededBytes protectedKeys now probe).1,
        (policy.evict neededBytes protectedKeys now probe).2.entries) ∧
      Protects protectedKeys policy.entries ((policy.evict neededBytes protectedKeys now probe).1,
        (policy.evict neededBytes protectedKeys now probe).2.entries)) ↔
    (policy.kind.sweeps = true → ∀ p ∈ policy.entries.items, ¬ p.2.expiresAt ≤ now) := by
  obtain ⟨out,hv,hr⟩ := policy.evictEntries_eq_evicted neededBytes protectedKeys now probe
  have hpair : ((policy.evict neededBytes protectedKeys now probe).1,
      (policy.evict neededBytes protectedKeys now probe).2.entries) =
        evicted (policy.swept now) out := hr
  rw [hpair,← policy.swept_eq_iff now]
  constructor
  · rintro ⟨hacc,_⟩
    exact policy.swept_eq_of_accounted hv.resident rfl hacc
  · intro hsame
    rw [hsame] at hv ⊢
    exact ⟨evicted_accounted hv,evicted_protects hv⟩

def staleTier : TierPolicy ℚ :=
  ⟨.fixedTtl 180 60,1000,.ofList [(.priv "s" 0,
    { nbytes := 100, insertedAt := 0, lastTouch := 0, expiresAt := (180 : ℚ) })]⟩

def emptyProbe : Probe ℚ :=
  ⟨.new 816 CostModel.default,CostModel.default,⟨"ram",1000,96,true,1⟩,120,200,.empty⟩

/-- Asked for one byte at time 200, it loses the protected entry and reports nothing. -/
theorem evict_loses_protected : ¬ ∀ (policy : TierPolicy ℚ) (neededBytes : ℤ)
    (protectedKeys : Finset BlockKey) (now : ℚ) (probe : Probe ℚ), 0 < neededBytes →
    Accounted policy.entries ((policy.evict neededBytes protectedKeys now probe).1,
        (policy.evict neededBytes protectedKeys now probe).2.entries) ∧
      Protects protectedKeys policy.entries ((policy.evict neededBytes protectedKeys now probe).1,
        (policy.evict neededBytes protectedKeys now probe).2.entries) := by
  intro h
  have hkept := (h staleTier 1 {.priv "s" 0} 200 emptyProbe (by decide)).2 (.priv "s" 0)
    (by decide) (by decide +kernel)
  exact absurd hkept (by decide +kernel)

end TierPolicy
end ContextResidency
