import ContextResidency.EngineFacts

/-! The records of the session-TTL policy and its eviction. Whatever is called in whatever
order, exactly the blocks have a lifetime and only blocks have a role, so an eviction never
misses an entry: it takes as many blocks as it was asked for, expired ones first and then
the soonest to expire, or none at all. -/
namespace ContextResidency

variable {F K B : Type} [Scalar F] [DecidableEq K]

namespace SessionTtlPolicy

/-- One call of the engine. Reference counts play no part in this policy. -/
def answer (policy : SessionTtlPolicy F K B) (call : EngineCall F K B) : SessionTtlPolicy F K B :=
  CachePolicy.call (fun _ => 0) policy call

def called (cacheCapacity : ℤ) (params : TtlParams F) (calls : List (EngineCall F K B)) :
    SessionTtlPolicy F K B :=
  calls.foldl answer (new cacheCapacity params)

/-- Exactly the blocks have a lifetime, and only blocks have a role. -/
structure Lived (policy : SessionTtlPolicy F K B) : Prop where
  expires : ∀ key, key ∈ policy.expires ↔ key ∈ policy.blocks
  role : ∀ key ∈ policy.role, key ∈ policy.blocks

omit [DecidableEq K] in
theorem new_lived (cacheCapacity : ℤ) (params : TtlParams F) :
    Lived (new cacheCapacity params : SessionTtlPolicy F K B) := by
  constructor
  case expires => simp [new]
  case role => simp [new]

section Step

variable {policy : SessionTtlPolicy F K B} (h : Lived policy)
include h

theorem Lived.insert (key : K) (block : B) (now : F) : Lived (policy.insert key block now) := by
  constructor
  case expires =>
    intro k
    have hkeys := h.expires k
    simp only [SessionTtlPolicy.insert,Dict.mem_set]
    cases hlife : policy.expires.get key with
    | none => simp [hkeys]
    | some t =>
      have hkey : key ∈ policy.blocks := (h.expires key).mp (Dict.mem_iff_get.mpr ⟨t,hlife⟩)
      by_cases hk : k = key
      · simp [hk,hkey,h.expires key]
      · simp [hk,hkeys]
  case role => exact fun k hk => Dict.mem_set.mpr (Or.inr (h.role k hk))

theorem Lived.touch (keys : List K) (hints : Option (Hints F)) (now : F) :
    Lived (policy.touch keys hints now) := by
  have hseen : ∀ k ∈ keys.filter (· ∈ policy.blocks), k ∈ policy.blocks := fun k hk =>
    of_decide_eq_true (List.mem_filter.mp hk).2
  constructor
  case expires =>
    intro k
    simp only [SessionTtlPolicy.touch,Dict.mem_foldl_set,h.expires]
    exact ⟨fun hk => hk.elim (hseen k) id,Or.inr⟩
  case role =>
    intro k hk
    simp only [SessionTtlPolicy.touch] at hk ⊢
    split at hk
    · exact h.role k hk
    · exact (Dict.mem_foldl_set.mp hk).elim (hseen k) (h.role k)

theorem Lived.without (out : List K) : Lived (policy.without out) := by
  constructor
  case expires =>
    intro k
    simp only [SessionTtlPolicy.without,Dict.mem_eraseAll,h.expires]
  case role =>
    intro k hk
    simp only [SessionTtlPolicy.without,Dict.mem_eraseAll] at hk ⊢
    exact ⟨h.role k hk.1,hk.2⟩

theorem Lived.answer (call : EngineCall F K B) : Lived (policy.answer call) := by
  cases call with
  | get key => exact h
  | insert key block now => exact h.insert key block now
  | remove key =>
    show Lived (policy.remove key)
    rw [remove_eq]
    exact h.without [key]
  | touch keys hints now => exact h.touch keys hints now
  | markEvictable key => exact ⟨h.expires,h.role⟩
  | markNonEvictable key => exact ⟨h.expires,h.role⟩
  | evict order n protectedKeys now =>
    rcases exists_outcome policy n protectedKeys now with ⟨out,hout⟩
    show Lived (outcome policy _)
    rw [hout]
    exact h.without out
  | clear => exact new_lived policy.cacheCapacity policy.params

end Step

theorem called_lived (cacheCapacity : ℤ) (params : TtlParams F) (calls : List (EngineCall F K B)) :
    Lived (called cacheCapacity params calls) := by
  apply List.foldlRecOn calls answer (new_lived cacheCapacity params)
  exact fun policy h call _ => h.answer call

/-- What an eviction of `n` blocks hands over. -/
structure TakenByLifetime (policy : SessionTtlPolicy F K B) (n : ℤ) (protectedKeys : Finset K)
    (now : F) (out : List (K × B)) : Prop where
  count : (out.length : ℤ) = n
  distinct : (out.map Prod.fst).Nodup
  stored : ∀ p ∈ out, policy.get p.1 = some p.2
  live : ∀ p ∈ out, p.1 ∈ policy.live protectedKeys
  expired : ∀ p ∈ out, now < policy.expiry p.1 → ∀ key ∈ policy.live protectedKeys,
    policy.expiry key ≤ now → key ∈ out.map Prod.fst
  soonest : ∀ p ∈ out, now < policy.expiry p.1 → ∀ key ∈ policy.live protectedKeys,
    now < policy.expiry key → key ∉ out.map Prod.fst → policy.expiry p.1 ≤ policy.expiry key

/-- An eviction takes as many blocks as it was asked for, or it changes nothing because there
are too few. -/
structure AtomicByLifetime (policy : SessionTtlPolicy F K B) (n : ℤ) (protectedKeys : Finset K)
    (now : F) : Prop where
  few : policy.evict n protectedKeys now = .ok (none,policy) ↔
    ((policy.live protectedKeys).length : ℤ) < n
  enough : n ≤ (policy.live protectedKeys).length →
    ∃ out, policy.evict n protectedKeys now = .ok (some out,policy.without (out.map Prod.fst)) ∧
      policy.TakenByLifetime n protectedKeys now out

section Evict

variable {policy : SessionTtlPolicy F K B} {n : ℤ} {protectedKeys : Finset K} {now : F}

/-- The live blocks whose lifetime is over, in the order of their insertion. -/
def outlived (policy : SessionTtlPolicy F K B) (protectedKeys : Finset K) (now : F) : List K :=
  (policy.live protectedKeys).filter (policy.expiry · ≤ now)

/-- The other live blocks, the soonest to expire first. -/
def ageing (policy : SessionTtlPolicy F K B) (protectedKeys : Finset K) (now : F) : List K :=
  sortedBy policy.expiry ((policy.live protectedKeys).filter (now < policy.expiry ·))

theorem victims_eq : policy.victims protectedKeys now =
    policy.outlived protectedKeys now ++ policy.ageing protectedKeys now := by
  show _ ++ sortedBy policy.expiry _ = _ ++ sortedBy policy.expiry _
  congr 2
  refine List.filter_congr fun key hkey => ?_
  simp [hkey]

theorem victims_perm :
    (policy.victims protectedKeys now).Perm (policy.live protectedKeys) := by
  have hsplit := List.filter_append_perm (fun key => policy.expiry key ≤ now)
    (policy.live protectedKeys)
  have hlater : (policy.live protectedKeys).filter (now < policy.expiry ·) =
      (policy.live protectedKeys).filter fun key => !decide (policy.expiry key ≤ now) := by
    refine List.filter_congr fun key _ => ?_
    rw [← decide_not]
    exact decide_eq_decide.mpr not_le.symm
  rw [victims_eq]
  refine ((sortedBy_perm _ _).append_left _).trans ?_
  rw [hlater]
  exact hsplit

theorem live_nodup : (policy.live protectedKeys).Nodup := policy.blocks.keys_nodup.filter _

theorem taken_of_takenFrom {out : List (K × B)} (hn : 0 ≤ n)
    (henough : n ≤ (policy.live protectedKeys).length)
    (h : TakenFrom policy.blocks (policy.victims protectedKeys now) n out) :
    policy.TakenByLifetime n protectedKeys now out := by
  have hkeys := h.keys
  rw [sliceTo,if_pos hn] at hkeys
  have hperm : (policy.victims protectedKeys now).Perm (policy.live protectedKeys) := victims_perm
  have hparts := hkeys
  rw [victims_eq,List.take_append] at hparts
  -- an unexpired victim lies in the sorted part, which is reached after all expired ones
  have hlate : ∀ p ∈ out, now < policy.expiry p.1 → p.1 ∈ (policy.ageing protectedKeys now).take
      (n.toNat-(policy.outlived protectedKeys now).length) := by
    intro p hp hlife
    have hmem : p.1 ∈ out.map Prod.fst := List.mem_map_of_mem hp
    rw [hparts] at hmem
    refine (List.mem_append.mp hmem).resolve_left fun hover => ?_
    have hle := of_decide_eq_true (List.mem_filter.mp (List.mem_of_mem_take hover)).2
    exact absurd hlife (not_lt.mpr hle)
  constructor
  case count =>
    have hlength := congrArg List.length hkeys
    rw [List.length_map,List.length_take,hperm.length_eq] at hlength
    omega
  case distinct =>
    rw [hkeys]
    exact (List.take_sublist _ _).nodup (hperm.nodup_iff.mpr live_nodup)
  case stored => exact fun p hp => Dict.get_eq_some.mpr (h.stored p hp)
  case live => exact fun p hp => mem_victims.mp (h.mem_ranked hp)
  case expired =>
    intro p hp hlife key hkey hover
    have hreached : (policy.outlived protectedKeys now).length ≤ n.toNat := by
      by_contra hshort
      have hnone := hlate p hp hlife
      rw [Nat.sub_eq_zero_of_le (by omega),List.take_zero] at hnone
      cases hnone
    rw [hparts,List.take_of_length_le hreached]
    refine List.mem_append_left _ (List.mem_filter.mpr ⟨hkey,decide_eq_true hover⟩)
  case soonest =>
    intro p hp hlife key hkey hlater hleft
    by_contra hlt
    have hageing : key ∈ (policy.live protectedKeys).filter (now < policy.expiry ·) :=
      List.mem_filter.mpr ⟨hkey,decide_eq_true hlater⟩
    have hinitial := mem_initial_of_lt (List.take_prefix _ _) (hlate p hp hlife) hageing
      (not_le.mp hlt)
    rw [hparts] at hleft
    exact hleft (List.mem_append_right _ hinitial)

variable (h : Lived policy)
include h

/-- Every entry that an eviction reads is there. -/
theorem Lived.evict_eq (hzero : n ≠ 0)
    (henough : ¬ ((policy.live protectedKeys).length : ℤ) < n) : ∃ out,
    policy.evict n protectedKeys now = .ok (some out,policy.without (out.map Prod.fst)) ∧
    TakenFrom policy.blocks (policy.victims protectedKeys now) n out := by
  have hlives : (policy.live protectedKeys).find? (· ∉ policy.expires) = none := by
    rw [List.find?_eq_none]
    intro key hkey
    simpa using (h.expires key).mpr (mem_live.mp hkey).1
  have hthere : ∀ key ∈ sliceTo n (policy.victims protectedKeys now), key ∈ policy.blocks :=
    fun key hkey => (mem_live.mp (mem_victims.mp ((sliceTo_initial n _).subset hkey))).1
  rcases Dict.exists_mapM_fetch EvictError.keyError hthere with ⟨out,hout⟩
  have hfetched := Dict.mapM_fetch_eq_ok.mp hout
  refine ⟨out,?_,⟨hfetched.2,hfetched.1⟩⟩
  rw [SessionTtlPolicy.evict,if_neg hzero,if_neg henough,hlives,← removeAll_eq]
  simp only [hout]

theorem Lived.evict_ok (n : ℤ) (protectedKeys : Finset K) (now : F) :
    ∃ r, policy.evict n protectedKeys now = .ok r := by
  by_cases hzero : n = 0
  · exact ⟨_,if_pos hzero⟩
  · by_cases hfew : ((policy.live protectedKeys).length : ℤ) < n
    · exact ⟨_,(if_neg hzero).trans (if_pos hfew)⟩
    · rcases h.evict_eq hzero hfew with ⟨out,hout,-⟩
      exact ⟨_,hout⟩

theorem Lived.atomic (hn : 0 ≤ n) : policy.AtomicByLifetime n protectedKeys now := by
  by_cases hzero : n = 0
  · have hnothing : policy.evict n protectedKeys now = .ok (some [],policy) := if_pos hzero
    constructor
    case few =>
      rw [hnothing]
      refine iff_of_false (fun hnone => ?_) (by omega)
      cases hnone
    case enough =>
      refine fun _ => ⟨[],?_,?_⟩
      · rw [hnothing,List.map_nil,without_nil]
      · constructor <;> simp [hzero]
  · by_cases hfew : ((policy.live protectedKeys).length : ℤ) < n
    · exact ⟨iff_of_true ((if_neg hzero).trans (if_pos hfew)) hfew,fun henough => by omega⟩
    · rcases h.evict_eq hzero hfew with ⟨out,hout,htaken⟩
      constructor
      case few =>
        rw [hout]
        refine iff_of_false (fun hnone => ?_) hfew
        cases hnone
      case enough =>
        intro henough
        exact ⟨out,hout,taken_of_takenFrom hn henough htaken⟩

end Evict

/-- In every state that calls can reach, exactly the blocks have a lifetime and only blocks
have a role, no eviction raises, and each one is atomic and by lifetime. -/
theorem evict_by_lifetime (cacheCapacity : ℤ) (params : TtlParams F)
    (calls : List (EngineCall F K B)) :
    Lived (called cacheCapacity params calls) ∧ ∀ n protectedKeys now,
      (∃ r, (called cacheCapacity params calls).evict n protectedKeys now = .ok r) ∧
      (0 ≤ n → (called cacheCapacity params calls).AtomicByLifetime n protectedKeys now) := by
  have hlived : Lived (called cacheCapacity params calls : SessionTtlPolicy F K B) :=
    called_lived cacheCapacity params calls
  exact ⟨hlived,fun n protectedKeys now => ⟨hlived.evict_ok n protectedKeys now,hlived.atomic⟩⟩

def twoLived : List (EngineCall ℚ ℕ ℕ) :=
  [.insert 0 0 1,.insert 1 1 2,.touch [1] (some { role := some "patient" }) 3,.markNonEvictable 5]

theorem evict_by_lifetime_two : ∃ out, (called 2 {} twoLived).evict 1 ∅ 4 =
      .ok (some out,(called 2 {} twoLived).without (out.map Prod.fst)) ∧
    (called 2 {} twoLived).TakenByLifetime 1 ∅ 4 out :=
  (((evict_by_lifetime 2 {} twoLived).2 1 ∅ 4).2 (by decide)).enough (by decide +kernel)

end SessionTtlPolicy

end ContextResidency
