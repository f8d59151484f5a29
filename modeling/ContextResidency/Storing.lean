import ContextResidency.InFlight

/-! In-flight safety of the session-TTL policy. It learns that a block is in flight when
the count of the block leaves zero, but not when the block is inserted with a count
already: until that store is over, the block is a candidate like any other. -/
namespace ContextResidency

variable {F K B : Type} [Scalar F] [DecidableEq K] [DecidableEq B]

namespace Engine

section Storing

variable {P : Type} [CachePolicy P F K B]

/-- Resident, and its block is being stored or loaded. -/
def Busy (engine : Engine P B) (key : K) : Prop :=
  ∃ block, (CachePolicy.blocks engine.policy).get key = some block ∧ engine.refCnt block ≠ 0

/-- The keys that wait for the end of the store they were inserted with. -/
def stored (engine : Engine P B) (storing : Finset K) (e : EngineEvent F K B) : Finset K :=
  let waiting := match e with
    | .call (.insert key block _) =>
      if engine.refCnt block = 0 then storing else Insert.insert key storing
    | .count block new =>
      if new = 0 then storing \ (engine.holders block).toFinset else storing
    | _ => storing
  waiting.filter (· ∈ CachePolicy.blocks (engine.step e).policy)

def storing : Engine P B → Finset K → List (EngineEvent F K B) → Finset K
  | _, waiting, [] => waiting
  | engine, waiting, e::events => storing (engine.step e) (engine.stored waiting e) events

end Storing
end Engine

namespace SessionTtlPolicy

omit [DecidableEq B] in
theorem foldl_mark (refCnt : B → ℤ) (old new : ℤ) (keys : List K)
    (policy : SessionTtlPolicy F K B) :
    keys.foldl (Engine.mark refCnt old new) policy = { policy with pinned :=
      if old ≠ 0 ∧ new = 0 then policy.pinned \ keys.toFinset
      else if old = 0 ∧ new ≠ 0 then policy.pinned ∪ keys.toFinset
      else policy.pinned } := by
  induction keys generalizing policy with
  | nil => simp
  | cons key keys ih =>
    rw [List.foldl_cons,ih,Engine.mark]
    split_ifs with hfree hbusy
    · simp only [CachePolicy.call,markEvictable,List.toFinset_cons]
      congr 1
      ext k
      simp only [Finset.mem_sdiff,Finset.mem_erase,Finset.mem_insert]
      tauto
    · simp only [CachePolicy.call,markNonEvictable,List.toFinset_cons]
      congr 1
      ext k
      simp only [Finset.mem_union,Finset.mem_insert]
      tauto
    · rfl

/-- The pinned keys are those of the busy blocks, except for the first stores. Every
resident key has a lifetime. -/
structure Tracked (engine : Engine (SessionTtlPolicy F K B) B) (storing : Finset K) : Prop where
  pinned : ∀ key, key ∈ engine.policy.pinned ↔ engine.Busy key ∧ key ∉ storing
  storing : ∀ key ∈ storing, engine.Busy key
  expires : ∀ key ∈ engine.policy.blocks, key ∈ engine.policy.expires

omit [DecidableEq B] in
theorem engine_tracked (cacheCapacity : ℤ) (params : TtlParams F) (refCnt : B → ℤ) :
    Tracked (engine cacheCapacity params refCnt : Engine (SessionTtlPolicy F K B) B) ∅ := by
  constructor
  case pinned => simp [engine,new,Engine.Busy,CachePolicy.blocks]
  case storing => simp
  case expires => simp [engine,new]

section Step

variable {engine : Engine (SessionTtlPolicy F K B) B} {storing : Finset K}
  (h : Tracked engine storing)
include h

omit [DecidableEq B] in
theorem Tracked.mem_blocks {key : K} (hkey : key ∈ storing) : key ∈ engine.policy.blocks := by
  obtain ⟨block,hblock,_⟩ := h.storing key hkey
  exact Dict.mem_iff_get.mpr ⟨block,hblock⟩

omit h in
theorem busy_insert {key : K} (hnew : key ∉ engine.policy.blocks) (block : B) (now : F) (k : K) :
    (engine.step (.call (.insert key block now))).Busy k ↔
      k = key ∧ engine.refCnt block ≠ 0 ∨ engine.Busy k := by
  have hnone : engine.policy.blocks.get key = none := Dict.get_eq_none.mpr hnew
  simp only [Engine.step,CachePolicy.call,SessionTtlPolicy.insert,Engine.Busy,
    CachePolicy.blocks,Dict.get_set]
  by_cases hk : k = key
  · simp [hk,hnone]
  · simp [hk]

theorem Tracked.mem_stored_insert (key : K) (block : B) (now : F) (k : K) :
    k ∈ engine.stored storing (.call (.insert key block now)) ↔
      k = key ∧ engine.refCnt block ≠ 0 ∨ k ∈ storing := by
  have hres : k ∈ storing → k ∈ engine.policy.blocks := h.mem_blocks
  simp only [Engine.stored,Engine.step,CachePolicy.call,SessionTtlPolicy.insert,
    CachePolicy.blocks,Finset.mem_filter,Dict.mem_set]
  by_cases hzero : engine.refCnt block = 0
  · simp only [hzero,if_true]
    tauto
  · simp only [hzero,if_false,Finset.mem_insert]
    tauto

theorem Tracked.insert {key : K} (hnew : key ∉ engine.policy.blocks) (block : B) (now : F) :
    Tracked (engine.step (.call (.insert key block now)))
      (engine.stored storing (.call (.insert key block now))) := by
  have hidle : ¬ engine.Busy key := by
    simp [Engine.Busy,CachePolicy.blocks,Dict.get_eq_none.mpr hnew]
  have hout : key ∉ storing := fun hk => hidle (h.storing key hk)
  constructor
  case pinned =>
    intro k
    have hbefore : k ∈ engine.policy.pinned ↔ engine.Busy k ∧ k ∉ storing := h.pinned k
    rw [busy_insert hnew,h.mem_stored_insert]
    show k ∈ engine.policy.pinned ↔ _
    by_cases hk : k = key
    · subst hk
      tauto
    · tauto
  case storing =>
    intro k hk
    rw [h.mem_stored_insert] at hk
    rw [busy_insert hnew]
    exact hk.imp_right (h.storing k)
  case expires =>
    intro k hk
    have hold := h.expires k
    simp only [Engine.step,CachePolicy.call,SessionTtlPolicy.insert,Dict.mem_set] at hk ⊢
    cases hlife : engine.policy.expires.get key with
    | none =>
      rw [Dict.mem_set]
      tauto
    | some t =>
      have hkey : key ∈ engine.policy.expires := Dict.mem_iff_get.mpr ⟨t,hlife⟩
      cases hk with
      | inl hk => exact hk ▸ hkey
      | inr hk => exact hold hk

/-- Removing keys from every record, whoever asked for it. -/
theorem Tracked.without (out : List K) {e : EngineEvent F K B}
    (hstep : engine.step e = { engine with policy := engine.policy.without out })
    (hstored : engine.stored storing e =
      storing.filter (· ∈ CachePolicy.blocks (engine.step e).policy)) :
    Tracked (engine.step e) (engine.stored storing e) := by
  have hbusy : ∀ k, (engine.step e).Busy k ↔ engine.Busy k ∧ k ∉ out := by
    intro k
    rw [hstep]
    simp only [Engine.Busy,CachePolicy.blocks,SessionTtlPolicy.without,Dict.get_eraseAll]
    by_cases hk : k ∈ out <;> simp [hk]
  have hwaiting : ∀ k, k ∈ engine.stored storing e ↔ k ∈ storing ∧ k ∉ out := by
    intro k
    have hres : k ∈ storing → k ∈ engine.policy.blocks := h.mem_blocks
    rw [hstored,hstep]
    simp only [CachePolicy.blocks,SessionTtlPolicy.without,Finset.mem_filter,Dict.mem_eraseAll]
    tauto
  constructor
  case pinned =>
    intro k
    have hbefore := h.pinned k
    rw [hbusy,hwaiting,hstep]
    simp only [SessionTtlPolicy.without,Finset.mem_sdiff,List.mem_toFinset,hbefore]
    tauto
  case storing =>
    intro k hk
    rw [hwaiting] at hk
    rw [hbusy]
    exact ⟨h.storing k hk.1,hk.2⟩
  case expires =>
    intro k
    rw [hstep]
    simp only [SessionTtlPolicy.without,Dict.mem_eraseAll]
    exact fun hk => ⟨h.expires k hk.1,hk.2⟩

theorem Tracked.evict (order : (s : Finset K) → Listing s) (n : ℤ) (protectedKeys : Finset K)
    (now : F) : Tracked (engine.step (.call (.evict order n protectedKeys now)))
      (engine.stored storing (.call (.evict order n protectedKeys now))) := by
  obtain ⟨out,hout⟩ := exists_outcome engine.policy n protectedKeys now
  refine h.without out ?_ rfl
  rw [← hout]
  rfl

omit h in
theorem mem_held (block : B) (k : K) : k ∈ (engine.holders block).toFinset ↔
    engine.policy.blocks.get k = some block := by
  rw [List.mem_toFinset,Engine.mem_holders]
  rfl

omit h in
theorem busy_count (block : B) (new : ℤ) (k : K) : (engine.step (.count block new)).Busy k ↔
    if engine.policy.blocks.get k = some block then new ≠ 0 else engine.Busy k := by
  simp only [Engine.step,foldl_mark,Engine.Busy,CachePolicy.blocks]
  cases hget : engine.policy.blocks.get k with
  | none => simp
  | some b => by_cases hb : b = block <;> simp [hb]

theorem Tracked.mem_stored_count (block : B) (new : ℤ) (k : K) :
    k ∈ engine.stored storing (.count block new) ↔
      k ∈ storing ∧ ¬ (engine.policy.blocks.get k = some block ∧ new = 0) := by
  have hres : k ∈ storing → k ∈ engine.policy.blocks := h.mem_blocks
  simp only [Engine.stored,Engine.step,foldl_mark,CachePolicy.blocks,Finset.mem_filter]
  by_cases hzero : new = 0
  · simp only [hzero,if_true,Finset.mem_sdiff,mem_held]
    tauto
  · simp only [hzero,if_false]
    tauto

theorem Tracked.count (block : B) (new : ℤ) :
    Tracked (engine.step (.count block new)) (engine.stored storing (.count block new)) := by
  constructor
  case pinned =>
    intro k
    have hbefore := h.pinned k
    rw [busy_count,h.mem_stored_count]
    simp only [Engine.step,foldl_mark]
    by_cases hget : engine.policy.blocks.get k = some block
    · have hnow : engine.Busy k ↔ engine.refCnt block ≠ 0 := by
        simp [Engine.Busy,CachePolicy.blocks,hget]
      have hstoring := h.storing k
      split_ifs with hfree hleft
      · simp only [Finset.mem_sdiff,mem_held]
        tauto
      · simp only [Finset.mem_union,mem_held]
        tauto
      · tauto
    · -- The block of another key: neither its count nor its mark moves.
      split_ifs with hfree hleft
      · simp only [Finset.mem_sdiff,mem_held]
        tauto
      · simp only [Finset.mem_union,mem_held]
        tauto
      · tauto
  case storing =>
    intro k hk
    rw [h.mem_stored_count] at hk
    rw [busy_count]
    have hbefore := h.storing k hk.1
    split_ifs with hget
    · tauto
    · exact hbefore
  case expires =>
    intro k
    simp only [Engine.step,foldl_mark]
    exact h.expires k

theorem Tracked.touch (keys : List K) (hints : Option (Hints F)) (now : F) :
    Tracked (engine.step (.call (.touch keys hints now)))
      (engine.stored storing (.call (.touch keys hints now))) := by
  have hstored : engine.stored storing (.call (.touch keys hints now)) = storing :=
    Finset.filter_true_of_mem fun k hk => h.mem_blocks hk
  rw [hstored]
  constructor
  case pinned => exact h.pinned
  case storing => exact h.storing
  case expires => exact fun k hk => Dict.mem_foldl_set.mpr (Or.inr (h.expires k hk))

theorem Tracked.step {e : EngineEvent F K B} (hlegal : engine.Legal e) :
    Tracked (engine.step e) (engine.stored storing e) := by
  cases e with
  | count block new => exact h.count block new
  | call c =>
    cases c with
    | get key =>
      refine h.without [] ?_ rfl
      rw [without_nil]
      rfl
    | insert key block now => exact h.insert hlegal block now
    | remove key =>
      refine h.without [key] ?_ rfl
      rw [← remove_eq]
      rfl
    | touch keys hints now => exact h.touch keys hints now
    | markEvictable key => exact hlegal.elim
    | markNonEvictable key => exact hlegal.elim
    | evict order n protectedKeys now => exact h.evict order n protectedKeys now
    | clear =>
      constructor
      case pinned => simp [Engine.step,CachePolicy.call,clear,Engine.Busy,CachePolicy.blocks]
      case storing => simp [Engine.stored,Engine.step,CachePolicy.call,clear,CachePolicy.blocks]
      case expires => simp [Engine.step,CachePolicy.call,clear]

end Step

theorem tracked_run {engine : Engine (SessionTtlPolicy F K B) B} {storing : Finset K}
    {events : List (EngineEvent F K B)} (h : Tracked engine storing)
    (hlegal : engine.LegalRun events) :
    Tracked (engine.run events) (engine.storing storing events) := by
  induction events generalizing engine storing with
  | nil => exact h
  | cons e events ih => exact ih (h.step hlegal.1) hlegal.2

section Candidates

variable {policy : SessionTtlPolicy F K B} {key : K} {block : B}

omit [DecidableEq B]

theorem evict_one (hblock : policy.blocks.get key = some block) (hlife : key ∈ policy.expires)
    (hpin : key ∉ policy.pinned) (now : F) : ∃ after,
    policy.evict 1 (policy.blocks.keys.toFinset.erase key) now = .ok (some [(key,block)],after) := by
  have hkey : key ∈ policy.blocks.keys := Dict.mem_iff_get.mpr ⟨block,hblock⟩
  have hlive : policy.live (policy.blocks.keys.toFinset.erase key) = [key] := by
    apply List.perm_singleton.mp
    apply (List.perm_ext_iff_of_nodup (policy.blocks.keys_nodup.filter _)
      (List.nodup_singleton key)).mpr
    intro k
    simp only [List.mem_filter,Finset.mem_erase,List.mem_toFinset,decide_eq_true_eq,
      List.mem_singleton]
    by_cases hk : k = key
    · simp [hk,hkey,hpin]
    · simp [hk]
      tauto
  have hvictims : policy.victims (policy.blocks.keys.toFinset.erase key) now = [key] := by
    by_cases hover : policy.expiry key ≤ now <;> simp [victims,hlive,hover,sortedBy]
  refine ⟨policy.remove key,?_⟩
  simp [evict,hlive,hvictims,hlife,sliceTo,Dict.fetch,hblock]

end Candidates

section Safe

variable {engine : Engine (SessionTtlPolicy F K B) B} {storing : Finset K}

/-- Every eviction returns idle blocks only. -/
def GivesIdle (engine : Engine (SessionTtlPolicy F K B) B) : Prop :=
  ∀ n protectedKeys now out after,
    engine.policy.evict n protectedKeys now = .ok (some out,after) → ∀ p ∈ out, engine.refCnt p.2 = 0

omit [DecidableEq B] in
theorem Tracked.storing_eq_empty (h : Tracked engine storing) (hsafe : GivesIdle engine) :
    storing = ∅ := by
  apply Finset.eq_empty_of_forall_notMem
  intro key hkey
  obtain ⟨block,hblock,hbusy⟩ := h.storing key hkey
  have hpin : key ∉ engine.policy.pinned := fun hk => ((h.pinned key).mp hk).2 hkey
  have hlife : key ∈ engine.policy.expires := h.expires key (h.mem_blocks hkey)
  obtain ⟨after,hevict⟩ := evict_one hblock hlife hpin 0
  exact hbusy (hsafe _ _ _ _ _ hevict (key,block) (by simp))

omit [DecidableEq B] in
theorem Tracked.mem_live_iff (h : Tracked engine ∅) (protectedKeys : Finset K) (key : K) :
    key ∈ engine.policy.live protectedKeys ↔ engine.Idle key ∧ key ∉ protectedKeys := by
  have hpinned := h.pinned key
  simp only [mem_live,hpinned,Engine.Busy,Engine.Idle,CachePolicy.blocks,Dict.mem_iff_get]
  cases engine.policy.blocks.get key <;> simp [and_comm]

omit [DecidableEq B] in
theorem Tracked.givesIdle (h : Tracked engine ∅) : GivesIdle engine := by
  intro n protectedKeys now out after hevict p hp
  obtain ⟨hitem,hlive⟩ := given_of_evict hevict hp
  obtain ⟨⟨block,hblock,hfree⟩,_⟩ := (h.mem_live_iff protectedKeys p.1).mp hlive
  rw [CachePolicy.blocks,Dict.get_eq_some] at hblock
  exact Dict.item_unique hblock hitem ▸ hfree

end Safe

/-- In every state that the engine can reach, an eviction gives away idle blocks only, and
the candidates are those of the value policy after the same events, as far as the two hold
the same blocks, exactly when no block is in the store it was inserted with. -/
theorem givesIdle_iff_storing (cacheCapacity : ℤ) (params : TtlParams F) (refCnt : B → ℤ)
    (events : List (EngineEvent F K B)) (hlegal : LegalEvents cacheCapacity params refCnt events) :
    (GivesIdle (reached cacheCapacity params refCnt events) ∧
      ∀ cacheCapacity' params', AcrValuePolicy.LegalEvents cacheCapacity' params' refCnt events →
        ∀ key, (AcrValuePolicy.reached cacheCapacity' params' refCnt events).policy.get key =
            (reached cacheCapacity params refCnt events).policy.get key →
          (key ∈ (reached cacheCapacity params refCnt events).policy.live ∅ ↔
            key ∈ (AcrValuePolicy.reached cacheCapacity' params' refCnt events).policy.evictable)) ↔
    (engine cacheCapacity params refCnt : Engine (SessionTtlPolicy F K B) B).storing ∅ events =
      ∅ := by
  have htracked := tracked_run (engine_tracked cacheCapacity params refCnt) hlegal
  constructor
  · intro hsafe
    exact htracked.storing_eq_empty hsafe.1
  · intro hempty
    rw [hempty] at htracked
    refine ⟨htracked.givesIdle,?_⟩
    intro cacheCapacity' params' hlegal' key hget
    have hcounts : (AcrValuePolicy.reached cacheCapacity' params' refCnt events).refCnt =
        (reached cacheCapacity params refCnt events).refCnt :=
      Engine.run_refCnt (s := AcrValuePolicy.engine cacheCapacity' params' refCnt)
        (t := engine cacheCapacity params refCnt) rfl events
    rw [AcrValuePolicy.reached_inStep hlegal' key]
    refine (htracked.mem_live_iff ∅ key).trans ?_
    change Dict.get (AcrValuePolicy.blocks _) key = Dict.get (SessionTtlPolicy.blocks _) key at hget
    simp only [Engine.Idle,CachePolicy.blocks,hget,hcounts,Finset.notMem_empty,not_false_eq_true,
      and_true]
    rfl

theorem givesIdle_iff_storing_loading :
    GivesIdle (reached 2 {} storingOne loading) :=
  ((givesIdle_iff_storing 2 {} storingOne loading (by decide +kernel)).mpr (by decide +kernel)).1

def firstStore : Engine (SessionTtlPolicy ℚ ℕ ℕ) ℕ :=
  reached 2 {} (fun _ => -1) [.call (.insert 0 7 1)]

theorem evict_gives_stored : ¬ ∀ (cacheCapacity : ℤ) (params : TtlParams ℚ) (refCnt : ℕ → ℤ)
    (events : List (EngineEvent ℚ ℕ ℕ)), LegalEvents cacheCapacity params refCnt events →
    GivesIdle (reached cacheCapacity params refCnt events) := by
  intro h
  have hsafe : GivesIdle firstStore := h 2 {} (fun _ => -1) [.call (.insert 0 7 1)]
    (by decide +kernel)
  have hblock : firstStore.policy.blocks.get 0 = some 7 := by decide +kernel
  obtain ⟨after,hevict⟩ := evict_one hblock (by decide +kernel) (by decide +kernel) 2
  exact absurd (hsafe _ _ _ _ _ hevict (0,7) (by simp)) (by decide +kernel)

end SessionTtlPolicy
end ContextResidency
