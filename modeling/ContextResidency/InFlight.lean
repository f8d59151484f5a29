import ContextResidency.EngineFacts

/-! In-flight safety. A block with a reference count is being stored or loaded, and an
eviction must not give it away. One policy keeps the keys that may go, the other the keys
that may not; the two say the same exactly when no block is still in the store that it
was inserted with. -/
namespace ContextResidency

variable {F K B : Type} [Scalar F] [DecidableEq K] [DecidableEq B]

namespace Engine

section Marks

variable {P : Type} [CachePolicy P F K B]

/-- Resident, and nobody refers to the block. -/
def Idle (engine : Engine P B) (key : K) : Prop :=
  ∃ block, (CachePolicy.blocks engine.policy).get key = some block ∧ engine.refCnt block = 0

omit [Scalar F] in
@[simp] theorem mem_holders {engine : Engine P B} {block : B} {key : K} :
    key ∈ engine.holders block ↔ (CachePolicy.blocks engine.policy).get key = some block := by
  simp [holders,Dict.get_eq_some]

omit [Scalar F] [DecidableEq K] in
/-- The reference counts do not depend on the policy. -/
theorem run_refCnt {Q : Type} [CachePolicy Q F K B] {s : Engine P B} {t : Engine Q B}
    (h : s.refCnt = t.refCnt) (events : List (EngineEvent F K B)) :
    (s.run events).refCnt = (t.run events).refCnt := by
  induction events generalizing s t with
  | nil => exact h
  | cons e events ih =>
    apply ih
    cases e with
    | call c => exact h
    | count block new => simp [step,h]

end Marks
end Engine

def ascending (s : Finset ℕ) : Listing s := ⟨s.sort,s.sort_nodup _,fun _ => s.mem_sort _⟩

/-- Block 1 is being stored. -/
def storingOne (block : ℕ) : ℤ := if block = 1 then -1 else 0

/-- One block is inserted idle and loaded, another is stored and evicted. -/
def loading : List (EngineEvent ℚ ℕ ℕ) :=
  [.call (.insert 0 0 1),.call (.insert 1 1 2),.count 0 1,.count 1 0,
    .call (.evict ascending 1 ∅ 3),.call (.insert 2 2 4)]

namespace AcrValuePolicy

omit [DecidableEq B] in
theorem foldl_mark (refCnt : B → ℤ) (old new : ℤ) (keys : List K) (policy : AcrValuePolicy F K B) :
    keys.foldl (Engine.mark refCnt old new) policy = { policy with evictable :=
      if old ≠ 0 ∧ new = 0 then policy.evictable ∪ keys.toFinset
      else if old = 0 ∧ new ≠ 0 then policy.evictable \ keys.toFinset
      else policy.evictable } := by
  induction keys generalizing policy with
  | nil => simp
  | cons key keys ih =>
    rw [List.foldl_cons,ih,Engine.mark]
    split_ifs with hfree hbusy
    · simp only [CachePolicy.call,markEvictable,List.toFinset_cons]
      congr 1
      ext k
      simp only [Finset.mem_union,Finset.mem_insert]
      tauto
    · simp only [CachePolicy.call,markNonEvictable,List.toFinset_cons]
      congr 1
      ext k
      simp only [Finset.mem_sdiff,Finset.mem_erase,Finset.mem_insert]
      tauto
    · rfl

/-- The evictable keys are those of the idle blocks. -/
def InStep (engine : Engine (AcrValuePolicy F K B) B) : Prop :=
  ∀ key, key ∈ engine.policy.evictable ↔ engine.Idle key

omit [DecidableEq B] in
theorem engine_inStep (cacheCapacity : ℤ) (params : PolicyParams F) (refCnt : B → ℤ) :
    InStep (engine cacheCapacity params refCnt : Engine (AcrValuePolicy F K B) B) := by
  intro key
  simp [engine,new,Engine.Idle,CachePolicy.blocks]

section Step

variable {engine : Engine (AcrValuePolicy F K B) B} (h : InStep engine)
include h

theorem InStep.insert {key : K} (hnew : key ∉ engine.policy.blocks) (block : B) (now : F) :
    InStep (engine.step (.call (.insert key block now))) := by
  intro k
  have hbefore := h k
  simp only [Engine.Idle,CachePolicy.blocks] at hbefore
  simp only [Engine.step,CachePolicy.call,AcrValuePolicy.insert,Engine.Idle,CachePolicy.blocks,
    Dict.get_set]
  by_cases hk : k = key
  · subst hk
    have hnone : engine.policy.blocks.get k = none := Dict.get_eq_none.mpr hnew
    have hout : k ∉ engine.policy.evictable := by
      rw [hbefore,hnone]
      simp
    by_cases hzero : engine.refCnt block = 0 <;> simp [hzero,hout]
  · by_cases hzero : engine.refCnt block = 0 <;> simp [hzero,hk,hbefore]

omit [DecidableEq B] in
theorem InStep.without {after : AcrValuePolicy F K B} {out : List K}
    (hafter : after = engine.policy.without out) : InStep { engine with policy := after } := by
  intro k
  rw [hafter]
  have hbefore := h k
  simp only [Engine.Idle,CachePolicy.blocks] at hbefore
  simp only [AcrValuePolicy.without,Engine.Idle,CachePolicy.blocks,Dict.get_eraseAll,
    Finset.mem_sdiff,List.mem_toFinset,hbefore]
  by_cases hk : k ∈ out <;> simp [hk]

theorem InStep.count (block : B) (new : ℤ) : InStep (engine.step (.count block new)) := by
  intro k
  have hbefore := h k
  simp only [Engine.Idle,CachePolicy.blocks] at hbefore
  simp only [Engine.step,foldl_mark,Engine.Idle,CachePolicy.blocks]
  have hheld : k ∈ (engine.holders block).toFinset ↔
      engine.policy.blocks.get k = some block := by
    rw [List.mem_toFinset,Engine.mem_holders]
    rfl
  cases hget : engine.policy.blocks.get k with
  | none =>
    rw [hget] at hbefore hheld
    split_ifs <;> simp [hbefore,hheld]
  | some b =>
    rw [hget] at hbefore hheld
    by_cases hb : b = block
    · subst hb
      split_ifs with hfree hbusy
      · simp [hheld,hfree.2]
      · simp [hheld,hbusy.2]
      · simp only [hbefore,Option.some.injEq,exists_eq_left',Function.update_self]
        tauto
    · split_ifs <;> simp [hbefore,hheld,hb]

theorem InStep.step {e : EngineEvent F K B} (hlegal : engine.Legal e) :
    InStep (engine.step e) := by
  cases e with
  | count block new => exact h.count block new
  | call c =>
    cases c with
    | get key => exact h
    | insert key block now => exact h.insert hlegal block now
    | remove key => exact h.without (remove_eq engine.policy key)
    | touch keys hints now => exact h
    | markEvictable key => exact hlegal.elim
    | markNonEvictable key => exact hlegal.elim
    | evict order n protectedKeys now =>
      obtain ⟨out,hout⟩ := exists_outcome engine.policy (order _) n protectedKeys now
      exact h.without hout
    | clear =>
      exact fun k => by simp [Engine.step,CachePolicy.call,clear,Engine.Idle,CachePolicy.blocks]

omit [DecidableEq B] in
theorem InStep.refCnt_of_evict {order : Listing engine.policy.evictable} {n : ℤ}
    {protectedKeys : Finset K} {now : F} {out : List (K × B)} {after : AcrValuePolicy F K B}
    (hevict : engine.policy.evict order n protectedKeys now = .ok (some out,after)) :
    ∀ p ∈ out, engine.refCnt p.2 = 0 := by
  intro p hp
  obtain ⟨hitem,hcandidate⟩ := given_of_evict hevict hp
  obtain ⟨block,hblock,hfree⟩ := (h p.1).mp (mem_candidates.mp hcandidate).1
  rw [CachePolicy.blocks,Dict.get_eq_some] at hblock
  exact Dict.item_unique hblock hitem ▸ hfree

end Step

theorem reached_inStep {cacheCapacity : ℤ} {params : PolicyParams F} {refCnt : B → ℤ}
    {events : List (EngineEvent F K B)} (hlegal : LegalEvents cacheCapacity params refCnt events) :
    InStep (reached cacheCapacity params refCnt events) := by
  have hstart := engine_inStep (F := F) (K := K) cacheCapacity params refCnt
  have hstep : ∀ (engine : Engine (AcrValuePolicy F K B) B) (e : EngineEvent F K B),
      InStep engine → engine.Legal e → InStep (engine.step e) := fun _ _ h hlegal => h.step hlegal
  exact run_invariant hstep hlegal hstart

/-- Whatever the engine calls, the evictable keys are those of the idle blocks, and only
idle blocks are evicted. -/
theorem evictable_iff_idle (cacheCapacity : ℤ) (params : PolicyParams F) (refCnt : B → ℤ)
    (events : List (EngineEvent F K B)) (hlegal : LegalEvents cacheCapacity params refCnt events) :
    (∀ key, key ∈ (reached cacheCapacity params refCnt events).policy.evictable ↔
      (reached cacheCapacity params refCnt events).Idle key) ∧
    ∀ order n protectedKeys now out after,
      (reached cacheCapacity params refCnt events).policy.evict order n protectedKeys now =
        .ok (some out,after) →
      ∀ p ∈ out, (reached cacheCapacity params refCnt events).refCnt p.2 = 0 :=
  ⟨reached_inStep hlegal,fun _ _ _ _ _ _ => (reached_inStep hlegal).refCnt_of_evict⟩

theorem evictable_iff_idle_loading :
    0 ∉ (reached 2 {} storingOne loading).policy.evictable := by
  intro h
  obtain ⟨block,hblock,hfree⟩ := ((evictable_iff_idle 2 {} storingOne loading
    (by decide +kernel)).1 0).mp h
  revert block
  decide +kernel

end AcrValuePolicy
end ContextResidency
