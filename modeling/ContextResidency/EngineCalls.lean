import ContextResidency.TtlPolicy
import ContextResidency.Library.Runs

/-! The engine's side of the cache-policy contract. The engine calls a policy in any
order, moves the reference counts of its blocks, and tells the policy when the count of
a resident block reaches zero or leaves it. -/
namespace ContextResidency

inductive EngineCall (F K B : Type)
  | get (key : K)
  | insert (key : K) (block : B) (now : F)
  | remove (key : K)
  | touch (keys : List K) (hints : Option (Hints F)) (now : F)
  | markEvictable (key : K)
  | markNonEvictable (key : K)
  /-- The set of candidates may be iterated in any order. -/
  | evict (order : (s : Finset K) → Listing s) (n : ℤ) (protectedKeys : Finset K) (now : F)
  | clear

/-- The value of the clock that a call reads, if it reads it. -/
def EngineCall.reading {F K B : Type} : EngineCall F K B → Option F
  | .insert _ _ now => some now
  | .touch _ _ now => some now
  | .evict _ _ _ now => some now
  | _ => none

/-- What the engine uses of a policy. A call that raises leaves the policy as it is. -/
class CachePolicy (P : Type) (F K B : outParam Type) where
  blocks : P → Dict K B
  call : (B → ℤ) → P → EngineCall F K B → P

/-- The policy after an eviction that may have raised. -/
def outcome {E A P : Type} (policy : P) : Except E (A × P) → P
  | .ok r => r.2
  | .error _ => policy

variable {F K B : Type} [Scalar F] [DecidableEq K]

instance : CachePolicy (AcrValuePolicy F K B) F K B where
  blocks := AcrValuePolicy.blocks
  call refCnt policy
    | .get _ => policy
    | .insert key block now => policy.insert refCnt key block now
    | .remove key => policy.remove key
    | .touch keys hints now => policy.touch keys hints now
    | .markEvictable key => policy.markEvictable key
    | .markNonEvictable key => policy.markNonEvictable key
    | .evict order n protectedKeys now =>
      outcome policy (policy.evict (order policy.evictable) n protectedKeys now)
    | .clear => policy.clear

instance : CachePolicy (SessionTtlPolicy F K B) F K B where
  blocks := SessionTtlPolicy.blocks
  call _ policy
    | .get _ => policy
    | .insert key block now => policy.insert key block now
    | .remove key => policy.remove key
    | .touch keys hints now => policy.touch keys hints now
    | .markEvictable key => policy.markEvictable key
    | .markNonEvictable key => policy.markNonEvictable key
    | .evict _ n protectedKeys now => outcome policy (policy.evict n protectedKeys now)
    | .clear => policy.clear

/-- A policy together with the reference counts of the engine's blocks. -/
structure Engine (P B : Type) where
  policy : P
  refCnt : B → ℤ

inductive EngineEvent (F K B : Type)
  | call (c : EngineCall F K B)
  | count (block : B) (refCnt : ℤ)

namespace Engine

variable {P : Type} [CachePolicy P F K B] [DecidableEq B]

def holders (engine : Engine P B) (block : B) : List K :=
  ((CachePolicy.blocks engine.policy).items.filter fun p => p.2 = block).map Prod.fst

/-- Tell the policy about a key whose block's count moves. -/
def mark (refCnt : B → ℤ) (old new : ℤ) (policy : P) (key : K) : P :=
  if old ≠ 0 ∧ new = 0 then CachePolicy.call refCnt policy (.markEvictable key)
  else if old = 0 ∧ new ≠ 0 then CachePolicy.call refCnt policy (.markNonEvictable key)
  else policy

def step (engine : Engine P B) : EngineEvent F K B → Engine P B
  | .call c => { engine with policy := CachePolicy.call engine.refCnt engine.policy c }
  | .count block new =>
    let refCnt := Function.update engine.refCnt block new
    ⟨(engine.holders block).foldl (mark refCnt (engine.refCnt block) new) engine.policy,refCnt⟩

def run (engine : Engine P B) (events : List (EngineEvent F K B)) : Engine P B :=
  events.foldl step engine

/-- What the engine's manager keeps to: it inserts only keys that are not there, and
marks a key only when the count of its block moves. -/
def Legal (engine : Engine P B) : EngineEvent F K B → Prop
  | .call (.insert key _ _) => key ∉ CachePolicy.blocks engine.policy
  | .call (.markEvictable _) => False
  | .call (.markNonEvictable _) => False
  | _ => True

instance (engine : Engine P B) : (e : EngineEvent F K B) → Decidable (engine.Legal e)
  | .call (.insert key _ _) => inferInstanceAs (Decidable (key ∉ CachePolicy.blocks engine.policy))
  | .call (.markEvictable _) => .isFalse id
  | .call (.markNonEvictable _) => .isFalse id
  | .call (.get _) => .isTrue trivial
  | .call (.remove _) => .isTrue trivial
  | .call (.touch _ _ _) => .isTrue trivial
  | .call (.evict _ _ _ _) => .isTrue trivial
  | .call .clear => .isTrue trivial
  | .count _ _ => .isTrue trivial

def LegalRun (engine : Engine P B) (events : List (EngineEvent F K B)) : Prop :=
  Along step Legal engine events

instance (engine : Engine P B) (events : List (EngineEvent F K B)) :
    Decidable (engine.LegalRun events) := inferInstanceAs (Decidable (Along _ _ _ _))

end Engine

namespace AcrValuePolicy

variable (cacheCapacity : ℤ) (params : PolicyParams F) (refCnt : B → ℤ)

/-- An engine that has just built its policy. -/
def engine : Engine (AcrValuePolicy F K B) B := ⟨new cacheCapacity params,refCnt⟩

variable [DecidableEq B] (events : List (EngineEvent F K B))

def reached : Engine (AcrValuePolicy F K B) B :=
  (engine cacheCapacity params refCnt : Engine (AcrValuePolicy F K B) B).run events

def LegalEvents : Prop :=
  (engine cacheCapacity params refCnt : Engine (AcrValuePolicy F K B) B).LegalRun events

instance : Decidable (LegalEvents cacheCapacity params refCnt events) :=
  inferInstanceAs (Decidable (Engine.LegalRun _ _))

end AcrValuePolicy

namespace SessionTtlPolicy

variable (cacheCapacity : ℤ) (params : TtlParams F) (refCnt : B → ℤ)

def engine : Engine (SessionTtlPolicy F K B) B := ⟨new cacheCapacity params,refCnt⟩

variable [DecidableEq B] (events : List (EngineEvent F K B))

def reached : Engine (SessionTtlPolicy F K B) B :=
  (engine cacheCapacity params refCnt : Engine (SessionTtlPolicy F K B) B).run events

def LegalEvents : Prop :=
  (engine cacheCapacity params refCnt : Engine (SessionTtlPolicy F K B) B).LegalRun events

instance : Decidable (LegalEvents cacheCapacity params refCnt events) :=
  inferInstanceAs (Decidable (Engine.LegalRun _ _))

end SessionTtlPolicy

end ContextResidency
