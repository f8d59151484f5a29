import ContextResidency.EnginePolicy

/-! The session-TTL policy for the engine's CPU offload tier: expired blocks first, then
the soonest to expire. -/
namespace ContextResidency

/-- Declared lifetimes by role, with their defaults. -/
structure TtlParams (F : Type) [Scalar F] where
  ttl : Dict String F :=
    .ofList [("patient",60),("action_judge",60),("coding",3600),("supervisor",3600)]
  defaultTtl : F := 300

structure SessionTtlPolicy (F K B : Type) [Scalar F] where
  cacheCapacity : ℤ
  params : TtlParams F
  blocks : Dict K B
  expires : Dict K F
  role : Dict K String
  pinned : Finset K

namespace SessionTtlPolicy

variable {F K B : Type} [Scalar F] [DecidableEq K]

def new (cacheCapacity : ℤ) (params : TtlParams F) : SessionTtlPolicy F K B :=
  ⟨cacheCapacity,params,.empty,.empty,.empty,∅⟩

def get (policy : SessionTtlPolicy F K B) (key : K) : Option B := policy.blocks.get key

/-- A lifetime that exists already is kept. -/
def insert (policy : SessionTtlPolicy F K B) (key : K) (block : B) (now : F) :
    SessionTtlPolicy F K B :=
  { policy with
    blocks := policy.blocks.set key block
    expires := match policy.expires.get key with
      | none => policy.expires.set key (now+policy.params.defaultTtl)
      | some _ => policy.expires }

def remove (policy : SessionTtlPolicy F K B) (key : K) : SessionTtlPolicy F K B :=
  { policy with
    blocks := policy.blocks.erase key
    expires := policy.expires.erase key
    role := policy.role.erase key
    pinned := policy.pinned.erase key }

/-- Each sighting of a resident block renews its lifetime. -/
def touch (policy : SessionTtlPolicy F K B) (keys : List K) (hints : Option (Hints F)) (now : F) :
    SessionTtlPolicy F K B :=
  let role := (hints.bind (·.role)).getD ""
  let ttl := (policy.params.ttl.get role).getD policy.params.defaultTtl
  let seen := keys.filter (· ∈ policy.blocks)
  { policy with
    expires := seen.foldl (fun expires k => expires.set k (now+ttl)) policy.expires
    role := if role = "" then policy.role
      else seen.foldl (fun roles k => roles.set k role) policy.role }

def markEvictable (policy : SessionTtlPolicy F K B) (key : K) : SessionTtlPolicy F K B :=
  { policy with pinned := policy.pinned.erase key }

def markNonEvictable (policy : SessionTtlPolicy F K B) (key : K) : SessionTtlPolicy F K B :=
  { policy with pinned := Insert.insert key policy.pinned }

def clear (policy : SessionTtlPolicy F K B) : SessionTtlPolicy F K B :=
  { policy with blocks := .empty, expires := .empty, role := .empty, pinned := ∅ }

/-- The unprotected blocks that nobody pinned, in the order of their insertion. -/
def live (policy : SessionTtlPolicy F K B) (protectedKeys : Finset K) : List K :=
  policy.blocks.keys.filter fun k => k ∉ protectedKeys ∧ k ∉ policy.pinned

def expiry (policy : SessionTtlPolicy F K B) (key : K) : F := (policy.expires.get key).getD 0

/-- The live blocks in the order in which they go. -/
def victims (policy : SessionTtlPolicy F K B) (protectedKeys : Finset K) (now : F) : List K :=
  let live := policy.live protectedKeys
  let expired := live.filter (policy.expiry · ≤ now)
  expired ++ sortedBy policy.expiry (live.filter (· ∉ expired))

/-- Evict `n` live blocks or none. The expiry of every live block is read first. -/
def evict (policy : SessionTtlPolicy F K B) (n : ℤ) (protectedKeys : Finset K) (now : F) :
    Except (EvictError K) (Option (List (K × B)) × SessionTtlPolicy F K B) :=
  if n = 0 then .ok (some [],policy)
  else if ((policy.live protectedKeys).length : ℤ) < n then .ok (none,policy)
  else
    match (policy.live protectedKeys).find? (· ∉ policy.expires) with
    | some key => .error (.keyError key)
    | none =>
      match (sliceTo n (policy.victims protectedKeys now)).mapM
          (policy.blocks.fetch EvictError.keyError) with
      | .error e => .error e
      | .ok out => .ok (some out,out.foldl (fun policy p => policy.remove p.1) policy)

end SessionTtlPolicy
end ContextResidency
