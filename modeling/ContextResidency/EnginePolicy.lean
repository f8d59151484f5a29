import ContextResidency.Scalar
import ContextResidency.Library.Dict
import ContextResidency.Library.Greedy
import Mathlib.Data.Prod.Lex
import Mathlib.Data.Finset.Basic

/-! The residency policy that the engine loads for its CPU offload tier. Keys and
blocks belong to the engine; of a block only the reference count is read. Every
callback that reads the clock takes its value as an argument. -/
namespace ContextResidency

/-- The tuning of the policy, with its defaults. -/
structure PolicyParams (F : Type) [Scalar F] where
  horizonS : F := 120
  lambdaMem : F := 1
  lambdaIo : F := 1/4
  roleWeight : Dict String F := .ofList [("patient",8/5),("reviewer",1),("supervisor",1)]
  kvBytesPerToken : F := 57753
  prefillTokensPerS : F := 11100
  restoreGbs : F := 264/5
  blockTokens : ℤ := 816

/-- What the policy remembers of one block. -/
structure Meta (F : Type) [Scalar F] where
  lastUse : F
  uses : ℕ := 0
  iat : F := 0
  leases : F := 1
  weight : F := 1
  bytes : F

/-- The gateway's stamp on a request, when there is one and it is not empty. -/
structure Hints (F : Type) where
  role : Option String := none
  toolEtaS : Option F := none
  sessionLeaseCount : Option F := none
  leases : Option F := none

/-- One order in which a set may be iterated. -/
structure Listing {K : Type} (s : Finset K) where
  keys : List K
  nodup : keys.Nodup
  mem_keys : ∀ k, k ∈ keys ↔ k ∈ s

/-- `xs[:n]`: a negative bound counts from the end. -/
def sliceTo {α : Type} (n : ℤ) (xs : List α) : List α :=
  xs.take (if 0 ≤ n then n.toNat else xs.length-n.natAbs)

theorem sliceTo_initial {α : Type} (n : ℤ) (xs : List α) : sliceTo n xs <+: xs :=
  List.take_prefix _ _

inductive EvictError (K : Type)
  | keyError (key : K)
  | zeroDivision
  deriving DecidableEq

structure AcrValuePolicy (F K B : Type) [Scalar F] where
  cacheCapacity : ℤ
  params : PolicyParams F
  blocks : Dict K B
  evictable : Finset K
  blockMeta : Dict K (Meta F)

namespace AcrValuePolicy

variable {F K B : Type} [Scalar F] [DecidableEq K]

def new (cacheCapacity : ℤ) (params : PolicyParams F) : AcrValuePolicy F K B :=
  ⟨cacheCapacity,params,.empty,∅,.empty⟩

/-- Bytes for one offloaded block, the same for every key. -/
def bytesOf (policy : AcrValuePolicy F K B) : F :=
  if policy.params.blockTokens ≤ 0 then 0
  else policy.params.blockTokens*policy.params.kvBytesPerToken

def get (policy : AcrValuePolicy F K B) (key : K) : Option B := policy.blocks.get key

/-- Statistics that exist already are kept. -/
def insert (policy : AcrValuePolicy F K B) (refCnt : B → ℤ) (key : K) (block : B) (now : F) :
    AcrValuePolicy F K B :=
  { policy with
    blocks := policy.blocks.set key block
    evictable := if refCnt block = 0 then Insert.insert key policy.evictable else policy.evictable
    blockMeta := match policy.blockMeta.get key with
      | none => policy.blockMeta.set key { lastUse := now, bytes := policy.bytesOf }
      | some _ => policy.blockMeta }

def remove (policy : AcrValuePolicy F K B) (key : K) : AcrValuePolicy F K B :=
  { policy with
    blocks := policy.blocks.erase key
    evictable := policy.evictable.erase key
    blockMeta := policy.blockMeta.erase key }

/-- One use of a block. An announced return shifts the last use forward, and the
clock caps it again. -/
def touched (params : PolicyParams F) (hints : Option (Hints F)) (now : F) (m : Meta F) :
    Meta F :=
  let gap := max 0 (now-m.lastUse)
  let used := { m with
    iat := if m.iat ≤ 0 then gap else 7/10*m.iat+3/10*gap
    lastUse := now
    uses := m.uses+1 }
  match hints with
  | none => used
  | some h =>
    { used with
      weight := (params.roleWeight.get (h.role.getD "")).getD 1
      lastUse := match h.toolEtaS with
        | none => now
        | some eta => min (now+eta) now
      leases := h.sessionLeaseCount.getD (h.leases.getD m.leases) }

def touch (policy : AcrValuePolicy F K B) (keys : List K) (hints : Option (Hints F)) (now : F) :
    AcrValuePolicy F K B :=
  let use := touched policy.params hints now
  { policy with blockMeta := keys.foldl (fun entries k => entries.modify k use) policy.blockMeta }

def markEvictable (policy : AcrValuePolicy F K B) (key : K) : AcrValuePolicy F K B :=
  { policy with evictable := Insert.insert key policy.evictable }

def markNonEvictable (policy : AcrValuePolicy F K B) (key : K) : AcrValuePolicy F K B :=
  { policy with evictable := policy.evictable.erase key }

def clear (policy : AcrValuePolicy F K B) : AcrValuePolicy F K B :=
  { policy with blocks := .empty, evictable := ∅, blockMeta := .empty }

def reuseProb (policy : AcrValuePolicy F K B) (m : Meta F) (now : F) : F :=
  let p :=
    if m.iat ≤ 0 then 1/20
    else
      let idle := max 0 (now-m.lastUse)
      -- Under a negative horizon the second exponent is positive, and `math.exp` may overflow.
      Scalar.exp (-idle/m.iat)*(1-Scalar.exp (-policy.params.horizonS/m.iat))
  let leases := max 1 m.leases
  if leases ≤ 1 then p else 1-Scalar.pow (1-p) (min leases 8)

def nbytes (policy : AcrValuePolicy F K B) (m : Meta F) : F :=
  if m.bytes = 0 then policy.bytesOf else m.bytes

def tRecompute (policy : AcrValuePolicy F K B) (m : Meta F) : F :=
  policy.nbytes m/max 1 policy.params.kvBytesPerToken/policy.params.prefillTokensPerS

def tRestore (policy : AcrValuePolicy F K B) (m : Meta F) : F :=
  policy.nbytes m/(policy.params.restoreGbs*10^9)

def pressure (policy : AcrValuePolicy F K B) : F :=
  policy.blocks.items.length/(max 1 policy.cacheCapacity : ℤ)

def score (policy : AcrValuePolicy F K B) (key : K) (now : F) : F :=
  match policy.blockMeta.get key with
  | none => 0
  | some m =>
    let p := policy.reuseProb m now
    let saved := p*max 0 (policy.tRecompute m-policy.tRestore m)
    let rent := policy.params.lambdaMem*(policy.nbytes m/1024^3)*policy.pressure*(1/10)
    let io := policy.params.lambdaIo*(policy.nbytes m/1024^3)*p*(1/100)
    (saved-rent-io)*m.weight

/-- The two rates that a score divides by. -/
def Rated (policy : AcrValuePolicy F K B) : Prop :=
  policy.params.prefillTokensPerS ≠ 0 ∧ policy.params.restoreGbs ≠ 0

instance (policy : AcrValuePolicy F K B) : Decidable policy.Rated :=
  inferInstanceAs (Decidable (_ ∧ _))

/-- Stalest and least reused first among equal scores. -/
def rank (policy : AcrValuePolicy F K B) (now : F) (key : K) : F ×ₗ F ×ₗ ℕ :=
  toLex (policy.score key now,toLex (((policy.blockMeta.get key).map (·.lastUse)).getD 0,
    ((policy.blockMeta.get key).map (·.uses)).getD 0))

def lookup (policy : AcrValuePolicy F K B) (key : K) : Except (EvictError K) (K × B) :=
  match policy.blocks.get key with
  | none => .error (.keyError key)
  | some block => .ok (key,block)

/-- Evict `n` of the unprotected candidates or none. A score is computed for every
candidate before any block is looked up, and nothing is removed before both went
well. -/
def evict (policy : AcrValuePolicy F K B) (order : Listing policy.evictable) (n : ℤ)
    (protectedKeys : Finset K) (now : F) :
    Except (EvictError K) (Option (List (K × B)) × AcrValuePolicy F K B) :=
  if n = 0 then .ok (some [],policy)
  else
    let candidates := order.keys.filter (· ∉ protectedKeys)
    if (candidates.length : ℤ) < n then .ok (none,policy)
    else if ¬ policy.Rated ∧ ∃ k ∈ candidates, k ∈ policy.blockMeta then .error .zeroDivision
    else
      match (sliceTo n (sortedBy (policy.rank now) candidates)).mapM policy.lookup with
      | .error e => .error e
      | .ok out => .ok (some out,out.foldl (fun policy p => policy.remove p.1) policy)

end AcrValuePolicy
end ContextResidency
