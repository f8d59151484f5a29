import ContextResidency.Config
import ContextResidency.Library.Dict

/-! The prefix block index and its session leases. The cache object is a prefix
block and a session is a lease on it, so a prefix shared by several sessions is
recorded once. -/
namespace ContextResidency

/-- Block keys are positional: a namespace and an index in it. -/
inductive BlockKey
  | root (rootId : String) (i : ℤ)
  | priv (sessionId : String) (i : ℤ)
  deriving DecidableEq

/-- The string under which the source files the block. -/
def BlockKey.render : BlockKey → String
  | .root rootId i => s!"{rootId}:b{i}"
  | .priv sessionId i => s!"{sessionId}:p{i}"

/-- What the index records of a block. The key is the dictionary key. -/
structure BlockInfo (F : Type) where
  tokens : ℤ
  nbytes : ℤ
  depth : ℕ
  shared : Bool
  createdAt : F
  lastUse : F
  uses : ℕ
  iatEma : Option F
  refs : Finset String
  roles : Finset String

/-- One entry of a chain: a block key, the tokens asked of it, and whether it is shared. -/
structure ChainPart where
  key : BlockKey
  tokens : ℤ
  shared : Bool

/-- The blocks of one namespace: full ones from index `base` on, then the partial rest. -/
def segment (mk : ℤ → BlockKey) (shared : Bool) (blockTokens base tokens : ℤ) : List ChainPart :=
  let full := tokens/blockTokens
  let rem := tokens % blockTokens
  (List.range full.toNat).map (fun i => ⟨mk (base+i),blockTokens,shared⟩) ++
    if rem = 0 then [] else [⟨mk (base+full),rem,shared⟩]

structure PrefixIndex (F : Type) where
  blockTokens : ℤ
  blockTokens_pos : 1 ≤ blockTokens
  cost : CostModel F
  blocks : Dict BlockKey (BlockInfo F)
  sessionPath : Dict String (List BlockKey)
  sessionRole : Dict String String
  sessionLastSeen : Dict String F
  invalidations : List BlockKey

variable {F : Type} [Scalar F]

def BlockInfo.observeUse (info : BlockInfo F) (now : F) : BlockInfo F :=
  -- The source asks for an earlier use by the truth value of the stored time.
  let iatEma :=
    if info.lastUse ≠ 0 then
      let gap := max 0 (now-info.lastUse)
      match info.iatEma with
      | none => some gap
      | some ema => some (7/10*ema+3/10*gap)
    else info.iatEma
  { info with iatEma := iatEma, uses := info.uses+1, lastUse := now }

namespace PrefixIndex

def new (blockTokens : ℤ) (cost : CostModel F) : PrefixIndex F where
  blockTokens := max 1 blockTokens
  blockTokens_pos := le_max_left _ _
  cost := cost
  blocks := .empty
  sessionPath := .empty
  sessionRole := .empty
  sessionLastSeen := .empty
  invalidations := []

/-- The blocks of one prompt in prefix order: the shared root, then the private tail. -/
def chain (index : PrefixIndex F) (sessionId : String) (promptTokens sharedPrefixTokens : ℤ)
    (rootId : String) : List ChainPart :=
  let shared := min sharedPrefixTokens promptTokens
  let priv := promptTokens-shared
  let root := segment (.root rootId) true index.blockTokens 0 shared
  root ++ segment (.priv sessionId) false index.blockTokens root.length priv

/-- The record of a chain part before its use is observed: created, or grown when
a partial block fills up. -/
def recordFor (index : PrefixIndex F) (now : F) (depth : ℕ) (part : ChainPart) : BlockInfo F :=
  match index.blocks.get part.key with
  | none =>
    { tokens := part.tokens, nbytes := index.cost.blockBytes part.tokens, depth := depth
      shared := part.shared, createdAt := now, lastUse := 0, uses := 0, iatEma := none
      refs := ∅, roles := ∅ }
  | some info =>
    if info.tokens < part.tokens then
      { info with tokens := part.tokens, nbytes := index.cost.blockBytes part.tokens }
    else info

/-- Lease one chain part to a session and count the use. -/
def registerPart (sessionId role : String) (now : F) (index : PrefixIndex F)
    (item : ChainPart × ℕ) : PrefixIndex F :=
  let info := index.recordFor now item.2 item.1
  let leased := { info with refs := insert sessionId info.refs, roles := insert role info.roles }
  { index with blocks := index.blocks.set item.1.key (leased.observeUse now) }

/-- `info.refs.discard(session_id)` for a key that may be unknown. -/
def discardRef (sessionId : String) (index : PrefixIndex F) (key : BlockKey) : PrefixIndex F :=
  { index with
    blocks := index.blocks.modify key fun info => { info with refs := info.refs.erase sessionId } }

/-- Register the chain of a request; returns the keys in prefix order. -/
def touchPath (index : PrefixIndex F) (sessionId role : String)
    (promptTokens sharedPrefixTokens : ℤ) (now : F) (aborted : Bool) :
    PrefixIndex F × List BlockKey :=
  let parts := index.chain sessionId promptTokens sharedPrefixTokens s!"root:{role}"
  let keys := parts.map (·.key)
  let old := (index.sessionPath.get sessionId).getD []
  let rolledBack := if aborted ∧ keys.length < old.length then old.drop keys.length else []
  let stale := old.filter (· ∉ keys)
  let opened := { index with
    invalidations := index.invalidations ++ rolledBack
    sessionPath := index.sessionPath.set sessionId keys
    sessionRole := index.sessionRole.set sessionId role
    sessionLastSeen := index.sessionLastSeen.set sessionId now }
  let registered := parts.zipIdx.foldl (registerPart sessionId role now) opened
  (stale.foldl (discardRef sessionId) registered,keys)

/-- Drop the leases of one path; the error is the key of an unknown block. -/
def dropLeases (sessionId : String) :
    PrefixIndex F → List BlockKey → Except BlockKey (PrefixIndex F)
  | index, [] => .ok index
  | index, key::keys =>
    match index.blocks.get key with
    | none => .error key
    | some _ => dropLeases sessionId (index.discardRef sessionId key) keys

def releaseSession (index : PrefixIndex F) (sessionId : String) :
    Except BlockKey (PrefixIndex F) :=
  let path := (index.sessionPath.get sessionId).getD []
  let closed := { index with sessionPath := index.sessionPath.erase sessionId }
  (dropLeases sessionId closed path).map fun released =>
    { released with sessionLastSeen := released.sessionLastSeen.erase sessionId }

/-- Sessions that lease a block and are not stale; an unseen session counts as live. -/
def liveLeases (index : PrefixIndex F) (key : BlockKey) (now : F) (staleAfter : F := 900) :
    Finset String :=
  match index.blocks.get key with
  | none => ∅
  | some info => info.refs.filter fun s =>
    (index.sessionLastSeen.get s).all fun seen => now-seen ≤ staleAfter

/-- `1 - (1 - p) ^ leases` with the hazard of the block's own inter-arrival average. -/
def liveReuseProb (index : PrefixIndex F) (key : BlockKey) (now horizon : F) : F :=
  match index.blocks.get key with
  | none => 0
  | some info =>
    let p := match info.iatEma with
      | none => 5/100
      | some ema =>
        if ema ≤ 0 then 5/100
        else
          let idle := max 0 (now-info.lastUse)
          Scalar.exp (-idle/ema)*(1-Scalar.exp (-horizon/ema))
    let leases := max 1 (index.liveLeases key now).card
    if leases ≤ 1 then p else 1-(1-p)^(min leases 8)

/-- `blocks[key].tokens`, zero for an unknown key. -/
def tokensOf (index : PrefixIndex F) (key : BlockKey) : ℤ :=
  ((index.blocks.get key).map (·.tokens)).getD 0

/-- `blocks[key].nbytes`, zero for an unknown key. -/
def nbytesOf (index : PrefixIndex F) (key : BlockKey) : ℤ :=
  ((index.blocks.get key).map (·.nbytes)).getD 0

end PrefixIndex
end ContextResidency
