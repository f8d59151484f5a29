import ContextResidency.Index
import ContextResidency.Library.Greedy
import Mathlib.Data.Prod.Lex
import Mathlib.Data.Finset.Max
import Mathlib.Order.WithBot
import Mathlib.Data.String.Basic

/-! Residency policies for the host tier. A policy owns the entries of the tier:
what is admitted, what is touched and what goes. -/
namespace ContextResidency

/-- A resident block of the host tier. The key is the dictionary key. -/
structure Entry (F : Type) where
  nbytes : ℤ
  insertedAt : F
  lastTouch : F
  uses : ℕ := 1
  expiresAt : WithTop F := ⊤
  nextUse : WithTop F := ⊤

abbrev Entries (F : Type) := Dict BlockKey (Entry F)

/-- The application view that a policy may consult. -/
structure Probe (F : Type) where
  index : PrefixIndex F
  cost : CostModel F
  tier : TierConfig F
  horizonS : F
  now : F
  toolEta : Dict String F

variable {F : Type} [Scalar F]

namespace Probe

/-- The longest absence announced by a live session on this block; zero without one. -/
def sessionEta (probe : Probe F) (key : BlockKey) : F :=
  (((probe.index.liveLeases key probe.now).image fun s =>
    (probe.toolEta.get s).getD 0).max).unbotD 0

/-- Reuse probability with the announced return as a floor, and a role prior for
blocks without history. An empty table of priors is no table. -/
def reuseProb (probe : Probe F) (key : BlockKey) (priors : Dict String F)
    (useHints : Bool := true) : F :=
  let p := probe.index.liveReuseProb key probe.now probe.horizonS
  match probe.index.blocks.get key with
  | none => p
  | some info =>
    let eta := probe.sessionEta key
    let hinted :=
      if useHints ∧ 0 < eta then
        let idle := max 0 (probe.now-info.lastUse)
        max p (if idle ≤ eta then 9/10 else Scalar.exp (-(idle-eta)/eta)*(9/10))
      else p
    if priors.items ≠ [] ∧ info.iatEma = none then
      let fallback := (priors.get "default").getD hinted
      max ((priors.get (info.roles.min.untopD "?")).getD fallback) hinted
    else hinted

/-- Bytes of the longest chain among the sessions that lease this block. -/
def chainBytes (probe : Probe F) (key : BlockKey) : ℤ :=
  match probe.index.blocks.get key with
  | none => 0
  | some info => info.refs.fold max 0 fun session =>
    (((probe.index.sessionPath.get session).getD []).map probe.index.nbytesOf).sum

/-- Reuse probability of a chain, weighted by bytes. -/
def chainReuseProb (probe : Probe F) (keys : List BlockKey) (priors : Dict String F) : F :=
  let total := (keys.map fun key => probe.reuseProb key priors*probe.index.nbytesOf key).sum
  let weight := (keys.map probe.index.nbytesOf).sum
  total/(max 1 weight : ℤ)

def recomputeSeconds (probe : Probe F) (nbytes : ℤ) : F :=
  probe.cost.recomputeSeconds (nbytes/probe.cost.kvBytesPerToken)

def restoreSeconds (probe : Probe F) (nbytes : ℤ) : F := probe.tier.restoreSeconds nbytes

end Probe

/-! Eviction. Each function returns the evicted keys, `none` when nothing could be
evicted, together with the entries that are left. -/

def expire (entries : Entries F) (now : F) : Entries F :=
  entries.filter fun _ e => ¬ e.expiresAt ≤ now

/-- Greedy best-effort eviction in the given order. -/
def take (order : List (BlockKey × Entry F)) (neededBytes : ℤ) (entries : Entries F) :
    Option (List BlockKey) × Entries F :=
  let out := (takeUntil (·.2.nbytes) neededBytes 0 order).map Prod.fst
  if out = [] then (none,entries) else (some out,entries.eraseAll out)

/-- Sort the unprotected entries by a policy's key and take from the front. -/
def evictBy {κ : Type} [LinearOrder κ] (key : Entry F → κ) (entries : Entries F)
    (neededBytes : ℤ) (protectedKeys : Finset BlockKey) : Option (List BlockKey) × Entries F :=
  take (sortedBy (fun p => key p.2) (entries.items.filter fun p => p.1 ∉ protectedKeys))
    neededBytes entries

def RecencyPolicy.evict (entries : Entries F) : ℤ → Finset BlockKey →
    Option (List BlockKey) × Entries F := evictBy (·.lastTouch) entries

def FrequencyPolicy.evict (entries : Entries F) : ℤ → Finset BlockKey →
    Option (List BlockKey) × Entries F := evictBy (fun e => toLex (e.uses,e.lastTouch)) entries

def FixedTTLPolicy.evict (entries : Entries F) (now : F) : ℤ → Finset BlockKey →
    Option (List BlockKey) × Entries F :=
  evictBy (fun e => toLex (e.expiresAt,e.lastTouch)) (expire entries now)

def ContinuumTTLPolicy.evict (entries : Entries F) (now : F) : ℤ → Finset BlockKey →
    Option (List BlockKey) × Entries F :=
  evictBy (fun e => toLex (e.expiresAt,e.lastTouch)) (expire entries now)

def OraclePolicy.evict (entries : Entries F) : ℤ → Finset BlockKey →
    Option (List BlockKey) × Entries F :=
  evictBy (fun e => toLex (OrderDual.toDual e.nextUse,e.lastTouch)) entries

namespace AdaptiveValuePolicy

variable (horizonS : F) (priors : Dict String F)

/-- Seconds of recompute that a block saves per byte held. The source writes its
horizon into the probe first; nothing else reads that field. -/
def density (key : BlockKey) (nbytes : ℤ) (probe : Probe F) : F :=
  let p := { probe with horizonS := horizonS }.reuseProb key priors
  p*max 0 (probe.recomputeSeconds nbytes-probe.restoreSeconds nbytes)/(max 1 nbytes : ℤ)

/-- The private chain of the one live session on a block, or the block on its own. -/
def chainOf (key : BlockKey) (now : F) (probe : Probe F) : String :=
  match probe.index.blocks.get key with
  | none => "?"
  | some _ =>
    let live := probe.index.liveLeases key now
    if 1 < live.card then "shared:" ++ key.render else live.min.untopD key.render

def sharedRank (chain : List (BlockKey × Entry F)) (probe : Probe F) : ℕ :=
  if chain.all fun p => ((probe.index.blocks.get p.1).map (·.shared)).getD false then 1 else 0

def depth (key : BlockKey) (probe : Probe F) : ℕ :=
  ((probe.index.blocks.get key).map (·.depth)).getD 0

def chainDensity (chain : List (BlockKey × Entry F)) (probe : Probe F) : F :=
  let total := (chain.map (·.2.nbytes)).sum
  if total ≤ 0 then 0
  else (chain.map fun p => density horizonS priors p.1 p.2.nbytes probe*p.2.nbytes).sum/total

/-- Group the candidates by chain, in order of first appearance. -/
def chains (now : F) (probe : Probe F) (candidates : List (BlockKey × Entry F)) :
    Dict String (List (BlockKey × Entry F)) :=
  candidates.foldl (fun groups p => groups.push (chainOf p.1 now probe) p) .empty

/-- Drop one chain from its leaf end until enough is freed; returns the keys and
the bytes freed so far. -/
def dropChain (neededBytes : ℤ) : ℤ → List (BlockKey × Entry F) → List BlockKey × ℤ
  | freed, [] => ([],freed)
  | freed, e::rest =>
    if neededBytes ≤ freed then ([],freed)
    else
      let r := dropChain neededBytes (freed+e.2.nbytes) rest
      (e.1::r.1,r.2)

def dropChains (neededBytes : ℤ) (probe : Probe F) :
    ℤ → List (List (BlockKey × Entry F)) → List BlockKey
  | _, [] => []
  | freed, chain::rest =>
    let leafFirst := sortedBy (fun p => OrderDual.toDual (depth p.1 probe)) chain
    let r := dropChain neededBytes freed leafFirst
    if neededBytes ≤ r.2 then r.1 else r.1 ++ dropChains neededBytes probe r.2 rest

def evict (entries : Entries F) (now : F) (probe : Probe F) (neededBytes : ℤ)
    (protectedKeys : Finset BlockKey) : Option (List BlockKey) × Entries F :=
  let kept := expire entries now
  let candidates := kept.items.filter fun p => p.1 ∉ protectedKeys
  if candidates = [] then (none,kept)
  else
    let ranked := sortedBy (fun c => toLex (sharedRank c probe,chainDensity horizonS priors c probe))
      (chains now probe candidates).values
    let out := dropChains neededBytes probe 0 ranked
    (if out = [] then none else some out,kept.eraseAll out)

/-- Admit a chain when nothing has to be displaced, or when it is worth the worst occupant. -/
def admitChain (capacity : ℤ) (entries : Entries F) (items : List (BlockKey × ℤ))
    (probe : Probe F) : List (BlockKey × ℤ) :=
  if items = [] then []
  else if ((entries.sumBy fun _ e => e.nbytes : ℤ) : F)/(max 1 capacity : ℤ) < 9/10 then items
  else
    let total := (items.map Prod.snd).sum
    let incoming := (items.map fun p => density horizonS priors p.1 p.2 probe*p.2).sum/
      (max 1 total : ℤ)
    let worst := ((entries.items.map fun p =>
      density horizonS priors p.1 p.2.nbytes probe).min?).getD 0
    -- The source compares the two as rounded floats.
    if worst ≤ incoming then items else []

end AdaptiveValuePolicy

/-- The six replay policies with their tuning. -/
inductive PolicyKind (F : Type)
  | lru
  | lfu
  | fixedTtl (baseS perGibS : F)
  | continuumTtl (k minS maxS : F)
  | adaptiveValue (horizonS : F) (priors : Dict String F)
  | oracle

def PolicyKind.name : PolicyKind F → String
  | .lru => "lru"
  | .lfu => "lfu"
  | .fixedTtl _ _ => "fixed_ttl"
  | .continuumTtl _ _ _ => "continuum_ttl"
  | .adaptiveValue _ _ => "adaptive_value"
  | .oracle => "oracle"

/-- Whether the policy deletes expired entries before it evicts. -/
def PolicyKind.sweeps : PolicyKind F → Bool
  | .fixedTtl _ _ => true
  | .continuumTtl _ _ _ => true
  | .adaptiveValue _ _ => true
  | _ => false

structure TierPolicy (F : Type) where
  kind : PolicyKind F
  capacity : ℤ
  entries : Entries F

namespace TierPolicy

def new (kind : PolicyKind F) (capacityBytes : ℤ) : TierPolicy F := ⟨kind,capacityBytes,.empty⟩

def occupancy (policy : TierPolicy F) : ℤ := policy.entries.sumBy fun _ e => e.nbytes

def pressure (policy : TierPolicy F) : F := policy.occupancy/(max 1 policy.capacity : ℤ)

def get (policy : TierPolicy F) (key : BlockKey) : Option (Entry F) := policy.entries.get key

def expiry (policy : TierPolicy F) (key : BlockKey) (nbytes : ℤ) (now : F) (probe : Probe F) :
    WithTop F :=
  match policy.kind with
  | .fixedTtl baseS perGibS => ((now+baseS+perGibS*(nbytes/1024^3) : F) : WithTop F)
  | .continuumTtl k minS maxS =>
    let lost := probe.chainBytes key
    let cost := probe.recomputeSeconds (if lost = 0 then nbytes else lost)
    let ttl := min maxS (max minS (k*cost))
    ((now+ttl+probe.sessionEta key : F) : WithTop F)
  | _ => ⊤

/-- A use of a resident entry: the clock, the count and the expiry move. -/
def refresh (policy : TierPolicy F) (key : BlockKey) (nbytes : ℤ) (now : F) (probe : Probe F)
    (e : Entry F) : Entry F :=
  { e with lastTouch := now, uses := e.uses+1, expiresAt := policy.expiry key nbytes now probe }

def insert (policy : TierPolicy F) (key : BlockKey) (nbytes : ℤ) (now : F) (probe : Probe F) :
    TierPolicy F :=
  { policy with entries := match policy.get key with
    | none => policy.entries.set key { nbytes := nbytes, insertedAt := now, lastTouch := now
                                       expiresAt := policy.expiry key nbytes now probe }
    | some _ => policy.entries.modify key (policy.refresh key nbytes now probe) }

def touch (policy : TierPolicy F) (keys : List BlockKey) (now : F) (probe : Probe F) :
    TierPolicy F :=
  keys.foldl (fun policy key => { policy with
    entries := policy.entries.modify key fun e => policy.refresh key e.nbytes now probe e }) policy

def admitChain (policy : TierPolicy F) (items : List (BlockKey × ℤ)) (probe : Probe F) :
    List (BlockKey × ℤ) :=
  match policy.kind with
  | .adaptiveValue horizonS priors =>
    AdaptiveValuePolicy.admitChain horizonS priors policy.capacity policy.entries items probe
  | _ => items

/-- The eviction of each policy on the entries alone. -/
def evictEntries (policy : TierPolicy F) (neededBytes : ℤ) (protectedKeys : Finset BlockKey)
    (now : F) (probe : Probe F) : Option (List BlockKey) × Entries F :=
  match policy.kind with
  | .lru => RecencyPolicy.evict policy.entries neededBytes protectedKeys
  | .lfu => FrequencyPolicy.evict policy.entries neededBytes protectedKeys
  | .fixedTtl _ _ => FixedTTLPolicy.evict policy.entries now neededBytes protectedKeys
  | .continuumTtl _ _ _ => ContinuumTTLPolicy.evict policy.entries now neededBytes protectedKeys
  | .adaptiveValue horizonS priors =>
    AdaptiveValuePolicy.evict horizonS priors policy.entries now probe neededBytes protectedKeys
  | .oracle => OraclePolicy.evict policy.entries neededBytes protectedKeys

def evict (policy : TierPolicy F) (neededBytes : ℤ) (protectedKeys : Finset BlockKey) (now : F)
    (probe : Probe F) : Option (List BlockKey) × TierPolicy F :=
  let r := policy.evictEntries neededBytes protectedKeys now probe
  (r.1,{ policy with entries := r.2 })

end TierPolicy

/-- The policies by name, with their default tuning. -/
def POLICIES : List (String × PolicyKind F) :=
  [.lru,.lfu,.fixedTtl 180 60,.continuumTtl 3 5 900,
    .adaptiveValue 120 (.ofList [("supervisor",1/2),("patient",6/10),("reviewer",2/10),
      ("rag",5/100),("default",1/10)]),.oracle].map fun kind => (kind.name,kind)

/-- The exceptions that a replay can raise by itself. -/
inductive PyError
  | keyError (message : String)
  | valueError (message : String)
  deriving DecidableEq

/-- Names in single quotes, as `repr` writes them when they need no escapes. -/
def quoted (name : String) : String := "'" ++ name ++ "'"

def build (name : String) (capacityBytes : ℤ) : Except PyError (TierPolicy F) :=
  match (POLICIES (F := F)).find? fun p => p.1 = name with
  | some p => .ok (.new p.2 capacityBytes)
  | none =>
    let known := sortedBy id ((POLICIES (F := F)).map Prod.fst)
    .error (.keyError ("unknown policy " ++ quoted name ++ "; known: [" ++
      String.intercalate ", " (known.map quoted) ++ "]"))

end ContextResidency
