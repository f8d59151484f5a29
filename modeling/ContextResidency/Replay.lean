import ContextResidency.Policies
import ContextResidency.Trace

/-! Trace-driven replay over two tiers: the engine's HBM pool, which is an LRU set
that can be filled but not steered, and the host tier that a policy owns. -/
namespace ContextResidency

/-- Engine-side pool: block sizes from the least to the most recently used. -/
structure HBMTier where
  capacityBytes : ℤ
  blocks : Dict BlockKey ℤ
  used : ℤ

namespace HBMTier

def new (capacityBytes : ℤ) : HBMTier := ⟨capacityBytes,.empty,0⟩

def touch (hbm : HBMTier) (keys : List BlockKey) : HBMTier :=
  keys.foldl (fun hbm key => { hbm with blocks := hbm.blocks.moveToEnd key }) hbm

/-- A block that is present keeps its recorded size and becomes the most recent. -/
def fill (hbm : HBMTier) (item : BlockKey × ℤ) : HBMTier :=
  if item.1 ∈ hbm.blocks then { hbm with blocks := hbm.blocks.moveToEnd item.1 }
  else { hbm with blocks := hbm.blocks.set item.1 item.2, used := hbm.used+item.2 }

/-- Pop victims in order until the pool fits; returns the keys popped. -/
def drop : HBMTier → List BlockKey → HBMTier × List BlockKey
  | hbm, [] => (hbm,[])
  | hbm, victim::rest =>
    let popped := { hbm with used := hbm.used-(hbm.blocks.get victim).getD 0
                             blocks := hbm.blocks.erase victim }
    if popped.used ≤ popped.capacityBytes then (popped,[victim])
    else
      let r := drop popped rest
      (r.1,victim::r.2)

/-- Fill, then let the engine drop what it wants; returns the keys it dropped. -/
def store (hbm : HBMTier) (items : List (BlockKey × ℤ)) (protectedKeys : Finset BlockKey) :
    HBMTier × List BlockKey :=
  let filled := items.foldl fill hbm
  if filled.used ≤ filled.capacityBytes then (filled,[])
  else drop filled (filled.blocks.keys.filter (· ∉ protectedKeys))

end HBMTier

structure TurnMetric (F : Type) where
  t : F
  role : String
  promptTokens : ℤ
  ttftS : F
  e2eS : F
  recomputeTokens : ℤ
  restoreBytes : ℤ
  sourceTiers : List String

structure RoleStats (F : Type) where
  n : F
  ttftP50 : F
  ttftP95 : F
  ttftMax : F
  recomputeKtok : F
  sloViol : Option F

structure Report (F : Type) where
  policy : String
  turns : ℕ
  windowS : F
  promptTokens : ℤ
  recomputeTokens : ℤ
  restoreBytes : ℤ
  prefillSeconds : F
  transferSeconds : F
  thrash : ℕ
  reacquires : ℕ
  demotions : ℕ
  invalidations : ℕ
  peakRamBytes : ℤ
  hbmBytes : ℤ
  perRole : Dict String (RoleStats F)

/-- The state of a replay. The probe shares the index, so only its own fields are kept. -/
structure Simulator (F : Type) where
  cfg : SimConfig F
  policy : TierPolicy F
  ramTier : TierConfig F
  index : PrefixIndex F
  hbm : HBMTier
  horizonS : F
  now : F
  toolEta : Dict String F
  pcieBusy : F
  prefillBusy : F
  metrics : List (TurnMetric F)
  leftHbmAt : Dict BlockKey F
  leftHostAt : Dict BlockKey F
  thrash : ℕ
  reacquires : ℕ
  demotions : ℕ
  peakRam : ℤ

/-- What the walk along a path finds: the length of the serviceable prefix, the bytes
to restore for it, and the restores of blocks that left HBM moments ago. -/
structure Scan where
  cut : ℕ
  restoreBytes : ℤ
  thrash : ℕ

/-- When a turn is served on the two contended servers. -/
structure Timing (F : Type) where
  pcieEnd : F
  prefillEnd : F
  ttft : F
  e2e : F

/-- The times at which each key will be accessed. -/
abbrev Schedule (F : Type) := Dict BlockKey (List F)

variable {F : Type} [Scalar F]

/-- The first scheduled access after `now`. -/
def Schedule.next (sched : Schedule F) (key : BlockKey) (now : F) : WithTop F :=
  match ((sched.get key).getD []).find? (now < ·) with
  | none => ⊤
  | some t => t

/-- `statistics.median` of a list that is not empty. -/
def median (values : List F) : F :=
  let ordered := sortedBy id values
  let n := ordered.length
  if n % 2 = 1 then ordered.getD (n/2) 0 else (ordered.getD (n/2-1) 0+ordered.getD (n/2) 0)/2

/-- Wasted time: the recompute that could have been avoided, and the transfer paid to
avoid it. -/
def Report.objective (report : Report F) : F := report.prefillSeconds+report.transferSeconds

def pct (values : List F) (q : F) : F :=
  if values = [] then 0
  else
    let ordered := sortedBy id values
    let last : ℤ := ordered.length-1
    ordered.getD (min last (max 0 (roundHalfEven (q*last)))).toNat 0

namespace Simulator

def new (cfg : SimConfig F) (policy : TierPolicy F) (ramTier : TierConfig F) : Simulator F where
  cfg := cfg
  policy := policy
  ramTier := ramTier
  index := .new cfg.blockTokens cfg.cost
  hbm := .new cfg.hbmBytes
  horizonS := 120
  now := 0
  toolEta := .empty
  pcieBusy := 0
  prefillBusy := 0
  metrics := []
  leftHbmAt := .empty
  leftHostAt := .empty
  thrash := 0
  reacquires := 0
  demotions := 0
  peakRam := 0

/-- The simulator that `run_policy` builds: the policy has the capacity of its tier. -/
def start (cfg : SimConfig F) (kind : PolicyKind F) (ramTier : TierConfig F) : Simulator F :=
  .new cfg (.new kind ramTier.bytesCapacity) ramTier

def probe (s : Simulator F) : Probe F := ⟨s.index,s.cfg.cost,s.ramTier,s.horizonS,s.now,s.toolEta⟩

/-- The oracle's schedule: a separate pass over the trace that rebuilds every chain. -/
def futureAccesses (cfg : SimConfig F) (turns : List (Turn F)) : Schedule F :=
  let index : PrefixIndex F := .new cfg.blockTokens cfg.cost
  let sched := (inOrder turns).foldl (fun sched turn =>
    (index.chain turn.sessionId turn.promptTokens turn.sharedPrefixTokens
      s!"root:{turn.role}").foldl (fun sched part =>
        sched.push part.key turn.t) sched) Dict.empty
  sched.mapValues fun _ times => sortedBy id times

def schedule (s : Simulator F) (turns : List (Turn F)) : Schedule F :=
  match s.policy.kind with
  | .oracle => futureAccesses s.cfg turns
  | _ => .empty

/-- Register the path of the turn and show the turn to the probe. -/
def observe (s : Simulator F) (turn : Turn F) : Simulator F × List BlockKey :=
  let r := s.index.touchPath turn.sessionId turn.role turn.promptTokens turn.sharedPrefixTokens
    turn.t turn.aborted
  ({ s with
      index := r.1
      toolEta := match turn.toolEtaS with
        | none => s.toolEta
        | some eta => s.toolEta.set turn.sessionId eta
      now := turn.t },r.2)

/-- The longest serviceable prefix, and where each of its blocks must come from. -/
def scan (s : Simulator F) : List BlockKey → Scan
  | [] => ⟨0,0,0⟩
  | key::keys =>
    if key ∈ s.hbm.blocks then
      let r := s.scan keys
      { r with cut := r.cut+1 }
    else match s.policy.get key with
      | none => ⟨0,0,0⟩
      | some entry =>
        let idle := s.now-(s.leftHbmAt.get key).getD (-10^18)
        let recent := if 0 ≤ idle ∧ idle ≤ s.cfg.thrashWindowS then 1 else 0
        let r := s.scan keys
        ⟨r.cut+1,entry.nbytes+r.restoreBytes,recent+r.thrash⟩

/-- Two contended servers: the PCIe path first, then prefill compute. -/
def serve (s : Simulator F) (turn : Turn F) (restoreBytes recomputeTokens : ℤ) : Timing F :=
  let transferS := s.ramTier.restoreSeconds restoreBytes
  let prefillS := s.cfg.cost.recomputeSeconds recomputeTokens
  let pcieEnd := max turn.t s.pcieBusy+transferS
  let prefillStart := max (max turn.t s.prefillBusy) (if transferS ≠ 0 then pcieEnd else 0)
  let prefillEnd := prefillStart+prefillS
  let ttft := s.cfg.cost.requestOverheadS+max 0 (prefillEnd-turn.t)
  -- At a decode rate of zero the source raises here.
  ⟨pcieEnd,prefillEnd,ttft,ttft+turn.completionTokens/s.cfg.cost.decodeTokensPerS⟩

def leftHbm (s : Simulator F) (key : BlockKey) : Simulator F :=
  { s with demotions := s.demotions+1, leftHbmAt := s.leftHbmAt.set key s.now }

def leftHost (s : Simulator F) (key : BlockKey) : Simulator F :=
  { s with leftHostAt := s.leftHostAt.set key s.now }

def fillHbm (s : Simulator F) (keys : List BlockKey) : Simulator F :=
  let pathBytes := keys.map fun k => (k,s.index.nbytesOf k)
  let r := s.hbm.store pathBytes keys.toFinset
  r.2.foldl leftHbm { s with hbm := r.1 }

/-- The blocks of the path that the host tier does not hold, with their index sizes. -/
def missing (s : Simulator F) (keys : List BlockKey) : List (BlockKey × ℤ) :=
  (keys.filter fun k => (s.policy.get k).isNone).map fun k => (k,s.index.nbytesOf k)

/-- Free bytes of the host tier. -/
def freeRoom (s : Simulator F) : ℤ := max 0 (s.ramTier.bytesCapacity-s.policy.occupancy)

/-- The blocks to store and the bytes to free for them, when bytes must be freed. -/
def evictRequest (s : Simulator F) (keys : List BlockKey) : Option (List (BlockKey × ℤ) × ℤ) :=
  let fresh := s.policy.admitChain (s.missing keys) s.probe
  let needed := (fresh.map Prod.snd).sum-s.freeRoom
  if fresh ≠ [] ∧ 0 < needed then some (fresh,needed) else none

/-- The oracle notes when a block that it just stored is used next. -/
def foresee (sched : Schedule F) (key : BlockKey) (now : F) (policy : TierPolicy F) :
    TierPolicy F :=
  match policy.kind with
  | .oracle => { policy with entries := policy.entries.modify key fun e =>
      { e with nextUse := sched.next key now } }
  | _ => policy

/-- Store the prefix that fits, in path order. -/
def insertFresh (now : F) (sched : Schedule F) :
    Simulator F → ℤ → List (BlockKey × ℤ) → Simulator F
  | s, _, [] => s
  | s, room, (key,nbytes)::rest =>
    if room < nbytes then s
    else
      insertFresh now sched
        { s with reacquires := s.reacquires+if key ∈ s.leftHostAt then 1 else 0
                 policy := foresee sched key now (s.policy.insert key nbytes now s.probe) }
        (room-nbytes) rest

/-- Make room for the context of this turn in one eviction round, then store it. -/
def storeBatchToHost (s : Simulator F) (keys : List BlockKey) (now : F) (sched : Schedule F) :
    Simulator F :=
  match s.evictRequest keys with
  | none => insertFresh now sched s s.freeRoom (s.policy.admitChain (s.missing keys) s.probe)
  | some (fresh,needed) =>
    match s.policy.evict needed (fresh.map Prod.fst).toFinset now s.probe with
    | (none,policy) => { s with policy := policy }
    | (some freed,policy) =>
      insertFresh now sched (freed.foldl leftHost { s with policy := policy })
        (s.freeRoom+(freed.map s.index.nbytesOf).sum) fresh

def touchHost (s : Simulator F) (keys : List BlockKey) (now : F) : Simulator F :=
  { s with policy := s.policy.touch keys now s.probe }

def refreshOracle (s : Simulator F) (keys : List BlockKey) (now : F) (sched : Schedule F) :
    Simulator F :=
  { s with policy := { s.policy with
      entries := keys.foldl (fun entries key => entries.modify key fun e =>
        { e with nextUse := sched.next key now }) s.policy.entries } }

def found (s : Simulator F) (turn : Turn F) : Scan :=
  let (seen,keys) := s.observe turn
  seen.scan keys

/-- Tokens of the path from the end of the serviceable prefix on. -/
def recomputeTokens (s : Simulator F) (turn : Turn F) : ℤ :=
  let (seen,keys) := s.observe turn
  ((keys.drop (s.found turn).cut).map seen.index.tokensOf).sum

def timing (s : Simulator F) (turn : Turn F) : Timing F :=
  s.serve turn (s.found turn).restoreBytes (s.recomputeTokens turn)

def metric (s : Simulator F) (turn : Turn F) : TurnMetric F where
  t := turn.t
  role := turn.role
  promptTokens := turn.promptTokens
  ttftS := (s.timing turn).ttft
  e2eS := (s.timing turn).e2e
  recomputeTokens := s.recomputeTokens turn
  restoreBytes := (s.found turn).restoreBytes
  sourceTiers := if (s.found turn).restoreBytes ≠ 0 then [s.ramTier.name] else []

/-- HBM fill, then the admission to the host tier, then the touch of the whole path. -/
def settled (sched : Schedule F) (s : Simulator F) (turn : Turn F) : Simulator F :=
  let (seen,keys) := s.observe turn
  let stored := (seen.fillHbm keys).storeBatchToHost keys turn.t sched
  (stored.touchHost keys turn.t).refreshOracle keys turn.t sched

def one (sched : Schedule F) (s : Simulator F) (turn : Turn F) : Simulator F :=
  let settled := settled sched s turn
  { settled with
    thrash := s.thrash+(s.found turn).thrash
    pcieBusy := (s.timing turn).pcieEnd
    prefillBusy := (s.timing turn).prefillEnd
    metrics := s.metrics ++ [s.metric turn]
    peakRam := max s.peakRam settled.policy.occupancy }

def exec (sched : Schedule F) (s : Simulator F) (turns : List (Turn F)) : Simulator F :=
  turns.foldl (one sched) s

/-- The state after the first `n` turns of a run. -/
def after (s : Simulator F) (turns : List (Turn F)) (n : ℕ) : Simulator F :=
  exec (s.schedule turns) s ((inOrder turns).take n)

def statsOf (cfg : SimConfig F) (role : String) (items : List (TurnMetric F)) : RoleStats F :=
  let ttfts := items.map (·.ttftS)
  { n := items.length
    ttftP50 := median ttfts
    ttftP95 := pct ttfts (95/100)
    ttftMax := (ttfts.max?).getD 0
    recomputeKtok := ((items.map (·.recomputeTokens)).sum : ℤ)/1000
    sloViol := if role = "patient" then
      some ((ttfts.filter (cfg.patientSloTtftS < ·)).length) else none }

def finalize (s : Simulator F) : Report F :=
  let recomputeTokens := (s.metrics.map (·.recomputeTokens)).sum
  let restoreBytes := (s.metrics.map (·.restoreBytes)).sum
  let byRole := s.metrics.foldl (fun (byRole : Dict String (List (TurnMetric F))) m =>
    byRole.push m.role m) .empty
  { policy := s.policy.kind.name
    turns := s.metrics.length
    windowS := (s.metrics.getLast?.map (·.t)).getD 0
    promptTokens := (s.metrics.map (·.promptTokens)).sum
    recomputeTokens := recomputeTokens
    restoreBytes := restoreBytes
    prefillSeconds := s.cfg.cost.recomputeSeconds recomputeTokens
    transferSeconds := s.ramTier.restoreSeconds restoreBytes
    thrash := s.thrash
    reacquires := s.reacquires
    demotions := s.demotions
    invalidations := s.index.invalidations.length
    peakRamBytes := s.peakRam
    hbmBytes := s.hbm.used
    perRole := byRole.mapValues (statsOf s.cfg) }

/-- Sessions that ended release their leases. -/
def closeSessions (s : Simulator F) : Except PyError (Simulator F) :=
  s.index.sessionPath.keys.foldlM (fun s sid =>
    match s.index.releaseSession sid with
    | .error key => .error (.keyError key.render)
    | .ok index => .ok { s with index := index }) s

def run (s : Simulator F) (turns : List (Turn F)) : Except PyError (Report F) :=
  (closeSessions (exec (s.schedule turns) s (inOrder turns))).map finalize

end Simulator

def runPolicy (cfg : SimConfig F) (turns : List (Turn F)) (name : String) :
    Except PyError (Report F) :=
  match cfg.tier "ram" with
  | none => .error (.valueError "config has no enabled `ram` tier")
  | some ram => do
    let policy ← build name ram.bytesCapacity
    (Simulator.new cfg policy ram).run turns

end ContextResidency
