import ContextResidency.PolicyView
import ContextResidency.ClockOrigin
import ContextResidency.RoleReport

/-! What the replay is measured with, and what only measures it. The decode rate, the
request overhead, the service level of the patients and the thrash window are read after
every decision has been taken, and so are the completions of the turns: no two runs that
differ in them alone serve a block differently. -/
namespace ContextResidency

variable {F : Type} [Scalar F]

/-- The settings that no decision reads. A turn divides by the first of them. -/
structure Gauges (F : Type) [Zero F] where
  decodeTokensPerS : F
  decodes : decodeTokensPerS ≠ 0
  requestOverheadS : F
  patientSloTtftS : F
  thrashWindowS : F

def CostModel.gauged (g : Gauges F) (cost : CostModel F) : CostModel F :=
  { cost with decodeTokensPerS := g.decodeTokensPerS, requestOverheadS := g.requestOverheadS }

def SimConfig.gauged (g : Gauges F) (cfg : SimConfig F) : SimConfig F :=
  { cfg with
    cost := cfg.cost.gauged g
    patientSloTtftS := g.patientSloTtftS
    thrashWindowS := g.thrashWindowS }

def PrefixIndex.gauged (g : Gauges F) (index : PrefixIndex F) : PrefixIndex F :=
  { index with cost := index.cost.gauged g }

def Probe.gauged (g : Gauges F) (probe : Probe F) : Probe F :=
  { probe with index := probe.index.gauged g, cost := probe.cost.gauged g }

/-- Turns that differ in what they bring back at most. -/
def SameAsk (turn turn' : Turn F) : Prop :=
  turn' = { turn with completionTokens := turn'.completionTokens, sloClass := turn'.sloClass }

theorem PrefixIndex.touchPath_gauged (g : Gauges F) (index : PrefixIndex F)
    (sessionId role : String) (promptTokens sharedPrefixTokens : ℤ) (now : F) (aborted : Bool) :
    (index.gauged g).touchPath sessionId role promptTokens sharedPrefixTokens now aborted =
      let r := index.touchPath sessionId role promptTokens sharedPrefixTokens now aborted
      (r.1.gauged g,r.2) := by
  have hregister : ∀ (items : List (ChainPart × ℕ)) (index : PrefixIndex F),
      items.foldl (registerPart sessionId role now) (index.gauged g) =
        (items.foldl (registerPart sessionId role now) index).gauged g := fun items index =>
    List.foldl_hom (gauged g) fun _ _ => rfl
  have hdiscard : ∀ (keys : List BlockKey) (index : PrefixIndex F),
      keys.foldl (discardRef sessionId) (index.gauged g) =
        (keys.foldl (discardRef sessionId) index).gauged g := fun keys index =>
    List.foldl_hom (gauged g) fun _ _ => rfl
  unfold touchPath
  simp only [← hdiscard,← hregister]
  rfl

namespace AdaptiveValuePolicy

theorem dropChains_gauged (g : Gauges F) (neededBytes : ℤ) (probe : Probe F) (freed : ℤ)
    (chains : List (List (BlockKey × Entry F))) :
    dropChains neededBytes (probe.gauged g) freed chains =
      dropChains neededBytes probe freed chains := by
  have hdepth : ∀ key, depth key (probe.gauged g) = depth key probe := fun _ => rfl
  induction chains generalizing freed with
  | nil => rfl
  | cons chain chains ih => simp only [dropChains,hdepth,ih]

theorem evict_gauged (g : Gauges F) (horizonS : F) (priors : Dict String F) (entries : Entries F)
    (now : F) (probe : Probe F) (neededBytes : ℤ) (protectedKeys : Finset BlockKey) :
    evict horizonS priors entries now (probe.gauged g) neededBytes protectedKeys =
      evict horizonS priors entries now probe neededBytes protectedKeys := by
  have hrank : ∀ chain : List (BlockKey × Entry F),
      sharedRank chain (probe.gauged g) = sharedRank chain probe := fun _ => rfl
  have hvalue : ∀ chain : List (BlockKey × Entry F),
      chainDensity horizonS priors chain (probe.gauged g) =
        chainDensity horizonS priors chain probe := fun _ => rfl
  have hchains : ∀ candidates : List (BlockKey × Entry F),
      chains now (probe.gauged g) candidates = chains now probe candidates := fun _ => rfl
  unfold evict
  simp only [hrank,hvalue,hchains,dropChains_gauged]

end AdaptiveValuePolicy

/-- No policy reads a gauge. -/
theorem PolicyKind.sameView_gauged (g : Gauges F) (kind : PolicyKind F) (probe : Probe F) :
    kind.SameView probe (probe.gauged g) := by
  constructor
  case admission =>
    rintro ⟨kind,capacity,entries⟩ _ items
    cases kind <;> rfl
  case expiry =>
    rintro ⟨kind,capacity,entries⟩ _ key nbytes now
    cases kind <;> rfl
  case evict =>
    rintro ⟨kind,capacity,entries⟩ _ neededBytes protectedKeys now
    cases kind with
    | adaptiveValue horizonS priors =>
      have hevict := AdaptiveValuePolicy.evict_gauged g horizonS priors entries now probe
        neededBytes protectedKeys
      simp only [TierPolicy.evict,TierPolicy.evictEntries,hevict]
    | lru => rfl
    | lfu => rfl
    | fixedTtl => rfl
    | continuumTtl => rfl
    | oracle => rfl

namespace Simulator

/-- The same state under other gauges, with what was measured so far. -/
def gauged (g : Gauges F) (thrash : ℕ) (metrics : List (TurnMetric F)) (s : Simulator F) :
    Simulator F :=
  { s with
    cfg := s.cfg.gauged g
    index := s.index.gauged g
    thrash := thrash
    metrics := metrics }

section Step

variable (g : Gauges F) (thrash : ℕ) (metrics : List (TurnMetric F)) (s : Simulator F)
  (sched : Schedule F)

theorem insertFresh_gauged (now : F) (room : ℤ) (fresh : List (BlockKey × ℤ)) :
    insertFresh now sched (s.gauged g thrash metrics) room fresh =
      (insertFresh now sched s room fresh).gauged g thrash metrics := by
  induction fresh generalizing s room with
  | nil => rfl
  | cons item fresh ih =>
    rw [insertFresh,insertFresh]
    split
    · rfl
    · rw [← ih]
      rfl

theorem storeBatchToHost_gauged (keys : List BlockKey) (now : F) :
    (s.gauged g thrash metrics).storeBatchToHost keys now sched =
      (s.storeBatchToHost keys now sched).gauged g thrash metrics := by
  have hview := s.policy.kind.sameView_gauged g s.probe
  have hmissing : (s.gauged g thrash metrics).missing keys = s.missing keys := rfl
  have hchain : (s.gauged g thrash metrics).policy.admitChain
      ((s.gauged g thrash metrics).missing keys) (s.gauged g thrash metrics).probe =
        s.policy.admitChain (s.missing keys) s.probe := (hview.admission s.policy rfl _).symm
  have hrequest : (s.gauged g thrash metrics).evictRequest keys = s.evictRequest keys := by
    rw [evictRequest,evictRequest,hchain]
    rfl
  rw [storeBatchToHost,storeBatchToHost,hrequest,hchain]
  cases s.evictRequest keys with
  | none => exact insertFresh_gauged g thrash metrics s sched _ _ _
  | some request =>
    obtain ⟨fresh,needed⟩ := request
    have hevict : (s.gauged g thrash metrics).policy.evict needed (fresh.map Prod.fst).toFinset now
        (s.gauged g thrash metrics).probe =
          s.policy.evict needed (fresh.map Prod.fst).toFinset now s.probe :=
      (hview.evict s.policy rfl _ _ _).symm
    simp only [hevict]
    cases s.policy.evict needed (fresh.map Prod.fst).toFinset now s.probe with
    | mk freed policy =>
      cases freed with
      | none => rfl
      | some freed =>
        simp only [foldl_leftHost]
        exact insertFresh_gauged g thrash metrics { s with
          policy := policy
          leftHostAt := freed.foldl (fun d k => d.set k s.now) s.leftHostAt } sched _ _ _

theorem observe_gauged (turn : Turn F) : (s.gauged g thrash metrics).observe turn =
    let r := s.observe turn
    (r.1.gauged g thrash metrics,r.2) := by
  simp only [observe,gauged,PrefixIndex.touchPath_gauged]

theorem settled_gauged {turn turn' : Turn F} (hask : SameAsk turn turn') :
    settled sched (s.gauged g thrash metrics) turn' =
      (settled sched s turn).gauged g thrash metrics := by
  have hobserve : (s.gauged g thrash metrics).observe turn' =
      (s.gauged g thrash metrics).observe turn := by
    rw [hask]
    rfl
  have hnow : turn'.t = turn.t := by rw [hask]
  have hfilled : ∀ seen : Simulator F, (seen.gauged g thrash metrics).fillHbm (s.path turn) =
      (seen.fillHbm (s.path turn)).gauged g thrash metrics := by
    intro seen
    rw [fillHbm_eq,fillHbm_eq]
    rfl
  have htouched : ∀ stored : Simulator F,
      (stored.gauged g thrash metrics).touchHost (s.path turn) turn.t =
        (stored.touchHost (s.path turn) turn.t).gauged g thrash metrics := by
    intro stored
    have htouch := (stored.policy.kind.sameView_gauged g stored.probe).touch stored.policy rfl
      (s.path turn) turn.t
    rw [touchHost,touchHost,htouch]
    rfl
  unfold settled
  rw [hobserve,observe_gauged,hnow]
  show ((((s.observe turn).1.gauged g thrash metrics).fillHbm (s.path turn)).storeBatchToHost
    (s.path turn) turn.t sched |>.touchHost (s.path turn) turn.t).refreshOracle
      (s.path turn) turn.t sched = _
  rw [hfilled,storeBatchToHost_gauged,htouched]
  rfl

theorem thrash_scan_le {t : Simulator F} (hhbm : t.hbm = s.hbm) (hpolicy : t.policy = s.policy)
    (hnow : t.now = s.now) (hleft : t.leftHbmAt = s.leftHbmAt)
    (hwindow : s.cfg.thrashWindowS ≤ t.cfg.thrashWindowS) (keys : List BlockKey) :
    (s.scan keys).thrash ≤ (t.scan keys).thrash := by
  induction keys with
  | nil => exact le_rfl
  | cons key keys ih =>
    rw [scan,scan,hhbm,hpolicy,hnow,hleft]
    split
    · exact ih
    · split
      · exact le_rfl
      · refine Nat.add_le_add ?_ ih
        split_ifs with hrecent hlate
        · exact le_rfl
        · exact absurd ⟨hrecent.1,hrecent.2.trans hwindow⟩ hlate
        · exact Nat.zero_le _
        · exact le_rfl

end Step

end Simulator

/-- What every request waits more under other gauges. -/
def Gauges.delay (g : Gauges F) (cfg : SimConfig F) : F :=
  g.requestOverheadS-cfg.cost.requestOverheadS

/-- A measurement without the decoding, which no report reads. -/
def TurnMetric.served (m : TurnMetric F) : TurnMetric F := { m with e2eS := 0 }

def TurnMetric.late (delay : F) (m : TurnMetric F) : TurnMetric F :=
  { m with ttftS := m.ttftS+delay }

namespace Simulator

/-- A replay, and the same replay under other gauges: every request waits the delay more,
whatever its decoding takes. -/
structure Regauged (cfg : SimConfig F) (g : Gauges F) (s t : Simulator F) : Prop where
  settings : s.cfg = cfg
  state : t = s.gauged g t.thrash t.metrics
  waits : t.metrics.map TurnMetric.served =
    s.metrics.map fun m => (m.late (g.delay cfg)).served
  wider : cfg.thrashWindowS ≤ g.thrashWindowS → s.thrash ≤ t.thrash
  narrower : g.thrashWindowS ≤ cfg.thrashWindowS → t.thrash ≤ s.thrash

section Step

variable {cfg : SimConfig F} {g : Gauges F} {s t : Simulator F} (h : Regauged cfg g s t)
  {turn turn' : Turn F} (hask : SameAsk turn turn')
include h hask

theorem Regauged.observe : t.observe turn' =
    ((s.observe turn).1.gauged g t.thrash t.metrics,(s.observe turn).2) := by
  have hobserve : t.observe turn' = t.observe turn := by
    rw [hask]
    rfl
  rw [hobserve,h.state]
  exact observe_gauged g t.thrash t.metrics s turn

theorem Regauged.found : (t.found turn').cut = (s.found turn).cut ∧
    (t.found turn').restoreBytes = (s.found turn).restoreBytes := by
  have hfound : t.found turn' =
      ((s.observe turn).1.gauged g t.thrash t.metrics).scan (s.observe turn).2 := by
    unfold Simulator.found
    rw [h.observe hask]
  rw [hfound]
  exact @scan_alike _ _ (s.observe turn).1 ((s.observe turn).1.gauged g t.thrash t.metrics)
    rfl (fun _ => rfl) (s.observe turn).2

theorem Regauged.thrash :
    (cfg.thrashWindowS ≤ g.thrashWindowS → (s.found turn).thrash ≤ (t.found turn').thrash) ∧
      (g.thrashWindowS ≤ cfg.thrashWindowS → (t.found turn').thrash ≤ (s.found turn).thrash) := by
  have hwindow : (s.observe turn).1.cfg.thrashWindowS = cfg.thrashWindowS :=
    congrArg SimConfig.thrashWindowS h.settings
  have hfound : t.found turn' =
      ((s.observe turn).1.gauged g t.thrash t.metrics).scan (s.observe turn).2 := by
    unfold Simulator.found
    rw [h.observe hask]
  rw [hfound]
  constructor
  · intro hwider
    exact @thrash_scan_le _ _ (s.observe turn).1 ((s.observe turn).1.gauged g t.thrash t.metrics)
      rfl rfl rfl rfl (hwindow.trans_le hwider) (s.observe turn).2
  · intro hnarrower
    exact @thrash_scan_le _ _ ((s.observe turn).1.gauged g t.thrash t.metrics) (s.observe turn).1
      rfl rfl rfl rfl (hnarrower.trans_eq hwindow.symm) (s.observe turn).2

theorem Regauged.recomputeTokens : t.recomputeTokens turn' = s.recomputeTokens turn := by
  unfold Simulator.recomputeTokens
  rw [h.observe hask,(h.found hask).1]
  rfl

/-- The servers are busy as long, and the request waits the delay more. -/
theorem Regauged.timing : (t.timing turn').pcieEnd = (s.timing turn).pcieEnd ∧
    (t.timing turn').prefillEnd = (s.timing turn).prefillEnd ∧
    (t.timing turn').ttft = (s.timing turn).ttft+g.delay cfg := by
  have hnow : turn'.t = turn.t := by rw [hask]
  have hram : t.ramTier = s.ramTier := by rw [h.state]; rfl
  have hpcie : t.pcieBusy = s.pcieBusy := by rw [h.state]; rfl
  have hprefill : t.prefillBusy = s.prefillBusy := by rw [h.state]; rfl
  have hcost : t.cfg.cost = s.cfg.cost.gauged g := by rw [h.state]; rfl
  have hoverhead : (s.cfg.cost.gauged g).requestOverheadS =
      s.cfg.cost.requestOverheadS+g.delay cfg := by
    rw [h.settings,Gauges.delay]
    show g.requestOverheadS = _
    ring
  have hrecompute : ∀ tokens, (s.cfg.cost.gauged g).recomputeSeconds tokens =
      s.cfg.cost.recomputeSeconds tokens := fun _ => rfl
  rw [Simulator.timing,Simulator.timing,(h.found hask).2,h.recomputeTokens hask]
  simp only [serve,hnow,hram,hpcie,hprefill,hcost,hrecompute,hoverhead,true_and]
  ring

theorem Regauged.metric :
    (t.metric turn').served = ((s.metric turn).late (g.delay cfg)).served := by
  have hram : t.ramTier = s.ramTier := by rw [h.state]; rfl
  have hsame : turn'.t = turn.t ∧ turn'.role = turn.role ∧
      turn'.promptTokens = turn.promptTokens := by
    rw [hask]
    exact ⟨rfl,rfl,rfl⟩
  simp only [Simulator.metric,TurnMetric.served,TurnMetric.late,h.recomputeTokens hask,
    (h.found hask).2,(h.timing hask).2.2,hram,hsame]

/-- One turn keeps the two replays apart by the delay alone. -/
theorem Regauged.one (sched : Schedule F) :
    Regauged cfg g (Simulator.one sched s turn) (Simulator.one sched t turn') := by
  have hsettled : settled sched t turn' =
      (settled sched s turn).gauged g t.thrash t.metrics := by
    rw [h.state]
    exact settled_gauged g t.thrash t.metrics s sched hask
  constructor
  case settings =>
    rw [one_cfg]
    exact h.settings
  case state =>
    have htiming := h.timing hask
    have hpeak : t.peakRam = s.peakRam := by rw [h.state]; rfl
    rw [Simulator.one,Simulator.one,hsettled,htiming.1,htiming.2.1,hpeak]
    rfl
  case waits =>
    show (t.metrics ++ [t.metric turn']).map _ = (s.metrics ++ [s.metric turn]).map _
    rw [List.map_append,List.map_append,h.waits,List.map_singleton,List.map_singleton,
      h.metric hask]
  case wider => exact fun hwindow => Nat.add_le_add (h.wider hwindow) ((h.thrash hask).1 hwindow)
  case narrower =>
    exact fun hwindow => Nat.add_le_add (h.narrower hwindow) ((h.thrash hask).2 hwindow)

end Step

theorem start_regauged (cfg : SimConfig F) (g : Gauges F) (kind : PolicyKind F)
    (ram : TierConfig F) : Regauged cfg g (start cfg kind ram) (start (cfg.gauged g) kind ram) where
  settings := rfl
  state := rfl
  waits := rfl
  wider := fun _ => le_rfl
  narrower := fun _ => le_rfl

theorem Regauged.exec {cfg : SimConfig F} {g : Gauges F} {s t : Simulator F}
    (h : Regauged cfg g s t) (sched : Schedule F) {turns turns' : List (Turn F)}
    (hasks : List.Forall₂ SameAsk turns turns') :
    Regauged cfg g (Simulator.exec sched s turns) (Simulator.exec sched t turns') :=
  List.rel_foldl (fun _ _ h _ _ hask => h.one hask sched) h hasks

theorem schedule_gauged (cfg : SimConfig F) (g : Gauges F) (kind : PolicyKind F)
    (ram : TierConfig F) {turns turns' : List (Turn F)}
    (hasks : List.Forall₂ SameAsk (inOrder turns) (inOrder turns')) :
    (start (cfg.gauged g) kind ram).schedule turns' = (start cfg kind ram).schedule turns := by
  have hpass : (inOrder turns').foldl (noteAccesses (cfg.gauged g)) .empty =
      (inOrder turns).foldl (noteAccesses cfg) .empty := by
    refine (List.rel_foldl (P := fun sched sched' => sched' = sched) ?_ rfl hasks)
    rintro sched _ rfl turn turn' hask
    rw [hask]
    rfl
  cases kind with
  | oracle => exact congrArg (Dict.mapValues · fun _ times => sortedBy id times) hpass
  | lru => rfl
  | lfu => rfl
  | fixedTtl => rfl
  | continuumTtl => rfl
  | adaptiveValue => rfl

end Simulator

section Order

variable {values : List F} (delay : F)

theorem ordered_map_add {i : ℕ} (hi : i < values.length) :
    (sortedBy id (values.map (·+delay))).getD i 0 = (sortedBy id values).getD i 0+delay := by
  have hsorted : ∀ waits : List F,
      sortedBy id (waits.map (·+delay)) = (sortedBy id waits).map (·+delay) :=
    sortedBy_map fun _ _ => add_le_add_iff_right delay
  have hi' : i < (sortedBy id values).length := by rwa [(sortedBy_perm id values).length_eq]
  rw [hsorted,← List.getElem_eq_getD (h := hi') 0,
    ← List.getElem_eq_getD (h := by rwa [List.length_map]) 0,List.getElem_map]

theorem median_map_add (h : values ≠ []) :
    median (values.map (·+delay)) = median values+delay := by
  have hpos : 0 < values.length := List.length_pos_iff.mpr h
  have hlength : ∀ waits : List F, (sortedBy id waits).length = waits.length :=
    fun waits => (sortedBy_perm id waits).length_eq
  unfold median
  simp only [hlength,List.length_map]
  rw [ordered_map_add delay (by omega),ordered_map_add delay (by omega)]
  split
  · rfl
  · ring

theorem pct_map_add (h : values ≠ []) :
    pct (values.map (·+delay)) (95/100) = pct values (95/100)+delay := by
  rw [pct_eq h,pct_eq (mt List.map_eq_nil_iff.mp h),List.length_map,
    ordered_map_add delay (half_le_pctRank (List.length_pos_iff.mpr h)).2]

theorem max_map_add (h : values ≠ []) :
    ((values.map (·+delay)).max?).getD 0 = (values.max?).getD 0+delay := by
  rw [max?_map fun _ _ hle => add_le_add_left hle delay,List.max?_eq_some_max h]
  rfl

theorem length_filter_map_add (level : F) :
    ((values.map (·+delay)).filter (level < ·)).length =
      (values.filter (level-delay < ·)).length := by
  rw [List.filter_map,List.length_map]
  refine congrArg List.length (List.filter_congr fun value _ => ?_)
  simp [sub_lt_iff_lt_add]

theorem length_filter_lt_anti {level level' : F} (hlevel : level ≤ level') :
    (values.filter (level' < ·)).length ≤ (values.filter (level < ·)).length := by
  refine (List.monotone_filter_right values fun value hvalue => ?_).length_le
  exact decide_eq_true (hlevel.trans_lt (of_decide_eq_true hvalue))

end Order

/-- The figures of a role under other gauges: every wait is longer by the delay, and no
violation is new when the level rises by the delay or more. -/
structure RoleStats.Regauged (cfg : SimConfig F) (g : Gauges F) (r r' : RoleStats F) : Prop where
  rest : r' = { r with
    ttftP50 := r.ttftP50+g.delay cfg
    ttftP95 := r.ttftP95+g.delay cfg
    ttftMax := r.ttftMax+g.delay cfg
    sloViol := r'.sloViol }
  violations : Option.Rel (fun v v' =>
    (cfg.patientSloTtftS+g.delay cfg ≤ g.patientSloTtftS → v' ≤ v) ∧
      (g.patientSloTtftS ≤ cfg.patientSloTtftS+g.delay cfg → v ≤ v')) r.sloViol r'.sloViol

/-- A report under other gauges: nothing moves but the waits, by the delay, the violations,
with their level, and the thrash, with its window. -/
structure Report.Regauged (cfg : SimConfig F) (g : Gauges F) (r r' : Report F) : Prop where
  rest : r' = { r with thrash := r'.thrash, perRole := r'.perRole }
  roles : ∀ role, Option.Rel (RoleStats.Regauged cfg g) (r.perRole.get role) (r'.perRole.get role)
  wider : cfg.thrashWindowS ≤ g.thrashWindowS → r.thrash ≤ r'.thrash
  narrower : g.thrashWindowS ≤ cfg.thrashWindowS → r'.thrash ≤ r.thrash

namespace Simulator

theorem statsOf_regauged (cfg : SimConfig F) (g : Gauges F) (role : String)
    {items items' : List (TurnMetric F)} (h : items ≠ [])
    (hwaits : items'.map TurnMetric.served = items.map fun m => (m.late (g.delay cfg)).served) :
    (statsOf cfg role items).Regauged cfg g (statsOf (cfg.gauged g) role items') := by
  have hserved : ∀ items : List (TurnMetric F),
      statsOf (cfg.gauged g) role (items.map TurnMetric.served) =
        statsOf (cfg.gauged g) role items := by
    intro items
    simp only [statsOf,List.map_map,List.length_map]
    rfl
  have hlate : (items.map fun m => (m.late (g.delay cfg)).served).map (·.ttftS) =
      (items.map (·.ttftS)).map (·+g.delay cfg) := by
    rw [List.map_map,List.map_map]
    rfl
  have hrecompute : (items.map fun m => (m.late (g.delay cfg)).served).map (·.recomputeTokens) =
      items.map (·.recomputeTokens) := by
    rw [List.map_map]
    rfl
  have httfts : items.map (·.ttftS) ≠ [] := mt List.map_eq_nil_iff.mp h
  rw [← hserved items',hwaits]
  constructor
  case rest =>
    simp only [statsOf,hlate,hrecompute,median_map_add _ httfts,pct_map_add _ httfts,
      max_map_add _ httfts,List.length_map]
  case violations =>
    have hlevel : (cfg.gauged g).patientSloTtftS = g.patientSloTtftS := rfl
    simp only [statsOf,hlate,hlevel,length_filter_map_add]
    split
    · refine .some ⟨fun hlenient => ?_,fun hstrict => ?_⟩
      · exact Nat.cast_le.mpr (length_filter_lt_anti (le_sub_iff_add_le.mpr hlenient))
      · exact Nat.cast_le.mpr (length_filter_lt_anti (sub_le_iff_le_add.mpr hstrict))
    · exact .none

theorem Regauged.finalize {cfg : SimConfig F} {g : Gauges F} {s t : Simulator F}
    (h : Regauged cfg g s t) : s.finalize.Regauged cfg g t.finalize := by
  have hmap : ∀ {A : Type} (f : TurnMetric F → A), (∀ m, f m.served = f m) →
      (∀ m, f (m.late (g.delay cfg)) = f m) → t.metrics.map f = s.metrics.map f := by
    intro A f hserved hlate
    have hwaits := congrArg (List.map f) h.waits
    simpa only [List.map_map,Function.comp_def,hserved,hlate] using hwaits
  have hlast : t.metrics.getLast?.map (·.t) = s.metrics.getLast?.map (·.t) := by
    rw [← List.getLast?_map,← List.getLast?_map]
    exact congrArg List.getLast? (hmap (·.t) (fun _ => rfl) fun _ => rfl)
  have hlength : t.metrics.length = s.metrics.length := by
    have hlengths := congrArg List.length (hmap (·.t) (fun _ => rfl) fun _ => rfl)
    rwa [List.length_map,List.length_map] at hlengths
  constructor
  case rest =>
    have hrecompute := hmap (·.recomputeTokens) (fun _ => rfl) fun _ => rfl
    have hrestore := hmap (·.restoreBytes) (fun _ => rfl) fun _ => rfl
    have hprompt := hmap (·.promptTokens) (fun _ => rfl) fun _ => rfl
    simp only [Simulator.finalize,hlast,hlength,hrecompute,hrestore,hprompt]
    rw [h.state]
    rfl
  case roles =>
    intro role
    have hitems : (t.metrics.filter fun m => m.role = role).map TurnMetric.served =
        (s.metrics.filter fun m => m.role = role).map fun m =>
          (m.late (g.delay cfg)).served := by
      have hwaits := congrArg (List.filter fun m => m.role = role) h.waits
      rwa [List.filter_map,List.filter_map] at hwaits
    have hcfg : t.cfg = cfg.gauged g := by
      rw [h.state,← h.settings]
      rfl
    have hnil : (t.metrics.filter fun m => m.role = role) = [] ↔
        (s.metrics.filter fun m => m.role = role) = [] := by
      rw [← List.map_eq_nil_iff,hitems,List.map_eq_nil_iff]
    rw [perRole_get,perRole_get,hcfg,h.settings]
    simp only [hnil]
    split
    · exact .none
    · rename_i hne
      exact .some (statsOf_regauged cfg g role hne hitems)
  case wider => exact h.wider
  case narrower => exact h.narrower

theorem run_regauged (cfg : SimConfig F) (g : Gauges F) (kind : PolicyKind F) (ram : TierConfig F)
    {turns turns' : List (Turn F)} (hasks : List.Forall₂ SameAsk turns turns') :
    ∃ r r' : Report F, (start cfg kind ram).run turns = .ok r ∧
      (start (cfg.gauged g) kind ram).run turns' = .ok r' ∧ r.Regauged cfg g r' := by
  have horder : List.Forall₂ SameAsk (inOrder turns) (inOrder turns') :=
    sortedBy_forall₂ (fun turn turn' hask => by rw [hask]) hasks
  have hlast := (start_regauged cfg g kind ram).exec ((start cfg kind ram).schedule turns) horder
  refine ⟨_,_,run_start cfg kind ram turns,?_,hlast.finalize⟩
  rw [run_start,schedule_gauged cfg g kind ram horder]

end Simulator

/-- What only measures a replay does not move it: under another decode rate, request overhead,
service level and thrash window, and for turns that bring back something else, every policy
serves every block as before, and reports the same but for the waits, the violations and the
thrash, or fails as before. -/
theorem runPolicy_regauged (cfg : SimConfig F) (g g' : Gauges F) (name : String)
    {turns turns' : List (Turn F)} (hasks : List.Forall₂ SameAsk turns turns') :
    (∃ r r' : Report F, runPolicy (cfg.gauged g) turns name = .ok r ∧
      runPolicy (cfg.gauged g') turns' name = .ok r' ∧ r.Regauged (cfg.gauged g) g' r') ∨
    ∃ e, runPolicy (cfg.gauged g) turns name = .error e ∧
      runPolicy (cfg.gauged g') turns' name = .error e := by
  have htier : (cfg.gauged g').tier "ram" = (cfg.gauged g).tier "ram" := rfl
  unfold runPolicy
  rw [htier]
  cases (cfg.gauged g).tier "ram" with
  | none => exact Or.inr ⟨_,rfl,rfl⟩
  | some ram =>
    unfold build
    cases (POLICIES (F := F)).find? fun p => p.1 = name with
    | none => exact Or.inr ⟨_,rfl,rfl⟩
    | some p => exact Or.inl (Simulator.run_regauged (cfg.gauged g) g' p.2 ram hasks)

def smallGauges : Gauges ℚ := ⟨118,by norm_num,36/100,3/2,60⟩

def otherGauges : Gauges ℚ := ⟨10,by norm_num,5,2,1⟩

theorem runPolicy_regauged_small :
    let turns := [ask 1 "a" 900,ask 2 "b" 900,ask 3 "a" 900]
    let chatty := [{ ask 1 "a" 900 with completionTokens := 20 },ask 2 "b" 900,ask 3 "a" 900]
    let cfg := smallConfig 1000 2000
    (∃ r r' : Report ℚ, runPolicy (cfg.gauged smallGauges) turns "lru" = .ok r ∧
      runPolicy (cfg.gauged otherGauges) chatty "lru" = .ok r' ∧
        r.Regauged (cfg.gauged smallGauges) otherGauges r') ∨
    ∃ e, runPolicy (cfg.gauged smallGauges) turns "lru" = .error e ∧
      runPolicy (cfg.gauged otherGauges) chatty "lru" = .error e :=
  runPolicy_regauged (smallConfig 1000 2000) smallGauges otherGauges "lru"
    (.cons rfl (.cons rfl (.cons rfl .nil)))

end ContextResidency
