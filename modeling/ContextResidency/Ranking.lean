import ContextResidency.PrefillRate
import ContextResidency.WorkingSet

/-! The prefill rate and the ranking of the policies. A steady policy serves the same
blocks at every rate, so the rate only prices its recompute. The ranking of two such
policies turns where the recompute that one of them saves is worth its transfer. -/
namespace ContextResidency

variable {F : Type} [Scalar F]

theorem PrefixIndex.touchPath_atRate (index : PrefixIndex F) (rate : F) (sessionId role : String)
    (promptTokens sharedPrefixTokens : ℤ) (now : F) (aborted : Bool) :
    (index.atRate rate).touchPath sessionId role promptTokens sharedPrefixTokens now aborted =
      ((index.touchPath sessionId role promptTokens sharedPrefixTokens now aborted).1.atRate rate,
        (index.touchPath sessionId role promptTokens sharedPrefixTokens now aborted).2) := by
  have hregister : ∀ (index : PrefixIndex F) (items : List (ChainPart × ℕ)),
      items.foldl (registerPart sessionId role now) (index.atRate rate) =
        (items.foldl (registerPart sessionId role now) index).atRate rate := by
    intro index items
    exact List.foldl_hom (fun index : PrefixIndex F => index.atRate rate) fun _ _ => rfl
  have hdiscard : ∀ (index : PrefixIndex F) (keys : List BlockKey),
      keys.foldl (discardRef sessionId) (index.atRate rate) =
        (keys.foldl (discardRef sessionId) index).atRate rate := by
    intro index keys
    exact List.foldl_hom (fun index : PrefixIndex F => index.atRate rate) fun _ _ => rfl
  unfold touchPath
  rw [← hdiscard,← hregister]
  rfl

namespace Simulator

/-- What a turn adds to the bill: tokens to recompute and bytes to restore. -/
def bill (m : TurnMetric F) : ℤ × ℤ := (m.recomputeTokens,m.restoreBytes)

/-- The second replay is the first one at another prefill rate, under a policy that the
rate cannot steer. -/
structure SameButRate (rate : F) (s t : Simulator F) : Prop where
  policy : s.policy = t.policy
  probe : t.probe = s.probe.atRate rate
  steady : s.policy.kind.Steady s.probe.cost s.probe.tier rate
  hbm : s.hbm = t.hbm
  bills : s.metrics.map bill = t.metrics.map bill

section Step

variable {rate : F} {s t : Simulator F} (h : SameButRate rate s t) (turn : Turn F)
include h

theorem SameButRate.index : t.index = s.index.atRate rate := congrArg Probe.index h.probe

theorem SameButRate.observe : (t.observe turn).1.probe = (s.observe turn).1.probe.atRate rate ∧
    t.path turn = s.path turn := by
  have hindex := h.index
  have hcost : t.cfg.cost = s.cfg.cost.atRate rate := congrArg Probe.cost h.probe
  have hram : t.ramTier = s.ramTier := congrArg Probe.tier h.probe
  have hhorizon : t.horizonS = s.horizonS := congrArg Probe.horizonS h.probe
  have heta : t.toolEta = s.toolEta := congrArg Probe.toolEta h.probe
  constructor
  · simp only [Simulator.observe,Simulator.probe,hindex,hcost,hram,hhorizon,heta,
      PrefixIndex.touchPath_atRate]
    rfl
  · simp only [path,Simulator.observe,hindex,PrefixIndex.touchPath_atRate]

theorem SameButRate.seenIndex : t.seenIndex turn = (s.seenIndex turn).atRate rate :=
  congrArg Probe.index (h.observe turn).1

theorem SameButRate.resident (key : BlockKey) : s.Resident key ↔ t.Resident key := by
  unfold Resident
  rw [h.hbm,h.policy]

theorem SameButRate.recomputeTokens : s.recomputeTokens turn = t.recomputeTokens turn := by
  have htokens : (t.seenIndex turn).tokensOf = (s.seenIndex turn).tokensOf := by
    rw [h.seenIndex turn]
    rfl
  rw [recomputeTokens_eq,recomputeTokens_eq,(h.observe turn).2,htokens]
  simp only [h.resident]

theorem SameButRate.restoreBytes : (s.found turn).restoreBytes = (t.found turn).restoreBytes := by
  have hscan : ∀ (u v : Simulator F) (keys : List BlockKey), u.hbm = v.hbm →
      u.policy = v.policy → (u.scan keys).restoreBytes = (v.scan keys).restoreBytes := by
    intro u v keys hhbm hpolicy
    induction keys with
    | nil => rfl
    | cons key keys ih =>
      rw [scan,scan,hhbm,hpolicy]
      split
      · exact ih
      · cases v.policy.get key with
        | none => rfl
        | some e => exact congrArg (e.nbytes+·) ih
  have hpath : (t.observe turn).2 = (s.observe turn).2 := (h.observe turn).2
  unfold found
  simp only [hpath]
  exact hscan _ _ _ h.hbm h.policy

theorem SameButRate.bill : bill (s.metric turn) = bill (t.metric turn) :=
  Prod.ext (h.recomputeTokens turn) (h.restoreBytes turn)

variable (hpos : 0 < s.probe.cost.prefillTokensPerS) (hrate : 0 < rate)
include hpos hrate

theorem SameButRate.filled : SameHost (s.filled turn) (t.filled turn) := by
  have hprobe : (t.filled turn).probe = (s.filled turn).probe.atRate rate := by
    unfold Simulator.filled
    rw [fillHbm_probe,fillHbm_probe,(h.observe turn).1]
  constructor
  case policy =>
    rw [filled_policy,filled_policy]
    exact h.policy
  case capacity =>
    rw [filled_ramTier,filled_ramTier]
    exact congrArg (fun probe : Probe F => probe.tier.bytesCapacity) h.probe.symm
  case sizes =>
    rw [filled_index,filled_index,h.seenIndex turn]
    rfl
  case view =>
    have hfill := fillHbm_probe (s.observe turn).1 (s.path turn)
    rw [filled_policy,hprobe]
    unfold Simulator.filled
    have hsteady : s.policy.kind.Steady (s.observe turn).1.probe.cost (s.observe turn).1.probe.tier
      rate := h.steady
    rw [hfill]
    exact hsteady.sameView hpos hrate

theorem SameButRate.one_policy (sched : Schedule F) :
    (one sched s turn).policy = (one sched t turn).policy := by
  have hfilled := h.filled turn hpos hrate
  have hpath := (h.observe turn).2
  have hstored := storeBatchToHost_policy_congr hfilled (s.path turn) turn.t sched
  have htouched := touchHost_policy_congr (s := (s.filled turn).storeBatchToHost (s.path turn)
    turn.t sched) (t := (t.filled turn).storeBatchToHost (s.path turn) turn.t sched) ?_
      (s.path turn) turn.t
  · have hone : ∀ u : Simulator F, (one sched u turn).policy =
        { (((u.filled turn).storeBatchToHost (u.path turn) turn.t sched).touchHost
          (u.path turn) turn.t).policy with
          entries := (u.path turn).foldl (fun entries key => entries.modify key fun e =>
            { e with nextUse := sched.next key turn.t })
              (((u.filled turn).storeBatchToHost (u.path turn) turn.t sched).touchHost
                (u.path turn) turn.t).policy.entries } := fun _ => rfl
    rw [hone,hone,hpath,htouched]
  · obtain ⟨_,_,_,hs⟩ := storeBatchToHost_frame (s.filled turn) (s.path turn) turn.t sched
    obtain ⟨_,_,_,ht⟩ := storeBatchToHost_frame (t.filled turn) (s.path turn) turn.t sched
    constructor
    case policy => exact hstored
    case capacity =>
      rw [hs,ht]
      exact hfilled.capacity
    case sizes =>
      rw [hs,ht]
      exact hfilled.sizes
    case view =>
      rw [(storeBatchToHost_kind (s.filled turn) (s.path turn) turn.t sched).1,
        storeBatchToHost_probe,storeBatchToHost_probe]
      exact hfilled.view

theorem SameButRate.one (sched : Schedule F) :
    SameButRate rate (one sched s turn) (one sched t turn) := by
  have hprobe : (Simulator.one sched s turn).probe = (s.observe turn).1.probe := one_probe _ _ _
  constructor
  case policy => exact h.one_policy turn hpos hrate sched
  case probe => rw [hprobe,one_probe,(h.observe turn).1]
  case steady =>
    rw [hprobe,one_kind s turn sched]
    exact h.steady
  case hbm =>
    have hsizes : (t.seenIndex turn).nbytesOf = (s.seenIndex turn).nbytesOf := by
      rw [h.seenIndex turn]
      rfl
    rw [one_hbm,one_hbm,(h.observe turn).2,hsizes,h.hbm]
  case bills =>
    rw [one_metrics,one_metrics,List.map_append,List.map_append,h.bills]
    simp only [List.map_cons,List.map_nil,h.bill turn]

end Step

theorem exec_sameButRate (sched : Schedule F) {rate : F} {s t : Simulator F}
    (h : SameButRate rate s t) (hpos : 0 < s.probe.cost.prefillTokensPerS) (hrate : 0 < rate)
    (turns : List (Turn F)) : SameButRate rate (exec sched s turns) (exec sched t turns) := by
  have hstep : ∀ (s t : Simulator F) (turn : Turn F),
      SameButRate rate s t ∧ 0 < s.probe.cost.prefillTokensPerS →
      SameButRate rate (one sched s turn) (one sched t turn) ∧
        0 < (one sched s turn).probe.cost.prefillTokensPerS := by
    rintro s t turn ⟨h,hpos⟩
    refine ⟨h.one turn hpos hrate sched,?_⟩
    rw [one_probe]
    exact hpos
  exact (run_simulation hstep ⟨h,hpos⟩ turns).1

theorem start_sameButRate (cfg : SimConfig F) {kind : PolicyKind F} {ram : TierConfig F} {rate : F}
    (hsteady : kind.Steady cfg.cost ram rate) :
    SameButRate rate (start cfg kind ram) (start (cfg.atRate rate) kind ram) :=
  ⟨rfl,rfl,hsteady,rfl,rfl⟩

/-- The report prices what was recomputed and restored by the constants of the run. -/
structure Priced (cost : CostModel F) (ram : TierConfig F) (report : Report F) : Prop where
  prefill : report.prefillSeconds = cost.recomputeSeconds report.recomputeTokens
  transfer : report.transferSeconds = ram.restoreSeconds report.restoreBytes

theorem run_eq_ok (cfg : SimConfig F) (kind : PolicyKind F) (ram : TierConfig F)
    (turns : List (Turn F)) : ∃ report, (start cfg kind ram).run turns = .ok report ∧
      Priced cfg.cost ram report ∧ (report.recomputeTokens,report.restoreBytes) =
        (((start cfg kind ram).after turns turns.length).metrics.map bill).sum := by
  have hleased : ((start cfg kind ram).after turns turns.length).index.Leased :=
    exec_leased _ cfg kind ram _
  obtain ⟨closed,hclosed⟩ := closeSessions_eq_ok hleased
  have hcfg := after_cfg cfg kind ram turns turns.length
  have hram := after_ramTier cfg kind ram turns turns.length
  have hsum : ∀ ms : List (TurnMetric F),
      ((ms.map (·.recomputeTokens)).sum,(ms.map (·.restoreBytes)).sum) = (ms.map bill).sum := by
    intro ms
    induction ms with
    | nil => rfl
    | cons m ms ih => rw [List.map_cons,List.map_cons,List.map_cons,List.sum_cons,List.sum_cons,
        List.sum_cons,← ih]; rfl
  rw [run_eq_after,hclosed _ rfl]
  refine ⟨_,rfl,?_,hsum _⟩
  constructor
  case prefill =>
    show ((start cfg kind ram).after turns turns.length).cfg.cost.recomputeSeconds _ = _
    rw [hcfg]
    rfl
  case transfer =>
    show ((start cfg kind ram).after turns turns.length).ramTier.restoreSeconds _ = _
    rw [hram]
    rfl

end Simulator

open Simulator

/-- Wasted time compares the tokens that one report saves with the seconds of transfer
that it spends on them. -/
theorem objective_le_iff {cost : CostModel F} {ram : TierConfig F} {a b : Report F}
    (hrate : 0 < cost.prefillTokensPerS) (ha : Priced cost ram a) (hb : Priced cost ram b) :
    a.objective ≤ b.objective ↔ ((a.recomputeTokens-b.recomputeTokens : ℤ) : F) ≤
      cost.prefillTokensPerS*(b.transferSeconds-a.transferSeconds) := by
  unfold Report.objective
  rw [ha.prefill,hb.prefill,CostModel.recomputeSeconds,CostModel.recomputeSeconds,
    ← sub_le_sub_iff_right (b.recomputeTokens/cost.prefillTokensPerS),
    mul_comm,← div_le_iff₀ hrate]
  push_cast
  rw [sub_div]
  constructor
  · intro h
    linarith
  · intro h
    linarith

theorem priced_of_run {cfg : SimConfig F} {ram : TierConfig F} {turns : List (Turn F)}
    (hram : cfg.tier "ram" = some ram) {A : String × PolicyKind F} (hA : A ∈ POLICIES (F := F))
    {a : Report F} (ha : runPolicy cfg turns A.1 = .ok a) : Priced cfg.cost ram a := by
  obtain ⟨report,hreport,hpriced,_⟩ := run_eq_ok cfg A.2 ram turns
  rw [runPolicy_name hram turns hA,hreport] at ha
  exact Except.ok.inj ha ▸ hpriced

/-- The reports of a policy at the rate of the configuration and at another one. -/
def Reports (cfg : SimConfig F) (rate : F) (turns : List (Turn F)) (name : String)
    (a a' : Report F) : Prop :=
  runPolicy cfg turns name = .ok a ∧ runPolicy (cfg.atRate rate) turns name = .ok a'

/-- The two reports recompute and restore the same. -/
def SameBill (a b : Report F) : Prop :=
  b.recomputeTokens = a.recomputeTokens ∧ b.restoreBytes = a.restoreBytes

/-- The tokens that `b` saves over `a` are worth the transfer it spends on them at one of
the two rates, and not at the other. -/
def BreaksEvenBetween (rate rate' : F) (a b : Report F) : Prop :=
  let tokens : F := ((a.recomputeTokens-b.recomputeTokens : ℤ) : F)
  let seconds := b.transferSeconds-a.transferSeconds
  rate*seconds < tokens ∧ tokens ≤ rate'*seconds ∨ rate'*seconds < tokens ∧ tokens ≤ rate*seconds

/-- The first report spends no more on recompute, and no more on transfer. -/
def NoDearer (a b : Report F) : Prop :=
  a.recomputeTokens ≤ b.recomputeTokens ∧ a.transferSeconds ≤ b.transferSeconds

theorem not_breaksEven {rate rate' : F} (hrate : 0 < rate) (hrate' : 0 < rate') {a b : Report F}
    (h : NoDearer a b ∨ NoDearer b a) : ¬ BreaksEvenBetween rate rate' a b := by
  have hnone : ∀ {r r' : F}, 0 < r → 0 < r' →
      ¬ (r*(b.transferSeconds-a.transferSeconds) < ((a.recomputeTokens-b.recomputeTokens : ℤ) : F) ∧
        ((a.recomputeTokens-b.recomputeTokens : ℤ) : F) ≤
          r'*(b.transferSeconds-a.transferSeconds)) := by
    rintro r r' hr hr' ⟨hlt,hle⟩
    cases h with
    | inl h =>
      have htokens : ((a.recomputeTokens-b.recomputeTokens : ℤ) : F) ≤ 0 := by
        exact_mod_cast sub_nonpos.mpr h.1
      have hseconds := mul_nonneg hr.le (sub_nonneg.mpr h.2)
      linarith
    | inr h =>
      have htokens : (0 : F) ≤ ((a.recomputeTokens-b.recomputeTokens : ℤ) : F) := by
        exact_mod_cast sub_nonneg.mpr h.1
      have hseconds : b.transferSeconds-a.transferSeconds ≤ 0 := sub_nonpos.mpr h.2
      have hzero := mul_nonpos_of_nonneg_of_nonpos hr'.le hseconds
      have heq : r'*(b.transferSeconds-a.transferSeconds) = 0 := le_antisymm hzero
        (htokens.trans hle)
      have hnone : b.transferSeconds-a.transferSeconds = 0 :=
        (mul_eq_zero.mp heq).resolve_left hr'.ne'
      rw [hnone,mul_zero] at hlt hle
      linarith
  intro hbreak
  exact hbreak.elim (hnone hrate hrate') (hnone hrate' hrate)

section Rates

variable (cfg : SimConfig F) (ram : TierConfig F) (rate : F) (turns : List (Turn F))

/-- A policy reports at every rate, and a steady one the same bill at all of them. -/
theorem exists_reports (hram : cfg.tier "ram" = some ram) (hpos : 0 < cfg.cost.prefillTokensPerS)
    (hrate : 0 < rate) {A : String × PolicyKind F} (hA : A ∈ POLICIES (F := F)) :
    ∃ a a', Reports cfg rate turns A.1 a a' ∧ (A.2.Steady cfg.cost ram rate → SameBill a a') := by
  have hram' : (cfg.atRate rate).tier "ram" = some ram := hram
  obtain ⟨a,ha,_,hbill⟩ := run_eq_ok cfg A.2 ram turns
  obtain ⟨a',ha',_,hbill'⟩ := run_eq_ok (cfg.atRate rate) A.2 ram turns
  refine ⟨a,a',⟨?_,?_⟩,fun hsteady => ?_⟩
  · rw [runPolicy_name hram turns hA,ha]
  · rw [runPolicy_name hram' turns hA,ha']
  · have hsched : (start (cfg.atRate rate) A.2 ram).schedule turns =
        (start cfg A.2 ram).schedule turns := by
      unfold schedule
      rfl
    have hrun := exec_sameButRate ((start cfg A.2 ram).schedule turns)
      (start_sameButRate cfg hsteady) hpos hrate ((inOrder turns).take turns.length)
    rw [after,hsched,← hrun.bills] at hbill'
    exact Prod.ext_iff.mp (hbill'.trans hbill.symm)

/-- Between two policies that are each billed the same at both rates, the ranking turns
exactly when they break even in between. -/
theorem ranking_iff (hram : cfg.tier "ram" = some ram) (hpos : 0 < cfg.cost.prefillTokensPerS)
    (hrate : 0 < rate) {A B : String × PolicyKind F} (hA : A ∈ POLICIES (F := F))
    (hB : B ∈ POLICIES (F := F)) {a a' b b' : Report F} (ha : Reports cfg rate turns A.1 a a')
    (hb : Reports cfg rate turns B.1 b b') (hbillA : SameBill a a') (hbillB : SameBill b b') :
    (a.objective ≤ b.objective ↔ a'.objective ≤ b'.objective) ↔
      ¬ BreaksEvenBetween cfg.cost.prefillTokensPerS rate a b := by
  have hram' : (cfg.atRate rate).tier "ram" = some ram := hram
  have hpricedA := priced_of_run hram hA ha.1
  have hpricedA' := priced_of_run hram' hA ha.2
  have hpricedB := priced_of_run hram hB hb.1
  have hpricedB' := priced_of_run hram' hB hb.2
  have htransferA : a'.transferSeconds = a.transferSeconds := by
    rw [hpricedA'.transfer,hpricedA.transfer,hbillA.2]
  have htransferB : b'.transferSeconds = b.transferSeconds := by
    rw [hpricedB'.transfer,hpricedB.transfer,hbillB.2]
  have hranking' := objective_le_iff hrate hpricedA' hpricedB'
  rw [hbillA.1,hbillB.1,htransferA,htransferB] at hranking'
  rw [objective_le_iff hpos hpricedA hpricedB,hranking',BreaksEvenBetween]
  -- Each side says on which sides of the two thresholds the saved tokens lie.
  show (_ ≤ _ ↔ _ ≤ rate*_) ↔ _
  grind

/-- At any two rates: a steady policy is billed the same, and two policies that are each
billed the same rank the same exactly when they do not break even in between; in
particular when neither trades recompute for transfer. -/
theorem ranking_insensitive (hram : cfg.tier "ram" = some ram)
    (hpos : 0 < cfg.cost.prefillTokensPerS) (hrate : 0 < rate) :
    (∀ A ∈ POLICIES (F := F), ∃ a a', Reports cfg rate turns A.1 a a' ∧
      (A.2.Steady cfg.cost ram rate → SameBill a a')) ∧
    ∀ A ∈ POLICIES (F := F), ∀ B ∈ POLICIES (F := F), ∀ a a' b b',
      Reports cfg rate turns A.1 a a' → Reports cfg rate turns B.1 b b' →
      SameBill a a' → SameBill b b' →
      ((a.objective ≤ b.objective ↔ a'.objective ≤ b'.objective) ↔
        ¬ BreaksEvenBetween cfg.cost.prefillTokensPerS rate a b) ∧
      (NoDearer a b ∨ NoDearer b a →
        (a.objective ≤ b.objective ↔ a'.objective ≤ b'.objective)) := by
  constructor
  · exact fun A hA => exists_reports cfg ram rate turns hram hpos hrate hA
  · intro A hA B hB a a' b b' ha hb hbillA hbillB
    have hexact := ranking_iff cfg ram rate turns hram hpos hrate hA hB ha hb hbillA hbillB
    exact ⟨hexact,fun h => hexact.mpr (not_breaksEven hpos hrate h)⟩

end Rates

/-- A host tier that moves ten bytes in a millisecond. -/
def slowRam (bytesCapacity : ℤ) : TierConfig ℚ := ⟨"ram",bytesCapacity,1/100000,true,1⟩

/-- No HBM beyond the path of the turn, and a slow host tier for two blocks. -/
def slowConfig (rate : ℚ) : SimConfig ℚ :=
  { smallConfig 0 2000 with tiers := [slowRam 2000] }.atRate rate

/-- A session comes back after two others have passed. -/
def returning : List (Turn ℚ) :=
  [ask 1 "a" 1000,ask 2 "a" 1000,ask 3 "b" 1000,ask 4 "c" 1000,ask 5 "a" 1000]

theorem ranking_insensitive_slow : ∃ a a' b b',
    Reports (slowConfig 500) 20000 returning "lru" a a' ∧
    Reports (slowConfig 500) 20000 returning "lfu" b b' ∧
    ((a.objective ≤ b.objective ↔ a'.objective ≤ b'.objective) ↔
      ¬ BreaksEvenBetween 500 20000 a b) := by
  obtain ⟨hreports,hranking⟩ := ranking_insensitive (slowConfig 500) (slowRam 2000) 20000 returning
    rfl (by decide +kernel) (by decide +kernel)
  have hlru : ("lru",.lru) ∈ POLICIES (F := ℚ) := List.mem_map.mpr ⟨.lru,by simp,rfl⟩
  have hlfu : ("lfu",.lfu) ∈ POLICIES (F := ℚ) := List.mem_map.mpr ⟨.lfu,by simp,rfl⟩
  obtain ⟨a,a',ha,hbillA⟩ := hreports _ hlru
  obtain ⟨b,b',hb,hbillB⟩ := hreports _ hlfu
  exact ⟨a,a',b,b',ha,hb,(hranking _ hlru _ hlfu a a' b b' ha hb (hbillA trivial) (hbillB trivial)).1⟩

/-- The ranking of two policies on a trace is the same at both rates. -/
def SameRanking (cfg : SimConfig F) (rate : F) (turns : List (Turn F)) (A B : String) : Prop :=
  ∀ a a' b b', Reports cfg rate turns A a a' → Reports cfg rate turns B b b' →
    (a.objective ≤ b.objective ↔ a'.objective ≤ b'.objective)

def wasted (cfg : SimConfig F) (turns : List (Turn F)) (name : String) : F :=
  match runPolicy cfg turns name with
  | .ok report => report.objective
  | .error _ => 0

theorem SameRanking.wasted_iff {cfg : SimConfig F} (ram : TierConfig F) {rate : F}
    {turns : List (Turn F)} {A B : String × PolicyKind F}
    (h : SameRanking cfg rate turns A.1 B.1) (hA : A ∈ POLICIES (F := F))
    (hB : B ∈ POLICIES (F := F)) (hram : cfg.tier "ram" = some ram)
    (hpos : 0 < cfg.cost.prefillTokensPerS) (hrate : 0 < rate) :
    wasted cfg turns A.1 ≤ wasted cfg turns B.1 ↔
      wasted (cfg.atRate rate) turns A.1 ≤ wasted (cfg.atRate rate) turns B.1 := by
  obtain ⟨a,a',ha,_⟩ := exists_reports cfg ram rate turns hram hpos hrate hA
  obtain ⟨b,b',hb,_⟩ := exists_reports cfg ram rate turns hram hpos hrate hB
  unfold wasted
  rw [ha.1,ha.2,hb.1,hb.2]
  exact h a a' b b' ha hb

/-- A session comes back while its time to live is running out. -/
def expiring : List (Turn ℚ) := [ask 0 "a" 1000,ask 1 "b" 1000,ask 7 "c" 1000,ask 8 "b" 1000]

/-- A patient comes back after two retrievals. -/
def trusted : List (Turn ℚ) :=
  [{ ask 1 "a" 1000 with role := "patient" },{ ask 2 "b" 1000 with role := "rag" },
    { ask 3 "c" 1000 with role := "rag" },{ ask 4 "a" 1000 with role := "patient" }]

/-- LFU saves a recompute that LRU pays, at the price of a transfer: worth it at 500
tokens a second, and not at 20000. Where nothing is traded the rate can still reverse a
ranking, through the time to live of one policy and the values of another. -/
theorem ranking_reverses :
    (¬ ∀ (cfg : SimConfig ℚ) (ram : TierConfig ℚ) (rate : ℚ) (turns : List (Turn ℚ)),
      cfg.tier "ram" = some ram → 0 < cfg.cost.prefillTokensPerS → 0 < rate →
      ∀ A ∈ POLICIES (F := ℚ), ∀ B ∈ POLICIES (F := ℚ), SameRanking cfg rate turns A.1 B.1) ∧
    ¬ SameRanking (slowConfig 100) 1000 expiring "continuum_ttl" "lru" ∧
    ¬ SameRanking (slowConfig 100) 20000 trusted "oracle" "adaptive_value" := by
  have hpolicy : ∀ i : Fin 6, (POLICIES (F := ℚ)).get i ∈ POLICIES (F := ℚ) := fun i =>
    List.get_mem _ _
  refine ⟨fun h => ?_,fun h => ?_,fun h => ?_⟩
  · have htrade := h (slowConfig 500) (slowRam 2000) 20000 returning rfl (by decide +kernel)
      (by decide +kernel) _ (hpolicy 0) _ (hpolicy 1)
    have hsame := htrade.wasted_iff (slowRam 2000) (hpolicy 0) (hpolicy 1) rfl (by decide +kernel)
      (by decide +kernel)
    exact absurd hsame (by decide +kernel)
  · have hsame := SameRanking.wasted_iff (slowRam 2000) h (hpolicy 3) (hpolicy 0) rfl
      (by decide +kernel) (by decide +kernel)
    exact absurd hsame (by decide +kernel)
  · have hsame := SameRanking.wasted_iff (slowRam 2000) h (hpolicy 5) (hpolicy 4) rfl
      (by decide +kernel) (by decide +kernel)
    exact absurd hsame (by decide +kernel)

end ContextResidency
