import ContextResidency.TimeShift
import ContextResidency.Departures
import ContextResidency.Closing

/-! The origin of the clock is immaterial. A trace whose turns all come at positive times may
be moved in time, as long as they stay positive: every policy takes the same decisions, and
the report is the same but for the time at which it ends. -/
namespace ContextResidency

variable {F : Type} [Scalar F]

def TurnMetric.shift (c : F) (m : TurnMetric F) : TurnMetric F := { m with t := m.t+c }

abbrev Schedule.shift (c : F) (sched : Schedule F) : Schedule F := sched.retimed (·+c)

namespace Simulator

def shift (c : F) (s : Simulator F) : Simulator F :=
  { s with
    policy := s.policy.shift c
    index := s.index.shift c
    now := s.now+c
    pcieBusy := s.pcieBusy+c
    prefillBusy := s.prefillBusy+c
    metrics := s.metrics.map (TurnMetric.shift c)
    leftHbmAt := s.leftHbmAt.mapValues fun _ since => since+c
    leftHostAt := s.leftHostAt.mapValues fun _ since => since+c }

section Step

variable {c : F} {s : Simulator F} {turn : Turn F} (htimed : s.index.Timed c) (hpos : 0 < turn.t)
  (hpos' : 0 < turn.t+c)
include htimed hpos hpos'

theorem observe_shift : (s.shift c).observe (turn.shift c) =
    let r := s.observe turn
    (r.1.shift c,r.2) := by
  have hpath := PrefixIndex.touchPath_shift htimed hpos.ne' hpos'.ne' turn.sessionId turn.role
    turn.promptTokens turn.sharedPrefixTokens turn.aborted
  simp only [observe,shift,Turn.shift,hpath]

theorem seenIndex_timed : (s.seenIndex turn).Timed c :=
  PrefixIndex.touchPath_timed htimed hpos.ne' hpos'.ne' _ _ _ _ _

theorem settled_shift (sched : Schedule F) :
    settled (sched.shift c) (s.shift c) (turn.shift c) = (settled sched s turn).shift c := by
  have hobserve := observe_shift htimed hpos hpos'
  have hseen : ((s.shift c).observe (turn.shift c)).1 = (s.observe turn).1.shift c :=
    congrArg Prod.fst hobserve
  have hframes : Frames (·+c) ((s.shift c).observe (turn.shift c)).1 (s.observe turn).1 := by
    rw [hseen]
    exact ⟨rfl,PrefixIndex.nbytesOf_shift c _,rfl,PolicyKind.keeps_shift c _ _⟩
  rw [settled_retimed (s := s) rfl (congrArg (·.2) hobserve) add_left_strictMono rfl hframes,
    hseen]
  obtain ⟨_,_,_,hsettled⟩ := settled_frame s turn sched
  rw [hsettled,fillHbm_eq]
  rfl

end Step

/-- With a note for every host block outside HBM, a scan reads times only as idle times. -/
theorem scan_shift {c : F} {s : Simulator F}
    (h : ∀ key ∈ s.policy.entries, key ∉ s.hbm.blocks → key ∈ s.leftHbmAt) (keys : List BlockKey) :
    (s.shift c).scan keys = s.scan keys := by
  induction keys with
  | nil => rfl
  | cons key keys ih =>
    rw [scan,scan,ih]
    by_cases hheld : key ∈ s.hbm.blocks
    · simp only [shift,hheld,if_true]
    · have hget := s.policy.get_retimed (f := (·+c)) key
      simp only [shift,hheld,if_false,hget]
      cases hentry : s.policy.get key with
      | none => rfl
      | some entry =>
        have hhost : key ∈ s.policy.entries := Dict.mem_iff_get.mpr ⟨entry,hentry⟩
        obtain ⟨since,hsince⟩ := Dict.mem_iff_get.mp (h key hhost hheld)
        have hidle : s.now+c-(since+c) = s.now-since := by ring
        simp only [Option.map_some,Dict.get_mapValues,hsince,Option.getD_some,hidle]
        rfl

theorem serve_shift {c : F} {turn : Turn F} (hpos : 0 < turn.t) (hpos' : 0 < turn.t+c)
    (s : Simulator F) (restoreBytes recomputeTokens : ℤ) :
    (s.shift c).serve (turn.shift c) restoreBytes recomputeTokens =
      let timing := s.serve turn restoreBytes recomputeTokens
      { timing with pcieEnd := timing.pcieEnd+c, prefillEnd := timing.prefillEnd+c } := by
  have hpcie : max (turn.t+c) (s.pcieBusy+c)+s.ramTier.restoreSeconds restoreBytes =
      max turn.t s.pcieBusy+s.ramTier.restoreSeconds restoreBytes+c := by
    rw [max_add_add_right]
    ring
  have hprefill : ∀ x : F,
      max (max (turn.t+c) (s.prefillBusy+c)) (if s.ramTier.restoreSeconds restoreBytes ≠ 0 then
        x+c else 0) = max (max turn.t s.prefillBusy) (if s.ramTier.restoreSeconds restoreBytes ≠ 0
        then x else 0)+c := by
    intro x
    split
    · rw [max_add_add_right,max_add_add_right]
    · rw [max_add_add_right,max_eq_left (hpos.le.trans (le_max_left _ _)),max_eq_left]
      exact hpos'.le.trans (add_le_add_left (le_max_left _ _) c)
  have hwait : ∀ x p : F, x+c+p-(turn.t+c) = x+p-turn.t := fun x p => by ring
  simp only [serve,shift,Turn.shift,hpcie,hprefill,hwait]
  congr 1
  ring

theorem one_shift {c : F} {s : Simulator F} {turn : Turn F} (htimed : s.index.Timed c)
    (hnoted : ∀ key ∈ s.policy.entries, key ∉ s.hbm.blocks → key ∈ s.leftHbmAt)
    (hpos : 0 < turn.t) (hpos' : 0 < turn.t+c) (sched : Schedule F) :
    one (sched.shift c) (s.shift c) (turn.shift c) = (one sched s turn).shift c := by
  have hfound : (s.shift c).found (turn.shift c) = s.found turn := by
    have hscan : ((s.observe turn).1.shift c).scan (s.path turn) =
        (s.observe turn).1.scan (s.path turn) := @scan_shift _ _ c (s.observe turn).1 hnoted _
    unfold found
    rw [observe_shift htimed hpos hpos']
    exact hscan
  have htokens : (s.shift c).recomputeTokens (turn.shift c) = s.recomputeTokens turn := by
    unfold recomputeTokens
    rw [observe_shift htimed hpos hpos',hfound]
    simp only [shift,PrefixIndex.tokensOf_shift]
  have htiming : (s.shift c).timing (turn.shift c) =
      { s.timing turn with
        pcieEnd := (s.timing turn).pcieEnd+c, prefillEnd := (s.timing turn).prefillEnd+c } := by
    rw [timing,timing,hfound,htokens]
    exact serve_shift hpos hpos' s _ _
  have hmetric : (s.shift c).metric (turn.shift c) = (s.metric turn).shift c := by
    unfold metric
    rw [htiming,hfound,htokens]
    rfl
  unfold one
  rw [settled_shift htimed hpos hpos' sched,htiming,hfound,hmetric]
  simp only [shift,List.map_append,List.map_singleton,TierPolicy.occupancy_retimed]

/-- The same state on other servers. -/
def busyUntil (s : Simulator F) (pcie prefill : F) : Simulator F :=
  { s with pcieBusy := pcie, prefillBusy := prefill }

section Servers

variable (s : Simulator F) (pcie prefill : F) (sched : Schedule F)

theorem insertFresh_busyUntil (now : F) (room : ℤ) (fresh : List (BlockKey × ℤ)) :
    insertFresh now sched (s.busyUntil pcie prefill) room fresh =
      (insertFresh now sched s room fresh).busyUntil pcie prefill := by
  induction fresh generalizing s room with
  | nil => rfl
  | cons item fresh ih =>
    rw [insertFresh,insertFresh]
    split
    · rfl
    · exact ih { s with
        reacquires := s.reacquires+if item.1 ∈ s.leftHostAt then 1 else 0
        policy := foresee sched item.1 now (s.policy.insert item.1 item.2 now s.probe) } _

theorem settled_busyUntil (turn : Turn F) :
    settled sched (s.busyUntil pcie prefill) turn =
      (settled sched s turn).busyUntil pcie prefill := by
  have hfilled : ((s.busyUntil pcie prefill).observe turn).1.fillHbm (s.path turn) =
      ((s.observe turn).1.fillHbm (s.path turn)).busyUntil pcie prefill := by
    rw [fillHbm_eq,fillHbm_eq]
    rfl
  have hstored : ∀ filled : Simulator F, (filled.busyUntil pcie prefill).storeBatchToHost
      (s.path turn) turn.t sched =
        (filled.storeBatchToHost (s.path turn) turn.t sched).busyUntil pcie prefill := by
    intro filled
    have hrequest : (filled.busyUntil pcie prefill).evictRequest (s.path turn) =
        filled.evictRequest (s.path turn) := rfl
    rw [storeBatchToHost,storeBatchToHost,hrequest]
    cases filled.evictRequest (s.path turn) with
    | none => exact insertFresh_busyUntil filled pcie prefill sched _ _ _
    | some request =>
      obtain ⟨fresh,needed⟩ := request
      have hevict : (filled.busyUntil pcie prefill).policy.evict needed
          (fresh.map Prod.fst).toFinset turn.t (filled.busyUntil pcie prefill).probe =
            filled.policy.evict needed (fresh.map Prod.fst).toFinset turn.t filled.probe := rfl
      simp only [hevict]
      cases filled.policy.evict needed (fresh.map Prod.fst).toFinset turn.t filled.probe with
      | mk freed policy =>
        cases freed with
        | none => rfl
        | some freed =>
          simp only [foldl_leftHost]
          exact insertFresh_busyUntil { filled with
            policy := policy
            leftHostAt := freed.foldl (fun d k => d.set k filled.now) filled.leftHostAt }
            pcie prefill sched _ _ _
  show ((((s.busyUntil pcie prefill).observe turn).1.fillHbm (s.path turn)).storeBatchToHost
    (s.path turn) turn.t sched |>.touchHost (s.path turn) turn.t).refreshOracle
      (s.path turn) turn.t sched = _
  rw [hfilled,hstored]
  rfl

theorem scan_busyUntil (keys : List BlockKey) :
    (s.busyUntil pcie prefill).scan keys = s.scan keys := by
  induction keys with
  | nil => rfl
  | cons key keys ih =>
    rw [scan,scan,ih]
    rfl

/-- A turn sees of the servers only until when they keep it waiting. -/
theorem one_busyUntil {turn : Turn F} (hpcie : max turn.t pcie = max turn.t s.pcieBusy)
    (hprefill : max turn.t prefill = max turn.t s.prefillBusy) :
    one sched (s.busyUntil pcie prefill) turn = one sched s turn := by
  have hfound : (s.busyUntil pcie prefill).found turn = s.found turn :=
    scan_busyUntil (s.observe turn).1 pcie prefill (s.path turn)
  have htokens : (s.busyUntil pcie prefill).recomputeTokens turn = s.recomputeTokens turn := by
    unfold recomputeTokens
    rw [hfound]
    rfl
  have htiming : (s.busyUntil pcie prefill).timing turn = s.timing turn := by
    rw [timing,timing,hfound,htokens]
    simp only [serve,busyUntil,hpcie,hprefill]
  have hmetric : (s.busyUntil pcie prefill).metric turn = s.metric turn := by
    unfold metric
    rw [htiming,hfound,htokens]
    rfl
  unfold one
  rw [settled_busyUntil,htiming,hmetric,hfound]
  rfl

end Servers

theorem one_now (s : Simulator F) (now : F) (sched : Schedule F) (turn : Turn F) :
    one sched { s with now := now } turn = one sched s turn := rfl

section Runs

variable (cfg : SimConfig F) (kind : PolicyKind F) (ram : TierConfig F) {c : F}

theorem one_start_shift (sched : Schedule F) {turn : Turn F} (hpos : 0 < turn.t)
    (hpos' : 0 < turn.t+c) :
    one sched ((start cfg kind ram).shift c) (turn.shift c) =
      one sched (start cfg kind ram) (turn.shift c) := by
  have hstart : (start cfg kind ram).shift c =
      { (start cfg kind ram).busyUntil (0+c) (0+c) with now := 0+c } := rfl
  have hidle : max (turn.t+c) (0+c) = max (turn.t+c) 0 := by
    rw [max_add_add_right,max_eq_left hpos.le,max_eq_left hpos'.le]
  rw [hstart,one_now]
  exact one_busyUntil _ _ _ sched hidle hidle

/-- What holds along a run for the next turn to be moved. -/
theorem exec_movable (sched : Schedule F) {turns : List (Turn F)}
    (hpos : ∀ turn ∈ turns, 0 < turn.t ∧ 0 < turn.t+c) :
    (exec sched (start cfg kind ram) turns).index.Timed c ∧
      ∀ key ∈ (exec sched (start cfg kind ram) turns).policy.entries,
        key ∉ (exec sched (start cfg kind ram) turns).hbm.blocks →
          key ∈ (exec sched (start cfg kind ram) turns).leftHbmAt := by
  constructor
  · refine List.foldlRecOn (motive := fun s => s.index.Timed c) turns (one sched) ?_
      fun s h turn hturn => ?_
    · exact PrefixIndex.new_timed c _ _
    · rw [one_index]
      exact seenIndex_timed h (hpos turn hturn).1 (hpos turn hturn).2
  · intro key hhost hout
    have hdeparted := run_history (one_departed sched) (start_departed sched cfg kind ram) turns
    obtain ⟨visit,_,hlast⟩ := hdeparted.exists_lastDeparture hhost hout
    exact Dict.mem_iff_get.mpr ⟨visit.2.t,(hdeparted.recorded key).trans hlast⟩

theorem exec_shift (sched : Schedule F) {turns : List (Turn F)}
    (hpos : ∀ turn ∈ turns, 0 < turn.t ∧ 0 < turn.t+c) :
    exec (sched.shift c) ((start cfg kind ram).shift c) (turns.map (Turn.shift c)) =
      (exec sched (start cfg kind ram) turns).shift c := by
  induction turns using List.reverseRecOn with
  | nil => rfl
  | append_singleton turns turn ih =>
    rw [List.forall_mem_append,List.forall_mem_singleton] at hpos
    obtain ⟨htimed,hnoted⟩ := exec_movable cfg kind ram sched hpos.1
    rw [List.map_append,List.map_singleton,exec_append,exec_append,ih hpos.1]
    exact one_shift htimed hnoted hpos.2.1 hpos.2.2 sched

theorem exec_start_shift (sched : Schedule F) {turns : List (Turn F)} (hturns : turns ≠ [])
    (hpos : ∀ turn ∈ turns, 0 < turn.t ∧ 0 < turn.t+c) :
    exec (sched.shift c) (start cfg kind ram) (turns.map (Turn.shift c)) =
      (exec sched (start cfg kind ram) turns).shift c := by
  rw [← exec_shift cfg kind ram sched hpos]
  cases turns with
  | nil => exact absurd rfl hturns
  | cons turn turns =>
    obtain ⟨hfirst,hfirst'⟩ := hpos turn (by simp)
    have hsame := one_start_shift cfg kind ram (sched.shift c) hfirst hfirst'
    exact congrArg (fun s => exec (sched.shift c) s (turns.map (Turn.shift c))) hsame.symm

end Runs

theorem finalize_shift (c : F) (s : Simulator F) :
    (s.shift c).finalize = { s.finalize with
      windowS := s.finalize.windowS+if s.metrics = [] then 0 else c } := by
  have hbyRole : (s.metrics.map (TurnMetric.shift c)).foldl
      (fun (byRole : Dict String (List (TurnMetric F))) m => byRole.push m.role m) .empty =
        (s.metrics.foldl (fun (byRole : Dict String (List (TurnMetric F))) m =>
          byRole.push m.role m) .empty).mapValues fun _ => List.map (TurnMetric.shift c) := by
    rw [List.foldl_map]
    exact (Dict.mapValues_foldl_push TurnMetric.role id (TurnMetric.shift c) s.metrics .empty).symm
  have hstats : ∀ (role : String) (items : List (TurnMetric F)),
      statsOf s.cfg role (items.map (TurnMetric.shift c)) = statsOf s.cfg role items := by
    intro role items
    simp only [statsOf,List.map_map,List.length_map,Function.comp_def]
    rfl
  have hwindow : ((s.metrics.map (TurnMetric.shift c)).getLast?.map (·.t)).getD 0 =
      (s.metrics.getLast?.map (·.t)).getD 0+if s.metrics = [] then 0 else c := by
    rw [List.getLast?_map]
    cases hlast : s.metrics.getLast? with
    | none =>
      rw [List.getLast?_eq_none_iff] at hlast
      simp [hlast]
    | some m =>
      have hne : s.metrics ≠ [] := by
        rintro hnil
        simp [hnil] at hlast
      simp [hne,TurnMetric.shift]
  simp only [finalize,shift,hbyRole,hwindow,Dict.mapValues_mapValues,hstats,List.map_map,
    List.length_map,Function.comp_def]
  rfl

end Simulator

open Simulator in
theorem run_shift (cfg : SimConfig F) (kind : PolicyKind F) (ram : TierConfig F) (c : F)
    (turns : List (Turn F)) (hpos : ∀ turn ∈ turns, 0 < turn.t ∧ 0 < turn.t+c) :
    (start cfg kind ram).run (turns.map (Turn.shift c)) =
      ((start cfg kind ram).run turns).map fun report =>
        { report with windowS := report.windowS+if turns = [] then 0 else c } := by
  by_cases hturns : turns = []
  · subst hturns
    simp only [List.map_nil,if_true,add_zero]
    cases (start cfg kind ram).run [] <;> rfl
  · have hpos' : ∀ turn ∈ inOrder turns, 0 < turn.t ∧ 0 < turn.t+c :=
      fun turn hturn => hpos turn ((sortedBy_perm _ turns).mem_iff.mp hturn)
    have hne : inOrder turns ≠ [] := fun hnil =>
      hturns (List.nil_perm.mp (hnil ▸ sortedBy_perm _ turns))
    have hmoved : inOrder (turns.map (Turn.shift c)) = (inOrder turns).map (Turn.shift c) :=
      inOrder_retimed add_left_strictMono turns
    have hsched : (start cfg kind ram).schedule (turns.map (Turn.shift c)) =
        ((start cfg kind ram).schedule turns).shift c :=
      schedule_retimed add_left_strictMono _ turns
    have hmetrics : (exec ((start cfg kind ram).schedule turns) (start cfg kind ram)
        (inOrder turns)).metrics ≠ [] := by
      have hlength := exec_metrics_length (start cfg kind ram)
        ((start cfg kind ram).schedule turns) (inOrder turns)
      have hsome := List.length_pos_iff.mpr hne
      exact List.ne_nil_of_length_pos (hlength ▸ Nat.add_pos_right _ hsome)
    rw [run_start,run_start,hmoved,hsched,exec_start_shift cfg kind ram _ hne hpos',finalize_shift,
      if_neg hmetrics,if_neg hturns]
    rfl

open Simulator in
/-- The origin of the clock is immaterial: a trace of positive times, moved so that they stay
positive, gives under every policy the same report, ended at the moved time, or the same
error. -/
theorem runPolicy_shift (cfg : SimConfig F) (name : String) (c : F) (turns : List (Turn F))
    (hpos : ∀ turn ∈ turns, 0 < turn.t ∧ 0 < turn.t+c) :
    runPolicy cfg (turns.map (Turn.shift c)) name =
      (runPolicy cfg turns name).map fun report =>
        { report with windowS := report.windowS+if turns = [] then 0 else c } := by
  unfold runPolicy
  cases cfg.tier "ram" with
  | none => rfl
  | some ram =>
    unfold build
    cases (POLICIES (F := F)).find? fun p => p.1 = name with
    | none => rfl
    | some p => exact run_shift cfg p.2 ram c turns hpos

/-- A trace of two sessions, an hour later. -/
theorem runPolicy_shift_small :
    let turns := [ask 1 "a" 900,ask 2 "b" 900,ask 3 "a" 900]
    runPolicy (smallConfig 1000 2000) (turns.map (Turn.shift 3600)) "fixed_ttl" =
      (runPolicy (smallConfig 1000 2000) turns "fixed_ttl").map fun report =>
        { report with windowS := report.windowS+if turns = [] then 0 else 3600 } := by
  refine runPolicy_shift (smallConfig 1000 2000) "fixed_ttl" 3600
    [ask 1 "a" 900,ask 2 "b" 900,ask 3 "a" 900] ?_
  decide +kernel

end ContextResidency
