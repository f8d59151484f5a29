import ContextResidency.ReplayFacts
import ContextResidency.Library.Fifo

/-! The two contended servers of a replay. Each is a first-come first-served queue: the
PCIe path takes the transfers as their turns arrive, and prefill takes a turn once its
transfer, if it has one, is over. -/
namespace ContextResidency

/-- What a turn asks of the two servers, and when. -/
structure Demand (F : Type) where
  t : F
  transferS : F
  prefillS : F

/-- When a turn is served, and the time to its first token. -/
structure Service (F : Type) where
  pcieStart : F
  pcieEnd : F
  prefillStart : F
  prefillEnd : F
  ttft : F

variable {F : Type} [Scalar F]

/-- The timing of one turn. -/
def service (overhead pcieBusy prefillBusy : F) (d : Demand F) : Service F :=
  let pcieStart := max d.t pcieBusy
  let pcieEnd := pcieStart+d.transferS
  let prefillStart := max (max d.t prefillBusy) (if d.transferS ≠ 0 then pcieEnd else 0)
  let prefillEnd := prefillStart+d.prefillS
  ⟨pcieStart,pcieEnd,prefillStart,prefillEnd,overhead+max 0 (prefillEnd-d.t)⟩

/-- The timing of a list of turns, from servers that are busy until given times. -/
def services (overhead : F) : F → F → List (Demand F) → List (Service F)
  | _, _, [] => []
  | pcieBusy, prefillBusy, d::ds =>
    let r := service overhead pcieBusy prefillBusy d
    r::services overhead r.pcieEnd r.prefillEnd ds

namespace Simulator

def demand (s : Simulator F) (turn : Turn F) : Demand F :=
  ⟨turn.t,s.ramTier.restoreSeconds (s.found turn).restoreBytes,
    s.cfg.cost.recomputeSeconds (s.recomputeTokens turn)⟩

/-- What the turns of a run ask of the two servers. -/
def demands (sched : Schedule F) : Simulator F → List (Turn F) → List (Demand F)
  | _, [] => []
  | s, turn::turns => s.demand turn::demands sched (one sched s turn) turns

/-- A replay times its turns by the two queues. -/
theorem exec_ttft (sched : Schedule F) (s : Simulator F) (turns : List (Turn F)) :
    (exec sched s turns).metrics.map (·.ttftS) = s.metrics.map (·.ttftS) ++
      (services s.cfg.cost.requestOverheadS s.pcieBusy s.prefillBusy
        (demands sched s turns)).map (·.ttft) := by
  induction turns generalizing s with
  | nil => exact (List.append_nil _).symm
  | cons turn turns ih =>
    have h := ih (one sched s turn)
    rw [one_metrics,one_cfg,List.map_append,List.append_assoc] at h
    exact h

end Simulator

namespace Demand

def pcieJob (d : Demand F) : Job F := ⟨d.t,d.transferS⟩

/-- A turn is ready for prefill when its transfer is over, or at once if it has none. -/
def prefillJob (d : Demand F) (transfer : Slot F) : Job F :=
  ⟨max d.t (if d.transferS ≠ 0 then transfer.finish else 0),d.prefillS⟩

/-- A turn that arrives at the same time and asks for no less. -/
structure Le (a b : Demand F) : Prop where
  t : a.t = b.t
  transferS : a.transferS ≤ b.transferS
  prefillS : a.prefillS ≤ b.prefillS

end Demand

namespace Service

def pcieSlot (r : Service F) : Slot F := ⟨r.pcieStart,r.pcieEnd⟩

def prefillSlot (r : Service F) : Slot F := ⟨r.prefillStart,r.prefillEnd⟩

end Service

/-- The jobs of the prefill server, once the transfers are scheduled. -/
def prefillJobs (pcieBusy : F) (ds : List (Demand F)) : List (Job F) :=
  List.zipWith Demand.prefillJob ds (Fifo.slots pcieBusy (ds.map Demand.pcieJob))

/-- The PCIe path is a queue of its own. -/
theorem services_pcieSlot (overhead pcieBusy prefillBusy : F) (ds : List (Demand F)) :
    (services overhead pcieBusy prefillBusy ds).map Service.pcieSlot =
      Fifo.slots pcieBusy (ds.map Demand.pcieJob) := by
  induction ds generalizing pcieBusy prefillBusy with
  | nil => rfl
  | cons d ds ih => exact congrArg _ (ih _ _)

/-- Prefill is a queue whose jobs are ready when the PCIe path is done with them. -/
theorem services_prefillSlot (overhead pcieBusy prefillBusy : F) (ds : List (Demand F)) :
    (services overhead pcieBusy prefillBusy ds).map Service.prefillSlot =
      Fifo.slots prefillBusy (prefillJobs pcieBusy ds) := by
  induction ds generalizing pcieBusy prefillBusy with
  | nil => rfl
  | cons d ds ih =>
    have hslot : (service overhead pcieBusy prefillBusy d).prefillSlot =
        Fifo.serve prefillBusy (d.prefillJob (Fifo.serve pcieBusy d.pcieJob)) := by
      simp only [service,Service.prefillSlot,Fifo.serve,Demand.prefillJob,Demand.pcieJob]
      rw [max_right_comm]
    show _::_ = _::_
    rw [ih,← hslot]
    rfl

theorem service_pcieEnd_nonneg {overhead pcie prefill : F} {d : Demand F} (hbusy : 0 ≤ pcie)
    (hd : 0 ≤ d.transferS) : 0 ≤ (service overhead pcie prefill d).pcieEnd :=
  add_nonneg (hbusy.trans (le_max_right _ _)) hd

/-- A turn with no less to do, on servers that are free no earlier, leaves both of them
later and gets its first token later. -/
theorem service_mono (overhead : F) {pcie pcie' prefill prefill' : F} {a b : Demand F}
    (hpcie : pcie ≤ pcie') (hprefill : prefill ≤ prefill') (hbusy : 0 ≤ pcie)
    (ha : 0 ≤ a.transferS) (hab : a.Le b) :
    (service overhead pcie prefill a).pcieEnd ≤ (service overhead pcie' prefill' b).pcieEnd ∧
    (service overhead pcie prefill a).prefillEnd ≤
      (service overhead pcie' prefill' b).prefillEnd ∧
    (service overhead pcie prefill a).ttft ≤ (service overhead pcie' prefill' b).ttft := by
  have hend : (service overhead pcie prefill a).pcieEnd ≤
      (service overhead pcie' prefill' b).pcieEnd :=
    @Fifo.serve_finish_mono _ _ _ _ pcie pcie' a.pcieJob b.pcieJob hpcie
      ⟨hab.t.le,hab.transferS⟩
  have hzero : 0 ≤ (service overhead pcie prefill a).pcieEnd := service_pcieEnd_nonneg hbusy ha
  -- a transfer that grows from zero delays its turn, since the PCIe path is busy until zero
  have hready : (if a.transferS ≠ 0 then (service overhead pcie prefill a).pcieEnd else 0) ≤
      if b.transferS ≠ 0 then (service overhead pcie' prefill' b).pcieEnd else 0 := by
    by_cases hat : a.transferS ≠ 0
    · have hbt : b.transferS ≠ 0 := ((lt_of_le_of_ne ha hat.symm).trans_le hab.transferS).ne'
      rw [if_pos hat,if_pos hbt]
      exact hend
    · rw [if_neg hat]
      split
      · exact hzero.trans hend
      · exact le_rfl
  have hfinish : (service overhead pcie prefill a).prefillEnd ≤
      (service overhead pcie' prefill' b).prefillEnd :=
    add_le_add (max_le_max (max_le_max hab.t.le hprefill) hready) hab.prefillS
  refine ⟨hend,hfinish,add_le_add le_rfl (max_le_max le_rfl ?_)⟩
  exact sub_le_sub hfinish hab.t.ge

theorem services_ttft_mono (overhead : F) {pcie pcie' prefill prefill' : F}
    {ds heavier : List (Demand F)} (hpcie : pcie ≤ pcie') (hprefill : prefill ≤ prefill')
    (hbusy : 0 ≤ pcie) (hds : ∀ d ∈ ds, 0 ≤ d.transferS)
    (hle : List.Forall₂ Demand.Le ds heavier) :
    List.Forall₂ (fun r r' => r.ttft ≤ r'.ttft) (services overhead pcie prefill ds)
      (services overhead pcie' prefill' heavier) := by
  induction hle generalizing pcie pcie' prefill prefill' with
  | nil => exact .nil
  | cons hab _ ih =>
    rcases List.forall_mem_cons.mp hds with ⟨ha,hrest⟩
    rcases service_mono overhead hpcie hprefill hbusy ha hab with ⟨hend,hfinish,httft⟩
    exact .cons httft (ih hend hfinish (service_pcieEnd_nonneg hbusy ha) hrest)

/-- What one turn gets out of the two servers: it waits for its own transfer, and for no
less than its own work. -/
structure Served (overhead : F) (d : Demand F) (r : Service F) : Prop where
  transferred : r.pcieEnd = r.pcieStart+d.transferS
  prefilled : r.prefillEnd = r.prefillStart+d.prefillS
  after_transfer : d.transferS ≠ 0 → r.pcieEnd ≤ r.prefillStart
  ttft : overhead+d.transferS+d.prefillS ≤ r.ttft

theorem service_served (overhead pcieBusy prefillBusy : F) {d : Demand F} :
    Served overhead d (service overhead pcieBusy prefillBusy d) := by
  have hafter : d.transferS ≠ 0 → (service overhead pcieBusy prefillBusy d).pcieEnd ≤
      (service overhead pcieBusy prefillBusy d).prefillStart := by
    intro hd
    refine le_trans ?_ (le_max_right _ _)
    rw [if_pos hd]
    exact le_rfl
  have hown : d.t+d.transferS ≤ (service overhead pcieBusy prefillBusy d).prefillStart := by
    by_cases hd : d.transferS = 0
    · rw [hd,add_zero]
      exact (le_max_left _ _).trans (le_max_left _ _)
    · exact (add_le_add (le_max_left _ _) le_rfl).trans (hafter hd)
  constructor
  case transferred => rfl
  case prefilled => rfl
  case after_transfer => exact hafter
  case ttft =>
    have hwait : d.transferS+d.prefillS ≤
        (service overhead pcieBusy prefillBusy d).prefillEnd-d.t := by
      show _ ≤ (service overhead pcieBusy prefillBusy d).prefillStart+d.prefillS-d.t
      linarith
    rw [add_assoc]
    exact add_le_add le_rfl (hwait.trans (le_max_right _ _))

theorem services_served (overhead pcieBusy prefillBusy : F) (ds : List (Demand F)) :
    List.Forall₂ (Served overhead) ds (services overhead pcieBusy prefillBusy ds) := by
  induction ds generalizing pcieBusy prefillBusy with
  | nil => exact .nil
  | cons d ds ih => exact .cons (service_served _ _ _) (ih _ _)

/-- The two servers, from idle, on the turns of a trace: each works on one turn at a time
in the order of arrival, and more work for some turns is never faster for any. -/
structure TwoServerQueue (overhead : F) (ds : List (Demand F)) : Prop where
  pcie : (services overhead 0 0 ds).Pairwise fun a b => a.pcieEnd ≤ b.pcieStart
  prefill : (services overhead 0 0 ds).Pairwise fun a b => a.prefillEnd ≤ b.prefillStart
  served : List.Forall₂ (Served overhead) ds (services overhead 0 0 ds)
  monotone : ∀ heavier, List.Forall₂ Demand.Le ds heavier →
    List.Forall₂ (fun r r' => r.ttft ≤ r'.ttft) (services overhead 0 0 ds)
      (services overhead 0 0 heavier)

theorem twoServerQueue (overhead : F) (ds : List (Demand F))
    (hds : ∀ d ∈ ds, 0 ≤ d.transferS ∧ 0 ≤ d.prefillS) : TwoServerQueue overhead ds := by
  constructor
  case pcie =>
    have hwork : ∀ job ∈ ds.map Demand.pcieJob, 0 ≤ job.work :=
      List.forall_mem_map.mpr fun d hd => (hds d hd).1
    have h := Fifo.slots_pairwise hwork 0
    rw [← services_pcieSlot overhead 0 0] at h
    exact List.pairwise_map.mp h
  case prefill =>
    have hwork : ∀ job ∈ prefillJobs 0 ds, 0 ≤ job.work := by
      intro job hjob
      rw [prefillJobs,← List.map_uncurry_zip_eq_zipWith] at hjob
      rcases List.mem_map.mp hjob with ⟨⟨d,transfer⟩,hmem,rfl⟩
      exact (hds d (List.of_mem_zip hmem).1).2
    have h := Fifo.slots_pairwise hwork 0
    rw [← services_prefillSlot overhead] at h
    exact List.pairwise_map.mp h
  case served => exact services_served _ _ _ _
  case monotone =>
    intro heavier hle
    exact services_ttft_mono overhead le_rfl le_rfl le_rfl (fun d hd => (hds d hd).1) hle

theorem twoServerQueue_three : TwoServerQueue (36/100 : ℚ) [⟨0,1,2⟩,⟨1,0,3⟩,⟨1,2,1⟩] :=
  twoServerQueue _ _ (by decide)

end ContextResidency
