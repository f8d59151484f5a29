import ContextResidency.Replay
import ContextResidency.IndexFacts
import ContextResidency.PolicyView
import ContextResidency.Library.Runs

/-! What one turn of a replay does to each part of the state. The index and the HBM
pool move before the host tier does, and the host store leaves both alone. -/
namespace ContextResidency

variable {F : Type} [Scalar F]

namespace Simulator

/-- Resident in HBM or in the host tier. -/
def Resident (s : Simulator F) (key : BlockKey) : Prop :=
  key ∈ s.hbm.blocks ∨ key ∈ s.policy.entries

instance (s : Simulator F) (key : BlockKey) : Decidable (s.Resident key) :=
  inferInstanceAs (Decidable (_ ∨ _))

/-- The serviceable prefix ends at the first block that neither tier holds. -/
theorem drop_scan_cut (s : Simulator F) (keys : List BlockKey) :
    keys.drop (s.scan keys).cut = keys.dropWhile fun k => s.Resident k := by
  induction keys with
  | nil => rfl
  | cons key keys ih =>
    rw [scan]
    by_cases hb : key ∈ s.hbm.blocks
    · simpa [hb,Resident] using ih
    · cases hp : s.policy.get key with
      | none =>
        have he : key ∉ s.policy.entries := Dict.get_eq_none.mp hp
        simp [hb,he,Resident]
      | some entry =>
        have he : key ∈ s.policy.entries := Dict.mem_iff_get.mpr ⟨entry,hp⟩
        simpa [hb,he,Resident] using ih

def path (s : Simulator F) (turn : Turn F) : List BlockKey := (s.observe turn).2

def seenIndex (s : Simulator F) (turn : Turn F) : PrefixIndex F := (s.observe turn).1.index

theorem recomputeTokens_eq (s : Simulator F) (turn : Turn F) :
    s.recomputeTokens turn =
      (((s.path turn).dropWhile fun k => s.Resident k).map (s.seenIndex turn).tokensOf).sum := by
  have h := drop_scan_cut (s.observe turn).1 (s.observe turn).2
  exact congrArg (fun ks => (ks.map (s.seenIndex turn).tokensOf).sum) h

theorem path_nodup (s : Simulator F) (turn : Turn F) : (s.path turn).Nodup :=
  PrefixIndex.chain_keys_nodup _ _ _ _ _

theorem exec_append (sched : Schedule F) (s : Simulator F) (turns : List (Turn F))
    (turn : Turn F) : exec sched s (turns ++ [turn]) = one sched (exec sched s turns) turn := by
  rw [exec,List.foldl_append]
  rfl

theorem after_succ (s : Simulator F) {turns : List (Turn F)} {n : ℕ} {turn : Turn F}
    (hturn : (inOrder turns)[n]? = some turn) :
    s.after turns (n+1) = one (s.schedule turns) (s.after turns n) turn := by
  rw [after,List.take_add_one,hturn,Option.toList_some,exec_append]
  rfl

theorem after_of_done (s : Simulator F) {turns : List (Turn F)} {n : ℕ}
    (hdone : (inOrder turns)[n]? = none) : s.after turns (n+1) = s.after turns n := by
  rw [after,List.take_add_one,hdone,Option.toList_none,List.append_nil]
  rfl

theorem rest_of_turn {turns : List (Turn F)} {n : ℕ} {turn : Turn F}
    (hturn : (inOrder turns)[n]? = some turn) :
    (inOrder turns).drop n = turn::(inOrder turns).drop (n+1) := by
  obtain ⟨hn,rfl⟩ := List.getElem?_eq_some_iff.mp hturn
  exact List.drop_eq_getElem_cons hn

theorem rest_of_done {turns : List (Turn F)} {n : ℕ} (hdone : (inOrder turns)[n]? = none) :
    (inOrder turns).drop (n+1) = (inOrder turns).drop n := by
  have hshort := List.getElem?_eq_none_iff.mp hdone
  rw [List.drop_eq_nil_of_le hshort,List.drop_eq_nil_of_le (by omega)]

theorem later_of_turn {turns : List (Turn F)} {n : ℕ} {turn : Turn F}
    (htimes : (inOrder turns).Pairwise fun a b => a.t < b.t)
    (hturn : (inOrder turns)[n]? = some turn) :
    ∀ next ∈ (inOrder turns).drop (n+1), turn.t < next.t := by
  have hdrop := htimes.drop (i := n)
  rw [rest_of_turn hturn] at hdrop
  exact (List.pairwise_cons.mp hdrop).1

section Frames

variable (s : Simulator F) (turn : Turn F) (keys : List BlockKey) (now : F) (sched : Schedule F)

omit [Scalar F] in
theorem foldl_leftHbm (victims : List BlockKey) :
    victims.foldl leftHbm s = { s with
      demotions := s.demotions+victims.length
      leftHbmAt := victims.foldl (fun d k => d.set k s.now) s.leftHbmAt } := by
  induction victims generalizing s with
  | nil => rfl
  | cons k victims ih =>
    rw [List.foldl_cons,ih]
    simp [leftHbm,Nat.add_assoc,Nat.add_comm 1]

omit [Scalar F] in
theorem foldl_leftHost (victims : List BlockKey) :
    victims.foldl leftHost s = { s with
      leftHostAt := victims.foldl (fun d k => d.set k s.now) s.leftHostAt } := by
  induction victims generalizing s with
  | nil => rfl
  | cons k victims ih => exact ih _

omit [Scalar F] in
theorem fillHbm_eq :
    s.fillHbm keys =
      let r := s.hbm.store (keys.map fun k => (k,s.index.nbytesOf k)) keys.toFinset
      { s with
        hbm := r.1
        demotions := s.demotions+r.2.length
        leftHbmAt := r.2.foldl (fun d k => d.set k s.now) s.leftHbmAt } := by
  rw [fillHbm,foldl_leftHbm]

theorem insertFresh_frame (room : ℤ) (fresh : List (BlockKey × ℤ)) :
    ∃ policy reacquires, insertFresh now sched s room fresh =
      { s with policy := policy, reacquires := reacquires } := by
  induction fresh generalizing s room with
  | nil => exact ⟨s.policy,s.reacquires,rfl⟩
  | cons item fresh ih =>
    rw [insertFresh]
    split
    · exact ⟨s.policy,s.reacquires,rfl⟩
    · exact ih _ _

/-- The host store moves the policy and its own bookkeeping only. -/
theorem storeBatchToHost_frame :
    ∃ policy reacquires leftHostAt, s.storeBatchToHost keys now sched =
      { s with policy := policy, reacquires := reacquires, leftHostAt := leftHostAt } := by
  rw [storeBatchToHost]
  split
  · obtain ⟨policy,reacquires,h⟩ := insertFresh_frame s now sched s.freeRoom
      (s.policy.admitChain (s.missing keys) s.probe)
    exact ⟨policy,reacquires,s.leftHostAt,h⟩
  · split
    · exact ⟨_,_,_,rfl⟩
    · rename_i freed policy _
      rw [foldl_leftHost]
      obtain ⟨policy',reacquires,h⟩ := insertFresh_frame
        { s with policy := policy
                 leftHostAt := freed.foldl (fun d k => d.set k s.now) s.leftHostAt } now sched
        (s.freeRoom+(freed.map s.index.nbytesOf).sum) _
      exact ⟨policy',reacquires,_,h⟩

/-- The touch of the path and the oracle's refresh move the policy only. -/
theorem touch_refresh_frame :
    ∃ policy, (s.touchHost keys now).refreshOracle keys now sched = { s with policy := policy } :=
  ⟨_,rfl⟩

/-- A whole turn fills HBM; only the policy and its bookkeeping move after that. -/
theorem settled_frame :
    ∃ policy reacquires leftHostAt, settled sched s turn =
      { (s.observe turn).1.fillHbm (s.path turn) with
        policy := policy, reacquires := reacquires, leftHostAt := leftHostAt } := by
  obtain ⟨_,reacquires,leftHostAt,hstored⟩ := storeBatchToHost_frame
    ((s.observe turn).1.fillHbm (s.path turn)) (s.path turn) turn.t sched
  obtain ⟨policy,htouched⟩ := touch_refresh_frame (((s.observe turn).1.fillHbm
    (s.path turn)).storeBatchToHost (s.path turn) turn.t sched) (s.path turn) turn.t sched
  refine ⟨policy,reacquires,leftHostAt,?_⟩
  show ((((s.observe turn).1.fillHbm (s.path turn)).storeBatchToHost
    (s.path turn) turn.t sched).touchHost (s.path turn) turn.t).refreshOracle
      (s.path turn) turn.t sched = _
  rw [htouched,hstored]

@[simp] theorem one_index : (one sched s turn).index = s.seenIndex turn := by
  obtain ⟨_,_,_,h⟩ := settled_frame s turn sched
  rw [one,h,fillHbm_eq]
  rfl

@[simp] theorem one_hbm : (one sched s turn).hbm =
    (s.hbm.store ((s.path turn).map fun k => (k,(s.seenIndex turn).nbytesOf k))
      (s.path turn).toFinset).1 := by
  obtain ⟨_,_,_,h⟩ := settled_frame s turn sched
  rw [one,h,fillHbm_eq]
  rfl

@[simp] theorem one_demotions : (one sched s turn).demotions = s.demotions+
    (s.hbm.store ((s.path turn).map fun k => (k,(s.seenIndex turn).nbytesOf k))
      (s.path turn).toFinset).2.length := by
  obtain ⟨_,_,_,h⟩ := settled_frame s turn sched
  rw [one,h,fillHbm_eq]
  rfl

@[simp] theorem one_ramTier : (one sched s turn).ramTier = s.ramTier := by
  obtain ⟨_,_,_,h⟩ := settled_frame s turn sched
  rw [one,h,fillHbm_eq]
  rfl

@[simp] theorem one_cfg : (one sched s turn).cfg = s.cfg := by
  obtain ⟨_,_,_,h⟩ := settled_frame s turn sched
  rw [one,h,fillHbm_eq]
  rfl

theorem after_cfg (cfg : SimConfig F) (kind : PolicyKind F) (ram : TierConfig F)
    (turns : List (Turn F)) (n : ℕ) : ((start cfg kind ram).after turns n).cfg = cfg :=
  List.foldlRecOn (motive := fun s : Simulator F => s.cfg = cfg) _ _ rfl
    fun s h turn _ => (one_cfg s turn _).trans h

theorem after_ramTier (cfg : SimConfig F) (kind : PolicyKind F) (ram : TierConfig F)
    (turns : List (Turn F)) (n : ℕ) : ((start cfg kind ram).after turns n).ramTier = ram :=
  List.foldlRecOn (motive := fun s : Simulator F => s.ramTier = ram) _ _ rfl
    fun s h turn _ => (one_ramTier s turn _).trans h

@[simp] theorem one_metrics :
    (one sched s turn).metrics = s.metrics ++ [s.metric turn] := rfl

theorem exec_metrics_length (turns : List (Turn F)) :
    (exec sched s turns).metrics.length = s.metrics.length+turns.length := by
  induction turns using List.reverseRecOn with
  | nil => rfl
  | append_singleton turns turn ih =>
    rw [exec_append,one_metrics,List.length_append,List.length_append,ih]
    rfl

end Frames

/-- Two host tiers that hold the same, of the same capacity, with policies that decide the
same with both probes. -/
structure SameHost (s t : Simulator F) : Prop where
  policy : s.policy = t.policy
  capacity : s.ramTier.bytesCapacity = t.ramTier.bytesCapacity
  sizes : s.index.nbytesOf = t.index.nbytesOf
  view : s.policy.kind.SameView s.probe t.probe

theorem SameHost.of_probe {s t : Simulator F} (hpolicy : s.policy = t.policy)
    (hprobe : s.probe = t.probe) : SameHost s t where
  policy := hpolicy
  capacity := congrArg (fun probe : Probe F => probe.tier.bytesCapacity) hprobe
  sizes := congrArg (fun probe : Probe F => probe.index.nbytesOf) hprobe
  view := hprobe ▸ .refl _ _

/-! The host tier is settled by the policy, the sizes and what the policy sees. -/
section HostView

variable {s t : Simulator F} (h : SameHost s t)
include h

theorem freeRoom_congr : s.freeRoom = t.freeRoom := by
  rw [freeRoom,freeRoom,h.policy,h.capacity]

theorem missing_congr (keys : List BlockKey) : s.missing keys = t.missing keys := by
  rw [missing,missing,h.policy,h.sizes]

theorem admitChain_congr (items : List (BlockKey × ℤ)) :
    s.policy.admitChain items s.probe = t.policy.admitChain items t.probe := by
  rw [h.view.admission s.policy rfl,h.policy]

theorem evictRequest_congr (keys : List BlockKey) : s.evictRequest keys = t.evictRequest keys := by
  rw [evictRequest,evictRequest,missing_congr h,freeRoom_congr h,admitChain_congr h]

theorem insertFresh_policy_congr (now : F) (sched : Schedule F) (room : ℤ)
    (fresh : List (BlockKey × ℤ)) :
    (insertFresh now sched s room fresh).policy = (insertFresh now sched t room fresh).policy := by
  induction fresh generalizing s t room with
  | nil => exact h.policy
  | cons item fresh ih =>
    rw [insertFresh,insertFresh]
    split
    · exact h.policy
    · have hinsert := h.view.insert s.policy rfl item.1 item.2 now
      rw [h.policy] at hinsert
      apply ih
      constructor
      case policy => simp only [h.policy,hinsert]
      case capacity => exact h.capacity
      case sizes => exact h.sizes
      case view =>
        have hkind : ∀ policy : TierPolicy F, (foresee sched item.1 now policy).kind =
            policy.kind := by
          intro policy
          unfold foresee
          split <;> rfl
        show (foresee sched item.1 now (s.policy.insert item.1 item.2 now s.probe)).kind.SameView
          s.probe t.probe
        rw [hkind]
        exact h.view

theorem storeBatchToHost_policy_congr (keys : List BlockKey) (now : F) (sched : Schedule F) :
    (s.storeBatchToHost keys now sched).policy = (t.storeBatchToHost keys now sched).policy := by
  rw [storeBatchToHost,storeBatchToHost,evictRequest_congr h,freeRoom_congr h,missing_congr h]
  split
  · rw [admitChain_congr h]
    exact insertFresh_policy_congr h _ _ _ _
  · rename_i fresh needed _
    have hevict : s.policy.evict needed (fresh.map Prod.fst).toFinset now s.probe =
        t.policy.evict needed (fresh.map Prod.fst).toFinset now t.probe := by
      rw [h.view.evict s.policy rfl,h.policy]
    rw [hevict,h.sizes]
    cases hout : t.policy.evict needed (fresh.map Prod.fst).toFinset now t.probe with
    | mk freed policy =>
      cases freed with
      | none => rfl
      | some freed =>
        have hkind : policy.kind = s.policy.kind := by
          rw [h.policy]
          exact (congrArg (fun r => r.2.kind) hout).symm
        simp only
        rw [foldl_leftHost,foldl_leftHost]
        apply insertFresh_policy_congr
        constructor
        case policy => rfl
        case capacity => exact h.capacity
        case sizes => exact h.sizes
        case view =>
          show policy.kind.SameView s.probe t.probe
          rw [hkind]
          exact h.view

theorem touchHost_policy_congr (keys : List BlockKey) (now : F) :
    (s.touchHost keys now).policy = (t.touchHost keys now).policy := by
  rw [touchHost,touchHost,h.view.touch s.policy rfl,h.policy]

end HostView

theorem observe_probe_congr {s t : Simulator F} (h : s.probe = t.probe) (turn : Turn F) :
    (s.observe turn).1.probe = (t.observe turn).1.probe := by
  have hindex : s.index = t.index := congrArg Probe.index h
  have hcost : s.cfg.cost = t.cfg.cost := congrArg Probe.cost h
  have hram : s.ramTier = t.ramTier := congrArg Probe.tier h
  have hhorizon : s.horizonS = t.horizonS := congrArg Probe.horizonS h
  have heta : s.toolEta = t.toolEta := congrArg Probe.toolEta h
  simp only [observe,probe,hindex,hcost,hram,hhorizon,heta]

omit [Scalar F] in
theorem fillHbm_probe (s : Simulator F) (keys : List BlockKey) :
    (s.fillHbm keys).probe = s.probe := by
  rw [fillHbm_eq]
  rfl

omit [Scalar F] in
theorem fillHbm_policy (s : Simulator F) (keys : List BlockKey) :
    (s.fillHbm keys).policy = s.policy := by
  rw [fillHbm_eq]

theorem one_probe (sched : Schedule F) (s : Simulator F) (turn : Turn F) :
    (one sched s turn).probe = (s.observe turn).1.probe := by
  obtain ⟨_,_,_,h⟩ := settled_frame s turn sched
  have hfill := fillHbm_probe (s.observe turn).1 (s.path turn)
  rw [one,h,← hfill]
  rfl

theorem storeBatchToHost_probe (s : Simulator F) (keys : List BlockKey) (now : F)
    (sched : Schedule F) : (s.storeBatchToHost keys now sched).probe = s.probe := by
  obtain ⟨_,_,_,h⟩ := storeBatchToHost_frame s keys now sched
  rw [h]
  rfl

theorem one_policy_congr {s t : Simulator F} (hpolicy : s.policy = t.policy)
    (hprobe : s.probe = t.probe) (sched : Schedule F) (turn : Turn F) :
    (one sched s turn).policy = (one sched t turn).policy := by
  have hpath : (s.observe turn).2 = (t.observe turn).2 := by
    have hindex : s.index = t.index := congrArg Probe.index hprobe
    unfold observe
    rw [hindex]
  have hp : ((s.observe turn).1.fillHbm (s.observe turn).2).policy =
      ((t.observe turn).1.fillHbm (t.observe turn).2).policy := by
    rw [fillHbm_policy,fillHbm_policy]
    exact hpolicy
  have hq : ((s.observe turn).1.fillHbm (s.observe turn).2).probe =
      ((t.observe turn).1.fillHbm (t.observe turn).2).probe := by
    rw [fillHbm_probe,fillHbm_probe,observe_probe_congr hprobe]
  have hstored := storeBatchToHost_policy_congr (.of_probe hp hq) (s.observe turn).2 turn.t sched
  have htouched := touchHost_policy_congr (.of_probe hstored
    (by rw [storeBatchToHost_probe,storeBatchToHost_probe,hq])) (s.observe turn).2 turn.t
  rw [one,one,settled,settled]
  simp only [refreshOracle]
  rw [htouched,hpath]

end Simulator

/-! A small host for concrete runs: blocks of 1000 tokens, a byte for each token. -/

def smallRam (bytesCapacity : ℤ) : TierConfig ℚ := ⟨"ram",bytesCapacity,96,true,55/100⟩

def smallConfig (poolTokens bytesCapacity : ℤ) : SimConfig ℚ where
  hbmPoolTokens := poolTokens
  blockTokens := 1000
  cost := ⟨1,11000,118,36/100⟩
  tiers := [smallRam bytesCapacity]
  patientSloTtftS := 3/2
  thrashWindowS := 60

/-- The priors that the adaptive policy has by default. -/
def rolePriors : Dict String ℚ := .ofList [("supervisor",1/2),("patient",6/10),
  ("reviewer",2/10),("rag",5/100),("default",1/10)]

/-- A session asks for a prompt that shares nothing. -/
def ask (t : ℚ) (sessionId : String) (promptTokens : ℤ) : Turn ℚ where
  t := t
  sessionId := sessionId
  role := "agent"
  promptTokens := promptTokens
  completionTokens := 0

end ContextResidency
