import ContextResidency.HostFacts

/-! The times of a replay sent through a map. A policy whose decisions survive the map takes
the host tier through it too, whatever becomes of the index and of the two servers. -/
namespace ContextResidency

variable {F : Type}

def Turn.retimed (f : F → F) (turn : Turn F) : Turn F := { turn with t := f turn.t }

/-- An expiry or a next use; the one that never comes stays where it is. -/
def retimeTop (f : F → F) (time : WithTop F) : WithTop F := time.map f

def Entry.retimed (f : F → F) (e : Entry F) : Entry F :=
  { e with
    insertedAt := f e.insertedAt
    lastTouch := f e.lastTouch
    expiresAt := retimeTop f e.expiresAt
    nextUse := retimeTop f e.nextUse }

def Entries.retimed (f : F → F) (entries : Entries F) : Entries F :=
  entries.mapValues fun _ => Entry.retimed f

def retimedItem (f : F → F) (item : BlockKey × Entry F) : BlockKey × Entry F :=
  (item.1,item.2.retimed f)

def TierPolicy.retimed (f : F → F) (policy : TierPolicy F) : TierPolicy F :=
  { policy with entries := policy.entries.retimed f }

def Schedule.retimed (f : F → F) (sched : Schedule F) : Schedule F :=
  sched.mapValues fun _ => List.map f

variable [Scalar F] {f : F → F}

theorem retimeTop_le_iff (hf : StrictMono f) (a b : WithTop F) :
    retimeTop f a ≤ retimeTop f b ↔ a ≤ b := WithTop.map_le_iff _ hf.le_iff_le

theorem inOrder_retimed (hf : StrictMono f) (turns : List (Turn F)) :
    inOrder (turns.map (Turn.retimed f)) = (inOrder turns).map (Turn.retimed f) := by
  have horder : ∀ a b : Turn F, (a.retimed f).t ≤ (b.retimed f).t ↔ a.t ≤ b.t :=
    fun _ _ => hf.le_iff_le
  exact sortedBy_map horder turns

section Eviction

variable (entries : Entries F) (now : F)

omit [Scalar F] in
@[simp] theorem Entries.items_retimed :
    (entries.retimed f).items = entries.items.map (retimedItem f) := rfl

theorem expire_retimed (hf : StrictMono f) :
    expire (entries.retimed f) (f now) = (expire entries now).retimed f := by
  refine Eq.symm (Dict.mapValues_filter _ _ fun _ e => ?_)
  exact decide_eq_decide.mpr (not_congr (retimeTop_le_iff hf e.expiresAt now))

omit [Scalar F] in
theorem filter_retimedItem (P : BlockKey → Bool) (items : List (BlockKey × Entry F)) :
    (items.map (retimedItem f)).filter (fun p => P p.1) =
      (items.filter fun p => P p.1).map (retimedItem f) := by
  rw [List.filter_map]
  rfl

omit [Scalar F] in
theorem take_retimed (order : List (BlockKey × Entry F)) (neededBytes : ℤ) :
    take (order.map (retimedItem f)) neededBytes (entries.retimed f) =
      let r := take order neededBytes entries
      (r.1,r.2.retimed f) := by
  have htaken : takeUntil (·.2.nbytes) neededBytes 0 (order.map (retimedItem f)) =
      (takeUntil (·.2.nbytes) neededBytes 0 order).map (retimedItem f) :=
    takeUntil_map (fun _ => rfl) neededBytes 0 order
  have hout : (takeUntil (·.2.nbytes) neededBytes 0 (order.map (retimedItem f))).map Prod.fst =
      (takeUntil (·.2.nbytes) neededBytes 0 order).map Prod.fst := by
    rw [htaken,List.map_map]
    rfl
  unfold take
  simp only [hout]
  split
  · rfl
  · exact Prod.ext rfl (Dict.mapValues_eraseAll _ _ _).symm

omit [Scalar F] in
/-- A sort key that orders retimed entries as it orders the entries. -/
theorem evictBy_retimed {κ : Type} [LinearOrder κ] (key : Entry F → κ)
    (hkey : ∀ a b : Entry F, key (a.retimed f) ≤ key (b.retimed f) ↔ key a ≤ key b)
    (neededBytes : ℤ) (protectedKeys : Finset BlockKey) :
    evictBy key (entries.retimed f) neededBytes protectedKeys =
      let r := evictBy key entries neededBytes protectedKeys
      (r.1,r.2.retimed f) := by
  have horder : ∀ items : List (BlockKey × Entry F),
      sortedBy (fun p => key p.2) (items.map (retimedItem f)) =
        (sortedBy (fun p => key p.2) items).map (retimedItem f) :=
    sortedBy_map fun p q => hkey p.2 q.2
  unfold evictBy
  rw [Entries.items_retimed,filter_retimedItem (fun k => k ∉ protectedKeys),horder,take_retimed]

theorem toLex_retimed_le_iff (hf : StrictMono f) {κ : Type} [LinearOrder κ] {a b a' b' : κ}
    {x y : F} (h : a ≤ b ↔ a' ≤ b') (h' : b ≤ a ↔ b' ≤ a') :
    toLex (a,f x) ≤ toLex (b,f y) ↔ toLex (a',x) ≤ toLex (b',y) := by
  rw [Prod.Lex.toLex_le_toLex',Prod.Lex.toLex_le_toLex']
  have heq : a = b ↔ a' = b' := by rw [le_antisymm_iff,le_antisymm_iff,h,h']
  simp only [h,heq,hf.le_iff_le]

end Eviction

namespace TierPolicy

variable (policy : TierPolicy F)

omit [Scalar F] in
@[simp] theorem occupancy_retimed : (policy.retimed f).occupancy = policy.occupancy :=
  Dict.sumBy_mapValues (fun _ => Entry.retimed f) policy.entries fun _ e => e.nbytes

omit [Scalar F] in
@[simp] theorem get_retimed (key : BlockKey) :
    (policy.retimed f).get key = (policy.get key).map (Entry.retimed f) := Dict.get_mapValues _ _ _

/-- All policies but the adaptive one only order times when they evict. -/
theorem evictEntries_retimed (hf : StrictMono f)
    (hkind : ∀ horizonS priors, policy.kind ≠ .adaptiveValue horizonS priors) (neededBytes : ℤ)
    (protectedKeys : Finset BlockKey) (now : F) (p q : Probe F) :
    (policy.retimed f).evictEntries neededBytes protectedKeys (f now) q =
      let r := policy.evictEntries neededBytes protectedKeys now p
      (r.1,r.2.retimed f) := by
  obtain ⟨kind,capacity,entries⟩ := policy
  have hexpiry : ∀ a b : Entry F,
      toLex ((a.retimed f).expiresAt,(a.retimed f).lastTouch) ≤
        toLex ((b.retimed f).expiresAt,(b.retimed f).lastTouch) ↔
      toLex (a.expiresAt,a.lastTouch) ≤ toLex (b.expiresAt,b.lastTouch) := fun a b =>
    toLex_retimed_le_iff hf (retimeTop_le_iff hf _ _) (retimeTop_le_iff hf _ _)
  cases kind with
  | lru => exact evictBy_retimed entries (·.lastTouch) (fun _ _ => hf.le_iff_le) _ _
  | lfu =>
    have huses : ∀ a b : Entry F,
        toLex ((a.retimed f).uses,(a.retimed f).lastTouch) ≤
          toLex ((b.retimed f).uses,(b.retimed f).lastTouch) ↔
        toLex (a.uses,a.lastTouch) ≤ toLex (b.uses,b.lastTouch) := fun a b =>
      toLex_retimed_le_iff hf Iff.rfl Iff.rfl
    exact evictBy_retimed entries (fun e => toLex (e.uses,e.lastTouch)) huses _ _
  | fixedTtl =>
    simp only [evictEntries,retimed,FixedTTLPolicy.evict,expire_retimed entries now hf]
    exact evictBy_retimed _ (fun e => toLex (e.expiresAt,e.lastTouch)) hexpiry _ _
  | continuumTtl =>
    simp only [evictEntries,retimed,ContinuumTTLPolicy.evict,expire_retimed entries now hf]
    exact evictBy_retimed _ (fun e => toLex (e.expiresAt,e.lastTouch)) hexpiry _ _
  | adaptiveValue horizonS priors => exact absurd rfl (hkind horizonS priors)
  | oracle =>
    have hnext : ∀ a b : Entry F,
        toLex (OrderDual.toDual (a.retimed f).nextUse,(a.retimed f).lastTouch) ≤
          toLex (OrderDual.toDual (b.retimed f).nextUse,(b.retimed f).lastTouch) ↔
        toLex (OrderDual.toDual a.nextUse,a.lastTouch) ≤
          toLex (OrderDual.toDual b.nextUse,b.lastTouch) := fun a b =>
      toLex_retimed_le_iff hf (retimeTop_le_iff hf _ _) (retimeTop_le_iff hf _ _)
    exact evictBy_retimed entries (fun e => toLex (OrderDual.toDual e.nextUse,e.lastTouch))
      hnext _ _

end TierPolicy

/-- Policies of this kind decide with the second probe, at retimed times, what they decide
with the first. -/
structure PolicyKind.Keeps (f : F → F) (kind : PolicyKind F) (p q : Probe F) : Prop where
  admission : ∀ policy : TierPolicy F, policy.kind = kind → ∀ items,
    (policy.retimed f).admitChain items q = policy.admitChain items p
  expiry : ∀ policy : TierPolicy F, policy.kind = kind → ∀ key nbytes now,
    (policy.retimed f).expiry key nbytes (f now) q = retimeTop f (policy.expiry key nbytes now p)
  evict : ∀ policy : TierPolicy F, policy.kind = kind → ∀ neededBytes protectedKeys now,
    (policy.retimed f).evict neededBytes protectedKeys (f now) q =
      let r := policy.evict neededBytes protectedKeys now p
      (r.1,r.2.retimed f)

namespace PolicyKind.Keeps

variable {kind : PolicyKind F} {p q : Probe F} (h : kind.Keeps f p q) {policy : TierPolicy F}
  (hkind : policy.kind = kind)
include h hkind

theorem refresh (key : BlockKey) (nbytes : ℤ) (now : F) (e : Entry F) :
    (policy.retimed f).refresh key nbytes (f now) q (e.retimed f) =
      (policy.refresh key nbytes now p e).retimed f := by
  simp only [TierPolicy.refresh,h.expiry policy hkind,Entry.retimed]

theorem insert (key : BlockKey) (nbytes : ℤ) (now : F) :
    (policy.retimed f).insert key nbytes (f now) q =
      (policy.insert key nbytes now p).retimed f := by
  unfold TierPolicy.insert
  rw [TierPolicy.get_retimed]
  cases policy.get key with
  | none =>
    have hnew := Dict.mapValues_set (fun _ => Entry.retimed f) policy.entries key
      { nbytes := nbytes, insertedAt := now, lastTouch := now
        expiresAt := policy.expiry key nbytes now p }
    have hexpiry := h.expiry policy hkind key nbytes now
    simp only [Option.map_none,TierPolicy.retimed,Entries.retimed,hnew]
    simp only [TierPolicy.retimed,Entries.retimed] at hexpiry
    rw [hexpiry]
    rfl
  | some e =>
    have hold := Dict.mapValues_modify (fun _ => Entry.retimed f) policy.entries key
      (fun e => (h.refresh hkind key nbytes now e).symm)
    simp only [Option.map_some,TierPolicy.retimed,Entries.retimed]
    rw [hold]
    rfl

theorem touch (keys : List BlockKey) (now : F) :
    (policy.retimed f).touch keys (f now) q = (policy.touch keys now p).retimed f := by
  induction keys generalizing policy with
  | nil => rfl
  | cons key keys ih =>
    have hold : (policy.entries.modify key fun e =>
          policy.refresh key e.nbytes now p e).mapValues (fun _ => Entry.retimed f) =
        (policy.entries.mapValues fun _ => Entry.retimed f).modify key fun e =>
          (policy.retimed f).refresh key e.nbytes (f now) q e :=
      Dict.mapValues_modify _ _ _ fun e => (h.refresh hkind key e.nbytes now e).symm
    have hfirst : (policy.retimed f).touch [key] (f now) q =
        (policy.touch [key] now p).retimed f := by
      simp only [TierPolicy.touch,List.foldl_cons,List.foldl_nil,TierPolicy.retimed,
        Entries.retimed,hold]
    exact (congrArg (TierPolicy.touch · keys (f now) q) hfirst).trans
      (@ih (policy.touch [key] now p) hkind)

end PolicyKind.Keeps

theorem Schedule.next_retimed (hf : StrictMono f) (sched : Schedule F) (key : BlockKey) (now : F) :
    (sched.retimed f).next key (f now) = retimeTop f (sched.next key now) := by
  have htimes : ∀ times : List F, (times.map f).find? (f now < ·) =
      (times.find? (now < ·)).map f := by
    intro times
    rw [List.find?_map]
    simp [hf.lt_iff_lt]
  have hget : ((sched.retimed f).get key).getD [] = ((sched.get key).getD []).map f := by
    rw [retimed,Dict.get_mapValues]
    cases sched.get key <;> rfl
  rw [next,next,hget,htimes]
  cases ((sched.get key).getD []).find? (now < ·) <;> rfl

namespace Simulator

/-- The tiers of one state, retimed, in the frame of another. -/
def retimed (f : F → F) (s frame : Simulator F) : Simulator F :=
  { frame with
    policy := s.policy.retimed f
    hbm := s.hbm
    leftHbmAt := s.leftHbmAt.mapValues fun _ => f
    leftHostAt := s.leftHostAt.mapValues fun _ => f
    reacquires := s.reacquires
    demotions := s.demotions }

/-- A frame in which the tiers of a state move as they do in the state itself. -/
structure Frames (f : F → F) (frame s : Simulator F) : Prop where
  now : frame.now = f s.now
  sizes : frame.index.nbytesOf = s.index.nbytesOf
  capacity : frame.ramTier.bytesCapacity = s.ramTier.bytesCapacity
  keeps : s.policy.kind.Keeps f s.probe frame.probe

section Host

variable {frame s : Simulator F} (h : Frames f frame s) (keys : List BlockKey) {now : F}
  (sched : Schedule F)

omit [Scalar F] in
theorem fillHbm_retimed (hnow : frame.now = f s.now)
    (hsizes : frame.index.nbytesOf = s.index.nbytesOf) :
    (s.retimed f frame).fillHbm keys = (s.fillHbm keys).retimed f frame := by
  rw [fillHbm_eq,fillHbm_eq]
  simp only [retimed,hsizes,hnow,Dict.mapValues_foldl_set]

omit [Scalar F] in
theorem missing_retimed (hsizes : frame.index.nbytesOf = s.index.nbytesOf) :
    (s.retimed f frame).missing keys = s.missing keys := by
  unfold missing
  simp only [retimed,TierPolicy.get_retimed,Option.isNone_map,hsizes]

omit [Scalar F] in
theorem freeRoom_retimed (hcapacity : frame.ramTier.bytesCapacity = s.ramTier.bytesCapacity) :
    (s.retimed f frame).freeRoom = s.freeRoom := by
  simp only [freeRoom,retimed,hcapacity,TierPolicy.occupancy_retimed]

theorem foresee_retimed (hf : StrictMono f) (key : BlockKey) (policy : TierPolicy F) :
    foresee (sched.retimed f) key (f now) (policy.retimed f) =
      (foresee sched key now policy).retimed f := by
  obtain ⟨kind,capacity,entries⟩ := policy
  cases kind with
  | oracle =>
    simp only [foresee,TierPolicy.retimed,Schedule.next_retimed hf,Entries.retimed]
    congr 1
    refine Eq.symm (Dict.mapValues_modify _ _ _ ?_)
    exact fun _ => rfl
  | lru => rfl
  | lfu => rfl
  | fixedTtl => rfl
  | continuumTtl => rfl
  | adaptiveValue => rfl

include h in
theorem insertFresh_retimed (hf : StrictMono f) (room : ℤ) (fresh : List (BlockKey × ℤ)) :
    insertFresh (f now) (sched.retimed f) (s.retimed f frame) room fresh =
      (insertFresh now sched s room fresh).retimed f frame := by
  induction fresh generalizing s room with
  | nil => rfl
  | cons item fresh ih =>
    have hinserted : foresee (sched.retimed f) item.1 (f now)
        ((s.policy.retimed f).insert item.1 item.2 (f now) frame.probe) =
          (foresee sched item.1 now (s.policy.insert item.1 item.2 now s.probe)).retimed f := by
      rw [h.keeps.insert rfl,foresee_retimed sched hf]
    have hframe : (s.retimed f frame).probe = frame.probe := rfl
    rw [insertFresh,insertFresh]
    split
    · rfl
    · rw [← ih]
      · congr 1
        simp only [hframe]
        simp only [retimed,hinserted,Dict.mem_mapValues]
      · refine ⟨h.now,h.sizes,h.capacity,?_⟩
        show (foresee sched item.1 now (s.policy.insert item.1 item.2 now s.probe)).kind.Keeps _ _ _
        rw [(foresee_frame sched item.1 now _).1]
        exact h.keeps

include h in
theorem evictRequest_retimed : (s.retimed f frame).evictRequest keys = s.evictRequest keys := by
  have hchain := h.keeps.admission s.policy rfl (s.missing keys)
  have hprobe : (s.retimed f frame).probe = frame.probe := rfl
  rw [evictRequest,evictRequest,missing_retimed keys h.sizes,freeRoom_retimed h.capacity,hprobe]
  simp only [retimed,hchain]

include h in
theorem storeBatchToHost_retimed (hf : StrictMono f) :
    (s.retimed f frame).storeBatchToHost keys (f now) (sched.retimed f) =
      (s.storeBatchToHost keys now sched).retimed f frame := by
  rw [storeBatchToHost,storeBatchToHost,evictRequest_retimed h]
  cases s.evictRequest keys with
  | none =>
    have hchain := h.keeps.admission s.policy rfl (s.missing keys)
    have hinsert : ∀ chain, insertFresh (f now) (sched.retimed f) (s.retimed f frame) s.freeRoom
        chain = (insertFresh now sched s s.freeRoom chain).retimed f frame :=
      insertFresh_retimed h sched hf s.freeRoom
    simp only [missing_retimed keys h.sizes,freeRoom_retimed h.capacity]
    rw [← hchain]
    exact hinsert _
  | some request =>
    obtain ⟨fresh,needed⟩ := request
    have hevict : (s.retimed f frame).policy.evict needed (fresh.map Prod.fst).toFinset (f now)
        (s.retimed f frame).probe =
          let r := s.policy.evict needed (fresh.map Prod.fst).toFinset now s.probe
          (r.1,r.2.retimed f) := h.keeps.evict s.policy rfl _ _ _
    have hkind : (s.policy.evict needed (fresh.map Prod.fst).toFinset now s.probe).2.kind =
        s.policy.kind := rfl
    simp only [hevict,freeRoom_retimed h.capacity]
    revert hkind
    cases s.policy.evict needed (fresh.map Prod.fst).toFinset now s.probe with
    | mk freed policy =>
      intro hkind
      cases freed with
      | none => rfl
      | some freed =>
        have hleft : freed.foldl leftHost { s.retimed f frame with policy := policy.retimed f } =
            (freed.foldl leftHost { s with policy := policy }).retimed f frame := by
          rw [foldl_leftHost,foldl_leftHost]
          simp only [retimed,h.now,Dict.mapValues_foldl_set]
        have hframes : Frames f frame (freed.foldl leftHost { s with policy := policy }) := by
          rw [foldl_leftHost]
          refine ⟨h.now,h.sizes,h.capacity,?_⟩
          show policy.kind.Keeps f s.probe frame.probe
          rw [hkind]
          exact h.keeps
        have hsizes : (s.retimed f frame).index.nbytesOf = s.index.nbytesOf := h.sizes
        simp only [hleft,hsizes]
        exact insertFresh_retimed hframes sched hf _ _

include h in
theorem touchHost_retimed : (s.retimed f frame).touchHost keys (f now) =
    (s.touchHost keys now).retimed f frame := by
  have htouched := h.keeps.touch rfl keys now
  rw [touchHost,touchHost,show (s.retimed f frame).probe = frame.probe from rfl]
  simp only [retimed,htouched]

theorem refreshOracle_retimed (hf : StrictMono f) :
    (s.retimed f frame).refreshOracle keys (f now) (sched.retimed f) =
      (s.refreshOracle keys now sched).retimed f frame := by
  have hpath : keys.foldl (fun entries key => entries.modify key fun e =>
        { e with nextUse := (sched.retimed f).next key (f now) }) (s.policy.entries.retimed f) =
      Entries.retimed f (keys.foldl (fun entries key => entries.modify key fun e =>
        { e with nextUse := sched.next key now }) s.policy.entries) := by
    apply List.foldl_hom
    intro entries key
    rw [Schedule.next_retimed hf]
    refine Eq.symm (Dict.mapValues_modify _ _ _ ?_)
    exact fun _ => rfl
  rw [refreshOracle,refreshOracle]
  simp only [retimed,TierPolicy.retimed,hpath]

theorem Frames.of_probe {s' : Simulator F} (h : Frames f frame s) (hprobe : s'.probe = s.probe)
    (hkind : s'.policy.kind = s.policy.kind) : Frames f frame s' where
  now := h.now.trans (congrArg (fun probe : Probe F => f probe.now) hprobe).symm
  sizes := h.sizes.trans (congrArg (fun probe : Probe F => probe.index.nbytesOf) hprobe).symm
  capacity := h.capacity.trans
    (congrArg (fun probe : Probe F => probe.tier.bytesCapacity) hprobe).symm
  keeps := by
    rw [hkind,hprobe]
    exact h.keeps

end Host

section Turn

variable {s t : Simulator F} (htiers : t = s.retimed f t) {turn turn' : Turn F}
  (hpath : t.path turn' = s.path turn)
include htiers

theorem observe_retimed : (t.observe turn').1 = (s.observe turn).1.retimed f (t.observe turn').1 :=
  congrArg (fun u : Simulator F => { u with
    index := (t.observe turn').1.index
    toolEta := (t.observe turn').1.toolEta
    now := (t.observe turn').1.now }) htiers

include hpath

theorem settled_retimed (hf : StrictMono f) (hnow : turn'.t = f turn.t)
    (hframes : Frames f (t.observe turn').1 (s.observe turn).1) (sched : Schedule F) :
    settled (sched.retimed f) t turn' =
      (settled sched s turn).retimed f (t.observe turn').1 := by
  let frame := (t.observe turn').1
  let filled := (s.observe turn).1.fillHbm (s.path turn)
  let stored := filled.storeBatchToHost (s.path turn) turn.t sched
  have hfilled : Frames f frame filled :=
    hframes.of_probe (fillHbm_probe _ _) (congrArg TierPolicy.kind (fillHbm_policy _ _))
  have hstored : Frames f frame stored :=
    hfilled.of_probe (storeBatchToHost_probe _ _ _ _) (storeBatchToHost_kind _ _ _ _).1
  have hfill := fillHbm_retimed (s.path turn) hframes.now hframes.sizes
  show (((frame.fillHbm (t.path turn')).storeBatchToHost (t.path turn') turn'.t
    (sched.retimed f)).touchHost (t.path turn') turn'.t).refreshOracle (t.path turn') turn'.t
      (sched.retimed f) = ((stored.touchHost (s.path turn) turn.t).refreshOracle (s.path turn)
        turn.t sched).retimed f frame
  rw [hpath,hnow,← refreshOracle_retimed _ sched hf,← touchHost_retimed hstored,
    ← storeBatchToHost_retimed hfilled _ sched hf,← hfill,← observe_retimed htiers]

end Turn

/-- The walk finds the same blocks in tiers that hold the same, whatever it calls thrash. -/
theorem scan_alike {s t : Simulator F} (hhbm : t.hbm = s.hbm)
    (hsizes : ∀ key, (t.policy.get key).map (·.nbytes) = (s.policy.get key).map (·.nbytes))
    (keys : List BlockKey) : (t.scan keys).cut = (s.scan keys).cut ∧
      (t.scan keys).restoreBytes = (s.scan keys).restoreBytes := by
  induction keys with
  | nil => exact ⟨rfl,rfl⟩
  | cons key keys ih =>
    have hsize := hsizes key
    rw [scan,scan,hhbm]
    split
    · exact ⟨congrArg (·+1) ih.1,ih.2⟩
    · cases hs : s.policy.get key with
      | none =>
        rw [hs,Option.map_none,Option.map_eq_none_iff] at hsize
        rw [hsize]
        exact ⟨rfl,rfl⟩
      | some entry =>
        rw [hs,Option.map_some,Option.map_eq_some_iff] at hsize
        obtain ⟨entry',hentry',hnbytes⟩ := hsize
        rw [hentry']
        exact ⟨congrArg (·+1) ih.1,congrArg₂ (·+·) hnbytes ih.2⟩

/-! The oracle's schedule. -/

/-- The body of the pass that builds the schedule. -/
def noteAccesses (cfg : SimConfig F) (sched : Schedule F) (turn : Turn F) : Schedule F :=
  ((PrefixIndex.new cfg.blockTokens cfg.cost : PrefixIndex F).chain turn.sessionId
    turn.promptTokens turn.sharedPrefixTokens s!"root:{turn.role}").foldl
      (fun sched part => sched.push part.key turn.t) sched

omit [Scalar F] in
theorem noteAccesses_retimed (cfg : SimConfig F) (sched : Schedule F) (turn : Turn F) :
    noteAccesses cfg (sched.retimed f) (turn.retimed f) = (noteAccesses cfg sched turn).retimed f :=
  (Dict.mapValues_foldl_push ChainPart.key (fun _ => turn.t) f _ sched).symm

theorem futureAccesses_retimed (hf : StrictMono f) (cfg : SimConfig F) (turns : List (Turn F)) :
    futureAccesses cfg (turns.map (Turn.retimed f)) = (futureAccesses cfg turns).retimed f := by
  have hpass : ∀ ordered : List (Turn F), (ordered.map (Turn.retimed f)).foldl (noteAccesses cfg)
      .empty = Schedule.retimed f (ordered.foldl (noteAccesses cfg) .empty) := by
    intro ordered
    rw [List.foldl_map]
    exact @List.foldl_hom _ _ _ (Schedule.retimed f) (noteAccesses cfg) _ ordered .empty
      fun sched turn => noteAccesses_retimed cfg sched turn
  have hsorted : ∀ times : List F, sortedBy id (times.map f) = (sortedBy id times).map f :=
    sortedBy_map fun _ _ => hf.le_iff_le
  show ((inOrder (turns.map (Turn.retimed f))).foldl (noteAccesses cfg) .empty).mapValues
      (fun _ times => sortedBy id times) =
    Schedule.retimed f (((inOrder turns).foldl (noteAccesses cfg) .empty).mapValues
      fun _ times => sortedBy id times)
  rw [inOrder_retimed hf,hpass]
  unfold Schedule.retimed
  simp only [Dict.mapValues_mapValues,hsorted]

theorem schedule_retimed (hf : StrictMono f) (s : Simulator F) (turns : List (Turn F)) :
    s.schedule (turns.map (Turn.retimed f)) = (s.schedule turns).retimed f := by
  unfold schedule
  split
  · exact futureAccesses_retimed hf s.cfg turns
  · rfl

end Simulator
end ContextResidency
