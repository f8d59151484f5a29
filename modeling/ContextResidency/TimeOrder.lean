import ContextResidency.Retiming
import ContextResidency.RoleReport
import ContextResidency.WorkingSet

/-! Recency, frequency and clairvoyance read only the order of the turns. A trace stretched,
squeezed or moved in time, in whatever way keeps its order, makes these policies take the same
decisions: what is recomputed, restored, evicted and dropped is the same, and only the waits
and the idle times behind the thrash count are not. -/
namespace ContextResidency

variable {F : Type} [Scalar F]

def BlockInfo.timeless (info : BlockInfo F) : BlockInfo F :=
  { info with createdAt := 0, lastUse := 0, iatEma := none }

def PrefixIndex.timeless (index : PrefixIndex F) : PrefixIndex F :=
  { index with
    blocks := index.blocks.mapValues fun _ => BlockInfo.timeless
    sessionLastSeen := index.sessionLastSeen.mapValues fun _ _ => 0 }

namespace PrefixIndex

variable (index : PrefixIndex F) (sessionId role : String) (now : F)

theorem get_timeless (key : BlockKey) :
    index.timeless.blocks.get key = (index.blocks.get key).map BlockInfo.timeless :=
  Dict.get_mapValues _ _ _

theorem tokensOf_timeless : index.timeless.tokensOf = index.tokensOf := by
  funext key
  rw [tokensOf,tokensOf,get_timeless]
  cases index.blocks.get key <;> rfl

theorem nbytesOf_timeless : index.timeless.nbytesOf = index.nbytesOf := by
  funext key
  rw [nbytesOf,nbytesOf,get_timeless]
  cases index.blocks.get key <;> rfl

/-- At the origin of the clock a use leaves no time behind. -/
theorem registerPart_timeless (item : ChainPart × ℕ) :
    registerPart sessionId role 0 index.timeless item =
      (registerPart sessionId role now index item).timeless := by
  unfold registerPart timeless
  simp only [Dict.mapValues_set,mk.injEq,true_and,and_true]
  congr 1
  unfold recordFor
  simp only [Dict.get_mapValues]
  cases index.blocks.get item.1.key with
  | none => simp [BlockInfo.timeless,BlockInfo.observeUse]
  | some info =>
    by_cases hgrown : info.tokens < item.1.tokens <;>
      simp [BlockInfo.timeless,BlockInfo.observeUse,hgrown]

theorem discardRef_timeless (key : BlockKey) :
    discardRef sessionId index.timeless key = (discardRef sessionId index key).timeless := by
  unfold discardRef timeless
  simp only [mk.injEq,true_and,and_true]
  refine Eq.symm (Dict.mapValues_modify _ _ _ ?_)
  exact fun _ => rfl

theorem touchPath_timeless (promptTokens sharedPrefixTokens : ℤ) (aborted : Bool) :
    index.timeless.touchPath sessionId role promptTokens sharedPrefixTokens 0 aborted =
      let r := index.touchPath sessionId role promptTokens sharedPrefixTokens now aborted
      (r.1.timeless,r.2) := by
  have hregister : ∀ (items : List (ChainPart × ℕ)) (index : PrefixIndex F),
      items.foldl (registerPart sessionId role 0) index.timeless =
        (items.foldl (registerPart sessionId role now) index).timeless := fun items index =>
    List.foldl_hom timeless fun index item => registerPart_timeless index sessionId role now item
  have hdiscard : ∀ (keys : List BlockKey) (index : PrefixIndex F),
      keys.foldl (discardRef sessionId) index.timeless =
        (keys.foldl (discardRef sessionId) index).timeless := fun keys index =>
    List.foldl_hom timeless fun index key => discardRef_timeless index sessionId key
  unfold touchPath
  simp only [← hdiscard]
  congr 2
  rw [← hregister]
  congr 1
  unfold timeless
  simp only [Dict.mapValues_set]
  rfl

end PrefixIndex

/-- The policies that read times only to order them. -/
def PolicyKind.ordinal : PolicyKind F → Bool
  | .lru => true
  | .lfu => true
  | .oracle => true
  | _ => false

theorem PolicyKind.keeps_of_ordinal {f : F → F} (hf : StrictMono f) {kind : PolicyKind F}
    (h : kind.ordinal = true) (p q : Probe F) : kind.Keeps f p q := by
  constructor
  case admission =>
    rintro ⟨kind,capacity,entries⟩ rfl items
    cases kind <;> first | rfl | cases h
  case expiry =>
    rintro ⟨kind,capacity,entries⟩ rfl key nbytes now
    cases kind <;> first | rfl | cases h
  case evict =>
    rintro policy rfl neededBytes protectedKeys now
    have hkind : ∀ horizonS priors, policy.kind ≠ .adaptiveValue horizonS priors := by
      intro horizonS priors hvalue
      rw [hvalue] at h
      cases h
    have hentries := policy.evictEntries_retimed hf hkind neededBytes protectedKeys now p q
    unfold TierPolicy.evict
    rw [hentries]
    rfl

/-- What a turn costs, without when it came and how long it waited. -/
def TurnMetric.work (m : TurnMetric F) : TurnMetric F := { m with t := 0, ttftS := 0, e2eS := 0 }

/-- Reports of the same work: they agree but for the clock, the waits and the thrash. -/
structure Report.SameWork (r r' : Report F) : Prop where
  rest : r' = { r with windowS := r'.windowS, thrash := r'.thrash, perRole := r'.perRole }
  roles : ∀ role, Option.Rel (fun stats stats' : RoleStats F =>
    stats'.n = stats.n ∧ stats'.recomputeKtok = stats.recomputeKtok)
      (r.perRole.get role) (r'.perRole.get role)

namespace Simulator

/-- A replay and its retimed replay, in the middle of a run. -/
structure SameOrder (f : F → F) (s t : Simulator F) : Prop where
  settings : t.cfg = s.cfg
  ram : t.ramTier = s.ramTier
  ordinal : s.policy.kind.ordinal = true
  tiers : t = s.retimed f t
  index : t.index.timeless = s.index.timeless
  work : t.metrics.map TurnMetric.work = s.metrics.map TurnMetric.work
  peak : t.peakRam = s.peakRam

section Step

variable {f : F → F} {s t : Simulator F} (h : SameOrder f s t) (turn : Turn F)
include h

theorem SameOrder.seen :
    (t.seenIndex (turn.retimed f)).timeless = (s.seenIndex turn).timeless ∧
      t.path (turn.retimed f) = s.path turn := by
  have hs := s.index.touchPath_timeless turn.sessionId turn.role turn.t turn.promptTokens
    turn.sharedPrefixTokens turn.aborted
  have ht := t.index.touchPath_timeless turn.sessionId turn.role (f turn.t) turn.promptTokens
    turn.sharedPrefixTokens turn.aborted
  rw [h.index] at ht
  exact Prod.mk.inj (ht.symm.trans hs)

theorem SameOrder.frames (hf : StrictMono f) :
    Frames f (t.observe (turn.retimed f)).1 (s.observe turn).1 where
  now := rfl
  sizes := by
    have hsizes := congrArg PrefixIndex.nbytesOf (h.seen turn).1
    rwa [PrefixIndex.nbytesOf_timeless,PrefixIndex.nbytesOf_timeless] at hsizes
  capacity := congrArg TierConfig.bytesCapacity h.ram
  keeps := PolicyKind.keeps_of_ordinal hf h.ordinal _ _

theorem SameOrder.found : (t.found (turn.retimed f)).cut = (s.found turn).cut ∧
    (t.found (turn.retimed f)).restoreBytes = (s.found turn).restoreBytes := by
  have hsizes : ∀ key, (t.policy.get key).map (·.nbytes) = (s.policy.get key).map (·.nbytes) := by
    intro key
    have hpolicy : t.policy = s.policy.retimed f := congrArg Simulator.policy h.tiers
    rw [hpolicy,TierPolicy.get_retimed,Option.map_map]
    rfl
  have hhbm : t.hbm = s.hbm := (congrArg Simulator.hbm h.tiers :)
  have hfound : t.found (turn.retimed f) = (t.observe (turn.retimed f)).1.scan (s.path turn) :=
    congrArg (t.observe (turn.retimed f)).1.scan (h.seen turn).2
  rw [hfound]
  exact @scan_alike _ _ (s.observe turn).1 (t.observe (turn.retimed f)).1 hhbm hsizes (s.path turn)

theorem SameOrder.recomputeTokens :
    t.recomputeTokens (turn.retimed f) = s.recomputeTokens turn := by
  have htokens := congrArg PrefixIndex.tokensOf (h.seen turn).1
  rw [PrefixIndex.tokensOf_timeless,PrefixIndex.tokensOf_timeless] at htokens
  show (((t.path (turn.retimed f)).drop (t.found (turn.retimed f)).cut).map
    (t.seenIndex (turn.retimed f)).tokensOf).sum = _
  rw [(h.seen turn).2,(h.found turn).1,htokens]
  rfl

theorem SameOrder.metric : (t.metric (turn.retimed f)).work = (s.metric turn).work := by
  simp only [Simulator.metric,TurnMetric.work,h.recomputeTokens turn,(h.found turn).2,h.ram]
  rfl

theorem SameOrder.one (hf : StrictMono f) (sched : Schedule F) :
    SameOrder f (one sched s turn) (one (sched.retimed f) t (turn.retimed f)) := by
  have hsettled := settled_retimed h.tiers (h.seen turn).2 hf rfl (h.frames turn hf) sched
  constructor
  case settings => rw [one_cfg,one_cfg,h.settings]
  case ram => rw [one_ramTier,one_ramTier,h.ram]
  case ordinal => rw [one_kind s turn sched,h.ordinal]
  case tiers =>
    unfold Simulator.one
    rw [hsettled]
    rfl
  case index =>
    rw [one_index,one_index]
    exact (h.seen turn).1
  case work =>
    rw [one_metrics,one_metrics,List.map_append,List.map_append,h.work,List.map_singleton,
      h.metric turn]
    rfl
  case peak =>
    unfold Simulator.one
    rw [hsettled,h.peak]
    simp only [retimed,TierPolicy.occupancy_retimed]

end Step

theorem start_sameOrder (f : F → F) (cfg : SimConfig F) {kind : PolicyKind F}
    (hkind : kind.ordinal = true) (ram : TierConfig F) :
    SameOrder f (start cfg kind ram) (start cfg kind ram) :=
  ⟨rfl,rfl,hkind,rfl,rfl,rfl,rfl⟩

theorem SameOrder.exec {f : F → F} (hf : StrictMono f) {s t : Simulator F} (h : SameOrder f s t)
    (sched : Schedule F) (turns : List (Turn F)) :
    SameOrder f (exec sched s turns) (exec (sched.retimed f) t (turns.map (Turn.retimed f))) := by
  induction turns generalizing s t with
  | nil => exact h
  | cons turn turns ih => exact ih (h.one turn hf sched)

theorem SameOrder.finalize {f : F → F} {s t : Simulator F} (h : SameOrder f s t) :
    s.finalize.SameWork t.finalize := by
  have hmap : ∀ {A : Type} (g : TurnMetric F → A), (∀ m, g m.work = g m) →
      t.metrics.map g = s.metrics.map g := by
    intro A g hg
    have hwork := congrArg (List.map g) h.work
    simpa only [List.map_map,Function.comp_def,hg] using hwork
  have hinvalidations : t.index.invalidations = s.index.invalidations :=
    (congrArg PrefixIndex.invalidations h.index :)
  constructor
  case rest =>
    have hlength := congrArg List.length (hmap (·.role) fun _ => rfl)
    rw [List.length_map,List.length_map] at hlength
    have hrecompute := hmap (·.recomputeTokens) fun _ => rfl
    have hrestore := hmap (·.restoreBytes) fun _ => rfl
    have hprompt := hmap (·.promptTokens) fun _ => rfl
    simp only [Simulator.finalize,hlength,hrecompute,hrestore,hprompt,hinvalidations,h.settings,
      h.ram,h.peak]
    rw [h.tiers]
    rfl
  case roles =>
    intro role
    have hitems : (t.metrics.filter fun m => m.role = role).map TurnMetric.work =
        (s.metrics.filter fun m => m.role = role).map TurnMetric.work := by
      have hwork := congrArg (List.filter fun m => m.role = role) h.work
      rwa [List.filter_map,List.filter_map] at hwork
    have hlength := congrArg List.length hitems
    rw [List.length_map,List.length_map] at hlength
    have hrecompute : (t.metrics.filter fun m => m.role = role).map (·.recomputeTokens) =
        (s.metrics.filter fun m => m.role = role).map (·.recomputeTokens) := by
      have htokens := congrArg (List.map (·.recomputeTokens)) hitems
      rwa [List.map_map,List.map_map] at htokens
    rw [perRole_get,perRole_get]
    simp only [← List.length_eq_zero_iff,hlength]
    split
    · exact .none
    · exact .some ⟨congrArg Nat.cast hlength,by simp only [statsOf,hrecompute]⟩

end Simulator

open Simulator in
/-- Only the order of the turns matters to recency, to frequency and to clairvoyance: under
any retiming of a trace that keeps the order these policies recompute, restore and evict the
same, and report the same but for the time of the last turn, the waits and the thrash. -/
theorem runPolicy_retimed (cfg : SimConfig F) {ram : TierConfig F}
    (hram : cfg.tier "ram" = some ram) {f : F → F} (hf : StrictMono f) {name : String}
    (hname : name ∈ ["lru","lfu","oracle"]) (turns : List (Turn F)) :
    ∃ r r' : Report F, runPolicy cfg turns name = .ok r ∧
      runPolicy cfg (turns.map (Turn.retimed f)) name = .ok r' ∧ r.SameWork r' := by
  obtain ⟨p,hp,hordinal,rfl⟩ : ∃ p ∈ POLICIES (F := F), p.2.ordinal = true ∧ p.1 = name := by
    simp only [List.mem_cons,List.not_mem_nil,or_false] at hname
    rcases hname with rfl | rfl | rfl
    · exact ⟨("lru",.lru),by simp [POLICIES,PolicyKind.name],rfl,rfl⟩
    · exact ⟨("lfu",.lfu),by simp [POLICIES,PolicyKind.name],rfl,rfl⟩
    · exact ⟨("oracle",.oracle),by simp [POLICIES,PolicyKind.name],rfl,rfl⟩
  have hlast := (start_sameOrder f cfg hordinal ram).exec hf ((start cfg p.2 ram).schedule turns)
    (inOrder turns)
  refine ⟨_,_,(runPolicy_name hram turns hp).trans (run_start cfg p.2 ram turns),?_,hlast.finalize⟩
  rw [runPolicy_name hram _ hp,run_start,inOrder_retimed hf,schedule_retimed hf]

/-- Two sessions by a clock that counts hundredths of a second and started an hour earlier. -/
theorem runPolicy_retimed_small :
    let turns := [ask 1 "a" 2000,ask 2 "b" 1000,ask 4 "a" 2000]
    ∃ r r' : Report ℚ, runPolicy (smallConfig 1000 2000) turns "oracle" = .ok r ∧
      runPolicy (smallConfig 1000 2000) (turns.map (Turn.retimed fun t => 100*t+360000)) "oracle" =
        .ok r' ∧ r.SameWork r' :=
  runPolicy_retimed (smallConfig 1000 2000) (show _ = some (smallRam 2000) from rfl)
    (fun _ _ hlt => by linarith) (by simp) _

end ContextResidency
