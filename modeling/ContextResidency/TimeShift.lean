import ContextResidency.Retiming

/-! Every time of a replay moved by the same amount. The index, the probe and the policies
read times only against each other, so they commute with the move; the one exception is the
first use of a block, which the index tells from a later one by the truth value of a time. -/
namespace ContextResidency

variable {F : Type} [Scalar F]

def Turn.shift (c : F) (turn : Turn F) : Turn F := { turn with t := turn.t+c }

def BlockInfo.shift (c : F) (info : BlockInfo F) : BlockInfo F :=
  { info with createdAt := info.createdAt+c, lastUse := info.lastUse+c }

def PrefixIndex.shift (c : F) (index : PrefixIndex F) : PrefixIndex F :=
  { index with
    blocks := index.blocks.mapValues fun _ => BlockInfo.shift c
    sessionLastSeen := index.sessionLastSeen.mapValues fun _ seen => seen+c }

def Probe.shift (c : F) (probe : Probe F) : Probe F :=
  { probe with index := probe.index.shift c, now := probe.now+c }

abbrev shiftItem (c : F) : BlockKey × Entry F → BlockKey × Entry F := retimedItem (·+c)

abbrev Entries.shift (c : F) (entries : Entries F) : Entries F := entries.retimed (·+c)

abbrev TierPolicy.shift (c : F) (policy : TierPolicy F) : TierPolicy F := policy.retimed (·+c)

namespace PrefixIndex

/-- No block was used last at the origin of either clock. -/
def Timed (c : F) (index : PrefixIndex F) : Prop :=
  ∀ key info, index.blocks.get key = some info → info.lastUse ≠ 0 ∧ info.lastUse+c ≠ 0

theorem new_timed (c : F) (blockTokens : ℤ) (cost : CostModel F) :
    (new blockTokens cost).Timed c := by
  intro key info h
  cases h

theorem get_shift (c : F) (index : PrefixIndex F) (key : BlockKey) :
    (index.shift c).blocks.get key = (index.blocks.get key).map (BlockInfo.shift c) :=
  Dict.get_mapValues _ _ _

@[simp] theorem tokensOf_shift (c : F) (index : PrefixIndex F) :
    (index.shift c).tokensOf = index.tokensOf := by
  funext key
  rw [tokensOf,tokensOf,get_shift]
  cases index.blocks.get key <;> rfl

@[simp] theorem nbytesOf_shift (c : F) (index : PrefixIndex F) :
    (index.shift c).nbytesOf = index.nbytesOf := by
  funext key
  rw [nbytesOf,nbytesOf,get_shift]
  cases index.blocks.get key <;> rfl

section Touch

variable {c : F} {index : PrefixIndex F} (h : index.Timed c) {now : F} (hnow : now ≠ 0)
  (hnow' : now+c ≠ 0) (sessionId role : String)
include h

theorem registerPart_shift (item : ChainPart × ℕ) :
    registerPart sessionId role (now+c) (index.shift c) item =
      (registerPart sessionId role now index item).shift c := by
  unfold registerPart shift
  simp only [Dict.mapValues_set,mk.injEq,true_and,and_true]
  congr 1
  unfold recordFor
  simp only [Dict.get_mapValues]
  cases hget : index.blocks.get item.1.key with
  | none => simp [BlockInfo.shift,BlockInfo.observeUse]
  | some info =>
    obtain ⟨hused,hused'⟩ := h item.1.key info hget
    have hgap : now+c-(info.lastUse+c) = now-info.lastUse := by ring
    by_cases hgrown : info.tokens < item.1.tokens <;>
      simp [BlockInfo.shift,BlockInfo.observeUse,hgrown,hused,hused',hgap]

include hnow hnow' in
theorem registerPart_timed (item : ChainPart × ℕ) :
    (registerPart sessionId role now index item).Timed c := by
  intro key info hget
  simp only [registerPart,Dict.get_set] at hget
  split at hget
  · cases hget
    exact ⟨hnow,hnow'⟩
  · exact h key info hget

theorem discardRef_timed (key : BlockKey) : (index.discardRef sessionId key).Timed c := by
  intro key' info hget
  simp only [discardRef,Dict.get_modify] at hget
  split at hget
  · obtain ⟨info',hinfo,rfl⟩ := Option.map_eq_some_iff.mp hget
    exact h key info' hinfo
  · exact h key' info hget

end Touch

theorem discardRef_shift (c : F) (index : PrefixIndex F) (sessionId : String) (key : BlockKey) :
    (index.shift c).discardRef sessionId key = (index.discardRef sessionId key).shift c := by
  unfold discardRef shift
  simp only [mk.injEq,true_and,and_true]
  refine Eq.symm (Dict.mapValues_modify _ _ _ ?_)
  exact fun _ => rfl

theorem touchPath_shift {c : F} {index : PrefixIndex F} (h : index.Timed c) {now : F}
    (hnow : now ≠ 0) (hnow' : now+c ≠ 0) (sessionId role : String)
    (promptTokens sharedPrefixTokens : ℤ) (aborted : Bool) :
    (index.shift c).touchPath sessionId role promptTokens sharedPrefixTokens (now+c) aborted =
      let r := index.touchPath sessionId role promptTokens sharedPrefixTokens now aborted
      (r.1.shift c,r.2) := by
  have hregister : ∀ (parts : List (ChainPart × ℕ)) (index : PrefixIndex F), index.Timed c →
      parts.foldl (registerPart sessionId role (now+c)) (index.shift c) =
        (parts.foldl (registerPart sessionId role now) index).shift c := by
    intro parts
    induction parts with
    | nil => exact fun _ _ => rfl
    | cons part parts ih =>
      intro index h
      rw [List.foldl_cons,List.foldl_cons,registerPart_shift h]
      exact ih _ (registerPart_timed h hnow hnow' sessionId role part)
  have hdiscard : ∀ (keys : List BlockKey) (index : PrefixIndex F),
      keys.foldl (discardRef sessionId) (index.shift c) =
        (keys.foldl (discardRef sessionId) index).shift c := fun keys index =>
    List.foldl_hom (shift c) fun index key => discardRef_shift c index sessionId key
  unfold touchPath
  simp only [← hdiscard]
  congr 2
  rw [← hregister]
  · congr 1
    unfold shift
    simp only [Dict.mapValues_set]
    rfl
  · exact h

theorem touchPath_timed {c : F} {index : PrefixIndex F} (h : index.Timed c) {now : F}
    (hnow : now ≠ 0) (hnow' : now+c ≠ 0) (sessionId role : String)
    (promptTokens sharedPrefixTokens : ℤ) (aborted : Bool) :
    (index.touchPath sessionId role promptTokens sharedPrefixTokens now aborted).1.Timed c := by
  refine List.foldlRecOn (motive := Timed c) _ _ ?_ fun _ h key _ => discardRef_timed h sessionId key
  exact List.foldlRecOn (motive := Timed c) _ _ h
    fun _ h part _ => registerPart_timed h hnow hnow' sessionId role part

@[simp] theorem liveLeases_shift (c : F) (index : PrefixIndex F) (key : BlockKey)
    (now staleAfter : F) :
    (index.shift c).liveLeases key (now+c) staleAfter = index.liveLeases key now staleAfter := by
  unfold liveLeases
  rw [get_shift]
  cases index.blocks.get key with
  | none => rfl
  | some info =>
    refine Finset.filter_congr fun sessionId _ => ?_
    rw [shift,Dict.get_mapValues]
    cases index.sessionLastSeen.get sessionId with
    | none => rfl
    | some seen =>
      have hgap : now+c-(seen+c) = now-seen := by ring
      simp only [Option.map_some,Option.all_some,hgap]

@[simp] theorem liveReuseProb_shift (c : F) (index : PrefixIndex F) (key : BlockKey)
    (now horizon : F) :
    (index.shift c).liveReuseProb key (now+c) horizon = index.liveReuseProb key now horizon := by
  unfold liveReuseProb
  rw [get_shift,liveLeases_shift]
  cases index.blocks.get key with
  | none => rfl
  | some info => simp [BlockInfo.shift]

end PrefixIndex

namespace Probe

variable (c : F) (probe : Probe F) (key : BlockKey)

@[simp] theorem sessionEta_shift : (probe.shift c).sessionEta key = probe.sessionEta key := by
  unfold sessionEta
  rw [show (probe.shift c).index.liveLeases key (probe.shift c).now =
    probe.index.liveLeases key probe.now from PrefixIndex.liveLeases_shift c _ _ _ _]
  rfl

@[simp] theorem reuseProb_shift (priors : Dict String F) (useHints : Bool) :
    (probe.shift c).reuseProb key priors useHints = probe.reuseProb key priors useHints := by
  unfold reuseProb
  rw [sessionEta_shift]
  simp only [shift,PrefixIndex.liveReuseProb_shift,PrefixIndex.get_shift]
  cases probe.index.blocks.get key with
  | none => rfl
  | some info => simp [BlockInfo.shift]

@[simp] theorem chainBytes_shift : (probe.shift c).chainBytes key = probe.chainBytes key := by
  unfold chainBytes
  simp only [shift,PrefixIndex.nbytesOf_shift,PrefixIndex.get_shift]
  cases probe.index.blocks.get key <;> rfl

end Probe

namespace AdaptiveValuePolicy

variable (horizonS : F) (priors : Dict String F) (c : F) (probe : Probe F)

@[simp] theorem density_shift (key : BlockKey) (nbytes : ℤ) :
    density horizonS priors key nbytes (probe.shift c) =
      density horizonS priors key nbytes probe := by
  have hprobe : { probe.shift c with horizonS := horizonS } =
      ({ probe with horizonS := horizonS } : Probe F).shift c := rfl
  unfold density
  rw [hprobe,Probe.reuseProb_shift]
  rfl

theorem chainOf_shift (key : BlockKey) (now : F) :
    chainOf key (now+c) (probe.shift c) = chainOf key now probe := by
  unfold chainOf
  rw [show (probe.shift c).index.liveLeases key (now+c) = probe.index.liveLeases key now from
    PrefixIndex.liveLeases_shift c _ _ _ _]
  simp only [Probe.shift,PrefixIndex.get_shift]
  cases probe.index.blocks.get key <;> rfl

theorem depth_shift (key : BlockKey) : depth key (probe.shift c) = depth key probe := by
  unfold depth
  simp only [Probe.shift,PrefixIndex.get_shift]
  cases probe.index.blocks.get key <;> rfl

theorem sharedRank_shift (chain : List (BlockKey × Entry F)) :
    sharedRank (chain.map (shiftItem c)) (probe.shift c) = sharedRank chain probe := by
  have hshared : ∀ p : BlockKey × Entry F,
      (((probe.shift c).index.blocks.get (shiftItem c p).1).map (·.shared)).getD false =
        ((probe.index.blocks.get p.1).map (·.shared)).getD false := by
    intro p
    simp only [Probe.shift,retimedItem,PrefixIndex.get_shift]
    cases probe.index.blocks.get p.1 <;> rfl
  unfold sharedRank
  simp only [List.all_map,Function.comp_def,hshared]

theorem chainDensity_shift (chain : List (BlockKey × Entry F)) :
    chainDensity horizonS priors (chain.map (shiftItem c)) (probe.shift c) =
      chainDensity horizonS priors chain probe := by
  unfold chainDensity
  simp only [List.map_map,Function.comp_def,retimedItem,density_shift]
  rfl

theorem chains_shift (now : F) (candidates : List (BlockKey × Entry F)) :
    chains (now+c) (probe.shift c) (candidates.map (shiftItem c)) =
      (chains now probe candidates).mapValues fun _ => List.map (shiftItem c) := by
  have hgroups := Dict.mapValues_foldl_push (fun p => chainOf p.1 now probe) id (shiftItem c)
    candidates .empty
  rw [chains,chains,List.foldl_map]
  refine Eq.trans ?_ hgroups.symm
  congr 1
  funext groups p
  exact congrArg (Dict.push groups · (shiftItem c p)) (chainOf_shift c probe p.1 now)

theorem dropChain_shift (neededBytes freed : ℤ) (chain : List (BlockKey × Entry F)) :
    dropChain neededBytes freed (chain.map (shiftItem c)) = dropChain neededBytes freed chain := by
  induction chain generalizing freed with
  | nil => rfl
  | cons e chain ih =>
    rw [List.map_cons,dropChain,dropChain,ih]
    rfl

theorem dropChains_shift (neededBytes freed : ℤ) (groups : List (List (BlockKey × Entry F))) :
    dropChains neededBytes (probe.shift c) freed (groups.map (List.map (shiftItem c))) =
      dropChains neededBytes probe freed groups := by
  induction groups generalizing freed with
  | nil => rfl
  | cons chain groups ih =>
    have hleaves : sortedBy (fun p => OrderDual.toDual (depth p.1 (probe.shift c)))
        (chain.map (shiftItem c)) =
          (sortedBy (fun p => OrderDual.toDual (depth p.1 probe)) chain).map (shiftItem c) := by
      refine sortedBy_map (fun p q => ?_) chain
      rw [depth_shift,depth_shift]
      rfl
    rw [List.map_cons,dropChains,dropChains,hleaves,dropChain_shift,ih]

theorem evict_shift (entries : Entries F) (now : F) (neededBytes : ℤ)
    (protectedKeys : Finset BlockKey) :
    evict horizonS priors (entries.shift c) (now+c) (probe.shift c) neededBytes protectedKeys =
      let r := evict horizonS priors entries now probe neededBytes protectedKeys
      (r.1,r.2.shift c) := by
  have hrank : ∀ groups : List (List (BlockKey × Entry F)),
      sortedBy (fun g => toLex (sharedRank g (probe.shift c),
          chainDensity horizonS priors g (probe.shift c))) (groups.map (List.map (shiftItem c))) =
        (sortedBy (fun g => toLex (sharedRank g probe,chainDensity horizonS priors g probe))
          groups).map (List.map (shiftItem c)) := by
    refine sortedBy_map fun g g' => ?_
    simp only [sharedRank_shift,chainDensity_shift]
  have hvalues : ∀ groups : Dict String (List (BlockKey × Entry F)),
      (groups.mapValues fun _ => List.map (shiftItem c)).values =
        groups.values.map (List.map (shiftItem c)) := by
    intro groups
    simp [Dict.values,Function.comp_def]
  have hkept : expire (entries.shift c) (now+c) = (expire entries now).shift c :=
    expire_retimed entries now add_left_strictMono
  have hcandidates : ((expire entries now).shift c).items.filter (fun p => p.1 ∉ protectedKeys) =
      ((expire entries now).items.filter fun p => p.1 ∉ protectedKeys).map (shiftItem c) :=
    filter_retimedItem (fun k => k ∉ protectedKeys) _
  unfold evict
  simp only [hkept,hcandidates,List.map_eq_nil_iff,chains_shift,hvalues,hrank,dropChains_shift]
  split
  · rfl
  · exact Prod.ext rfl (Dict.mapValues_eraseAll _ _ _).symm

theorem admitChain_shift (capacity : ℤ) (entries : Entries F) (items : List (BlockKey × ℤ)) :
    admitChain horizonS priors capacity (entries.shift c) items (probe.shift c) =
      admitChain horizonS priors capacity entries items probe := by
  unfold admitChain
  simp only [density_shift,Entries.items_retimed,List.map_map,Function.comp_def]
  rw [show (entries.shift c).sumBy (fun _ e => e.nbytes) = entries.sumBy fun _ e => e.nbytes from
    Dict.sumBy_mapValues _ _ _]
  rfl

end AdaptiveValuePolicy

namespace TierPolicy

variable (c : F) (policy : TierPolicy F)

theorem expiry_shift (key : BlockKey) (nbytes : ℤ) (now : F) (probe : Probe F) :
    (policy.shift c).expiry key nbytes (now+c) (probe.shift c) =
      retimeTop (·+c) (policy.expiry key nbytes now probe) := by
  obtain ⟨kind,capacity,entries⟩ := policy
  cases kind with
  | fixedTtl baseS perGibS =>
    show ((now+c+baseS+perGibS*(nbytes/1024^3) : F) : WithTop F) =
      ((now+baseS+perGibS*(nbytes/1024^3)+c : F) : WithTop F)
    congr 1
    ring
  | continuumTtl k minS maxS =>
    simp only [expiry,retimed,Probe.chainBytes_shift,Probe.sessionEta_shift,retimeTop,
      WithTop.map_coe]
    congr 1
    rw [show (probe.shift c).recomputeSeconds = probe.recomputeSeconds from rfl]
    ring
  | lru => rfl
  | lfu => rfl
  | adaptiveValue horizonS priors => rfl
  | oracle => rfl

theorem admitChain_shift (items : List (BlockKey × ℤ)) (probe : Probe F) :
    (policy.shift c).admitChain items (probe.shift c) = policy.admitChain items probe := by
  obtain ⟨kind,capacity,entries⟩ := policy
  cases kind with
  | adaptiveValue horizonS priors =>
    exact AdaptiveValuePolicy.admitChain_shift horizonS priors c probe capacity entries items
  | lru => rfl
  | lfu => rfl
  | fixedTtl => rfl
  | continuumTtl => rfl
  | oracle => rfl

theorem evict_shift (neededBytes : ℤ) (protectedKeys : Finset BlockKey) (now : F)
    (probe : Probe F) :
    (policy.shift c).evict neededBytes protectedKeys (now+c) (probe.shift c) =
      let r := policy.evict neededBytes protectedKeys now probe
      (r.1,r.2.shift c) := by
  have hentries : (policy.shift c).evictEntries neededBytes protectedKeys (now+c) (probe.shift c) =
      let r := policy.evictEntries neededBytes protectedKeys now probe
      (r.1,r.2.shift c) := by
    by_cases hvalue : ∃ horizonS priors, policy.kind = .adaptiveValue horizonS priors
    · obtain ⟨kind,capacity,entries⟩ := policy
      obtain ⟨horizonS,priors,rfl⟩ := hvalue
      exact AdaptiveValuePolicy.evict_shift horizonS priors c probe entries now _ _
    · exact policy.evictEntries_retimed (add_left_strictMono (a := c))
        (fun horizonS priors h => hvalue ⟨horizonS,priors,h⟩) _ _ _ _ _
  unfold evict
  rw [hentries]
  rfl

end TierPolicy

/-- Moved in time, every policy decides as before. -/
theorem PolicyKind.keeps_shift (c : F) (kind : PolicyKind F) (probe : Probe F) :
    kind.Keeps (·+c) probe (probe.shift c) where
  admission := fun policy _ items => policy.admitChain_shift c items probe
  expiry := fun policy _ key nbytes now => policy.expiry_shift c key nbytes now probe
  evict := fun policy _ neededBytes protectedKeys now =>
    policy.evict_shift c neededBytes protectedKeys now probe

end ContextResidency
