import ContextResidency.StoreStep
import ContextResidency.PrefillRate

/-! The admission gate of the adaptive policy. Below its threshold it lets every chain in, and
above it a chain that is worth some occupant. A byte saves the same time in every block, so
the comparison is one of reuse probabilities. The room that is left plays no part in it, and a
block that no session leases any more keeps a price. -/
namespace ContextResidency

variable {F : Type} [Scalar F]

namespace AdaptiveValuePolicy

/-- Seconds that a byte saves once it is resident, none when recomputing it is no slower. -/
def byteGain (probe : Probe F) : F := max 0 (savedPerByte probe.cost probe.tier)

variable (horizonS : F) (priors : Dict String F)

def ownView (probe : Probe F) : Probe F := { probe with horizonS := horizonS }

theorem density_eq {nbytes : ℤ} (h : 0 ≤ nbytes) (key : BlockKey) (probe : Probe F) :
    density horizonS priors key nbytes probe =
      if nbytes = 0 then 0
      else (ownView horizonS probe).reuseProb key priors*byteGain probe := by
  rw [density,saved_of_nonneg probe h]
  split_ifs with hzero
  · rw [hzero,Int.cast_zero,zero_mul,mul_zero,zero_div]
  · have hpos : 1 ≤ nbytes := by omega
    have hcast : (nbytes : F) ≠ 0 := by exact_mod_cast hzero
    rw [max_eq_right hpos]
    show (ownView horizonS probe).reuseProb key priors*(nbytes*byteGain probe)/nbytes = _
    field_simp

theorem density_mul {nbytes : ℤ} (h : 0 ≤ nbytes) (key : BlockKey) (probe : Probe F) :
    density horizonS priors key nbytes probe*nbytes =
      byteGain probe*((ownView horizonS probe).reuseProb key priors*nbytes) := by
  rw [density_eq horizonS priors h]
  split_ifs with hzero
  · rw [hzero,Int.cast_zero,mul_zero,mul_zero,mul_zero]
  · ring

/-- The density of a chain is its reuse probability times what a byte saves. -/
theorem incoming_eq {keys : List BlockKey} (probe : Probe F)
    (h : ∀ key ∈ keys, 0 ≤ probe.index.nbytesOf key) :
    ((keys.map fun key => (key,probe.index.nbytesOf key)).map fun p =>
        density horizonS priors p.1 p.2 probe*p.2).sum/
      (max 1 ((keys.map fun key => (key,probe.index.nbytesOf key)).map Prod.snd).sum : ℤ) =
      byteGain probe*(ownView horizonS probe).chainReuseProb keys priors := by
  have hsum : ((keys.map fun key => (key,probe.index.nbytesOf key)).map fun p =>
      density horizonS priors p.1 p.2 probe*p.2).sum = byteGain probe*
        (keys.map fun key => (ownView horizonS probe).reuseProb key priors*
          probe.index.nbytesOf key).sum := by
    rw [List.map_map,← List.sum_map_mul_left]
    refine congrArg List.sum (List.map_congr_left fun key hkey => ?_)
    exact density_mul horizonS priors (h key hkey) key probe
  rw [hsum,List.map_map,mul_div_assoc]
  rfl

/-- What the policy pays for a block whose sessions are all gone. Without history it is the
role prior, at any time. -/
def deadPrice (index : PrefixIndex F) (now : F) (key : BlockKey) : F :=
  match index.blocks.get key with
  | none => 0
  | some info => match info.iatEma with
    | none =>
      if priors.items = [] then 5/100
      else max ((priors.get (info.roles.min.untopD "?")).getD
        ((priors.get "default").getD (5/100))) (5/100)
    | some ema =>
      if ema ≤ 0 then 5/100
      else Scalar.exp (-max 0 (now-info.lastUse)/ema)*(1-Scalar.exp (-horizonS/ema))

theorem sessionEta_of_dead {probe : Probe F} {key : BlockKey}
    (hdead : probe.index.liveLeases key probe.now = ∅) : probe.sessionEta key = 0 := by
  rw [Probe.sessionEta,hdead,Finset.image_empty,Finset.max_empty,WithBot.unbotD_bot]

theorem reuseProb_of_dead {probe : Probe F} {key : BlockKey}
    (hdead : probe.index.liveLeases key probe.now = ∅) :
    (ownView horizonS probe).reuseProb key priors =
      deadPrice horizonS priors probe.index probe.now key := by
  have heta : (ownView horizonS probe).sessionEta key = 0 := sessionEta_of_dead hdead
  have hleases : (probe.index.liveLeases key probe.now).card = 0 := by
    rw [hdead,Finset.card_empty]
  simp only [Probe.reuseProb,deadPrice,PrefixIndex.liveReuseProb,heta,lt_irrefl,and_false,if_false]
  simp only [ownView,hleases]
  cases probe.index.blocks.get key with
  | none => rfl
  | some info =>
    cases hema : info.iatEma with
    | none => by_cases hpriors : priors.items = [] <;> simp [hpriors,hema]
    | some ema => simp [hema]

/-- Some occupant is worth no more than a chain of the given reuse probability. -/
def Outbids (entries : Entries F) (probe : Probe F) (prob : F) : Prop :=
  ∃ p ∈ entries.items,
    if p.2.nbytes = 0 then 0 ≤ prob else (ownView horizonS probe).reuseProb p.1 priors ≤ prob

theorem density_le_iff {nbytes : ℤ} (h : 0 ≤ nbytes) (key : BlockKey) {probe : Probe F}
    (hgain : 0 < byteGain probe) {prob : F} :
    density horizonS priors key nbytes probe ≤ byteGain probe*prob ↔
      if nbytes = 0 then 0 ≤ prob else (ownView horizonS probe).reuseProb key priors ≤ prob := by
  rw [density_eq horizonS priors h]
  split_ifs with hzero
  · exact mul_nonneg_iff_of_pos_left hgain
  · rw [mul_comm (byteGain probe),mul_le_mul_iff_left₀ hgain]

/-- Above the threshold, a chain is let in when bytes save nothing or it is worth some
occupant. -/
theorem admitChain_eq_self_iff {capacity : ℤ} {entries : Entries F} {keys : List BlockKey}
    {probe : Probe F} (hentries : ∀ p ∈ entries.items, 0 ≤ p.2.nbytes)
    (hkeys : ∀ key ∈ keys, 0 ≤ probe.index.nbytesOf key)
    (hfull : ¬ ((entries.sumBy fun _ e => e.nbytes : ℤ) : F)/(max 1 capacity : ℤ) < 9/10) :
    admitChain horizonS priors capacity entries
        (keys.map fun key => (key,probe.index.nbytesOf key)) probe =
          keys.map (fun key => (key,probe.index.nbytesOf key)) ↔
      keys = [] ∨ savedPerByte probe.cost probe.tier ≤ 0 ∨ Outbids horizonS priors entries probe
        ((ownView horizonS probe).chainReuseProb keys priors) := by
  by_cases hnil : keys = []
  · subst hnil
    simp [admitChain]
  have hnone : entries.items ≠ [] := by
    intro hempty
    apply hfull
    have hzero : (entries.sumBy fun _ e => e.nbytes) = 0 := by simp [Dict.sumBy,hempty]
    rw [hzero,Int.cast_zero,zero_div]
    norm_num
  have hchain : (keys.map fun key => (key,probe.index.nbytesOf key)) ≠ [] := by simpa using hnil
  have hgate : admitChain horizonS priors capacity entries
        (keys.map fun key => (key,probe.index.nbytesOf key)) probe =
          keys.map (fun key => (key,probe.index.nbytesOf key)) ↔
      ∃ p ∈ entries.items, density horizonS priors p.1 p.2.nbytes probe ≤
        byteGain probe*(ownView horizonS probe).chainReuseProb keys priors := by
    rw [← incoming_eq horizonS priors probe hkeys,← min?_map_le_iff hnone,admitChain,
      if_neg hchain,if_neg hfull]
    refine ⟨fun hlet => ?_,fun hworth => if_pos hworth⟩
    by_contra hlost
    rw [if_neg hlost] at hlet
    exact hchain hlet.symm
  rw [hgate,or_iff_right hnil]
  by_cases hworth : savedPerByte probe.cost probe.tier ≤ 0
  · obtain ⟨p,hp⟩ := List.exists_mem_of_ne_nil _ hnone
    have hgain : byteGain probe = 0 := max_eq_left hworth
    refine iff_of_true ⟨p,hp,?_⟩ (Or.inl hworth)
    rw [density_eq horizonS priors (hentries p hp),hgain,zero_mul]
    split_ifs
    · exact le_rfl
    · exact (mul_zero _).le
  · have hgain : 0 < byteGain probe := lt_max_of_lt_right (not_le.mp hworth)
    rw [or_iff_right hworth]
    refine exists_congr fun p => and_congr_right fun hp => ?_
    exact density_le_iff horizonS priors (hentries p hp) p.1 hgain

end AdaptiveValuePolicy

namespace Simulator

open AdaptiveValuePolicy

/-- What the store step divides by is not zero: the rates that price the expiry of a block,
or a comparison at the gate. -/
def StepDefined (s : Simulator F) (keys : List BlockKey) : Prop :=
  match s.policy.kind with
  | .continuumTtl _ _ _ =>
    s.missing keys = [] ∨ s.cfg.cost.kvBytesPerToken ≠ 0 ∧ s.cfg.cost.prefillTokensPerS ≠ 0
  | .adaptiveValue _ _ => s.missing keys = [] ∨ s.policy.pressure < 9/10 ∨
    s.cfg.cost.prefillTokensPerS ≠ 0 ∧ s.ramTier.effectiveGbs ≠ 0
  | _ => True

/-- The adaptive policy lets the missing blocks in when the tier is not full enough, bytes
save nothing, or the chain is worth some occupant. -/
def GateOpen (s : Simulator F) (keys : List BlockKey) : Prop :=
  match s.policy.kind with
  | .adaptiveValue horizonS priors =>
    s.missing keys = [] ∨ s.policy.pressure < 9/10 ∨ savedPerByte s.cfg.cost s.ramTier ≤ 0 ∨
      Outbids horizonS priors s.policy.entries s.probe
        ((ownView horizonS s.probe).chainReuseProb ((s.missing keys).map Prod.fst) priors)
  | _ => True

omit [Scalar F] in
theorem missing_eq_map (s : Simulator F) (keys : List BlockKey) : s.missing keys =
    ((s.missing keys).map Prod.fst).map fun key => (key,s.index.nbytesOf key) := by
  rw [List.map_map]
  refine (List.map_id _).symm.trans (List.map_congr_left fun p hp => ?_)
  exact Prod.ext rfl (mem_missing hp).2.2

/-- A tier that is nearly full holds bytes, and no size is negative. -/
theorem kv_nonneg_of_full {s : Simulator F} (h : Weighed s.index s.policy.entries)
    (hfull : ¬ s.policy.pressure < 9/10) : 0 ≤ s.index.cost.kvBytesPerToken := by
  by_contra hneg
  apply hfull
  have hone : (0 : F) ≤ (max 1 s.policy.capacity : ℤ) := by
    exact_mod_cast (zero_le_one.trans (le_max_left 1 s.policy.capacity))
  have hlight : s.policy.occupancy ≤ 0 := by
    rw [s.policy.occupancy_eq]
    exact weight_nonpos (h.nonpos (not_le.mp hneg).le)
  have hcast : (s.policy.occupancy : F) ≤ 0 := by exact_mod_cast hlight
  have hsmall : s.policy.pressure ≤ 0 := div_nonpos_of_nonpos_of_nonneg hcast hone
  exact hsmall.trans_lt (by norm_num)

theorem admits_iff {s : Simulator F} (h : Weighed s.index s.policy.entries)
    (keys : List BlockKey) :
    s.policy.admitChain (s.missing keys) s.probe = s.missing keys ↔ s.GateOpen keys := by
  unfold TierPolicy.admitChain GateOpen
  cases s.policy.kind with
  | adaptiveValue horizonS priors =>
    by_cases hfull : s.policy.pressure < 9/10
    · exact iff_of_true (s.policy.admitChain_of_low_pressure horizonS priors _ _ hfull)
        (Or.inr (Or.inl hfull))
    · have hkv := kv_nonneg_of_full h hfull
      have hentries : ∀ p ∈ s.policy.entries.items, 0 ≤ p.2.nbytes := fun p hp =>
        (h.nonneg hkv (p.1,p.2.nbytes) (List.mem_map.mpr ⟨p,hp,rfl⟩)).1
      have hkeys : ∀ key ∈ (s.missing keys).map Prod.fst, 0 ≤ s.probe.index.nbytesOf key :=
        fun key _ => PrefixIndex.nbytesOf_nonneg h.sized hkv key
      have hgate := admitChain_eq_self_iff horizonS priors hentries hkeys hfull
      have hmissing : ((s.missing keys).map Prod.fst).map
          (fun key => (key,s.probe.index.nbytesOf key)) = s.missing keys :=
        (s.missing_eq_map keys).symm
      rw [hmissing,List.map_eq_nil_iff] at hgate
      show AdaptiveValuePolicy.admitChain _ _ _ _ _ _ = _ ↔ _ ∨ _ ∨ _
      rw [hgate,or_iff_right hfull]
      rfl
  | lru => exact iff_of_true rfl trivial
  | lfu => exact iff_of_true rfl trivial
  | fixedTtl baseS perGibS => exact iff_of_true rfl trivial
  | continuumTtl k minS maxS => exact iff_of_true rfl trivial
  | oracle => exact iff_of_true rfl trivial

theorem store_fitting {s : Simulator F} {keys : List BlockKey}
    (h : Weighed s.index s.policy.entries) (hn : keys.Nodup)
    (hfits : weight (s.missing keys) ≤ s.freeRoom)
    (hlet : s.policy.admitChain (s.missing keys) s.probe = s.missing keys) (now : F)
    (sched : Schedule F) : sizes (s.storeBatchToHost keys now sched).policy.entries =
      sizes s.policy.entries ++ s.missing keys := by
  have hquiet : s.evictRequest keys = none := evictRequest_eq_none (hlet.symm ▸ hfits)
  rw [sizes_store_of_none hn now sched hquiet,hlet]
  congr 1
  cases le_total 0 s.index.cost.kvBytesPerToken with
  | inl hkv =>
    refine fitting_eq_self (fun p hp => ?_) hfits
    rw [(mem_missing hp).2.2]
    exact PrefixIndex.nbytesOf_nonneg h.sized hkv p.1
  | inr hkv =>
    refine fitting_of_nonpos (fun p hp => ?_) (le_max_left 0 _)
    rw [(mem_missing hp).2.2]
    exact PrefixIndex.nbytesOf_nonpos h.sized hkv p.1

/-- In every reachable state, a turn whose missing blocks fit what is left of the tier has them
all let in and stored exactly when the gate is open. -/
theorem nothing_displaced_iff (cfg : SimConfig F) (kind : PolicyKind F) (ram : TierConfig F)
    (turns : List (Turn F)) (n : ℕ) (turn : Turn F) (sched : Schedule F)
    (hfits : weight ((((start cfg kind ram).after turns n).filled turn).missing
        (((start cfg kind ram).after turns n).path turn)) ≤
      ram.bytesCapacity-(((start cfg kind ram).after turns n).filled turn).policy.occupancy) :
    let keys := ((start cfg kind ram).after turns n).path turn
    let s := ((start cfg kind ram).after turns n).filled turn
    (s.StepDefined keys ∧ s.policy.admitChain (s.missing keys) s.probe = s.missing keys ∧
      ∀ p ∈ s.missing keys, p.1 ∈ (s.storeBatchToHost keys turn.t sched).policy.entries) ↔
      s.StepDefined keys ∧ s.GateOpen keys := by
  intro keys s
  have hweighed : Weighed s.index s.policy.entries :=
    filled_weighed (after_weighed cfg kind ram turns n) turn
  have hram : s.ramTier = ram := by
    rw [filled_ramTier]
    exact after_ramTier cfg kind ram turns n
  have hroom : weight (s.missing keys) ≤ s.freeRoom := by
    rw [freeRoom,hram]
    exact hfits.trans (le_max_right _ _)
  refine and_congr_right fun _ => ?_
  rw [← admits_iff hweighed keys]
  refine and_iff_left_of_imp fun hlet p hp => ?_
  have hstored := store_fitting hweighed (path_nodup _ turn) hroom hlet turn.t sched
  rw [mem_iff_sizes,hstored,List.map_append]
  exact List.mem_append_right _ (List.mem_map_of_mem hp)

def askAs (role : String) (t : ℚ) (sessionId : String) (promptTokens : ℤ) : Turn ℚ :=
  { ask t sessionId promptTokens with role := role }

theorem nothing_displaced_iff_small :
    let run := (start (smallConfig 1000 1000) (.adaptiveValue 120 rolePriors)
      (smallRam 1000)).after [askAs "rag" 1 "a" 950] 1
    let keys := run.path (askAs "patient" 2 "b" 50)
    let s := run.filled (askAs "patient" 2 "b" 50)
    (s.StepDefined keys ∧ s.policy.admitChain (s.missing keys) s.probe = s.missing keys ∧
      ∀ p ∈ s.missing keys, p.1 ∈ (s.storeBatchToHost keys 2 .empty).policy.entries) ↔
      s.StepDefined keys ∧ s.GateOpen keys :=
  nothing_displaced_iff (smallConfig 1000 1000) (.adaptiveValue 120 rolePriors) (smallRam 1000)
    [askAs "rag" 1 "a" 950] 1 (askAs "patient" 2 "b" 50) .empty (by decide +kernel)

/-- The last 50 bytes of a tier stay free, since what they are for is worth less than the block
of a patient beside them. -/
theorem free_room_refused : ¬ ∀ (cfg : SimConfig ℚ) (kind : PolicyKind ℚ) (ram : TierConfig ℚ)
    (turns : List (Turn ℚ)) (n : ℕ) (turn : Turn ℚ) (sched : Schedule ℚ),
    cfg.tier "ram" = some ram →
    weight ((((start cfg kind ram).after turns n).filled turn).missing
        (((start cfg kind ram).after turns n).path turn)) ≤
      ram.bytesCapacity-(((start cfg kind ram).after turns n).filled turn).policy.occupancy →
    let keys := ((start cfg kind ram).after turns n).path turn
    let s := ((start cfg kind ram).after turns n).filled turn
    s.policy.admitChain (s.missing keys) s.probe = s.missing keys ∧
      ∀ p ∈ s.missing keys, p.1 ∈ (s.storeBatchToHost keys turn.t sched).policy.entries := by
  intro h
  have hlet := (h (smallConfig 1000 1000) (.adaptiveValue 120 rolePriors) (smallRam 1000)
    [askAs "patient" 1 "a" 950] 1 (askAs "rag" 2 "b" 50) .empty rfl (by decide +kernel)).1
  exact absurd hlet (by decide +kernel)

/-- In every reachable state of a run under the adaptive policy in which nothing resident has a
live session, the chain of a turn is let in exactly when the tier is not full enough, bytes
save nothing, or some occupant's dead price is no more than what the chain is worth. -/
theorem dead_occupants_iff (cfg : SimConfig F) (horizonS : F) (priors : Dict String F)
    (ram : TierConfig F) (turns : List (Turn F)) (n : ℕ) (turn : Turn F)
    (hdead : ∀ p ∈ (((start cfg (.adaptiveValue horizonS priors) ram).after turns n).filled
        turn).policy.entries.items,
      (((start cfg (.adaptiveValue horizonS priors) ram).after turns n).filled
        turn).index.liveLeases p.1 turn.t = ∅) :
    let keys := ((start cfg (.adaptiveValue horizonS priors) ram).after turns n).path turn
    let s := ((start cfg (.adaptiveValue horizonS priors) ram).after turns n).filled turn
    let worth := (ownView horizonS s.probe).chainReuseProb ((s.missing keys).map Prod.fst) priors
    (s.StepDefined keys ∧ s.policy.admitChain (s.missing keys) s.probe = s.missing keys) ↔
      s.StepDefined keys ∧ (s.missing keys = [] ∨ s.policy.pressure < 9/10 ∨
        savedPerByte s.cfg.cost s.ramTier ≤ 0 ∨ ∃ p ∈ s.policy.entries.items,
          if p.2.nbytes = 0 then 0 ≤ worth
          else deadPrice horizonS priors s.index turn.t p.1 ≤ worth) := by
  intro keys s worth
  have hweighed : Weighed s.index s.policy.entries :=
    filled_weighed (after_weighed cfg (.adaptiveValue horizonS priors) ram turns n) turn
  have hkind : s.policy.kind = .adaptiveValue horizonS priors := by
    rw [filled_policy]
    exact after_kind cfg _ ram turns n
  have hnow : s.probe.now = turn.t := filled_now _ turn
  have hgate : s.GateOpen keys ↔ s.missing keys = [] ∨ s.policy.pressure < 9/10 ∨
      savedPerByte s.cfg.cost s.ramTier ≤ 0 ∨ Outbids horizonS priors s.policy.entries s.probe worth := by
    rw [GateOpen,hkind]
  refine and_congr_right fun _ => ?_
  rw [admits_iff hweighed keys,hgate]
  refine or_congr_right (or_congr_right (or_congr_right ?_))
  refine exists_congr fun p => and_congr_right fun hp => ?_
  have hgone : s.probe.index.liveLeases p.1 s.probe.now = ∅ := hnow.symm ▸ hdead p hp
  rw [reuseProb_of_dead horizonS priors hgone,hnow]
  rfl

theorem dead_occupants_iff_small :
    let run := (start (smallConfig 1000 1000) (.adaptiveValue 120 rolePriors)
      (smallRam 1000)).after [askAs "patient" 1 "a" 1000] 1
    let keys := run.path (askAs "rag" 2000 "b" 1000)
    let s := run.filled (askAs "rag" 2000 "b" 1000)
    let worth := (ownView 120 s.probe).chainReuseProb ((s.missing keys).map Prod.fst) rolePriors
    (s.StepDefined keys ∧ s.policy.admitChain (s.missing keys) s.probe = s.missing keys) ↔
      s.StepDefined keys ∧ (s.missing keys = [] ∨ s.policy.pressure < 9/10 ∨
        savedPerByte s.cfg.cost s.ramTier ≤ 0 ∨ ∃ p ∈ s.policy.entries.items,
          if p.2.nbytes = 0 then 0 ≤ worth
          else deadPrice 120 rolePriors s.index 2000 p.1 ≤ worth) :=
  dead_occupants_iff (smallConfig 1000 1000) 120 rolePriors (smallRam 1000)
    [askAs "patient" 1 "a" 1000] 1 (askAs "rag" 2000 "b" 1000) (by decide +kernel)

/-- The block of a patient who left half an hour ago keeps the chain of a retrieval out. -/
theorem dead_occupant_locks : ¬ ∀ (cfg : SimConfig ℚ) (horizonS : ℚ) (priors : Dict String ℚ)
    (ram : TierConfig ℚ) (turns : List (Turn ℚ)) (n : ℕ) (turn : Turn ℚ),
    cfg.tier "ram" = some ram →
    (∀ p ∈ (((start cfg (.adaptiveValue horizonS priors) ram).after turns n).filled
        turn).policy.entries.items,
      (((start cfg (.adaptiveValue horizonS priors) ram).after turns n).filled
        turn).index.liveLeases p.1 turn.t = ∅) →
    let keys := ((start cfg (.adaptiveValue horizonS priors) ram).after turns n).path turn
    let s := ((start cfg (.adaptiveValue horizonS priors) ram).after turns n).filled turn
    s.policy.admitChain (s.missing keys) s.probe = s.missing keys := by
  intro h
  have hlet := h (smallConfig 1000 1000) 120 rolePriors (smallRam 1000)
    [askAs "patient" 1 "a" 1000] 1 (askAs "rag" 2000 "b" 1000) rfl (by decide +kernel)
  exact absurd hlet (by decide +kernel)

end Simulator
end ContextResidency
