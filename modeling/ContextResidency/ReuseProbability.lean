import ContextResidency.Policies

/-! The reuse probability over the reals. It is a probability, and it moves with what
the probe knows of a block: it never grows as time passes without a use, and never
falls when one more session leases the block, when the horizon grows or when a session
announces a longer absence. -/
namespace ContextResidency

/-! The three pieces of the estimate, as functions of a few numbers each. -/
section Pieces

/-- The chance that an open gap ends within the horizon, given the average gap. -/
def BlockInfo.hazard {F : Type} [Scalar F] (info : BlockInfo F) (now horizon : F) : F :=
  match info.iatEma with
  | none => 5/100
  | some ema =>
    if ema ≤ 0 then 5/100
    else Scalar.exp (-max 0 (now-info.lastUse)/ema)*(1-Scalar.exp (-horizon/ema))

/-- The chance that at least one of several leases, at most eight, uses the block. -/
def anyLease {F : Type} [Scalar F] (p : F) (leases : ℕ) : F := 1-(1-p)^(min (max 1 leases) 8)

/-- What an announced absence says of a block that is idle for a while. -/
def announcedReturn {F : Type} [Scalar F] (idle eta : F) : F :=
  if eta ≤ 0 then 0
  else if idle ≤ eta then 9/10 else Scalar.exp (-(idle-eta)/eta)*(9/10)

theorem exp_le_one {x : ℝ} (h : x ≤ 0) : Scalar.exp x ≤ 1 := Real.exp_le_one_iff.mpr h

theorem exp_mono {x y : ℝ} (h : x ≤ y) : Scalar.exp x ≤ Scalar.exp y := Real.exp_le_exp.mpr h

theorem exp_nonneg (x : ℝ) : 0 ≤ Scalar.exp x := (Real.exp_pos x).le

theorem within_nonneg {ema horizon : ℝ} (hema : 0 < ema) (hhorizon : 0 ≤ horizon) :
    0 ≤ 1-Scalar.exp (-horizon/ema) :=
  sub_nonneg.mpr (exp_le_one (div_nonpos_of_nonpos_of_nonneg (neg_nonpos.mpr hhorizon) hema.le))

theorem idle_nonpos {ema now lastUse : ℝ} (hema : 0 < ema) : -max 0 (now-lastUse)/ema ≤ 0 :=
  div_nonpos_of_nonpos_of_nonneg (neg_nonpos.mpr (le_max_left _ _)) hema.le

theorem hazard_mem (info : BlockInfo ℝ) (now : ℝ) {horizon : ℝ} (hhorizon : 0 ≤ horizon) :
    info.hazard now horizon ∈ Set.Icc 0 1 := by
  unfold BlockInfo.hazard
  split
  · norm_num
  · split
    case isTrue => norm_num
    case isFalse ema _ hema =>
      have hpos : 0 < ema := not_le.mp hema
      have hwithin := within_nonneg hpos hhorizon
      constructor
      · exact mul_nonneg (exp_nonneg _) hwithin
      · apply mul_le_one₀ (exp_le_one (idle_nonpos hpos)) hwithin
        exact sub_le_self _ (exp_nonneg _)

theorem hazard_mono {a b : BlockInfo ℝ} (hlast : a.lastUse = b.lastUse)
    (hema : a.iatEma = b.iatEma) {now now' horizon horizon' : ℝ} (hnow : now' ≤ now)
    (hpos : 0 ≤ horizon) (hhorizon : horizon ≤ horizon') :
    a.hazard now horizon ≤ b.hazard now' horizon' := by
  unfold BlockInfo.hazard
  rw [hlast,hema]
  split
  · exact le_rfl
  · split
    case isTrue => exact le_rfl
    case isFalse ema _ hema =>
      have hema : 0 < ema := not_le.mp hema
      have hidle : max 0 (now'-b.lastUse) ≤ max 0 (now-b.lastUse) :=
        max_le_max le_rfl (sub_le_sub_right hnow _)
      apply mul_le_mul
      · exact exp_mono (div_le_div_of_nonneg_right (neg_le_neg hidle) hema.le)
      · apply sub_le_sub_left
        exact exp_mono (div_le_div_of_nonneg_right (neg_le_neg hhorizon) hema.le)
      · exact within_nonneg hema hpos
      · exact exp_nonneg _

theorem anyLease_mem {p : ℝ} (hp : p ∈ Set.Icc 0 1) (leases : ℕ) :
    anyLease p leases ∈ Set.Icc 0 1 := by
  have hq : 0 ≤ 1-p := sub_nonneg.mpr hp.2
  constructor
  · exact sub_nonneg.mpr (pow_le_one₀ hq (sub_le_self _ hp.1))
  · exact sub_le_self _ (pow_nonneg hq _)

theorem anyLease_mono {p q : ℝ} (hp : 0 ≤ p) (hpq : p ≤ q) (hq : q ≤ 1) {m n : ℕ} (hmn : m ≤ n) :
    anyLease p m ≤ anyLease q n := by
  apply sub_le_sub_left
  calc (1-q)^(min (max 1 n) 8)
      ≤ (1-q)^(min (max 1 m) 8) :=
        pow_le_pow_of_le_one (sub_nonneg.mpr hq) (sub_le_self _ (hp.trans hpq)) (by omega)
    _ ≤ (1-p)^(min (max 1 m) 8) :=
        pow_le_pow_left₀ (sub_nonneg.mpr hq) (sub_le_sub_left hpq _) _

/-- Before the announced return the exponent would be positive, so one formula covers both
sides of the switch. -/
theorem announcedReturn_of_pos (idle : ℝ) {eta : ℝ} (heta : 0 < eta) :
    announcedReturn idle eta = Scalar.exp (min 0 (1-idle/eta))*(9/10) := by
  unfold announcedReturn
  rw [if_neg (not_le.mpr heta)]
  have hswitch : idle ≤ eta ↔ 0 ≤ 1-idle/eta := by rw [sub_nonneg,div_le_one heta]
  by_cases hidle : idle ≤ eta
  · rw [if_pos hidle,min_eq_left (hswitch.mp hidle)]
    show _ = Real.exp 0*_
    rw [Real.exp_zero,one_mul]
  · have hlate : 1-idle/eta ≤ 0 := (not_le.mp (mt hswitch.mpr hidle)).le
    have hexp : -(idle-eta)/eta = 1-idle/eta := by
      field_simp
      ring
    rw [if_neg hidle,min_eq_right hlate,hexp]

theorem announcedReturn_mem (idle eta : ℝ) : announcedReturn idle eta ∈ Set.Icc 0 1 := by
  by_cases heta : eta ≤ 0
  · rw [announcedReturn,if_pos heta]
    norm_num
  · rw [announcedReturn_of_pos idle (not_le.mp heta)]
    have hpos := exp_nonneg (min 0 (1-idle/eta))
    have hone : Scalar.exp (min 0 (1-idle/eta)) ≤ 1 := exp_le_one (min_le_left _ _)
    constructor <;> linarith

theorem announcedReturn_mono {idle idle' eta eta' : ℝ} (hpos : 0 ≤ idle) (hidle : idle' ≤ idle)
    (heta : eta ≤ max 0 eta') : announcedReturn idle eta ≤ announcedReturn idle' eta' := by
  by_cases hnone : eta ≤ 0
  · rw [announcedReturn,if_pos hnone]
    exact (announcedReturn_mem _ _).1
  · have heta0 : 0 < eta := not_le.mp hnone
    have hle : eta ≤ eta' := by
      cases le_max_iff.mp heta with
      | inl h => exact absurd h hnone
      | inr h => exact h
    rw [announcedReturn_of_pos idle heta0,announcedReturn_of_pos idle' (heta0.trans_le hle)]
    have hratio : idle'/eta' ≤ idle/eta :=
      calc idle'/eta' ≤ idle/eta' := div_le_div_of_nonneg_right hidle (heta0.le.trans hle)
        _ ≤ idle/eta := div_le_div_of_nonneg_left hpos heta0 hle
    apply mul_le_mul_of_nonneg_right _ (by norm_num)
    exact exp_mono (min_le_min le_rfl (sub_le_sub_left hratio _))

end Pieces

theorem PrefixIndex.liveReuseProb_eq (index : PrefixIndex ℝ) (key : BlockKey)
    (now horizon : ℝ) : index.liveReuseProb key now horizon =
      (index.blocks.get key).elim 0 fun info =>
        anyLease (info.hazard now horizon) (index.liveLeases key now).card := by
  unfold PrefixIndex.liveReuseProb
  cases index.blocks.get key with
  | none => rfl
  | some info =>
    show (if _ then info.hazard now horizon else 1-(1-info.hazard now horizon)^_) = anyLease _ _
    split
    case isTrue h =>
      have hone : min (max 1 (index.liveLeases key now).card) 8 = 1 := by omega
      rw [anyLease,hone]
      ring
    case isFalse => rfl

/-- Two records of the same uses by the same roles. -/
structure BlockInfo.SameUse {F : Type} (a b : BlockInfo F) : Prop where
  lastUse : a.lastUse = b.lastUse
  iatEma : a.iatEma = b.iatEma
  roles : a.roles = b.roles

namespace Probe

/-- What a table of role priors makes of an estimate. -/
def withPriors {F : Type} [Scalar F] (priors : Dict String F) (info : BlockInfo F) (p : F) : F :=
  if priors.items ≠ [] ∧ info.iatEma = none then
    max ((priors.get (info.roles.min.untopD "?")).getD ((priors.get "default").getD p)) p
  else p

/-- The estimate with the announced absence of the sessions that lease the block. -/
def withHints {F : Type} [Scalar F] (probe : Probe F) (key : BlockKey) (info : BlockInfo F)
    (useHints : Bool) (p : F) : F :=
  if useHints then max p (announcedReturn (max 0 (probe.now-info.lastUse)) (probe.sessionEta key))
  else p

theorem withPriors_mono (priors : Dict String ℝ) {a b : BlockInfo ℝ} (hab : a.SameUse b)
    {p q : ℝ} (h : p ≤ q) : withPriors priors a p ≤ withPriors priors b q := by
  unfold withPriors
  rw [hab.iatEma,hab.roles]
  split
  · refine max_le_max ?_ h
    cases priors.get (b.roles.min.untopD "?") with
    | some prior => exact le_rfl
    | none =>
      cases priors.get "default" with
      | some prior => exact le_rfl
      | none => exact h
  · exact h

theorem withPriors_mem {priors : Dict String ℝ}
    (hpriors : ∀ role prior, priors.get role = some prior → prior ∈ Set.Icc (0 : ℝ) 1)
    (info : BlockInfo ℝ) {p : ℝ} (hp : p ∈ Set.Icc 0 1) :
    withPriors priors info p ∈ Set.Icc 0 1 := by
  unfold withPriors
  split
  · refine ⟨hp.1.trans (le_max_right _ _),max_le ?_ hp.2⟩
    cases hrole : priors.get (info.roles.min.untopD "?") with
    | some prior => exact (hpriors _ _ hrole).2
    | none =>
      cases hdefault : priors.get "default" with
      | some prior => exact (hpriors _ _ hdefault).2
      | none => exact hp.2
  · exact hp

theorem withHints_mem (probe : Probe ℝ) (key : BlockKey) (info : BlockInfo ℝ) (useHints : Bool)
    {p : ℝ} (hp : p ∈ Set.Icc 0 1) : probe.withHints key info useHints p ∈ Set.Icc 0 1 := by
  unfold withHints
  split
  · exact ⟨hp.1.trans (le_max_left _ _),max_le hp.2 (announcedReturn_mem _ _).2⟩
  · exact hp

/-- Without a positive announcement the floor is zero, which is no floor. -/
theorem hint_floor (useHints : Bool) {p : ℝ} (hp : 0 ≤ p) (idle eta : ℝ) :
    (if useHints ∧ 0 < eta then
      max p (if idle ≤ eta then 9/10 else Scalar.exp (-(idle-eta)/eta)*(9/10))
      else p) = if useHints then max p (announcedReturn idle eta) else p := by
  unfold announcedReturn
  cases useHints with
  | false => simp
  | true =>
    by_cases heta : eta ≤ 0
    · simp [heta,not_lt.mpr heta,hp]
    · simp [heta,not_le.mp heta]

theorem reuseProb_eq (probe : Probe ℝ) (key : BlockKey) (priors : Dict String ℝ)
    (useHints : Bool) (hhorizon : 0 ≤ probe.horizonS) : probe.reuseProb key priors useHints =
      (probe.index.blocks.get key).elim 0 fun info => withPriors priors info
        (probe.withHints key info useHints
          (anyLease (info.hazard probe.now probe.horizonS)
            (probe.index.liveLeases key probe.now).card)) := by
  have hlive := probe.index.liveReuseProb_eq key probe.now probe.horizonS
  unfold reuseProb
  rw [hlive]
  cases probe.index.blocks.get key with
  | none => rfl
  | some info =>
    exact congrArg (withPriors priors info) (hint_floor useHints
      (anyLease_mem (hazard_mem info probe.now hhorizon) _).1 _ _)

theorem reuseProb_mem {probe : Probe ℝ} (hhorizon : 0 ≤ probe.horizonS) {priors : Dict String ℝ}
    (hpriors : ∀ role prior, priors.get role = some prior → prior ∈ Set.Icc (0 : ℝ) 1)
    (key : BlockKey) (useHints : Bool) : probe.reuseProb key priors useHints ∈ Set.Icc 0 1 := by
  rw [reuseProb_eq probe key priors useHints hhorizon]
  cases probe.index.blocks.get key with
  | none => norm_num
  | some info =>
    apply withPriors_mem hpriors
    apply withHints_mem
    exact anyLease_mem (hazard_mem info _ hhorizon) _

theorem liveReuseProb_mem (index : PrefixIndex ℝ) (key : BlockKey) (now : ℝ) {horizon : ℝ}
    (hhorizon : 0 ≤ horizon) : index.liveReuseProb key now horizon ∈ Set.Icc 0 1 := by
  rw [index.liveReuseProb_eq]
  cases index.blocks.get key with
  | none => norm_num
  | some info => exact anyLease_mem (hazard_mem info _ hhorizon) _

/-- A block is known to both probes or to neither, which then estimate zero. -/
theorem elim_le_elim {record record' : Option (BlockInfo ℝ)}
    (hsame : Option.Rel BlockInfo.SameUse record record') {f g : BlockInfo ℝ → ℝ}
    (hfg : ∀ info info', info.SameUse info' → f info ≤ g info') :
    record.elim 0 f ≤ record'.elim 0 g := by
  cases hsame with
  | none => exact le_rfl
  | some h => exact hfg _ _ h

/-- The second probe knows the block by the same uses and roles, and sees it earlier, over a
longer horizon, with more leases and longer announced absences. -/
structure Favours (key : BlockKey) (a b : Probe ℝ) : Prop where
  record : Option.Rel BlockInfo.SameUse (a.index.blocks.get key) (b.index.blocks.get key)
  now : b.now ≤ a.now
  horizonS : a.horizonS ≤ b.horizonS
  leases : a.index.liveLeases key a.now ⊆ b.index.liveLeases key b.now
  etas : ∀ session, (a.toolEta.get session).getD 0 ≤ (b.toolEta.get session).getD 0

namespace Favours

variable {key : BlockKey} {a b : Probe ℝ} (h : Favours key a b)
include h

theorem sessionEta_le : a.sessionEta key ≤ max 0 (b.sessionEta key) := by
  unfold sessionEta
  cases hmax : ((a.index.liveLeases key a.now).image fun s => (a.toolEta.get s).getD 0).max with
  | bot => exact le_max_left _ _
  | coe eta =>
    rcases Finset.mem_image.mp (Finset.mem_of_max hmax) with ⟨session,hlive,heta⟩
    have hmem := Finset.mem_image_of_mem (fun s => (b.toolEta.get s).getD 0) (h.leases hlive)
    rcases Finset.max_of_mem hmem with ⟨best,hbest⟩
    rw [hbest]
    have hle : (b.toolEta.get session).getD 0 ≤ best := Finset.le_max_of_eq hmem hbest
    exact ((heta.ge.trans (h.etas session)).trans hle).trans (le_max_right _ _)

theorem anyLease_le {info info' : BlockInfo ℝ} (hsame : info.SameUse info')
    (hhorizon : 0 ≤ a.horizonS) :
    anyLease (info.hazard a.now a.horizonS) (a.index.liveLeases key a.now).card ≤
      anyLease (info'.hazard b.now b.horizonS) (b.index.liveLeases key b.now).card :=
  anyLease_mono (hazard_mem info _ hhorizon).1
    (hazard_mono hsame.lastUse hsame.iatEma h.now hhorizon h.horizonS)
    (hazard_mem info' _ (hhorizon.trans h.horizonS)).2 (Finset.card_le_card h.leases)

theorem withHints_le {info info' : BlockInfo ℝ} (hsame : info.SameUse info') (useHints : Bool)
    {p q : ℝ} (hpq : p ≤ q) :
    a.withHints key info useHints p ≤ b.withHints key info' useHints q := by
  unfold withHints
  split
  · refine max_le_max hpq ?_
    rw [hsame.lastUse]
    apply announcedReturn_mono (le_max_left _ _) _ h.sessionEta_le
    exact max_le_max le_rfl (sub_le_sub_right h.now _)
  · exact hpq

/-- The second probe estimates no less. -/
theorem reuseProb_le (hhorizon : 0 ≤ a.horizonS) (priors : Dict String ℝ) (useHints : Bool) :
    a.reuseProb key priors useHints ≤ b.reuseProb key priors useHints := by
  rw [reuseProb_eq a key priors useHints hhorizon,
    reuseProb_eq b key priors useHints (hhorizon.trans h.horizonS)]
  refine elim_le_elim h.record fun info info' hsame => ?_
  apply withPriors_mono priors hsame
  apply h.withHints_le hsame
  exact h.anyLease_le hsame hhorizon

theorem liveReuseProb_le (hhorizon : 0 ≤ a.horizonS) :
    a.index.liveReuseProb key a.now a.horizonS ≤ b.index.liveReuseProb key b.now b.horizonS := by
  rw [a.index.liveReuseProb_eq,b.index.liveReuseProb_eq]
  exact elim_le_elim h.record fun info info' hsame => h.anyLease_le hsame hhorizon

end Favours

theorem record_modify (index : PrefixIndex ℝ) (key : BlockKey)
    (refs : Finset String → Finset String) :
    Option.Rel BlockInfo.SameUse (index.blocks.get key)
      ((index.blocks.modify key fun info => { info with refs := refs info.refs }).get key) := by
  rw [Dict.get_modify,if_pos rfl]
  cases index.blocks.get key with
  | none => exact .none
  | some info => exact .some ⟨rfl,rfl,rfl⟩

theorem record_refl (index : PrefixIndex ℝ) (key : BlockKey) :
    Option.Rel BlockInfo.SameUse (index.blocks.get key) (index.blocks.get key) := by
  cases index.blocks.get key with
  | none => exact .none
  | some info => exact .some ⟨rfl,rfl,rfl⟩

def leasedTo {F : Type} (probe : Probe F) (key : BlockKey) (session : String) : Probe F :=
  { probe with index := { probe.index with blocks := probe.index.blocks.modify key fun info =>
      { info with refs := insert session info.refs } } }

def announce {F : Type} (probe : Probe F) (session : String) (eta : F) : Probe F :=
  { probe with toolEta := probe.toolEta.set session eta }

/-- As time passes without a use, leases expire. -/
theorem favours_earlier (probe : Probe ℝ) (key : BlockKey) {later : ℝ} (h : probe.now ≤ later) :
    Favours key { probe with now := later } probe := by
  constructor
  case record => exact record_refl _ _
  case now => exact h
  case horizonS => exact le_rfl
  case leases =>
    show probe.index.liveLeases key later ⊆ probe.index.liveLeases key probe.now
    unfold PrefixIndex.liveLeases
    split
    · exact subset_rfl
    · intro session hsession
      rw [Finset.mem_filter] at hsession ⊢
      refine ⟨hsession.1,?_⟩
      cases hseen : probe.index.sessionLastSeen.get session with
      | none => rfl
      | some seen =>
        have hlive : later-seen ≤ 900 := by simpa [hseen] using hsession.2
        simpa using (sub_le_sub_right h seen).trans hlive
  case etas => exact fun _ => le_rfl

theorem favours_leased (probe : Probe ℝ) (key : BlockKey) (session : String) :
    Favours key probe (probe.leasedTo key session) := by
  constructor
  case record => exact record_modify _ _ _
  case now => exact le_rfl
  case horizonS => exact le_rfl
  case leases =>
    show probe.index.liveLeases key probe.now ⊆
      (probe.leasedTo key session).index.liveLeases key probe.now
    unfold PrefixIndex.liveLeases leasedTo
    rw [Dict.get_modify,if_pos rfl]
    cases probe.index.blocks.get key with
    | none => exact subset_rfl
    | some info => exact Finset.filter_subset_filter _ (Finset.subset_insert _ _)
  case etas => exact fun _ => le_rfl

theorem favours_longer (probe : Probe ℝ) (key : BlockKey) {horizon : ℝ}
    (h : probe.horizonS ≤ horizon) : Favours key probe { probe with horizonS := horizon } := by
  constructor
  case record => exact record_refl _ _
  case now => exact le_rfl
  case horizonS => exact h
  case leases => exact subset_rfl
  case etas => exact fun _ => le_rfl

theorem favours_announce (probe : Probe ℝ) (key : BlockKey) {session : String} {eta : ℝ}
    (h : (probe.toolEta.get session).getD 0 ≤ eta) :
    Favours key probe (probe.announce session eta) := by
  constructor
  case record => exact record_refl _ _
  case now => exact le_rfl
  case horizonS => exact le_rfl
  case leases => exact subset_rfl
  case etas =>
    intro other
    unfold announce
    rw [Dict.get_set]
    split
    case isTrue hother => exact hother ▸ h
    case isFalse => exact le_rfl

/-- The two estimates of a block are probabilities, and they move the right way. -/
structure ReuseOrdered (probe : Probe ℝ) (key : BlockKey) (priors : Dict String ℝ)
    (useHints : Bool) : Prop where
  live : probe.index.liveReuseProb key probe.now probe.horizonS ∈ Set.Icc 0 1
  reuse : probe.reuseProb key priors useHints ∈ Set.Icc 0 1
  live_later : ∀ later, probe.now ≤ later → probe.index.liveReuseProb key later probe.horizonS ≤
    probe.index.liveReuseProb key probe.now probe.horizonS
  reuse_later : ∀ later, probe.now ≤ later →
    { probe with now := later }.reuseProb key priors useHints ≤ probe.reuseProb key priors useHints
  live_leased : ∀ session, probe.index.liveReuseProb key probe.now probe.horizonS ≤
    (probe.leasedTo key session).index.liveReuseProb key probe.now probe.horizonS
  reuse_leased : ∀ session, probe.reuseProb key priors useHints ≤
    (probe.leasedTo key session).reuseProb key priors useHints
  live_longer : ∀ horizon, probe.horizonS ≤ horizon →
    probe.index.liveReuseProb key probe.now probe.horizonS ≤
      probe.index.liveReuseProb key probe.now horizon
  reuse_longer : ∀ horizon, probe.horizonS ≤ horizon → probe.reuseProb key priors useHints ≤
    { probe with horizonS := horizon }.reuseProb key priors useHints
  reuse_announced : ∀ session eta, (probe.toolEta.get session).getD 0 ≤ eta →
    probe.reuseProb key priors useHints ≤
      (probe.announce session eta).reuseProb key priors useHints

/-- For every index, block and time. Announced absences need not be positive, and the time
need not be after the last use. -/
theorem reuse_ordered (probe : Probe ℝ) (key : BlockKey) (priors : Dict String ℝ)
    (useHints : Bool) (hhorizon : 0 ≤ probe.horizonS)
    (hpriors : ∀ role prior, priors.get role = some prior → prior ∈ Set.Icc (0 : ℝ) 1) :
    probe.ReuseOrdered key priors useHints := by
  constructor
  case live => exact liveReuseProb_mem _ _ _ hhorizon
  case reuse => exact reuseProb_mem hhorizon hpriors key useHints
  case live_later =>
    intro later h
    exact (probe.favours_earlier key h).liveReuseProb_le hhorizon
  case reuse_later =>
    intro later h
    exact (probe.favours_earlier key h).reuseProb_le hhorizon priors useHints
  case live_leased =>
    intro session
    exact (probe.favours_leased key session).liveReuseProb_le hhorizon
  case reuse_leased =>
    intro session
    exact (probe.favours_leased key session).reuseProb_le hhorizon priors useHints
  case live_longer =>
    intro horizon h
    exact (probe.favours_longer key h).liveReuseProb_le hhorizon
  case reuse_longer =>
    intro horizon h
    exact (probe.favours_longer key h).reuseProb_le hhorizon priors useHints
  case reuse_announced =>
    intro session eta h
    exact (probe.favours_announce key h).reuseProb_le hhorizon priors useHints

/-- One session on one block, away for ten seconds, under two priors. -/
theorem reuse_ordered_small :
    ReuseOrdered ⟨((PrefixIndex.new 816 .default).touchPath "a" "coder" 816 0 1 false).1,
      .default,⟨"ram",0,96,true,1⟩,120,30,Dict.empty.set "a" 10⟩ (.priv "a" 0)
        ((Dict.empty.set "coder" (1/2)).set "default" (1/10)) true := by
  refine reuse_ordered _ _ _ _ (by norm_num) fun role prior hprior => ?_
  rw [Dict.get_set,Dict.get_set,Dict.get_empty] at hprior
  split_ifs at hprior <;> obtain rfl := Option.some.inj hprior <;> norm_num

end Probe

end ContextResidency
