import ContextResidency.PolicyView

/-! The prefill rate and the policies. Of the two quantities a policy prices with it, the
time to live of a chain moves with the rate, and the value of a block is scaled as a whole
as long as the tier stays on one side of the break-even bandwidth. -/
namespace ContextResidency

variable {F : Type} [Scalar F]

/-- The same constants at another prefill rate. -/
def CostModel.atRate (cost : CostModel F) (rate : F) : CostModel F :=
  { cost with prefillTokensPerS := rate }

def SimConfig.atRate (cfg : SimConfig F) (rate : F) : SimConfig F :=
  { cfg with cost := cfg.cost.atRate rate }

def PrefixIndex.atRate (index : PrefixIndex F) (rate : F) : PrefixIndex F :=
  { index with cost := index.cost.atRate rate }

def Probe.atRate (probe : Probe F) (rate : F) : Probe F :=
  { probe with index := probe.index.atRate rate, cost := probe.cost.atRate rate }

/-- Seconds saved by restoring a byte in place of recomputing it. -/
def savedPerByte (cost : CostModel F) (tier : TierConfig F) : F :=
  1/(cost.kvBytesPerToken*cost.prefillTokensPerS)-1/(tier.effectiveGbs*10^9)

theorem isWorthTier_iff (cost : CostModel F) (tier : TierConfig F)
    (hkv : 0 < cost.kvBytesPerToken) (hrate : 0 < cost.prefillTokensPerS)
    (htier : 0 < tier.effectiveGbs) : cost.isWorthTier tier ↔ 0 < savedPerByte cost tier := by
  have hcost : 0 < cost.kvBytesPerToken*cost.prefillTokensPerS := mul_pos hkv hrate
  have hbytes : 0 < tier.effectiveGbs*10^9 := by positivity
  rw [savedPerByte,sub_pos,one_div_lt_one_div hbytes hcost]
  exact div_lt_iff₀ (by positivity)

theorem saved_of_nonneg (probe : Probe F) {nbytes : ℤ} (h : 0 ≤ nbytes) :
    max 0 (probe.recomputeSeconds nbytes-probe.restoreSeconds nbytes) =
      nbytes*max 0 (savedPerByte probe.cost probe.tier) := by
  have hcast : (0 : F) ≤ nbytes := by exact_mod_cast h
  have hrestore : probe.restoreSeconds nbytes = nbytes/(probe.tier.effectiveGbs*10^9) := by
    rw [Probe.restoreSeconds,TierConfig.restoreSeconds]
    split_ifs with hnone
    · rw [le_antisymm hnone h,Int.cast_zero,zero_div]
    · rfl
  have hprice : probe.recomputeSeconds nbytes-probe.restoreSeconds nbytes =
      nbytes*savedPerByte probe.cost probe.tier := by
    rw [hrestore,Probe.recomputeSeconds,CostModel.recomputeSeconds,savedPerByte,div_div]
    ring
  rw [hprice,mul_max_of_nonneg _ _ hcast,mul_zero]

theorem saved_eq (probe : Probe F) (hkv : 0 < probe.cost.kvBytesPerToken)
    (hrate : 0 < probe.cost.prefillTokensPerS) (nbytes : ℤ) :
    max 0 (probe.recomputeSeconds nbytes-probe.restoreSeconds nbytes) =
      (max 0 nbytes : ℤ)*max 0 (savedPerByte probe.cost probe.tier) := by
  cases le_total 0 nbytes with
  | inl h =>
    rw [max_eq_right h]
    exact saved_of_nonneg probe h
  | inr h =>
    have hcast : (nbytes : F) ≤ 0 := by exact_mod_cast h
    have hloss : probe.recomputeSeconds nbytes ≤ 0 :=
      div_nonpos_of_nonpos_of_nonneg (div_nonpos_of_nonpos_of_nonneg hcast hkv.le) hrate.le
    have hrestore : probe.restoreSeconds nbytes = 0 := if_pos h
    rw [hrestore,sub_zero,max_eq_left hloss,max_eq_left h,Int.cast_zero,zero_mul]

/-- A policy that the rate cannot steer: it does not look at it, or it ranks by value and
the tier is worth having at both rates or at neither. -/
def PolicyKind.Steady (cost : CostModel F) (tier : TierConfig F) (rate : F) : PolicyKind F → Prop
  | .continuumTtl _ _ _ => False
  | .adaptiveValue _ _ => 0 < cost.kvBytesPerToken ∧ 0 < tier.effectiveGbs ∧
      (cost.isWorthTier tier ↔ (cost.atRate rate).isWorthTier tier)
  | _ => True

/-- On one side of the break-even bandwidth another rate scales every value alike. -/
theorem exists_scale {probe : Probe F} {rate : F} (hkv : 0 < probe.cost.kvBytesPerToken)
    (hrate : 0 < probe.cost.prefillTokensPerS) (hrate' : 0 < rate)
    (htier : 0 < probe.tier.effectiveGbs)
    (hworth : probe.cost.isWorthTier probe.tier ↔ (probe.cost.atRate rate).isWorthTier probe.tier) :
    ∃ c, 0 < c ∧ ∀ nbytes,
      max 0 ((probe.atRate rate).recomputeSeconds nbytes-(probe.atRate rate).restoreSeconds nbytes) =
        c*max 0 (probe.recomputeSeconds nbytes-probe.restoreSeconds nbytes) := by
  have hsaved := saved_eq probe hkv hrate
  have hsaved' := saved_eq (probe.atRate rate) hkv hrate'
  rw [isWorthTier_iff _ _ hkv hrate htier,
    isWorthTier_iff (probe.cost.atRate rate) _ hkv hrate' htier] at hworth
  by_cases hpos : 0 < savedPerByte probe.cost probe.tier
  · have hpos' := hworth.mp hpos
    refine ⟨savedPerByte (probe.cost.atRate rate) probe.tier/savedPerByte probe.cost probe.tier,
      div_pos hpos' hpos,fun nbytes => ?_⟩
    have hne : savedPerByte probe.cost probe.tier ≠ 0 := hpos.ne'
    rw [hsaved,hsaved',max_eq_right hpos.le]
    show _*max 0 (savedPerByte (probe.cost.atRate rate) probe.tier) = _
    rw [max_eq_right hpos'.le]
    field_simp
  · have hpos' : ¬ 0 < savedPerByte (probe.cost.atRate rate) probe.tier := fun h =>
      hpos (hworth.mpr h)
    refine ⟨1,one_pos,fun nbytes => ?_⟩
    rw [hsaved,hsaved',max_eq_left (not_lt.mp hpos)]
    show _*max 0 (savedPerByte (probe.cost.atRate rate) probe.tier) = _
    rw [max_eq_left (not_lt.mp hpos')]
    simp

namespace AdaptiveValuePolicy

omit [Scalar F] in
theorem dropChains_atRate (neededBytes : ℤ) (probe : Probe F) (rate : F) (freed : ℤ)
    (chains : List (List (BlockKey × Entry F))) :
    dropChains neededBytes (probe.atRate rate) freed chains =
      dropChains neededBytes probe freed chains := by
  induction chains generalizing freed with
  | nil => rfl
  | cons chain chains ih =>
    have hdepth : ∀ key, depth key (probe.atRate rate) = depth key probe := fun _ => rfl
    simp only [dropChains,hdepth,ih]

variable (horizonS : F) (priors : Dict String F) {probe : Probe F} {rate c : F} (hc : 0 < c)
  (hscale : ∀ nbytes,
    max 0 ((probe.atRate rate).recomputeSeconds nbytes-(probe.atRate rate).restoreSeconds nbytes) =
      c*max 0 (probe.recomputeSeconds nbytes-probe.restoreSeconds nbytes))
include hscale

theorem density_atRate (key : BlockKey) (nbytes : ℤ) :
    density horizonS priors key nbytes (probe.atRate rate) =
      c*density horizonS priors key nbytes probe := by
  have hprob : { probe.atRate rate with horizonS := horizonS }.reuseProb key priors =
      { probe with horizonS := horizonS }.reuseProb key priors := rfl
  unfold density
  rw [hprob,hscale]
  ring

theorem chainDensity_atRate (chain : List (BlockKey × Entry F)) :
    chainDensity horizonS priors chain (probe.atRate rate) =
      c*chainDensity horizonS priors chain probe := by
  unfold chainDensity
  simp only [density_atRate horizonS priors hscale,mul_assoc,List.sum_map_mul_left,mul_div_assoc]
  split
  · rw [mul_zero]
  · rfl

include hc

theorem admitChain_atRate (capacity : ℤ) (entries : Entries F) (items : List (BlockKey × ℤ)) :
    admitChain horizonS priors capacity entries items (probe.atRate rate) =
      admitChain horizonS priors capacity entries items probe := by
  have hworst : ((entries.items.map fun p =>
      density horizonS priors p.1 p.2.nbytes (probe.atRate rate)).min?).getD 0 =
        c*((entries.items.map fun p => density horizonS priors p.1 p.2.nbytes probe).min?).getD 0 := by
    have hmono : Monotone fun x : F => c*x := monotone_mul_left_of_nonneg hc.le
    have hmap := min?_map hmono
      (entries.items.map fun p => density horizonS priors p.1 p.2.nbytes probe)
    rw [List.map_map] at hmap
    simp only [density_atRate horizonS priors hscale]
    rw [show (fun p : BlockKey × Entry F => c*density horizonS priors p.1 p.2.nbytes probe) =
      (fun x => c*x) ∘ fun p => density horizonS priors p.1 p.2.nbytes probe from rfl,hmap]
    cases (entries.items.map fun p => density horizonS priors p.1 p.2.nbytes probe).min? with
    | none => simp
    | some x => rfl
  have hincoming : (items.map fun p =>
      density horizonS priors p.1 p.2 (probe.atRate rate)*p.2).sum/
        (max 1 (items.map Prod.snd).sum : ℤ) =
      c*((items.map fun p => density horizonS priors p.1 p.2 probe*p.2).sum/
        (max 1 (items.map Prod.snd).sum : ℤ)) := by
    simp only [density_atRate horizonS priors hscale,mul_assoc,List.sum_map_mul_left,mul_div_assoc]
  unfold admitChain
  simp only [hworst,hincoming,mul_le_mul_iff_of_pos_left hc]

theorem evict_atRate (entries : Entries F) (now : F) (neededBytes : ℤ)
    (protectedKeys : Finset BlockKey) :
    evict horizonS priors entries now (probe.atRate rate) neededBytes protectedKeys =
      evict horizonS priors entries now probe neededBytes protectedKeys := by
  have hranked : ∀ groups : List (List (BlockKey × Entry F)),
      sortedBy (fun g => toLex (sharedRank g (probe.atRate rate),
        chainDensity horizonS priors g (probe.atRate rate))) groups =
      sortedBy (fun g => toLex (sharedRank g probe,chainDensity horizonS priors g probe)) groups := by
    apply sortedBy_congr
    intro g g'
    rw [chainDensity_atRate horizonS priors hscale,chainDensity_atRate horizonS priors hscale,
      Prod.Lex.toLex_le_toLex,Prod.Lex.toLex_le_toLex]
    simp only [mul_le_mul_iff_of_pos_left hc]
    rfl
  have hchains : ∀ candidates : List (BlockKey × Entry F),
      chains now (probe.atRate rate) candidates = chains now probe candidates := fun _ => rfl
  unfold evict
  simp only [hranked,hchains,dropChains_atRate]

end AdaptiveValuePolicy

/-- A steady policy decides the same at both rates. -/
theorem PolicyKind.Steady.sameView {kind : PolicyKind F} {probe : Probe F} {rate : F}
    (hrate : 0 < probe.cost.prefillTokensPerS) (hrate' : 0 < rate)
    (h : kind.Steady probe.cost probe.tier rate) : kind.SameView probe (probe.atRate rate) := by
  constructor
  case admission =>
    rintro ⟨kind,capacity,entries⟩ rfl items
    cases kind with
    | adaptiveValue horizonS priors =>
      obtain ⟨c,hc,hscale⟩ := exists_scale h.1 hrate hrate' h.2.1 h.2.2
      exact (AdaptiveValuePolicy.admitChain_atRate horizonS priors hc hscale _ _ _).symm
    | continuumTtl => exact h.elim
    | lru => rfl
    | lfu => rfl
    | fixedTtl => rfl
    | oracle => rfl
  case expiry =>
    rintro ⟨kind,capacity,entries⟩ rfl key nbytes now
    cases kind with
    | continuumTtl => exact h.elim
    | adaptiveValue => rfl
    | lru => rfl
    | lfu => rfl
    | fixedTtl => rfl
    | oracle => rfl
  case evict =>
    rintro ⟨kind,capacity,entries⟩ rfl neededBytes protectedKeys now
    cases kind with
    | adaptiveValue horizonS priors =>
      obtain ⟨c,hc,hscale⟩ := exists_scale h.1 hrate hrate' h.2.1 h.2.2
      have hevict := AdaptiveValuePolicy.evict_atRate horizonS priors hc hscale entries now
        neededBytes protectedKeys
      simp only [TierPolicy.evict,TierPolicy.evictEntries,hevict]
    | continuumTtl => exact h.elim
    | lru => rfl
    | lfu => rfl
    | fixedTtl => rfl
    | oracle => rfl

end ContextResidency
