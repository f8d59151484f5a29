import ContextResidency.EvictionContract

/-! Every policy evicts in a fixed order. Whatever it is asked to free, it takes from the
front of one list of its candidates, so the victims are known from the sizes alone. -/
namespace ContextResidency

variable {F : Type}

namespace AdaptiveValuePolicy

/-- The blocks of one chain, deepest first. -/
def leafFirst (probe : Probe F) (chain : List (BlockKey × Entry F)) :
    List (BlockKey × Entry F) :=
  sortedBy (fun p => OrderDual.toDual (depth p.1 probe)) chain

theorem dropChain_eq {neededBytes freed : ℤ} (hfreed : freed < neededBytes)
    (chain : List (BlockKey × Entry F)) : dropChain neededBytes freed chain =
      ((takeUntil (·.2.nbytes) neededBytes freed chain).map Prod.fst,
        freed+((takeUntil (·.2.nbytes) neededBytes freed chain).map (·.2.nbytes)).sum) := by
  induction chain generalizing freed with
  | nil => simp [dropChain,takeUntil]
  | cons e rest ih =>
    rw [dropChain,if_neg (not_le.mpr hfreed),takeUntil]
    by_cases hstop : neededBytes ≤ freed+e.2.nbytes
    · cases rest <;> simp [dropChain,hstop]
    · simp [hstop,ih (not_le.mp hstop),add_assoc]

/-- Dropping chain after chain is taking from the chains in a row. -/
theorem dropChains_eq {neededBytes freed : ℤ} (hfreed : freed < neededBytes) (probe : Probe F)
    (ranked : List (List (BlockKey × Entry F))) : dropChains neededBytes probe freed ranked =
      (takeUntil (·.2.nbytes) neededBytes freed (ranked.flatMap (leafFirst probe))).map Prod.fst := by
  induction ranked generalizing freed with
  | nil => rfl
  | cons chain rest ih =>
    have hchain : dropChain neededBytes freed
        (sortedBy (fun p => OrderDual.toDual (depth p.1 probe)) chain) = _ :=
      dropChain_eq hfreed (leafFirst probe chain)
    rw [dropChains,List.flatMap_cons,takeUntil_append hfreed,hchain]
    by_cases hstop : neededBytes ≤ freed+((takeUntil (·.2.nbytes) neededBytes freed
        (leafFirst probe chain)).map (·.2.nbytes)).sum
    · rw [if_pos hstop,if_pos hstop,List.append_nil]
    · rw [if_neg hstop,if_neg hstop,ih (not_le.mp hstop),List.map_append]

variable [Scalar F]

/-- The chains of the candidates, the first to go first. -/
def ranked (horizonS : F) (priors : Dict String F) (now : F) (probe : Probe F)
    (candidates : List (BlockKey × Entry F)) : List (List (BlockKey × Entry F)) :=
  sortedBy (fun c => toLex (sharedRank c probe,chainDensity horizonS priors c probe))
    (chains now probe candidates).values

end AdaptiveValuePolicy

variable [Scalar F]

namespace TierPolicy

variable (policy : TierPolicy F) (protectedKeys : Finset BlockKey) (now : F) (probe : Probe F)

/-- What is left of the unprotected entries after the sweep. -/
def candidates : List (BlockKey × Entry F) :=
  (policy.swept now).items.filter fun p => p.1 ∉ protectedKeys

/-- The candidates in the order in which the policy evicts them. -/
def order : List (BlockKey × Entry F) :=
  match policy.kind with
  | .lru => sortedBy (fun p => p.2.lastTouch) (policy.candidates protectedKeys now)
  | .lfu => sortedBy (fun p => toLex (p.2.uses,p.2.lastTouch)) (policy.candidates protectedKeys now)
  | .fixedTtl _ _ => sortedBy (fun p => toLex (p.2.expiresAt,p.2.lastTouch))
      (policy.candidates protectedKeys now)
  | .continuumTtl _ _ _ => sortedBy (fun p => toLex (p.2.expiresAt,p.2.lastTouch))
      (policy.candidates protectedKeys now)
  | .adaptiveValue horizonS priors => (AdaptiveValuePolicy.ranked horizonS priors now probe
      (policy.candidates protectedKeys now)).flatMap (AdaptiveValuePolicy.leafFirst probe)
  | .oracle => sortedBy (fun p => toLex (OrderDual.toDual p.2.nextUse,p.2.lastTouch))
      (policy.candidates protectedKeys now)

theorem order_perm : (policy.order protectedKeys now probe).Perm
    (policy.candidates protectedKeys now) := by
  unfold order
  split
  case h_5 horizonS priors _ =>
    have hleaves : ∀ chains : List (List (BlockKey × Entry F)),
        (chains.flatMap (AdaptiveValuePolicy.leafFirst probe)).Perm chains.flatten := by
      intro chains
      induction chains with
      | nil => exact List.Perm.refl _
      | cons chain chains ih => exact (sortedBy_perm _ chain).append ih
    exact (hleaves _).trans ((sortedBy_perm _ _).flatten.trans
      (AdaptiveValuePolicy.chains_perm now probe _))
  all_goals exact sortedBy_perm _ _

/-- The victims of an eviction: from the front of the order until enough is freed. -/
def victims (neededBytes : ℤ) : List BlockKey :=
  (takeUntil (·.2.nbytes) neededBytes 0 (policy.order protectedKeys now probe)).map Prod.fst

theorem evictEntries_eq {neededBytes : ℤ} (hneeded : 0 < neededBytes) :
    policy.evictEntries neededBytes protectedKeys now probe =
      evicted (policy.swept now) (policy.victims protectedKeys now probe neededBytes) := by
  unfold evictEntries victims order candidates swept
  cases hkind : policy.kind with
  | adaptiveValue horizonS priors =>
    simp only [AdaptiveValuePolicy.evict,PolicyKind.sweeps,if_true,
      AdaptiveValuePolicy.dropChains_eq hneeded]
    by_cases hnone : ((expire policy.entries now).items.filter fun p => p.1 ∉ protectedKeys) = []
    · rw [if_pos hnone,hnone]
      simp [evicted,AdaptiveValuePolicy.ranked,AdaptiveValuePolicy.chains,Dict.values,sortedBy,
        takeUntil]
    · rw [if_neg hnone]
      rfl
  | lru => exact take_eq_evicted _ _ _
  | lfu => exact take_eq_evicted _ _ _
  | fixedTtl baseS perGibS => exact take_eq_evicted _ _ _
  | continuumTtl k minS maxS => exact take_eq_evicted _ _ _
  | oracle => exact take_eq_evicted _ _ _

end TierPolicy
end ContextResidency
