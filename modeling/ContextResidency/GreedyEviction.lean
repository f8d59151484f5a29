import ContextResidency.EvictionOrder

/-! Eviction as a greedy choice. Each policy frees what it is asked for as long as it has
anything to give, no block more than that takes, and in the order of its own sort key. -/
namespace ContextResidency

variable {F : Type}

/-- The bytes that the tier holds under the given keys. -/
def heldBytes (entries : Entries F) (keys : List BlockKey) : ℤ :=
  (keys.map fun key => ((entries.get key).map (·.nbytes)).getD 0).sum

theorem heldBytes_of_items {entries : Entries F} {items : List (BlockKey × Entry F)}
    (h : ∀ p ∈ items, p ∈ entries.items) :
    heldBytes entries (items.map Prod.fst) = (items.map (·.2.nbytes)).sum := by
  rw [heldBytes,List.map_map]
  refine congrArg List.sum (List.map_congr_left fun p hp => ?_)
  have hget : entries.get p.1 = some p.2 := Dict.get_eq_some.mpr (h p hp)
  simp [hget]

variable [Scalar F]

/-- One entry goes before another, or they tie, in the sort key of the policy. The adaptive
policy has no such key. -/
def PolicyKind.Precedes (kind : PolicyKind F) (e e' : Entry F) : Prop :=
  match kind with
  | .lru => e.lastTouch ≤ e'.lastTouch
  | .lfu => toLex (e.uses,e.lastTouch) ≤ toLex (e'.uses,e'.lastTouch)
  | .fixedTtl _ _ => toLex (e.expiresAt,e.lastTouch) ≤ toLex (e'.expiresAt,e'.lastTouch)
  | .continuumTtl _ _ _ => toLex (e.expiresAt,e.lastTouch) ≤ toLex (e'.expiresAt,e'.lastTouch)
  | .adaptiveValue _ _ => True
  | .oracle => toLex (OrderDual.toDual e.nextUse,e.lastTouch) ≤
      toLex (OrderDual.toDual e'.nextUse,e'.lastTouch)

namespace TierPolicy

/-- An eviction is sufficient, minimal and in the order of the policy. -/
structure Greedy (policy : TierPolicy F) (neededBytes : ℤ) (protectedKeys : Finset BlockKey)
    (now : F) (result : Option (List BlockKey) × TierPolicy F) : Prop where
  victims : Victims policy.entries protectedKeys (result.1.getD [])
  sufficient : neededBytes ≤ heldBytes policy.entries (result.1.getD []) ∨
    ∀ key ∈ result.2.entries, key ∈ protectedKeys
  minimal : heldBytes policy.entries (result.1.getD []).dropLast < neededBytes
  nonempty : result.1 ≠ some []
  none_iff : result.1 = none ↔ ∀ p ∈ policy.entries.items,
    p.1 ∈ protectedKeys ∨ policy.kind.sweeps = true ∧ p.2.expiresAt ≤ now
  ordered : ∀ key ∈ result.1.getD [], ∀ e, policy.entries.get key = some e →
    ∀ p ∈ result.2.entries.items, p.1 ∉ protectedKeys → policy.kind.Precedes e p.2

variable (policy : TierPolicy F) (protectedKeys : Finset BlockKey) (now : F) (probe : Probe F)

theorem order_precedes : (policy.order protectedKeys now probe).Pairwise fun p q =>
    policy.kind.Precedes p.2 q.2 := by
  rw [order]
  cases policy.kind with
  | adaptiveValue horizonS priors => exact List.pairwise_of_forall fun _ _ => trivial
  | lru => exact sortedBy_pairwise (fun p : BlockKey × Entry F => p.2.lastTouch) _
  | lfu => exact sortedBy_pairwise (fun p : BlockKey × Entry F => toLex (p.2.uses,p.2.lastTouch)) _
  | fixedTtl baseS perGibS =>
    exact sortedBy_pairwise
      (fun p : BlockKey × Entry F => toLex (p.2.expiresAt,p.2.lastTouch)) _
  | continuumTtl k minS maxS =>
    exact sortedBy_pairwise
      (fun p : BlockKey × Entry F => toLex (p.2.expiresAt,p.2.lastTouch)) _
  | oracle =>
    exact sortedBy_pairwise
      (fun p : BlockKey × Entry F => toLex (OrderDual.toDual p.2.nextUse,p.2.lastTouch)) _

theorem mem_swept {p : BlockKey × Entry F} : p ∈ (policy.swept now).items ↔
    p ∈ policy.entries.items ∧ ¬ (policy.kind.sweeps = true ∧ p.2.expiresAt ≤ now) := by
  unfold swept
  cases policy.kind.sweeps <;> simp [expire]

theorem mem_candidates {p : BlockKey × Entry F} : p ∈ policy.candidates protectedKeys now ↔
    p ∈ (policy.swept now).items ∧ p.1 ∉ protectedKeys := by
  simp [candidates]

section Evict

variable {neededBytes : ℤ} (hneeded : 0 < neededBytes)
include hneeded

theorem evict_keys : (policy.evict neededBytes protectedKeys now probe).1.getD [] =
    policy.victims protectedKeys now probe neededBytes := by
  rw [evict,policy.evictEntries_eq protectedKeys now probe hneeded]
  exact evicted_keys (policy.swept now) _

theorem evict_entries : (policy.evict neededBytes protectedKeys now probe).2.entries =
    (policy.swept now).eraseAll (policy.victims protectedKeys now probe neededBytes) := by
  rw [evict,policy.evictEntries_eq protectedKeys now probe hneeded]
  rfl

/-- An unprotected survivor comes after everything that is taken. -/
theorem survivor_later {rest : List (BlockKey × Entry F)}
    (hrest : takeUntil (·.2.nbytes) neededBytes 0 (policy.order protectedKeys now probe) ++ rest =
      policy.order protectedKeys now probe) {p : BlockKey × Entry F}
    (hp : p ∈ (policy.evict neededBytes protectedKeys now probe).2.entries.items)
    (hunprotected : p.1 ∉ protectedKeys) : p ∈ rest := by
  have hentries := policy.evict_entries protectedKeys now probe hneeded
  rw [hentries,Dict.eraseAll,Dict.items_filter,List.mem_filter] at hp
  have hcandidate := (policy.mem_candidates protectedKeys now).mpr ⟨hp.1,hunprotected⟩
  have hlisted := (policy.order_perm protectedKeys now probe).symm.subset hcandidate
  rw [← hrest] at hlisted
  refine (List.mem_append.mp hlisted).resolve_left fun htaken => ?_
  have hvictim : p.1 ∈ policy.victims protectedKeys now probe neededBytes :=
    List.mem_map_of_mem htaken
  simp [hvictim] at hp

theorem evict_ne_nil : (policy.evict neededBytes protectedKeys now probe).1 ≠ some [] := by
  rw [evict,policy.evictEntries_eq protectedKeys now probe hneeded,evicted]
  split <;> simp_all

theorem evict_eq_none : (policy.evict neededBytes protectedKeys now probe).1 = none ↔
    policy.candidates protectedKeys now = [] := by
  have hnone : policy.victims protectedKeys now probe neededBytes = [] ↔
      policy.candidates protectedKeys now = [] := by
    have hlength := (policy.order_perm protectedKeys now probe).length_eq
    rw [victims,List.map_eq_nil_iff,takeUntil_eq_nil,← List.length_eq_zero_iff,hlength,
      List.length_eq_zero_iff]
  rw [evict,policy.evictEntries_eq protectedKeys now probe hneeded,← hnone,evicted]
  simp

end Evict

theorem candidates_eq_nil : policy.candidates protectedKeys now = [] ↔
    ∀ p ∈ policy.entries.items, p.1 ∈ protectedKeys ∨
      policy.kind.sweeps = true ∧ p.2.expiresAt ≤ now := by
  simp only [List.eq_nil_iff_forall_not_mem,mem_candidates,mem_swept]
  refine forall_congr' fun p => ?_
  tauto

theorem mem_order {p : BlockKey × Entry F} (hp : p ∈ policy.order protectedKeys now probe) :
    p ∈ policy.entries.items ∧ p.1 ∉ protectedKeys := by
  have hcandidate := (policy.order_perm protectedKeys now probe).subset hp
  obtain ⟨hswept,hunprotected⟩ := (policy.mem_candidates protectedKeys now).mp hcandidate
  exact ⟨((policy.mem_swept now).mp hswept).1,hunprotected⟩

theorem victims_victims (neededBytes : ℤ) : Victims policy.entries protectedKeys
    (policy.victims protectedKeys now probe neededBytes) := by
  have hswept : Victims (policy.swept now) protectedKeys
      (policy.victims protectedKeys now probe neededBytes) := by
    apply victims_of_subperm
    exact ((takeUntil_initial _ _ _ _).sublist.map _).subperm.trans
      ((policy.order_perm protectedKeys now probe).map Prod.fst).subperm
  refine ⟨hswept.nodup,fun key hkey => ?_,hswept.unprotected⟩
  obtain ⟨e,he⟩ := Dict.mem_iff_exists.mp (hswept.resident key hkey)
  exact Dict.mem_of_item (policy.item_of_mem_swept he)

/-- Every policy, asked for a positive number of bytes, evicts greedily: distinct unprotected
residents that hold enough unless nothing unprotected is left, no more of them than that takes,
and none after a survivor. It reports nothing exactly when there is nothing to evict. -/
theorem evict_greedy {neededBytes : ℤ} (hneeded : 0 < neededBytes) :
    policy.Greedy neededBytes protectedKeys now
      (policy.evict neededBytes protectedKeys now probe) := by
  let taken := takeUntil (·.2.nbytes) neededBytes 0 (policy.order protectedKeys now probe)
  have hkeys := policy.evict_keys protectedKeys now probe hneeded
  obtain ⟨rest,hrest⟩ := takeUntil_initial (·.2.nbytes) neededBytes 0
    (policy.order protectedKeys now probe)
  have hheld : ∀ p ∈ taken, p ∈ policy.entries.items := fun p hp =>
    (policy.mem_order protectedKeys now probe (hrest ▸ List.mem_append_left rest hp)).1
  have hleft : ∀ p ∈ (policy.evict neededBytes protectedKeys now probe).2.entries.items,
      p.1 ∉ protectedKeys → p ∈ rest := fun p hp hunprotected =>
    policy.survivor_later protectedKeys now probe hneeded hrest hp hunprotected
  constructor
  case victims => exact hkeys ▸ policy.victims_victims protectedKeys now probe neededBytes
  case sufficient =>
    rw [hkeys,victims,heldBytes_of_items hheld]
    have hreaches := takeUntil_reaches (·.2.nbytes) neededBytes 0
      (policy.order protectedKeys now probe)
    rw [zero_add] at hreaches
    refine hreaches.imp_right fun hall key hkey => ?_
    by_contra hunprotected
    obtain ⟨e,he⟩ := Dict.mem_iff_exists.mp hkey
    have hnone : rest = [] := by
      rw [hall] at hrest
      exact List.append_right_eq_self.mp hrest
    exact absurd (hleft _ he hunprotected) (by simp [hnone])
  case minimal =>
    have hdropped : 0+(taken.dropLast.map (·.2.nbytes)).sum < neededBytes :=
      takeUntil_dropLast_lt hneeded _
    rw [zero_add] at hdropped
    rw [hkeys,victims,← List.map_dropLast,heldBytes_of_items fun p hp =>
      hheld p (List.dropLast_subset _ hp)]
    exact hdropped
  case nonempty => exact policy.evict_ne_nil protectedKeys now probe hneeded
  case none_iff =>
    exact (policy.evict_eq_none protectedKeys now probe hneeded).trans
      (policy.candidates_eq_nil protectedKeys now)
  case ordered =>
    intro key hkey e he p hp hunprotected
    rw [hkeys] at hkey
    obtain ⟨v,hv,rfl⟩ := List.mem_map.mp hkey
    have hitem := Dict.get_eq_some.mpr (hheld v hv)
    obtain rfl := Option.some.inj (he.symm.trans hitem)
    have hpairwise := policy.order_precedes protectedKeys now probe
    rw [← hrest,List.pairwise_append] at hpairwise
    exact hpairwise.2.2 v hv p (hleft p hp hunprotected)

/-- A fixed-TTL tier at time 200: an entry that has expired, three that have not, and the one
that would be next to go protected. -/
def crowdedTier : TierPolicy ℚ :=
  ⟨.fixedTtl 180 60,1000,.ofList [
    (.priv "s" 0,{ nbytes := 100, insertedAt := 0, lastTouch := 0, expiresAt := (180 : ℚ) }),
    (.priv "t" 0,{ nbytes := 300, insertedAt := 20, lastTouch := 90, expiresAt := (270 : ℚ) }),
    (.priv "u" 0,{ nbytes := 200, insertedAt := 30, lastTouch := 40, expiresAt := (220 : ℚ) }),
    (.priv "v" 0,{ nbytes := 200, insertedAt := 50, lastTouch := 80, expiresAt := (260 : ℚ) }),
    (.priv "w" 0,{ nbytes := 150, insertedAt := 50, lastTouch := 70, expiresAt := (250 : ℚ) })]⟩

/-- Of the last three it gives up two for 250 bytes. -/
theorem evict_greedy_crowded :
    (crowdedTier.evict 250 {.priv "u" 0} 200 emptyProbe).1 = some [.priv "w" 0,.priv "v" 0] ∧
    crowdedTier.Greedy 250 {.priv "u" 0} 200
      (crowdedTier.evict 250 {.priv "u" 0} 200 emptyProbe) :=
  ⟨by decide +kernel,crowdedTier.evict_greedy {.priv "u" 0} 200 emptyProbe (by decide)⟩

end TierPolicy
end ContextResidency
