import ContextResidency.HbmInclusion
import ContextResidency.Library.Lru

/-! The HBM pool under any mixture of stores and touches. Its counter is the total of what it
holds, its keys keep the order of their last accesses, and a store drops the oldest keys
that it may drop, no more of them than it takes to fit. -/
namespace ContextResidency

/-- The calls that the pool takes. -/
inductive PoolOp
  | store (items : List (BlockKey × ℤ)) (protectedKeys : Finset BlockKey)
  | touch (keys : List BlockKey)

def PoolOp.keys : PoolOp → List BlockKey
  | .store items _ => items.map Prod.fst
  | .touch keys => keys

namespace HBMTier

def apply (hbm : HBMTier) : PoolOp → HBMTier
  | .store items protectedKeys => (hbm.store items protectedKeys).1
  | .touch keys => hbm.touch keys

/-- The keys accessed by some calls, each once, the one accessed last at the end. -/
def recency (past : List PoolOp) : List BlockKey := (past.flatMap PoolOp.keys).foldl access []

theorem recency_append (past : List PoolOp) (op : PoolOp) :
    recency (past ++ [op]) = op.keys.foldl access (recency past) := by
  rw [recency,List.flatMap_append,List.foldl_append,List.flatMap_singleton,recency]

theorem recency_nodup (past : List PoolOp) : (recency past).Nodup :=
  List.foldlRecOn (motive := List.Nodup) _ access List.nodup_nil fun _ h k _ => access_nodup h k

/-- What a store does to a pool: it takes the items in, and drops the oldest unprotected keys
until the rest fits. -/
structure Stored (hbm : HBMTier) (items : List (BlockKey × ℤ)) (protectedKeys : Finset BlockKey)
    (recent : List BlockKey) (result : HBMTier × List BlockKey) : Prop where
  removed : result.1.blocks = (items.foldl fill hbm).blocks.eraseAll result.2
  exact : ∀ key, key ∈ result.2 ↔
    (key ∈ hbm.blocks ∨ key ∈ items.map Prod.fst) ∧ key ∉ result.1.blocks
  unprotected : ∀ key ∈ result.2, key ∉ protectedKeys
  oldest : (result.2 ++ result.1.blocks.keys.filter (· ∉ protectedKeys)).Sublist recent
  needed : ∀ front, front <+: result.2 → front ≠ result.2 →
    hbm.capacityBytes < weight ((items.foldl fill hbm).blocks.eraseAll front).items
  fits : result.1.used ≤ hbm.capacityBytes ∨ ∀ key ∈ result.1.blocks, key ∈ protectedKeys

/-- Popping a list of victims pops a front part of it, one more as long as the rest does not
fit. -/
theorem drop_spec {hbm : HBMTier} (h : hbm.Counted) {victims : List BlockKey}
    (hmem : ∀ k ∈ victims, k ∈ hbm.blocks) (hn : victims.Nodup)
    (hover : hbm.capacityBytes < hbm.used) :
    (hbm.drop victims).2 <+: victims ∧
      (hbm.drop victims).1.blocks = hbm.blocks.eraseAll (hbm.drop victims).2 ∧
      (∀ front, front <+: (hbm.drop victims).2 → front ≠ (hbm.drop victims).2 →
        hbm.capacityBytes < weight (hbm.blocks.eraseAll front).items) ∧
      ((hbm.drop victims).1.used ≤ hbm.capacityBytes ∨ (hbm.drop victims).2 = victims) := by
  induction victims generalizing hbm with
  | nil =>
    refine ⟨List.prefix_refl _,(Dict.eraseAll_nil _).symm,fun front hfront hne => ?_,Or.inr rfl⟩
    exact absurd (List.prefix_nil.mp hfront) hne
  | cons v victims ih =>
    obtain ⟨n,hv⟩ := Dict.mem_iff_get.mp (hmem v (by simp))
    rw [List.nodup_cons] at hn
    have hwhole : hbm.capacityBytes < weight (hbm.blocks.eraseAll []).items := by
      rw [Dict.eraseAll_nil]
      exact h ▸ hover
    rw [drop]
    simp only [hv,Option.getD_some]
    by_cases hfit : hbm.used-n ≤ hbm.capacityBytes
    · rw [if_pos hfit]
      refine ⟨List.prefix_append [v] victims,?_,fun front hfront hne => ?_,Or.inl hfit⟩
      · rw [← Dict.eraseAll_erase,Dict.eraseAll_nil]
      · cases front with
        | nil => exact hwhole
        | cons w front =>
          obtain ⟨rfl,hnil⟩ := List.cons_prefix_cons.mp hfront
          exact absurd (by rw [List.prefix_nil.mp hnil]) hne
    · rw [if_neg hfit]
      have hpopped : ∀ k ∈ victims, k ∈ hbm.blocks.erase v := fun k hk =>
        Dict.mem_erase.mpr ⟨hmem k (by simp [hk]),fun e => hn.1 (e ▸ hk)⟩
      obtain ⟨hfront,hblocks,hneeded,hend⟩ := ih (pop_counted h hv) hpopped hn.2 (not_le.mp hfit)
      refine ⟨(List.prefix_cons_inj v).mpr hfront,?_,fun front hpart hne => ?_,?_⟩
      · rw [hblocks,Dict.eraseAll_erase]
      · cases front with
        | nil => exact hwhole
        | cons w front =>
          obtain ⟨rfl,hpart⟩ := List.cons_prefix_cons.mp hpart
          rw [← Dict.eraseAll_erase]
          exact hneeded front hpart fun e => hne (e ▸ rfl)
      · exact hend.imp_right fun hall => by rw [hall]

/-- A store pops the front of the unprotected keys, as far as that takes. -/
theorem store_spec {hbm : HBMTier} (h : hbm.Counted) (items : List (BlockKey × ℤ))
    (protectedKeys : Finset BlockKey) :
    (hbm.store items protectedKeys).2 <+:
        (items.foldl fill hbm).blocks.keys.filter (· ∉ protectedKeys) ∧
      (hbm.store items protectedKeys).1.blocks =
        (items.foldl fill hbm).blocks.eraseAll (hbm.store items protectedKeys).2 ∧
      (∀ front, front <+: (hbm.store items protectedKeys).2 →
        front ≠ (hbm.store items protectedKeys).2 →
        hbm.capacityBytes < weight ((items.foldl fill hbm).blocks.eraseAll front).items) ∧
      ((hbm.store items protectedKeys).1.used ≤ hbm.capacityBytes ∨
        (hbm.store items protectedKeys).2 =
          (items.foldl fill hbm).blocks.keys.filter (· ∉ protectedKeys)) := by
  have hcapacity := foldl_fill_capacity hbm items
  rw [store,← hcapacity]
  by_cases hfit : (items.foldl fill hbm).used ≤ (items.foldl fill hbm).capacityBytes
  · rw [if_pos hfit]
    refine ⟨List.nil_prefix,(Dict.eraseAll_nil _).symm,fun front hfront hne => ?_,Or.inl hfit⟩
    exact absurd (List.prefix_nil.mp hfront) hne
  · rw [if_neg hfit]
    refine drop_spec (foldl_fill_counted h items) (fun k hk => ?_) ?_ (not_le.mp hfit)
    · exact (List.mem_filter.mp hk).1
    · exact (Dict.keys_nodup _).filter _

/-- The keys that survive next to those popped from the front are the rest. -/
theorem kept_keys {blocks : Dict BlockKey ℤ} {protectedKeys : Finset BlockKey}
    {out rest : List BlockKey} (h : out ++ rest = blocks.keys.filter (· ∉ protectedKeys)) :
    (blocks.eraseAll out).keys.filter (· ∉ protectedKeys) = rest := by
  have hn : (out ++ rest).Nodup := h ▸ blocks.keys_nodup.filter _
  have hkeys : (blocks.eraseAll out).keys = blocks.keys.filter (· ∉ out) := by
    rw [Dict.keys,Dict.eraseAll,Dict.items_filter,Dict.keys,List.filter_map]
    rfl
  rw [hkeys,List.filter_comm,← h,List.filter_append]
  have hout : out.filter (· ∉ out) = [] := List.filter_eq_nil_iff.mpr fun k hk => by simpa using hk
  have hrest : rest.filter (· ∉ out) = rest := by
    refine List.filter_eq_self.mpr fun k hk => ?_
    simpa using fun hk' : k ∈ out => (List.nodup_append.mp hn).2.2 k hk' k hk rfl
  rw [hout,hrest,List.nil_append]

theorem fill_keys (hbm : HBMTier) (item : BlockKey × ℤ) :
    (hbm.fill item).blocks.keys = access hbm.blocks.keys item.1 := by
  rw [Dict.keys,fill_items,List.map_append,access,Dict.keys,List.filter_map]
  rfl

theorem foldl_fill_keys (hbm : HBMTier) (items : List (BlockKey × ℤ)) :
    (items.foldl fill hbm).blocks.keys = (items.map Prod.fst).foldl access hbm.blocks.keys := by
  induction items generalizing hbm with
  | nil => rfl
  | cons item items ih => rw [List.foldl_cons,ih,fill_keys,List.map_cons,List.foldl_cons]

/-- A pool that is over its capacity after a store is down to what it may not drop. -/
theorem fits_or_protected {hbm : HBMTier} (h : hbm.Counted) (items : List (BlockKey × ℤ))
    (protectedKeys : Finset BlockKey) :
    (hbm.store items protectedKeys).1.used ≤ hbm.capacityBytes ∨
      ∀ key ∈ (hbm.store items protectedKeys).1.blocks, key ∈ protectedKeys := by
  obtain ⟨_,hblocks,_,hend⟩ := store_spec h items protectedKeys
  refine hend.imp_right fun hall key hkey => ?_
  by_contra hunprotected
  rw [hblocks,Dict.mem_eraseAll,hall] at hkey
  apply hkey.2
  exact List.mem_filter.mpr ⟨Dict.mem_def.mp hkey.1,by simpa using hunprotected⟩

/-- What holds of a pool between calls. -/
structure Orderly (capacityBytes : ℤ) (recent : List BlockKey) (hbm : HBMTier) : Prop where
  capacity : hbm.capacityBytes = capacityBytes
  counted : hbm.Counted
  ordered : hbm.blocks.keys.Sublist recent

section Calls

variable {capacityBytes : ℤ} {recent : List BlockKey} {hbm : HBMTier}
  (h : Orderly capacityBytes recent hbm)
include h

theorem Orderly.moveToEnd (key : BlockKey) : Orderly capacityBytes (access recent key)
    { hbm with blocks := hbm.blocks.moveToEnd key } := by
  cases hget : hbm.blocks.get key with
  | none =>
    have hsame : hbm.blocks.moveToEnd key = hbm.blocks := by rw [Dict.moveToEnd,hget]
    rw [hsame]
    refine ⟨h.capacity,h.counted,sublist_access h.ordered ?_⟩
    exact Dict.get_eq_none.mp hget
  | some n =>
    have hfill : hbm.fill (key,n) = { hbm with blocks := hbm.blocks.moveToEnd key } :=
      if_pos (Dict.mem_iff_get.mpr ⟨n,hget⟩)
    rw [← hfill]
    refine ⟨(fill_capacity _ _).trans h.capacity,fill_counted h.counted _,?_⟩
    rw [fill_keys]
    exact access_sublist h.ordered key

theorem Orderly.touch (keys : List BlockKey) :
    Orderly capacityBytes (keys.foldl access recent) (hbm.touch keys) := by
  rw [HBMTier.touch]
  induction keys generalizing hbm recent with
  | nil => exact h
  | cons key keys ih => exact ih (h.moveToEnd key)

theorem Orderly.fill (items : List (BlockKey × ℤ)) :
    Orderly capacityBytes ((items.map Prod.fst).foldl access recent) (items.foldl fill hbm) where
  capacity := (foldl_fill_capacity hbm items).trans h.capacity
  counted := foldl_fill_counted h.counted items
  ordered := foldl_fill_keys hbm items ▸ foldl_access_sublist h.ordered _

theorem Orderly.stored (items : List (BlockKey × ℤ)) (protectedKeys : Finset BlockKey) :
    Stored hbm items protectedKeys ((items.map Prod.fst).foldl access recent)
      (hbm.store items protectedKeys) := by
  have hfilled := h.fill items
  obtain ⟨⟨rest,hfront⟩,hblocks,hneeded,_⟩ := store_spec h.counted items protectedKeys
  have hpopped : ∀ key ∈ (hbm.store items protectedKeys).2,
      key ∈ (items.foldl HBMTier.fill hbm).blocks ∧ key ∉ protectedKeys := by
    intro key hkey
    have hvictim : key ∈ (items.foldl HBMTier.fill hbm).blocks.keys.filter (· ∉ protectedKeys) :=
      hfront ▸ List.mem_append_left rest hkey
    obtain ⟨hheld,hunprotected⟩ := List.mem_filter.mp hvictim
    exact ⟨Dict.mem_def.mpr hheld,by simpa using hunprotected⟩
  have hmem : ∀ key, key ∈ (items.foldl HBMTier.fill hbm).blocks ↔
      key ∈ hbm.blocks ∨ key ∈ items.map Prod.fst := by
    intro key
    rw [Dict.mem_def,foldl_fill_keys,mem_foldl_access,Dict.mem_def]
  constructor
  case removed => exact hblocks
  case exact =>
    intro key
    rw [hblocks,Dict.mem_eraseAll,← hmem key]
    constructor
    · intro hkey
      exact ⟨(hpopped key hkey).1,fun hkept => hkept.2 hkey⟩
    · rintro ⟨hheld,hgone⟩
      by_contra hkey
      exact hgone ⟨hheld,hkey⟩
  case unprotected => exact fun key hkey => (hpopped key hkey).2
  case oldest =>
    rw [hblocks,kept_keys hfront,hfront]
    exact List.filter_sublist.trans hfilled.ordered
  case needed => exact hneeded
  case fits => exact fits_or_protected h.counted items protectedKeys

theorem Orderly.store (items : List (BlockKey × ℤ)) (protectedKeys : Finset BlockKey) :
    Orderly capacityBytes ((items.map Prod.fst).foldl access recent)
      (hbm.store items protectedKeys).1 where
  capacity := (store_capacity hbm items protectedKeys).trans h.capacity
  counted := store_counted h.counted items protectedKeys
  ordered := by
    rw [(h.stored items protectedKeys).removed]
    exact (List.filter_sublist.map Prod.fst).trans (h.fill items).ordered

theorem Orderly.apply (op : PoolOp) :
    Orderly capacityBytes (op.keys.foldl access recent) (hbm.apply op) := by
  cases op with
  | store items protectedKeys => exact h.store items protectedKeys
  | touch keys => exact h.touch keys

end Calls

theorem run_orderly (capacityBytes : ℤ) (past : List PoolOp) :
    Orderly capacityBytes (recency past) (past.foldl apply (new capacityBytes)) := by
  induction past using List.reverseRecOn with
  | nil => exact ⟨rfl,rfl,List.Sublist.refl _⟩
  | append_singleton past op ih =>
    rw [List.foldl_append,recency_append]
    exact ih.apply op

/-- After any calls on an empty pool its counter is the total of the sizes it holds, it holds
each key once, and a store reports exactly the keys it removes: unprotected ones, the least
recently stored or touched first, until the pool fits or only protected keys remain. -/
theorem pool_correct (capacityBytes : ℤ) (past : List PoolOp) :
    let hbm := past.foldl apply (new capacityBytes)
    hbm.used = weight hbm.blocks.items ∧ hbm.blocks.keys.Nodup ∧
      hbm.capacityBytes = capacityBytes ∧
      ∀ (items : List (BlockKey × ℤ)) (protectedKeys : Finset BlockKey),
        (recency (past ++ [.store items protectedKeys])).Nodup ∧
        Stored hbm items protectedKeys (recency (past ++ [.store items protectedKeys]))
          (hbm.store items protectedKeys) := by
  intro hbm
  have horderly : Orderly capacityBytes (recency past) hbm := run_orderly capacityBytes past
  refine ⟨horderly.counted,hbm.blocks.keys_nodup,horderly.capacity,fun items protectedKeys => ?_⟩
  refine ⟨recency_nodup _,?_⟩
  rw [recency_append]
  exact horderly.stored items protectedKeys

end HBMTier
end ContextResidency
