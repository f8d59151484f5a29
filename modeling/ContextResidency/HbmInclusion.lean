import ContextResidency.Decoupling
import ContextResidency.Library.Recency

/-! More HBM never costs recompute. The pool is a recency list with a byte budget, so
the pool of a larger budget covers the pool of a smaller one after every turn, and the
host tier is the same in both runs. -/
namespace ContextResidency

namespace HBMTier

/-- The byte counter is the total of the recorded sizes. -/
def Counted (hbm : HBMTier) : Prop := hbm.used = weight hbm.blocks.items

theorem weight_filter_ne {blocks : Dict BlockKey ℤ} {k : BlockKey} {n : ℤ}
    (h : blocks.get k = some n) :
    weight (blocks.items.filter fun p => p.1 ≠ k)+n = weight blocks.items := by
  have hmem : ∀ k' ∈ [k], k' ∈ blocks := by
    simpa using Dict.mem_iff_get.mpr ⟨n,h⟩
  have hsum := Dict.sumBy_eraseAll blocks (fun _ n => n) [k] (by simp) hmem
  simpa [h,Dict.eraseAll,Dict.sumBy,weight] using hsum

theorem filter_ne_of_not_mem {blocks : Dict BlockKey ℤ} {k : BlockKey} (h : k ∉ blocks) :
    (blocks.items.filter fun p => p.1 ≠ k) = blocks.items := by
  refine List.filter_eq_self.mpr fun p hp => ?_
  have hne : p.1 ≠ k := fun e => h (e ▸ Dict.mem_of_item hp)
  simpa using hne

/-- A filled block goes last, with the size it already had or else the given one. -/
theorem fill_items (hbm : HBMTier) (item : BlockKey × ℤ) :
    (hbm.fill item).blocks.items = (hbm.blocks.items.filter fun p => p.1 ≠ item.1) ++
      [(item.1,(hbm.blocks.get item.1).getD item.2)] := by
  unfold fill
  split
  · rename_i h
    obtain ⟨n,hn⟩ := Dict.mem_iff_get.mp h
    simp only [Dict.items_moveToEnd hn,hn,Option.getD_some]
  · rename_i h
    simp only [Dict.items_set_new _ h,filter_ne_of_not_mem h,Dict.get_eq_none.mpr h,
      Option.getD_none]

theorem fill_counted {hbm : HBMTier} (h : hbm.Counted) (item : BlockKey × ℤ) :
    (hbm.fill item).Counted := by
  have hitems := fill_items hbm item
  unfold Counted at h ⊢
  rw [hitems,weight_append,weight_cons,weight_nil]
  unfold fill
  split
  · rename_i hmem
    obtain ⟨n,hn⟩ := Dict.mem_iff_get.mp hmem
    have hw := weight_filter_ne hn
    simp only [hn,Option.getD_some]
    omega
  · rename_i hmem
    simp only [filter_ne_of_not_mem hmem,Dict.get_eq_none.mpr hmem,Option.getD_none]
    omega

theorem fill_capacity (hbm : HBMTier) (item : BlockKey × ℤ) :
    (hbm.fill item).capacityBytes = hbm.capacityBytes := by
  unfold fill
  split <;> rfl

theorem fill_get_of_ne (hbm : HBMTier) (item : BlockKey × ℤ) {k : BlockKey} (h : k ≠ item.1) :
    (hbm.fill item).blocks.get k = hbm.blocks.get k := by
  unfold fill
  split
  · rename_i hmem
    obtain ⟨n,hn⟩ := Dict.mem_iff_get.mp hmem
    simp [Dict.moveToEnd,hn,Dict.get_set,Dict.get_erase,h]
  · simp [Dict.get_set,h]

/-- The items that a path displaces toward the old end. -/
def displaced (hbm : HBMTier) (items : List (BlockKey × ℤ)) : List (BlockKey × ℤ) :=
  hbm.blocks.items.filter fun p => p.1 ∉ items.map Prod.fst

/-- The path itself, with the sizes on record. -/
def renewed (hbm : HBMTier) (items : List (BlockKey × ℤ)) : List (BlockKey × ℤ) :=
  items.map fun p => (p.1,(hbm.blocks.get p.1).getD p.2)

theorem foldl_fill_items (hbm : HBMTier) (items : List (BlockKey × ℤ))
    (hn : (items.map Prod.fst).Nodup) :
    (items.foldl fill hbm).blocks.items = hbm.displaced items ++ hbm.renewed items := by
  induction items generalizing hbm with
  | nil => simp [displaced,renewed]
  | cons item items ih =>
    rw [List.map_cons,List.nodup_cons] at hn
    have hrenewed : (hbm.fill item).renewed items = hbm.renewed items := by
      refine List.map_congr_left fun p hp => ?_
      have hne : p.1 ≠ item.1 := fun e => hn.1 (e ▸ List.mem_map.mpr ⟨p,hp,rfl⟩)
      rw [fill_get_of_ne _ _ hne]
    have hlast : decide (item.1 ∉ items.map Prod.fst) = true := by simpa using hn.1
    rw [List.foldl_cons,ih _ hn.2,hrenewed]
    simp only [displaced,renewed,fill_items,List.filter_append,List.filter_filter,
      List.filter_cons,hlast,List.filter_nil,List.map_cons,List.mem_cons,not_or,
      List.append_assoc,List.cons_append,List.nil_append,if_true]
    congr 1
    refine List.filter_congr fun p _ => ?_
    simp [Bool.and_comm]

theorem foldl_fill_counted {hbm : HBMTier} (h : hbm.Counted) (items : List (BlockKey × ℤ)) :
    (items.foldl fill hbm).Counted :=
  List.foldlRecOn (motive := Counted) items fill h fun _ h item _ => fill_counted h item

theorem foldl_fill_capacity (hbm : HBMTier) (items : List (BlockKey × ℤ)) :
    (items.foldl fill hbm).capacityBytes = hbm.capacityBytes := by
  induction items generalizing hbm with
  | nil => rfl
  | cons item items ih => rw [List.foldl_cons,ih,fill_capacity]

/-- Popping the old end one victim at a time trims it. -/
theorem drop_items (hbm : HBMTier) (old rest : List (BlockKey × ℤ))
    (hitems : hbm.blocks.items = old ++ rest) (hover : ¬ hbm.used ≤ hbm.capacityBytes) :
    (hbm.drop (old.map Prod.fst)).1.blocks.items =
      trim hbm.capacityBytes hbm.used old ++ rest := by
  induction old generalizing hbm with
  | nil => simpa [drop,trim] using hitems
  | cons p old ih =>
    have hp : hbm.blocks.get p.1 = some p.2 := Dict.get_eq_some.mpr (by simp [hitems])
    have hn := hbm.blocks.nodup
    rw [hitems,List.cons_append,List.map_cons,List.nodup_cons] at hn
    have herase : (hbm.blocks.erase p.1).items = old ++ rest := by
      have hkeep : ∀ q ∈ old ++ rest, decide (q.1 ≠ p.1) = true := fun q hq => by
        simpa using fun e : q.1 = p.1 => hn.1 (e ▸ List.mem_map.mpr ⟨q,hq,rfl⟩)
      rw [Dict.erase,Dict.items_filter,hitems,List.cons_append,
        List.filter_cons_of_neg (by simp),List.filter_eq_self.mpr hkeep]
    rw [List.map_cons,drop,trim,if_neg hover]
    simp only [hp,Option.getD_some]
    split
    · rename_i hfit
      rw [trim_of_le _ hfit]
      exact herase
    · rename_i hstill
      exact ih { hbm with used := hbm.used-p.2, blocks := hbm.blocks.erase p.1 } herase hstill

theorem pop_counted {hbm : HBMTier} (h : hbm.Counted) {v : BlockKey} {n : ℤ}
    (hv : hbm.blocks.get v = some n) :
    Counted { hbm with used := hbm.used-n, blocks := hbm.blocks.erase v } := by
  have hw := weight_filter_ne hv
  unfold Counted at h ⊢
  show hbm.used-n = weight (hbm.blocks.items.filter fun p => p.1 ≠ v)
  omega

theorem drop_counted {hbm : HBMTier} (h : hbm.Counted) (victims : List BlockKey)
    (hmem : ∀ k ∈ victims, k ∈ hbm.blocks) (hn : victims.Nodup) :
    (hbm.drop victims).1.Counted := by
  induction victims generalizing hbm with
  | nil => exact h
  | cons v victims ih =>
    obtain ⟨n,hv⟩ := Dict.mem_iff_get.mp (hmem v (by simp))
    rw [List.nodup_cons] at hn
    rw [drop]
    simp only [hv,Option.getD_some]
    split
    · exact pop_counted h hv
    · refine ih (pop_counted h hv) (fun k hk => ?_) hn.2
      exact Dict.mem_erase.mpr ⟨hmem k (by simp [hk]),fun e => hn.1 (e ▸ hk)⟩

theorem drop_capacity (hbm : HBMTier) (victims : List BlockKey) :
    (hbm.drop victims).1.capacityBytes = hbm.capacityBytes := by
  induction victims generalizing hbm with
  | nil => rfl
  | cons v victims ih =>
    rw [drop]
    split
    · rfl
    · exact ih _

theorem displaced_keys (hbm : HBMTier) (items : List (BlockKey × ℤ))
    (hn : (items.map Prod.fst).Nodup) :
    (items.foldl fill hbm).blocks.keys.filter (· ∉ (items.map Prod.fst).toFinset) =
      (hbm.displaced items).map Prod.fst := by
  have hrenewed : (hbm.renewed items).map Prod.fst = items.map Prod.fst := by
    simp [renewed,Function.comp_def]
  rw [Dict.keys,foldl_fill_items _ _ hn,List.map_append,List.filter_append,hrenewed]
  have hold : ∀ k ∈ (hbm.displaced items).map Prod.fst,
      decide (k ∉ (items.map Prod.fst).toFinset) = true := by
    intro k hk
    obtain ⟨p,hp,rfl⟩ := List.mem_map.mp hk
    simpa using (List.mem_filter.mp hp).2
  have hpath : ∀ k ∈ items.map Prod.fst, ¬ decide (k ∉ (items.map Prod.fst).toFinset) = true := by
    intro k hk
    simpa using List.mem_map.mp hk
  rw [List.filter_eq_self.mpr hold,List.filter_eq_nil_iff.mpr hpath,List.append_nil]

/-- The pool after a store: what the path displaced, trimmed to the budget, then the path. -/
theorem store_items {hbm : HBMTier} (h : hbm.Counted) (items : List (BlockKey × ℤ))
    (hn : (items.map Prod.fst).Nodup) :
    (hbm.store items (items.map Prod.fst).toFinset).1.blocks.items =
      trim hbm.capacityBytes (weight (hbm.displaced items)+weight (hbm.renewed items))
        (hbm.displaced items) ++ hbm.renewed items := by
  have hitems := foldl_fill_items hbm items hn
  have hused : (items.foldl fill hbm).used =
      weight (hbm.displaced items)+weight (hbm.renewed items) := by
    rw [← weight_append,← hitems]
    exact foldl_fill_counted h items
  rw [store,← hused,← foldl_fill_capacity hbm items]
  split
  · rename_i hfit
    rw [trim_of_le _ hfit]
    exact hitems
  · rename_i hover
    rw [displaced_keys hbm items hn]
    exact drop_items _ _ _ hitems hover

theorem store_counted {hbm : HBMTier} (h : hbm.Counted) (items : List (BlockKey × ℤ))
    (protectedKeys : Finset BlockKey) : (hbm.store items protectedKeys).1.Counted := by
  rw [store]
  split
  · exact foldl_fill_counted h items
  · refine drop_counted (foldl_fill_counted h items) _ (fun k hk => ?_) ?_
    · exact (List.mem_filter.mp hk).1
    · exact (Dict.keys_nodup _).filter _

theorem store_capacity (hbm : HBMTier) (items : List (BlockKey × ℤ))
    (protectedKeys : Finset BlockKey) :
    (hbm.store items protectedKeys).1.capacityBytes = hbm.capacityBytes := by
  rw [store]
  split
  · exact foldl_fill_capacity _ _
  · rw [drop_capacity,foldl_fill_capacity]

/-- Every recorded size is at most the size in the index. -/
def Recorded {F : Type} (index : PrefixIndex F) (hbm : HBMTier) : Prop :=
  ∀ p ∈ hbm.blocks.items, p.2 ≤ index.nbytesOf p.1

section Step

variable {F : Type} {index : PrefixIndex F} {keys : List BlockKey}

/-- The path of a turn with the sizes in the index, as the pool is given it. -/
def pathBytes (index : PrefixIndex F) (keys : List BlockKey) : List (BlockKey × ℤ) :=
  keys.map fun k => (k,index.nbytesOf k)

theorem pathBytes_keys : (pathBytes index keys).map Prod.fst = keys := by
  simp [pathBytes,Function.comp_def]

theorem renewed_lighter {hbm hbm' : HBMTier} (hrec : Recorded index hbm')
    (hcover : Covers hbm'.blocks.items hbm.blocks.items) :
    Lighter (hbm'.renewed (pathBytes index keys)) (hbm.renewed (pathBytes index keys)) := by
  have hsize : ∀ k, (hbm'.blocks.get k).getD (index.nbytesOf k) ≤
      (hbm.blocks.get k).getD (index.nbytesOf k) := by
    intro k
    cases h : hbm.blocks.get k with
    | some n =>
      obtain ⟨m,hm,hle⟩ := hcover.size_le (Dict.get_eq_some.mp h)
      simpa [Dict.get_eq_some.mpr hm] using hle
    | none =>
      cases h' : hbm'.blocks.get k with
      | none => exact le_rfl
      | some m => exact hrec _ (Dict.get_eq_some.mp h')
  rw [renewed,renewed,pathBytes,List.map_map,List.map_map]
  induction keys with
  | nil => exact .nil
  | cons k keys ih => exact .cons ⟨rfl,hsize k⟩ ih

theorem store_pathBytes_items {hbm : HBMTier} (h : hbm.Counted) (hn : keys.Nodup) :
    (hbm.store (pathBytes index keys) keys.toFinset).1.blocks.items =
      trim hbm.capacityBytes (weight (hbm.displaced (pathBytes index keys))+
        weight (hbm.renewed (pathBytes index keys))) (hbm.displaced (pathBytes index keys)) ++
        hbm.renewed (pathBytes index keys) := by
  have hkeys : (pathBytes index keys).map Prod.fst = keys := pathBytes_keys
  have hitems := store_items h (pathBytes index keys) (by rwa [hkeys])
  rwa [hkeys] at hitems

/-- The same path leaves the pool of the larger budget covering the other one. -/
theorem store_covers {hbm hbm' : HBMTier} (hn : keys.Nodup) (h : hbm.Counted)
    (h' : hbm'.Counted) (hcap : hbm.capacityBytes ≤ hbm'.capacityBytes)
    (hrec : Recorded index hbm') (hcover : Covers hbm'.blocks.items hbm.blocks.items) :
    Covers (hbm'.store (pathBytes index keys) keys.toFinset).1.blocks.items
      (hbm.store (pathBytes index keys) keys.toFinset).1.blocks.items := by
  have hpath : Lighter (hbm'.renewed (pathBytes index keys))
      (hbm.renewed (pathBytes index keys)) := renewed_lighter hrec hcover
  have hold := hcover.filter fun k => k ∉ (pathBytes index keys).map Prod.fst
  rw [store_pathBytes_items h hn,store_pathBytes_items h' hn]
  exact (hold.trim hcap hpath.weight_le).append hpath

theorem item_of_store {hbm : HBMTier} (hn : keys.Nodup) (h : hbm.Counted) {p : BlockKey × ℤ}
    (hp : p ∈ (hbm.store (pathBytes index keys) keys.toFinset).1.blocks.items) :
    p ∈ hbm.blocks.items ∨ p.1 ∈ keys ∧ p.2 = index.nbytesOf p.1 := by
  rw [store_pathBytes_items h hn] at hp
  cases List.mem_append.mp hp with
  | inl hp => exact Or.inl (List.mem_filter.mp ((trim_suffix _ _ _).subset hp)).1
  | inr hp =>
    obtain ⟨q,hq,rfl⟩ := List.mem_map.mp hp
    obtain ⟨k,hk,rfl⟩ := List.mem_map.mp hq
    cases hg : hbm.blocks.get k with
    | none => exact Or.inr ⟨hk,by simp⟩
    | some n => exact Or.inl (Dict.get_eq_some.mp hg)

theorem store_recorded {hbm : HBMTier} (hn : keys.Nodup) (h : hbm.Counted)
    (hrec : Recorded index hbm) :
    Recorded index (hbm.store (pathBytes index keys) keys.toFinset).1 := by
  intro p hp
  cases item_of_store hn h hp with
  | inl hold => exact hrec p hold
  | inr hnew => exact hnew.2.le

end Step

end HBMTier

variable {F : Type} [Scalar F]

namespace Simulator

open HBMTier

/-- A replay beside one with no less HBM. The host tiers and the indexes agree. -/
structure Widened (s t : Simulator F) : Prop where
  policy : s.policy = t.policy
  probe : s.probe = t.probe
  sized : s.index.Sized
  rate : 0 ≤ s.index.cost.kvBytesPerToken
  capacity : s.hbm.capacityBytes ≤ t.hbm.capacityBytes
  counted : s.hbm.Counted
  counted' : t.hbm.Counted
  recorded : Recorded s.index t.hbm
  covers : Covers t.hbm.blocks.items s.hbm.blocks.items

theorem one_widened (sched : Schedule F) (s t : Simulator F) (turn : Turn F)
    (h : Widened s t) : Widened (one sched s turn) (one sched t turn) := by
  have hindex : s.index = t.index := congrArg Probe.index h.probe
  have hpath := path_congr hindex turn
  have hseen := seenIndex_congr hindex turn
  have hn := path_nodup s turn
  have hrec : Recorded (s.seenIndex turn) t.hbm := fun p hp =>
    (h.recorded p hp).trans (PrefixIndex.nbytesOf_le_touchPath _ _ _ _ _ _ h.sized h.rate _)
  have hs : (one sched s turn).hbm = (s.hbm.store (pathBytes (s.seenIndex turn) (s.path turn))
      (s.path turn).toFinset).1 := one_hbm _ _ _
  have ht : (one sched t turn).hbm = (t.hbm.store (pathBytes (s.seenIndex turn) (s.path turn))
      (s.path turn).toFinset).1 := by
    rw [hpath,hseen]
    exact one_hbm _ _ _
  constructor
  case policy => exact one_policy_congr h.policy h.probe sched turn
  case probe => rw [one_probe,one_probe,observe_probe_congr h.probe]
  case sized =>
    rw [one_index]
    exact seenIndex_sized h.sized turn
  case rate =>
    rw [one_index]
    exact (PrefixIndex.touchPath_cost s.index _ _ _ _ _ _).symm ▸ h.rate
  case capacity =>
    rw [hs,ht,store_capacity,store_capacity]
    exact h.capacity
  case counted =>
    rw [hs]
    exact store_counted h.counted _ _
  case counted' =>
    rw [ht]
    exact store_counted h.counted' _ _
  case recorded =>
    rw [one_index,ht]
    exact store_recorded hn h.counted' hrec
  case covers =>
    rw [hs,ht]
    exact store_covers hn h.counted h.counted' h.capacity hrec h.covers

theorem Widened.mem_hbm {s t : Simulator F} (h : Widened s t) {k : BlockKey}
    (hk : k ∈ s.hbm.blocks) : k ∈ t.hbm.blocks := h.covers.mem_keys hk

theorem Widened.recomputeTokens_le {s t : Simulator F} (h : Widened s t) (turn : Turn F) :
    t.recomputeTokens turn ≤ s.recomputeTokens turn := by
  have hindex : s.index = t.index := congrArg Probe.index h.probe
  rw [recomputeTokens_eq,recomputeTokens_eq,← path_congr hindex,← seenIndex_congr hindex]
  refine sum_dropWhile_le (fun k _ hk => ?_) (PrefixIndex.tokensOf_nonneg
    (seenIndex_sized h.sized turn))
  have hres : s.Resident k := by simpa using hk
  have hres' : t.Resident k := hres.imp h.mem_hbm fun he => h.policy ▸ he
  simpa using hres'

/-- Of two configurations that differ in the HBM pool alone, the one with no less HBM
keeps at least the same blocks in HBM after every turn, and recomputes no more in any. -/
theorem more_hbm_never_costs (cfg : SimConfig F) (poolTokens : ℤ) (kind : PolicyKind F)
    (ram : TierConfig F) (turns : List (Turn F)) (n : ℕ)
    (hkv : 0 < cfg.cost.kvBytesPerToken)
    (hcap : cfg.hbmBytes ≤ { cfg with hbmPoolTokens := poolTokens }.hbmBytes) :
    (∀ k ∈ ((start cfg kind ram).after turns n).hbm.blocks,
      k ∈ ((start { cfg with hbmPoolTokens := poolTokens } kind ram).after turns n).hbm.blocks) ∧
    ∀ turn, ((start { cfg with hbmPoolTokens := poolTokens } kind ram).after turns
      n).recomputeTokens turn ≤ ((start cfg kind ram).after turns n).recomputeTokens turn := by
  have hstart : Widened (start cfg kind ram)
      (start { cfg with hbmPoolTokens := poolTokens } kind ram) :=
    { policy := rfl, probe := rfl, sized := PrefixIndex.new_sized _ _, rate := hkv.le
      capacity := hcap, counted := rfl, counted' := rfl
      recorded := by simp [Recorded,start,new,HBMTier.new]
      covers := Lighter.covers .nil }
  have hsched : (start { cfg with hbmPoolTokens := poolTokens } kind ram).schedule turns =
      (start cfg kind ram).schedule turns := rfl
  have hrun : Widened ((start cfg kind ram).after turns n)
      ((start { cfg with hbmPoolTokens := poolTokens } kind ram).after turns n) := by
    rw [after,after,hsched]
    exact run_simulation (one_widened _) hstart _
  exact ⟨fun k => hrun.mem_hbm,hrun.recomputeTokens_le⟩

theorem more_hbm_never_costs_small :
    (∀ k ∈ ((start (smallConfig 1000 2000) .lru (smallRam 2000)).after
        [ask 1 "a" 1500,ask 2 "b" 900,ask 3 "a" 1700] 3).hbm.blocks,
      k ∈ ((start (smallConfig 3000 2000) .lru (smallRam 2000)).after
        [ask 1 "a" 1500,ask 2 "b" 900,ask 3 "a" 1700] 3).hbm.blocks) ∧
    ∀ turn, ((start (smallConfig 3000 2000) .lru (smallRam 2000)).after
        [ask 1 "a" 1500,ask 2 "b" 900,ask 3 "a" 1700] 3).recomputeTokens turn ≤
      ((start (smallConfig 1000 2000) .lru (smallRam 2000)).after
        [ask 1 "a" 1500,ask 2 "b" 900,ask 3 "a" 1700] 3).recomputeTokens turn :=
  more_hbm_never_costs (smallConfig 1000 2000) 3000 .lru (smallRam 2000)
    [ask 1 "a" 1500,ask 2 "b" 900,ask 3 "a" 1700] 3 (by decide +kernel) (by decide +kernel)

end Simulator
end ContextResidency
