import ContextResidency.HostCapacity
import ContextResidency.StoreStep
import ContextResidency.SingleBlocks
import ContextResidency.HostGrowth
import ContextResidency.Foresight
import ContextResidency.Library.Paging

/-! The oracle as a bound. On equal single blocks that come one at a time, with an HBM that
holds none but the block in use, a replay is demand paging and the oracle gives up the
block that is used farthest in the future. Then no policy that stores what it is asked
for recomputes less; beyond that the bound fails. -/
namespace ContextResidency

variable {F : Type} [Scalar F]

namespace HBMTier

/-- The pool holds this one block. -/
structure Alone (size : ℤ) (key : BlockKey) (hbm : HBMTier) : Prop where
  items : hbm.blocks.items = [(key,size)]
  used : hbm.used = size

/-- The pool holds one block of this size at most, and has no place for a second one. -/
structure Lone (size : ℤ) (hbm : HBMTier) : Prop where
  small : hbm.capacityBytes < 2*size
  lone : hbm.blocks.items = [] ∧ hbm.used = 0 ∨ ∃ key, Alone size key hbm

theorem Alone.keys {size : ℤ} {key : BlockKey} {hbm : HBMTier} (h : Alone size key hbm) :
    hbm.blocks.keys = [key] := by
  rw [Dict.keys,h.items]
  rfl

section Store

variable {size : ℤ} {key : BlockKey} {hbm : HBMTier}

theorem store_single (hbm : HBMTier) (key : BlockKey) (size : ℤ) : hbm.store [(key,size)] {key} =
    if (hbm.fill (key,size)).used ≤ (hbm.fill (key,size)).capacityBytes
    then (hbm.fill (key,size),[])
    else (hbm.fill (key,size)).drop
      ((hbm.fill (key,size)).blocks.keys.filter (· ∉ ({key} : Finset BlockKey))) := rfl

theorem store_of_alone (h : Alone size key (hbm.fill (key,size))) :
    (hbm.store [(key,size)] {key}).1 = hbm.fill (key,size) := by
  have hnone : (hbm.fill (key,size)).blocks.keys.filter (· ∉ ({key} : Finset BlockKey)) = [] := by
    rw [h.keys]
    simp
  rw [store_single,hnone]
  split
  · rfl
  · rfl

theorem alone_of_replace {last : BlockKey} (h : Alone size last hbm) (hne : last ≠ key)
    (hsmall : hbm.capacityBytes < 2*size) :
    Alone size key (hbm.store [(key,size)] {key}).1 := by
  have hnew : key ∉ hbm.blocks := by
    rw [Dict.mem_def,h.keys]
    simpa using hne.symm
  have hfill : hbm.fill (key,size) =
      { hbm with blocks := hbm.blocks.set key size, used := hbm.used+size } := if_neg hnew
  have hitems : (hbm.blocks.set key size).items = [(last,size),(key,size)] := by
    rw [Dict.items_set_new _ hnew,h.items]
    rfl
  have hvictims : (hbm.blocks.set key size).keys.filter (· ∉ ({key} : Finset BlockKey)) =
      [last] := by
    rw [Dict.keys,hitems]
    simp [hne]
  have hover : ¬ hbm.used+size ≤ hbm.capacityBytes := by
    rw [h.used]
    omega
  have hlast : (hbm.blocks.set key size).get last = some size :=
    Dict.get_eq_some.mpr (by simp [hitems])
  have hleft : ((hbm.blocks.set key size).erase last).items = [(key,size)] := by
    have hkeep : ¬ key = last := fun e => hne e.symm
    simp [Dict.erase,Dict.filter,hitems,hkeep]
  rw [store_single,hfill,if_neg hover,hvictims]
  simp only [drop,hlast]
  split
  · exact ⟨hleft,by simp [h.used]⟩
  · exact ⟨hleft,by simp [h.used]⟩

theorem Lone.store (h : Lone size hbm) (key : BlockKey) :
    Alone size key (hbm.store [(key,size)] {key}).1 := by
  rcases h.lone with ⟨hitems,hused⟩ | ⟨last,hlast⟩
  · have hnew : key ∉ hbm.blocks := by
      rw [Dict.mem_def,Dict.keys,hitems]
      simp
    have hfill : Alone size key (hbm.fill (key,size)) := by
      rw [fill,if_neg hnew]
      exact ⟨by simp [Dict.items_set_new _ hnew,hitems],by simp [hused]⟩
    rw [store_of_alone hfill]
    exact hfill
  · by_cases hkey : last = key
    · subst hkey
      have hget : hbm.blocks.get last = some size := Dict.get_eq_some.mpr (by simp [hlast.items])
      have hmem : last ∈ hbm.blocks := Dict.mem_iff_get.mpr ⟨size,hget⟩
      have hfill : Alone size last (hbm.fill (last,size)) := by
        rw [fill,if_pos hmem]
        exact ⟨by simp [Dict.items_moveToEnd hget,hlast.items],hlast.used⟩
      rw [store_of_alone hfill]
      exact hfill
    · exact alone_of_replace hlast hkey h.small

end Store

theorem capacityBytes_drop (hbm : HBMTier) (victims : List BlockKey) :
    (hbm.drop victims).1.capacityBytes = hbm.capacityBytes := by
  induction victims generalizing hbm with
  | nil => rfl
  | cons victim victims ih =>
    rw [drop]
    split
    · rfl
    · exact ih _

theorem capacityBytes_store (hbm : HBMTier) (items : List (BlockKey × ℤ))
    (protectedKeys : Finset BlockKey) :
    (hbm.store items protectedKeys).1.capacityBytes = hbm.capacityBytes := by
  have hfill : (items.foldl fill hbm).capacityBytes = hbm.capacityBytes := by
    refine List.foldlRecOn (motive := fun f : HBMTier => f.capacityBytes = hbm.capacityBytes) items
      fill rfl fun f hf item _ => ?_
    unfold fill
    split
    · exact hf
    · exact hf
  rw [store]
  split
  · exact hfill
  · exact (capacityBytes_drop _ _).trans hfill

end HBMTier

/-- The oracle's first victim is used no sooner than any other candidate. -/
theorem TierPolicy.farthest_first {policy : TierPolicy F} (hkind : policy.kind = .oracle)
    {protectedKeys : Finset BlockKey} {now : F} {probe : Probe F} {v : BlockKey × Entry F}
    {rest : List (BlockKey × Entry F)}
    (horder : policy.order protectedKeys now probe = v::rest) :
    ∀ p ∈ policy.candidates protectedKeys now, p.2.nextUse ≤ v.2.nextUse := by
  intro p hp
  have hperm := policy.order_perm protectedKeys now probe
  have hsorted := sortedBy_pairwise
    (fun p : BlockKey × Entry F => toLex (OrderDual.toDual p.2.nextUse,p.2.lastTouch))
    (policy.candidates protectedKeys now)
  have hsame : policy.order protectedKeys now probe = sortedBy
      (fun p => toLex (OrderDual.toDual p.2.nextUse,p.2.lastTouch))
      (policy.candidates protectedKeys now) := by
    unfold order
    rw [hkind]
  rw [← hsame,horder,List.pairwise_cons] at hsorted
  have hmem := hperm.mem_iff.mpr hp
  rw [horder,List.mem_cons] at hmem
  cases hmem with
  | inl heq => rw [heq]
  | inr hrest => exact OrderDual.toDual_le_toDual.mp (Prod.Lex.monotone_fst _ _ (hsorted.1 p hrest))

namespace Simulator

def held (s : Simulator F) : Finset BlockKey := s.policy.entries.keys.toFinset

def residents (s : Simulator F) : Finset BlockKey := s.held ∪ s.hbm.blocks.keys.toFinset

omit [Scalar F] in
@[simp] theorem mem_held {s : Simulator F} {key : BlockKey} :
    key ∈ s.held ↔ key ∈ s.policy.entries := by
  rw [held,List.mem_toFinset,Dict.mem_def]

omit [Scalar F] in
theorem mem_residents {s : Simulator F} {key : BlockKey} :
    key ∈ s.residents ↔ s.Resident key := by
  rw [residents,Finset.mem_union,mem_held,List.mem_toFinset,← Dict.mem_def,or_comm,Resident]

/-- A host tier within its capacity, of blocks of one size. -/
structure EqualBlocks (size : ℤ) (s : Simulator F) : Prop where
  bounded : Bounded s
  stored : ∀ p ∈ sizes s.policy.entries, p.2 = size
  indexed : ∀ key ∈ s.policy.entries, s.index.nbytesOf key = size

/-- The admission of the policy turns nothing of the turn away. -/
def Admits (s : Simulator F) (turn : Turn F) : Prop :=
  (s.filled turn).policy.admitChain ((s.filled turn).missing (s.path turn)) (s.filled turn).probe =
    (s.filled turn).missing (s.path turn)

instance (s : Simulator F) (turn : Turn F) : Decidable (s.Admits turn) :=
  inferInstanceAs (Decidable (_ = _))

section Step

variable {size : ℤ} {s : Simulator F} {turn : Turn F} {key : BlockKey} (hsize : 0 < size)
  (h : EqualBlocks size s) (hsingle : Single size s turn key) (sched : Schedule F)

include h in
theorem EqualBlocks.weight_eq : weight (sizes s.policy.entries) = s.held.card*size := by
  have hcard : s.held.card = (sizes s.policy.entries).length := by
    rw [held,List.toFinset_card_of_nodup s.policy.entries.keys_nodup,← sizes_keys,List.length_map]
  rw [weight_of_equal h.stored,hcard]

include h hsize in
theorem EqualBlocks.card_le : s.held.card ≤ slots s.ramTier size := by
  have hfits := h.bounded.fits
  rw [h.weight_eq] at hfits
  have hdiv : (s.held.card : ℤ) ≤ s.ramTier.bytesCapacity/size :=
    (Int.le_ediv_iff_mul_le hsize).mpr hfits
  unfold slots
  omega

include h hsingle in
theorem EqualBlocks.one : EqualBlocks size (one sched s turn) where
  bounded := by
    apply one_bounded sched s turn h.bounded
    right
    intro p hp
    rw [hsingle.seen_size h.indexed p.1 (mem_of_sizes hp),h.stored p hp]
  stored := hsingle.stored_one sched h.stored
  indexed := hsingle.indexed_one sched h.indexed

include hsingle in
theorem filled_missing_single (hmiss : key ∉ s.policy.entries) :
    (s.filled turn).missing (s.path turn) = [(key,size)] := by
  have hget : s.policy.get key = none := Dict.get_eq_none.mpr hmiss
  rw [missing,hsingle.path,filled_index]
  simp [hget,hsingle.bytes]

include h hsize in
theorem EqualBlocks.weighed : Weighed s.index s.policy.entries where
  sized := h.bounded.sized
  nonneg := fun _ p hp => by
    rw [h.stored p hp,h.indexed p.1 (mem_of_sizes hp)]
    exact ⟨hsize.le,le_rfl⟩
  nonpos := h.bounded.nonpos

include hsingle in
theorem sizes_one_of_hit (hhit : key ∈ s.policy.entries) :
    sizes (one sched s turn).policy.entries = sizes s.policy.entries := by
  have hfilled : key ∈ (s.filled turn).policy.entries := by rwa [filled_policy]
  rw [sizes_one s turn sched,hsingle.path,store_hit _ _ hfilled,filled_policy]

include h hsize hsingle in
/-- Where there is something to evict there is room for the block. -/
theorem firstFits_of_swept (hleft : ((s.filled turn).policy.swept turn.t).items ≠ []) :
    (s.filled turn).FirstFits (s.path turn) turn.t (key,size) := by
  refine Or.inr ⟨hleft,Or.inr ?_⟩
  have hsizes : ∀ k ∈ ((s.filled turn).policy.swept turn.t).keys,
      (s.filled turn).index.nbytesOf k = size := by
    intro k hk
    obtain ⟨p,hp,rfl⟩ := List.mem_map.mp hk
    have hold := (s.filled turn).policy.item_of_mem_swept hp
    rw [filled_policy] at hold
    rw [filled_index]
    exact hsingle.seen_size h.indexed p.1 (Dict.mem_of_item hold)
  have hcount : 1 ≤ (((s.filled turn).policy.swept turn.t).keys.length : ℤ) := by
    have hpos := List.length_pos_iff.mpr hleft
    rw [Dict.keys,List.length_map]
    omega
  have hfree : 0 ≤ (s.filled turn).freeRoom := le_max_left _ _
  rw [List.map_congr_left hsizes,List.map_const',List.sum_replicate,nsmul_eq_mul]
  have hmul := le_mul_of_one_le_left hsize.le hcount
  simp only
  omega

section Miss

variable (hadmits : s.Admits turn) (hmiss : key ∉ s.policy.entries)
include hsingle hadmits hmiss

/-- A tier that the sweep leaves empty stores nothing that it has no room for. -/
theorem empty_of_swept (hneeded : 0 < (s.filled turn).needed (s.path turn))
    (hswept : ((s.filled turn).policy.swept turn.t).items = []) :
    (one sched s turn).policy.entries.items = [] := by
  have hfresh : (s.filled turn).policy.admitChain ((s.filled turn).missing (s.path turn))
      (s.filled turn).probe ≠ [] := by
    rw [hadmits,filled_missing_single hsingle hmiss]
    exact List.cons_ne_nil _ _
  have hsizes := sizes_store_evicting (path_nodup s turn) turn.t sched hfresh hneeded
  rw [storeVictims_eq_nil.mpr hswept,if_pos rfl,List.append_nil,Dict.eraseAll_nil,
    ← sizes_one s turn sched] at hsizes
  have hempty : sizes (one sched s turn).policy.entries = [] := by
    rw [hsizes,sizes,hswept]
    rfl
  exact List.map_eq_nil_iff.mp hempty

include h hsize

theorem mem_or_empty : key ∈ (one sched s turn).policy.entries ∨
    (one sched s turn).policy.entries.items = [] := by
  have hfresh : (s.filled turn).policy.admitChain ((s.filled turn).missing (s.path turn))
      (s.filled turn).probe = [(key,size)] := hadmits.trans (filled_missing_single hsingle hmiss)
  have hstored := mem_store_first_iff (filled_weighed (h.weighed hsize) turn) (path_nodup s turn)
    hfresh turn.t sched
  by_cases hfits : (s.filled turn).FirstFits (s.path turn) turn.t (key,size)
  · left
    rw [mem_iff_sizes,sizes_one s turn sched,← mem_iff_sizes]
    exact hstored.mpr hfits
  · right
    have hneeded : 0 < (s.filled turn).needed (s.path turn) :=
      not_le.mp fun hle => hfits (Or.inl hle)
    have hswept : ((s.filled turn).policy.swept turn.t).items = [] := by
      by_contra hleft
      exact hfits (firstFits_of_swept hsize h hsingle hleft)
    exact empty_of_swept hsingle sched hadmits hmiss hneeded hswept

end Miss

include hsingle in
theorem alone_one (hlone : HBMTier.Lone size s.hbm) :
    HBMTier.Alone size key (one sched s turn).hbm := by
  have hset : [key].toFinset = {key} := rfl
  rw [one_hbm,hsingle.path,List.map_cons,List.map_nil,hsingle.bytes,hset]
  exact hlone.store key

include hsingle in
theorem lone_one (hlone : HBMTier.Lone size s.hbm) :
    HBMTier.Lone size (one sched s turn).hbm where
  small := by
    rw [one_hbm,HBMTier.capacityBytes_store]
    exact hlone.small
  lone := Or.inr ⟨key,alone_one hsingle sched hlone⟩

include hsingle in
theorem residents_one (hlone : HBMTier.Lone size s.hbm) :
    (one sched s turn).residents = insert key (one sched s turn).held := by
  rw [residents,(alone_one hsingle sched hlone).keys,Finset.union_comm]
  rfl

include h hsize hsingle in
/-- Whatever the policy, a turn that it turns nothing away from is a step of paging. -/
theorem paged_one (hadmits : s.Admits turn) (hslots : 0 < slots s.ramTier size)
    (hlone : HBMTier.Lone size s.hbm) :
    Paged (slots s.ramTier size) s.residents key (one sched s turn).residents := by
  have hcard := (h.one hsingle sched).card_le hsize
  rw [one_ramTier] at hcard
  rw [residents_one hsingle sched hlone]
  constructor
  case held => exact Finset.mem_insert_self _ _
  case subset =>
    apply Finset.insert_subset (Finset.mem_insert_self _ _)
    intro k hk
    obtain ⟨p,hp,rfl⟩ := List.mem_map.mp (mem_iff_sizes.mp (mem_held.mp hk))
    rcases hsingle.mem_sizes sched hp with hold | ⟨hnew,_⟩
    · exact Finset.mem_insert_of_mem (Finset.mem_union_left _ (mem_held.mpr (mem_of_sizes hold)))
    · exact hnew ▸ Finset.mem_insert_self _ _
  case card =>
    by_cases hin : key ∈ (one sched s turn).held
    · rwa [Finset.insert_eq_of_mem hin]
    · have hempty : (one sched s turn).held = ∅ := by
        have hmiss : key ∉ s.policy.entries := fun hhit => hin (by
          rw [mem_held,mem_iff_sizes,sizes_one_of_hit hsingle sched hhit,← mem_iff_sizes]
          exact hhit)
        have hcase := mem_or_empty hsize h hsingle sched hadmits hmiss
        have hnone := hcase.resolve_left fun hmem => hin (mem_held.mpr hmem)
        rw [held,Dict.keys,hnone]
        rfl
      rw [hempty,insert_empty_eq,Finset.card_singleton]
      exact hslots

theorem filled_swept (hkind : s.policy.kind = .oracle) :
    (s.filled turn).policy.swept turn.t = s.policy.entries := by
  rw [filled_policy]
  exact TierPolicy.swept_eq_entries (congrArg PolicyKind.sweeps hkind) turn.t

section Miss

variable (hkind : s.policy.kind = .oracle) (hmiss : key ∉ s.policy.entries)
include hsingle hkind hmiss

theorem oracle_fresh : (s.filled turn).policy.admitChain ((s.filled turn).missing (s.path turn))
    (s.filled turn).probe = [(key,size)] := by
  have hadmits : (s.filled turn).policy.kind.admitsAll = true := by
    rw [filled_policy,hkind]
    rfl
  rw [TierPolicy.admitChain_eq_self hadmits,filled_missing_single hsingle hmiss]

include h in
theorem oracle_needed : (s.filled turn).needed (s.path turn) =
    size-max 0 (s.ramTier.bytesCapacity-s.held.card*size) := by
  rw [needed,oracle_fresh hsingle hkind hmiss,filled_freeRoom,freeRoom,TierPolicy.occupancy_eq,
    h.weight_eq]
  simp

include h hsize

theorem held_one_of_room (hroom : s.held.card < slots s.ramTier size) :
    (one sched s turn).held = insert key s.held := by
  have hneeded : (s.filled turn).needed (s.path turn) ≤ 0 := by
    have hfits := (lt_slots hsize).mp hroom
    rw [oracle_needed h hsingle hkind hmiss]
    omega
  have hfresh := oracle_fresh hsingle hkind hmiss
  have hfirst := first_le_freeRoom (filled_weighed (h.weighed hsize) turn) hfresh hneeded
  have hsizes : sizes (one sched s turn).policy.entries = sizes s.policy.entries ++ [(key,size)] := by
    rw [sizes_one s turn sched,
      sizes_store_of_none (path_nodup s turn) turn.t sched (evictRequest_quiet hneeded),hfresh,
      filled_policy,
      fitting_eq_self (by simpa using hsize.le) (by simpa using hfirst)]
  ext k
  rw [mem_held,mem_iff_sizes,hsizes,List.map_append,List.mem_append,← mem_iff_sizes,
    Finset.mem_insert,mem_held,or_comm]
  simp

variable (hslots : 0 < slots s.ramTier size) (hfull : ¬ s.held.card < slots s.ramTier size)
include hfull

omit hslots in
theorem oracle_needed_of_full :
    0 < (s.filled turn).needed (s.path turn) ∧ (s.filled turn).needed (s.path turn) ≤ size := by
  have hfits := mt (lt_slots hsize).mpr hfull
  rw [oracle_needed h hsingle hkind hmiss]
  omega

include hslots

/-- One victim is enough, and it is the block that is used farthest out. -/
theorem oracle_victim : ∃ v ∈ s.policy.entries.items,
    (∀ p ∈ s.policy.entries.items, p.2.nextUse ≤ v.2.nextUse) ∧
      (s.filled turn).storeVictims (s.path turn) turn.t = [v.1] := by
  obtain ⟨_,hle⟩ := oracle_needed_of_full hsize h hsingle hkind hmiss hfull
  have hfresh := oracle_fresh hsingle hkind hmiss
  have hcandidates := candidates_eq_swept (s := s.filled turn) (s.path turn) turn.t
  have hperm := order_perm_swept (s := s.filled turn) (s.path turn) turn.t
  rw [hfresh,filled_swept hkind] at hcandidates hperm
  cases horder : (s.filled turn).policy.order ([(key,size)].map Prod.fst).toFinset turn.t
      (s.filled turn).probe with
  | nil =>
    rw [horder] at hperm
    have hnone : s.held = ∅ := by
      rw [held,Dict.keys,hperm.symm.eq_nil]
      rfl
    rw [hnone] at hfull
    exact absurd hslots hfull
  | cons v rest =>
    have hfarthest := TierPolicy.farthest_first (by rw [filled_policy]; exact hkind) horder
    rw [hcandidates] at hfarthest
    rw [horder] at hperm
    have hv : v ∈ s.policy.entries.items := hperm.mem_iff.mp List.mem_cons_self
    have hbytes : v.2.nbytes = size := h.stored (v.1,v.2.nbytes) (List.mem_map.mpr ⟨v,hv,rfl⟩)
    refine ⟨v,hv,hfarthest,?_⟩
    rw [storeVictims,hfresh,TierPolicy.victims,horder,takeUntil,if_pos (by omega)]
    rfl

theorem held_one_of_full : ∃ v ∈ s.policy.entries.items,
    (∀ p ∈ s.policy.entries.items, p.2.nextUse ≤ v.2.nextUse) ∧
      (one sched s turn).held = insert key (s.held.erase v.1) := by
  obtain ⟨hneeded,_⟩ := oracle_needed_of_full hsize h hsingle hkind hmiss hfull
  obtain ⟨v,hv,hfarthest,hvictims⟩ := oracle_victim hsize h hsingle hkind hmiss hslots hfull
  have hfresh := oracle_fresh hsingle hkind hmiss
  have hsome : (s.filled turn).policy.admitChain ((s.filled turn).missing (s.path turn))
      (s.filled turn).probe ≠ [] := by
    rw [hfresh]
    exact List.cons_ne_nil _ _
  have hcredit : size ≤ (s.filled turn).freeRoom+
      ([v.1].map (s.filled turn).index.nbytesOf).sum := by
    have hfree : 0 ≤ (s.filled turn).freeRoom := le_max_left _ _
    have hseen := hsingle.seen_size h.indexed v.1 (Dict.mem_of_item hv)
    rw [filled_index]
    simp only [List.map_cons,List.map_nil,List.sum_cons,List.sum_nil,hseen]
    omega
  have hsizes : sizes (one sched s turn).policy.entries =
      sizes (s.policy.entries.eraseAll [v.1]) ++ [(key,size)] := by
    rw [sizes_one s turn sched,
      sizes_store_evicting (path_nodup s turn) turn.t sched hsome hneeded,hvictims,hfresh,
      filled_swept hkind,if_neg (List.cons_ne_nil _ _),fitting_eq_self (by simpa using hsize.le)
        (by simpa using hcredit)]
  refine ⟨v,hv,hfarthest,?_⟩
  ext k
  rw [mem_held,mem_iff_sizes,hsizes,List.map_append,List.mem_append,← mem_iff_sizes,
    Dict.mem_eraseAll,Finset.mem_insert,Finset.mem_erase,mem_held,or_comm,and_comm]
  simp only [List.map_cons,List.map_nil,List.mem_singleton]

end Miss

include h hsize hsingle in
/-- A turn of the oracle gives up the block that is used farthest in the future. -/
theorem farthestOut_one (hkind : s.policy.kind = .oracle) (hslots : 0 < slots s.ramTier size)
    {cfg : SimConfig F} {rest : List (Turn F)} (hforeseen : Foreseen cfg rest s) :
    FarthestOut (slots s.ramTier size) (upcoming cfg rest) s.held key (one sched s turn).held := by
  by_cases hhit : key ∈ s.policy.entries
  · have hsame : (one sched s turn).held = insert key s.held := by
      rw [Finset.insert_eq_of_mem (mem_held.mpr hhit)]
      ext k
      rw [mem_held,mem_held,mem_iff_sizes,sizes_one_of_hit hsingle sched hhit,← mem_iff_sizes]
    rw [hsame]
    exact .keep
  · by_cases hroom : s.held.card < slots s.ramTier size
    · rw [held_one_of_room hsize h hsingle sched hkind hhit hroom]
      exact .keep
    · obtain ⟨v,hv,hfarthest,hheld⟩ := held_one_of_full hsize h hsingle sched hkind hhit hslots hroom
      have hnext : ∀ p ∈ s.policy.entries.items, p.2.nextUse = upcoming cfg rest p.1 :=
        fun p hp => hforeseen p.1 p.2 (Dict.get_eq_some.mpr hp)
      rw [hheld]
      apply FarthestOut.replace
      · exact fun hmem => hhit (mem_held.mp hmem)
      · exact mem_held.mpr (Dict.mem_of_item hv)
      · intro k hk
        obtain ⟨e,he⟩ := Dict.mem_iff_exists.mp (mem_held.mp hk)
        rw [← hnext v hv,← hnext (k,e) he]
        exact hfarthest (k,e) he
      · exact not_lt.mp hroom

include hsingle in
theorem recomputeTokens_single {tokens : ℤ} (htokens : (s.seenIndex turn).tokensOf key = tokens) :
    s.recomputeTokens turn = missed s.residents key*tokens := by
  rw [recomputeTokens_eq,hsingle.path,missed]
  by_cases hres : s.Resident key
  · rw [if_pos (mem_residents.mpr hres)]
    simp [hres]
  · rw [if_neg fun hmem => hres (mem_residents.mp hmem)]
    simp [hres,htokens]

end Step

/-- The replay `s` of some policy and the replay `t` of the oracle, with the turns to come. -/
structure Rivals (cfg : SimConfig F) (size tokens : ℤ) (rest : List (Turn F))
    (s t : Simulator F) : Prop where
  engine : SameEngine s t
  tier : t.ramTier = s.ramTier
  kind : t.policy.kind = .oracle
  blocks : EqualBlocks size s
  blocks' : EqualBlocks size t
  lone : HBMTier.Lone size s.hbm
  cached : t.residents = t.held
  foreseen : Foreseen cfg rest t
  ahead : ∃ m n : ℕ, t.totalRecompute = m*tokens ∧ s.totalRecompute = n*tokens ∧
    Ahead (upcoming cfg rest) t.held s.residents m n

section Rivals

variable {cfg : SimConfig F} {size tokens : ℤ} (hsize : 0 < size) {rest : List (Turn F)}
  {s t : Simulator F} {turn : Turn F} {key : BlockKey} (h : Rivals cfg size tokens (turn::rest) s t)
  (hsingle : Single size s turn key) (htokens : (s.seenIndex turn).tokensOf key = tokens)
  (hpath : pathOf cfg turn = [key]) (hadmits : s.Admits turn)
  (hslots : 0 < slots s.ramTier size) (hlater : ∀ next ∈ rest, turn.t < next.t)

theorem Rivals.total_le {coming : List (Turn F)} (h : Rivals cfg size tokens coming s t)
    (htokens : 0 ≤ tokens) : t.totalRecompute ≤ s.totalRecompute := by
  obtain ⟨m,n,ht,hs,hahead⟩ := h.ahead
  have hcast : (m : ℤ) ≤ n := by exact_mod_cast hahead.total
  rw [ht,hs]
  exact mul_le_mul_of_nonneg_right hcast htokens

include h hsize hsingle htokens hpath hadmits hslots hlater

/-- The oracle stays ahead over a turn. -/
theorem Rivals.ahead_one (sched sched' : Schedule F) :
    ∃ m n : ℕ, (one sched' t turn).totalRecompute = m*tokens ∧
      (one sched s turn).totalRecompute = n*tokens ∧
      Ahead (upcoming cfg rest) (one sched' t turn).held (one sched s turn).residents m n := by
  have hsingle' : Single size t turn key := hsingle.congr h.engine.index.symm
  have hslots' : 0 < slots t.ramTier size := by
    rw [h.tier]
    exact hslots
  obtain ⟨m,n,ht,hs,hahead⟩ := h.ahead
  have hfar := farthestOut_one hsize h.blocks' hsingle' sched' h.kind hslots' h.foreseen
  have hpaged := paged_one hsize h.blocks hsingle sched hadmits hslots h.lone
  rw [h.tier] at hfar
  have hnow : upcoming cfg (turn::rest) key = turn.t := by
    rw [upcoming_cons,hpath,if_pos (by simp)]
  have hother : ∀ p, p ≠ key → upcoming cfg (turn::rest) p = upcoming cfg rest p := by
    intro p hp
    rw [upcoming_cons,hpath,if_neg (by simpa using hp)]
  have hfirst : ∀ p, p ≠ key → upcoming cfg (turn::rest) key < upcoming cfg (turn::rest) p := by
    intro p hp
    rw [hnow,hother p hp]
    exact lt_upcoming hlater p
  refine ⟨m+missed t.held key,n+missed s.residents key,?_,?_,?_⟩
  · have hseen : (t.seenIndex turn).tokensOf key = tokens := by
      rw [← seenIndex_congr h.engine.index]
      exact htokens
    rw [one_totalRecompute,ht,recomputeTokens_single hsingle' hseen,h.cached]
    push_cast
    ring
  · rw [one_totalRecompute,hs,recomputeTokens_single hsingle htokens]
    push_cast
    ring
  · exact hahead.step (fun p _ => hfirst p) (fun p _ => hfirst p)
      (fun p hp => (hother p hp).symm) hfar hpaged

theorem Rivals.one (sched sched' : Schedule F)
    (hforeseen : Foreseen cfg rest (one sched' t turn)) :
    Rivals cfg size tokens rest (one sched s turn) (one sched' t turn) := by
  have hsingle' : Single size t turn key := hsingle.congr h.engine.index.symm
  have hlone' : HBMTier.Lone size t.hbm := h.engine.hbm ▸ h.lone
  constructor
  case engine => exact one_sameEngine sched sched' s t turn h.engine
  case tier =>
    rw [one_ramTier,one_ramTier]
    exact h.tier
  case kind =>
    rw [one_kind t turn sched']
    exact h.kind
  case blocks => exact h.blocks.one hsingle sched
  case blocks' => exact h.blocks'.one hsingle' sched'
  case lone => exact lone_one hsingle sched h.lone
  case cached =>
    have hslots' : 0 < slots t.ramTier size := by
      rw [h.tier]
      exact hslots
    have hheld := (farthestOut_one hsize h.blocks' hsingle' sched' h.kind hslots' h.foreseen).held
    rw [residents_one hsingle' sched' hlone',Finset.insert_eq_of_mem hheld]
  case foreseen => exact hforeseen
  case ahead =>
    exact h.ahead_one hsize hsingle htokens hpath hadmits hslots hlater sched sched'

end Rivals

section Trace

variable (cfg : SimConfig F) (kind : PolicyKind F) (ram : TierConfig F) (turns : List (Turn F))
  {size tokens : ℤ}

/-- Single blocks of one size and one number of tokens, at increasing times, with no place
in HBM for two of them; and the policy admits them all. -/
structure EvenTrace (cfg : SimConfig F) (kind : PolicyKind F) (ram : TierConfig F)
    (turns : List (Turn F)) (size tokens : ℤ) : Prop where
  size_pos : 0 < size
  hbm : cfg.hbmBytes < 2*size
  times : (inOrder turns).Pairwise fun a b => a.t < b.t
  single : ∀ n turn, (inOrder turns)[n]? = some turn →
    ∃ key, Single size ((start cfg kind ram).after turns n) turn key ∧
      (((start cfg kind ram).after turns n).seenIndex turn).tokensOf key = tokens
  admits : ∀ n turn, (inOrder turns)[n]? = some turn →
    ((start cfg kind ram).after turns n).Admits turn

theorem start_rivals (h : EvenTrace cfg kind ram turns size tokens)
    (hcap : 0 ≤ ram.bytesCapacity) :
    Rivals cfg size tokens (inOrder turns) (start cfg kind ram) (start cfg .oracle ram) := by
  have hblocks : ∀ kind, EqualBlocks size (start cfg kind ram) := by
    intro kind
    refine ⟨⟨PrefixIndex.new_sized _ _,?_,?_,hcap,hcap⟩,?_,?_⟩
    · simp [sizes_start]
    · simp [sizes_start]
    · simp [sizes_start]
    · exact fun key hkey => absurd hkey (Dict.not_mem_empty _)
  constructor
  case engine => exact ⟨rfl,rfl,rfl⟩
  case tier => rfl
  case kind => rfl
  case blocks => exact hblocks kind
  case blocks' => exact hblocks .oracle
  case lone => exact ⟨h.hbm,Or.inl ⟨rfl,rfl⟩⟩
  case cached => rfl
  case foreseen => exact after_foreseen cfg ram turns h.times 0
  case ahead => exact ⟨0,0,by simp [start,new,totalRecompute],by simp [start,new,totalRecompute],
    le_rfl,fun _ => le_rfl⟩

theorem after_rivals (h : EvenTrace cfg kind ram turns size tokens)
    (hslots : 0 < slots ram size) (n : ℕ) :
    Rivals cfg size tokens ((inOrder turns).drop n) ((start cfg kind ram).after turns n)
      ((start cfg .oracle ram).after turns n) := by
  induction n with
  | zero =>
    have hcap : 0 ≤ ram.bytesCapacity := by
      by_contra hneg
      have hdiv : ram.bytesCapacity/size < 0 := Int.ediv_neg_of_neg_of_pos (not_le.mp hneg) h.size_pos
      unfold slots at hslots
      omega
    exact start_rivals cfg kind ram turns h hcap
  | succ n ih =>
    have hforeseen := after_foreseen cfg ram turns h.times (n+1)
    cases hturn : (inOrder turns)[n]? with
    | none =>
      rw [after_of_done _ hturn,after_of_done _ hturn,rest_of_done hturn]
      exact ih
    | some turn =>
      obtain ⟨key,hsingle,htokens⟩ := h.single n turn hturn
      have hpath : pathOf cfg turn = [key] := by
        rw [← after_path cfg kind ram turns n,hsingle.path]
      have hslots' : 0 < slots ((start cfg kind ram).after turns n).ramTier size := by
        rw [after_ramTier]
        exact hslots
      rw [rest_of_turn hturn] at ih
      rw [after_succ _ hturn] at hforeseen
      rw [after_succ _ hturn,after_succ _ hturn]
      exact ih.one h.size_pos hsingle htokens hpath (h.admits n turn hturn) hslots'
        (later_of_turn h.times hturn) _ _ hforeseen

theorem after_empty (h : EvenTrace cfg kind ram turns size tokens) (hslots : slots ram size = 0)
    (n : ℕ) : ((start cfg kind ram).after turns n).policy.entries.items = [] := by
  induction n with
  | zero => rfl
  | succ n ih =>
    cases hturn : (inOrder turns)[n]? with
    | none =>
      rw [after_of_done _ hturn]
      exact ih
    | some turn =>
      obtain ⟨key,hsingle,_⟩ := h.single n turn hturn
      have hadmits := h.admits n turn hturn
      rw [after_succ _ hturn]
      have hram := after_ramTier cfg kind ram turns n
      set s := (start cfg kind ram).after turns n
      have hmiss : key ∉ s.policy.entries := by
        rw [Dict.mem_def,Dict.keys,ih]
        simp
      apply empty_of_swept hsingle _ hadmits hmiss
      · have hnone : ¬ 0 < slots ram size := by omega
        have hsmall := mt (lt_slots h.size_pos).mpr hnone
        have hweight : weight (sizes s.policy.entries) = 0 := by
          rw [sizes,ih]
          rfl
        rw [needed,hadmits,filled_missing_single hsingle hmiss,filled_freeRoom,freeRoom,
          TierPolicy.occupancy_eq,hweight,hram]
        simp only [weight_cons,weight_nil]
        push_cast at hsmall
        omega
      · apply List.eq_nil_iff_forall_not_mem.mpr
        intro p hp
        have hold := (s.filled turn).policy.item_of_mem_swept hp
        rw [filled_policy,ih] at hold
        simp at hold

end Trace

/-- The oracle recomputes no more than another policy over a run in which it has had room
for every turn but the last, or the other tier has stayed empty; nor over any even trace. -/
theorem oracle_never_costs (cfg : SimConfig F) (kind : PolicyKind F) (ram : TierConfig F)
    (turns : List (Turn F)) (n : ℕ)
    (hrun : (∀ m turn, m+1 < n → (inOrder turns)[m]? = some turn →
        ((start cfg .oracle ram).after turns m).Fits turn ∨
        ((start cfg kind ram).after turns (m+1)).policy.entries.items = []) ∨
      ∃ size tokens, EvenTrace cfg kind ram turns size tokens) :
    ((start cfg .oracle ram).after turns n).totalRecompute ≤
      ((start cfg kind ram).after turns n).totalRecompute := by
  rcases hrun with hfits | ⟨size,tokens,heven⟩
  · exact totalRecompute_le_of_fits cfg kind .oracle ram ram turns rfl n hfits
  · cases Nat.eq_zero_or_pos (slots ram size) with
    | inl hnone =>
      apply totalRecompute_le_of_fits cfg kind .oracle ram ram turns rfl n
      exact fun m turn _ _ => Or.inr (after_empty cfg kind ram turns heven hnone (m+1))
    | inr hsome =>
      cases hfirst : (inOrder turns)[0]? with
      | none =>
        have hnil : inOrder turns = [] := by simpa using hfirst
        rw [after,after,hnil,List.take_nil]
        exact le_rfl
      | some turn =>
        obtain ⟨key,_,htokens⟩ := heven.single 0 turn hfirst
        have hstart := after_rivals cfg kind ram turns heven hsome 0
        have hsized := seenIndex_sized hstart.blocks.bounded.sized turn
        have hnonneg : 0 ≤ tokens := htokens ▸ PrefixIndex.tokensOf_nonneg hsized key
        exact (after_rivals cfg kind ram turns heven hsome n).total_le hnonneg

/-- Two sessions take turns in a tier for one block. -/
def alternating : List (Turn ℚ) := [ask 1 "a" 1000,ask 2 "b" 1000,ask 3 "a" 1000]

theorem alternating_even : EvenTrace (smallConfig 1000 1000) .lru (smallRam 1000) alternating
    1000 1000 := by
  have horder : inOrder alternating = alternating := sortedBy_eq_self (by decide +kernel)
  have hcase : ∀ (n : ℕ) turn, (inOrder alternating)[n]? = some turn →
      (n = 0 ∧ turn = ask 1 "a" 1000) ∨ (n = 1 ∧ turn = ask 2 "b" 1000) ∨
        (n = 2 ∧ turn = ask 3 "a" 1000) := by
    intro n turn hturn
    rw [horder,alternating] at hturn
    match n with
    | 0 => exact Or.inl ⟨rfl,(Option.some.inj hturn).symm⟩
    | 1 => exact Or.inr (Or.inl ⟨rfl,(Option.some.inj hturn).symm⟩)
    | 2 => exact Or.inr (Or.inr ⟨rfl,(Option.some.inj hturn).symm⟩)
  constructor
  case size_pos => decide
  case hbm => decide +kernel
  case times =>
    rw [horder]
    decide +kernel
  case single =>
    intro n turn hturn
    rcases hcase n turn hturn with ⟨rfl,rfl⟩ | ⟨rfl,rfl⟩ | ⟨rfl,rfl⟩
    · exact ⟨.priv "a" 0,⟨by decide +kernel,by decide +kernel⟩,by decide +kernel⟩
    · exact ⟨.priv "b" 0,⟨by decide +kernel,by decide +kernel⟩,by decide +kernel⟩
    · exact ⟨.priv "a" 0,⟨by decide +kernel,by decide +kernel⟩,by decide +kernel⟩
  case admits =>
    intro n turn hturn
    rcases hcase n turn hturn with ⟨rfl,rfl⟩ | ⟨rfl,rfl⟩ | ⟨rfl,rfl⟩
    · decide +kernel
    · decide +kernel
    · decide +kernel

theorem oracle_never_costs_alternating :
    ((start (smallConfig 1000 1000) .oracle (smallRam 1000)).after alternating 3).totalRecompute ≤
      ((start (smallConfig 1000 1000) .lru (smallRam 1000)).after alternating 3).totalRecompute :=
  oracle_never_costs (smallConfig 1000 1000) .lru (smallRam 1000) alternating 3
    (Or.inr ⟨1000,1000,alternating_even⟩)

/-- The oracle's bill on a small host is at most that of another policy. -/
def OracleBound (poolTokens bytesCapacity : ℤ) (kind : PolicyKind ℚ) (turns : List (Turn ℚ)) :
    Prop :=
  ((start (smallConfig poolTokens bytesCapacity) .oracle (smallRam bytesCapacity)).after turns
      turns.length).totalRecompute ≤
    ((start (smallConfig poolTokens bytesCapacity) kind (smallRam bytesCapacity)).after turns
      turns.length).totalRecompute

instance (poolTokens bytesCapacity : ℤ) (kind : PolicyKind ℚ) (turns : List (Turn ℚ)) :
    Decidable (OracleBound poolTokens bytesCapacity kind turns) := inferInstanceAs (Decidable (_ ≤ _))

/-- An HBM for two blocks serves the next use that the oracle keeps a block for. Nor does
the bound hold over chains of blocks, against a policy that turns blocks away, over blocks
of two sizes, or where two turns come at once. -/
theorem oracle_can_cost :
    (¬ ∀ (cfg : SimConfig ℚ) (ram : TierConfig ℚ) (kind : PolicyKind ℚ) (turns : List (Turn ℚ)),
      cfg.tier "ram" = some ram →
      ((start cfg .oracle ram).after turns turns.length).totalRecompute ≤
        ((start cfg kind ram).after turns turns.length).totalRecompute) ∧
    ¬ OracleBound 0 2000 .lfu [ask 1 "b" 1000,ask 2 "b" 2000,ask 3 "a" 1000,ask 4 "b" 3000] ∧
    ¬ OracleBound 1000 1000 ((POLICIES (F := ℚ)).get (4 : Fin 6)).2
      [ask 1 "a" 1000,ask 2 "a" 1000,ask 3 "b" 1000,ask 4 "a" 1000] ∧
    ¬ OracleBound 0 1500 .lfu [ask 1 "a" 1000,ask 2 "a" 1000,ask 3 "b" 500,ask 4 "c" 500,
      ask 5 "b" 500,ask 6 "a" 1000] ∧
    ¬ OracleBound 0 2000 .lru [ask 0 "b" 1000,ask 1 "a" 1000,ask 1 "c" 1000,ask 1 "a" 1000,
      ask 3 "c" 1000,ask 10 "b" 1000] := by
  refine ⟨fun h => ?_,?_,?_,?_,?_⟩
  · have hbound := h (smallConfig 2000 2000) (smallRam 2000) .lfu [ask 1 "q" 1000,ask 2 "q" 1000,
      ask 3 "p" 1000,ask 4 "y" 1000,ask 5 "p" 1000,ask 6 "q" 1000] rfl
    exact absurd hbound (by decide +kernel)
  · decide +kernel
  · decide +kernel
  · decide +kernel
  · decide +kernel

end Simulator
end ContextResidency
