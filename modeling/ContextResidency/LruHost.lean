import ContextResidency.Foresight
import ContextResidency.HostGrowth
import ContextResidency.SingleBlocks
import ContextResidency.Library.SizedLru

/-! LRU on single blocks. When every turn asks for one block and arrival times differ, the
host tier is an LRU cache of sized items: its entries in the order of their last use are the
items held, and a turn is one access. Blocks of one size are kept as long as they are among
the newest, as many as fit. -/
namespace ContextResidency

variable {F : Type} [Scalar F]

def touchOf (entries : Entries F) (key : BlockKey) : F :=
  ((entries.get key).map (·.lastTouch)).getD 0

/-- The entries hold exactly these keys, from the least to the most recently used. -/
structure Ordered (entries : Entries F) (order : List BlockKey) : Prop where
  mem : ∀ key, key ∈ order ↔ key ∈ entries
  increasing : order.Pairwise fun a b => touchOf entries a < touchOf entries b

/-- The keys of some items in that order, with the sizes that they were stored with. -/
structure Ranked (entries : Entries F) (held : List (BlockKey × ℤ)) : Prop where
  ordered : Ordered entries (held.map Prod.fst)
  stored : ∀ p ∈ held, p ∈ sizes entries

section Ordered

variable {entries entries' : Entries F} {order : List BlockKey} {key : BlockKey}

theorem touchOf_congr (h : entries'.get key = entries.get key) :
    touchOf entries' key = touchOf entries key := by rw [touchOf,touchOf,h]

theorem touchOf_item {p : BlockKey × Entry F} (hp : p ∈ entries.items) :
    touchOf entries p.1 = p.2.lastTouch := by
  rw [touchOf,Dict.get_eq_some.mpr hp]
  rfl

theorem touchOf_eraseAll {gone : List BlockKey} (h : key ∈ entries.eraseAll gone) :
    touchOf (entries.eraseAll gone) key = touchOf entries key :=
  touchOf_congr (by simp [Dict.get_eraseAll,(Dict.mem_eraseAll.mp h).2])

theorem Ordered.nodup (h : Ordered entries order) : order.Nodup :=
  h.increasing.imp fun hlt e => (e ▸ hlt).false

/-- Using a block, resident or new, at a later time makes it the most recent. -/
theorem Ordered.access (h : Ordered entries order) {e : Entry F}
    (hkey : entries'.get key = some e) (hother : ∀ k, k ≠ key → entries'.get k = entries.get k)
    (hlate : ∀ k ∈ order, touchOf entries k < e.lastTouch) :
    Ordered entries' (access order key) := by
  have htouch : ∀ k ∈ order.filter (· ≠ key), touchOf entries' k = touchOf entries k := by
    intro k hk
    exact touchOf_congr (hother k (by simpa using (List.mem_filter.mp hk).2))
  constructor
  case mem =>
    intro k
    rw [mem_access]
    by_cases hk : k = key
    · subst hk
      simp [Dict.mem_iff_get,hkey]
    · simp only [hk,or_false,h.mem,Dict.mem_iff_get,hother k hk]
  case increasing =>
    rw [ContextResidency.access,List.pairwise_append]
    refine ⟨?_,List.pairwise_singleton _ _,?_⟩
    · refine (h.increasing.filter _).imp_of_mem fun ha hb hlt => ?_
      rw [htouch _ ha,htouch _ hb]
      exact hlt
    · intro a ha b hb
      rw [List.mem_singleton] at hb
      subst hb
      have hb : touchOf entries' b = e.lastTouch := by simp [touchOf,hkey]
      rw [htouch a ha,hb]
      exact hlate a (List.mem_filter.mp ha).1

theorem Ordered.eraseAll {gone : List BlockKey} (h : Ordered entries (gone ++ order)) :
    Ordered (entries.eraseAll gone) order := by
  have hapart : ∀ k ∈ order, k ∉ gone := fun k hk hgone =>
    (List.nodup_append.mp h.nodup).2.2 k hgone k hk rfl
  have htouch : ∀ k ∈ order, touchOf (entries.eraseAll gone) k = touchOf entries k := fun k hk =>
    touchOf_congr (by simp [Dict.get_eraseAll,hapart k hk])
  constructor
  case mem =>
    intro k
    rw [Dict.mem_eraseAll,← h.mem,List.mem_append]
    constructor
    · exact fun hk => ⟨Or.inr hk,hapart k hk⟩
    · exact fun hk => hk.1.resolve_left hk.2
  case increasing =>
    refine (List.pairwise_append.mp h.increasing).2.1.imp_of_mem fun ha hb hlt => ?_
    rw [htouch _ ha,htouch _ hb]
    exact hlt

end Ordered

section Ranked

variable {entries : Entries F} {held : List (BlockKey × ℤ)} {key : BlockKey}
  (h : Ranked entries held)
include h

theorem Ranked.sorted : (sortedBy (fun p : BlockKey × Entry F => p.2.lastTouch) entries.items).map
    (fun p => (p.1,p.2.nbytes)) = held := by
  have hperm := sortedBy_perm (fun p : BlockKey × Entry F => p.2.lastTouch) entries.items
  have hsorted := sortedBy_pairwise (fun p : BlockKey × Entry F => p.2.lastTouch) entries.items
  have hsizes : ((sortedBy (fun p : BlockKey × Entry F => p.2.lastTouch) entries.items).map
      fun p => (p.1,p.2.nbytes)).Perm (sizes entries) := hperm.map _
  have hnodup : ((sizes entries).map Prod.fst).Nodup := by
    rw [sizes_keys]
    exact entries.keys_nodup
  have hsame : (sizes entries).Perm held := by
    refine (List.perm_ext_iff_of_nodup (List.Nodup.of_map _ hnodup)
      (List.Nodup.of_map _ h.ordered.nodup)).mpr fun p => ⟨fun hp => ?_,h.stored p⟩
    obtain ⟨q,hq,hkey⟩ := List.mem_map.mp ((h.ordered.mem p.1).mpr (mem_of_sizes hp))
    rwa [← List.inj_on_of_nodup_map hnodup (h.stored q hq) hp hkey]
  -- Two orders of the same items by a time that no two of them share.
  refine (hsizes.trans hsame).eq_of_pairwise ?_ ((List.pairwise_map.mpr ?_) :
    List.Pairwise (fun a b => touchOf entries a.1 ≤ touchOf entries b.1) _)
    ((List.pairwise_map.mp h.ordered.increasing).imp le_of_lt)
  · intro a b ha hb hab hba
    have ha' : a ∈ held := (hsizes.trans hsame).mem_iff.mp ha
    by_contra hne
    have hkeys : a.1 ≠ b.1 := fun e => hne (List.inj_on_of_nodup_map h.ordered.nodup ha' hb e)
    have hsymm : Std.Symm fun a b => touchOf entries a ≠ touchOf entries b :=
      ⟨fun _ _ => Ne.symm⟩
    have hapart : (held.map Prod.fst).Pairwise fun a b => touchOf entries a ≠ touchOf entries b :=
      h.ordered.increasing.imp ne_of_lt
    exact hapart.forall (List.mem_map_of_mem ha') (List.mem_map_of_mem hb) hkeys
      (le_antisymm hab hba)
  · refine hsorted.imp_of_mem fun ha hb hle => ?_
    rw [touchOf_item (hperm.mem_iff.mp ha),touchOf_item (hperm.mem_iff.mp hb)]
    exact hle

theorem Ranked.weight_eq : weight (sizes entries) = weight held := by
  have hsorted := h.sorted
  have hperm := (sortedBy_perm (fun p : BlockKey × Entry F => p.2.lastTouch) entries.items).map
    fun p => (p.1,p.2.nbytes)
  rw [hsorted] at hperm
  exact (hperm.map Prod.snd).sum_eq.symm

/-- LRU evicts the oldest items, until enough is freed. -/
theorem Ranked.evict (needed : ℤ) (hkey : key ∉ entries) :
    RecencyPolicy.evict entries needed {key} =
      evicted entries ((takeUntil Prod.snd needed 0 held).map Prod.fst) := by
  have hkeep : (entries.items.filter fun p => p.1 ∉ ({key} : Finset BlockKey)) = entries.items := by
    refine List.filter_eq_self.mpr fun p hp => ?_
    simpa using fun e : p.1 = key => hkey (e ▸ Dict.mem_of_item hp)
  have hout : takeUntil Prod.snd needed 0 held =
      (takeUntil (fun p : BlockKey × Entry F => p.2.nbytes) needed 0
        (sortedBy (fun p => p.2.lastTouch) entries.items)).map fun p => (p.1,p.2.nbytes) := by
    conv_lhs => rw [← h.sorted]
    exact takeUntil_map (fun _ => rfl) needed 0 _
  have hkeys : ∀ xs : List (BlockKey × Entry F),
      (xs.map fun p => (p.1,p.2.nbytes)).map Prod.fst = xs.map Prod.fst := by simp
  rw [RecencyPolicy.evict,evictBy,hkeep,take,hout,hkeys,evicted]
  split
  case isTrue hnone => rw [hnone,Dict.eraseAll_nil]
  case isFalse => rfl

theorem Ranked.eraseAll {gone rest : List (BlockKey × ℤ)} (hheld : held = gone ++ rest) :
    Ranked (entries.eraseAll (gone.map Prod.fst)) rest := by
  have hordered := h.ordered
  rw [hheld,List.map_append] at hordered
  refine ⟨hordered.eraseAll,fun p hp => ?_⟩
  rw [sizes_eraseAll,List.mem_filter]
  refine ⟨h.stored p (by simp [hheld,hp]),?_⟩
  have hapart : p.1 ∉ gone.map Prod.fst := fun hgone =>
    (List.nodup_append.mp hordered.nodup).2.2 p.1 hgone p.1 (List.mem_map_of_mem hp) rfl
  simpa using hapart

end Ranked

namespace Simulator

/-- The host tier is an LRU cache that holds these items. -/
structure LruTier (held : List (BlockKey × ℤ)) (s : Simulator F) : Prop where
  kind : s.policy.kind = .lru
  ranked : Ranked s.policy.entries held

def without (s : Simulator F) (out : List BlockKey) : Simulator F :=
  { s with
    policy := { s.policy with entries := s.policy.entries.eraseAll out }
    leftHostAt := out.foldl (fun d k => d.set k s.now) s.leftHostAt }

section Store

variable {held : List (BlockKey × ℤ)} {s : Simulator F} {key : BlockKey} (now : F)
  (sched : Schedule F)

theorem insertFresh_single (hkind : s.policy.kind = .lru) (hkey : key ∉ s.policy.entries)
    {nbytes room : ℤ} (hroom : nbytes ≤ room) : ∃ e, e.nbytes = nbytes ∧
      (insertFresh now sched s room [(key,nbytes)]).policy.entries =
        s.policy.entries.set key e := by
  have hinsert : (s.policy.insert key nbytes now s.probe).entries =
      s.policy.entries.set key { nbytes := nbytes, insertedAt := now, lastTouch := now
                                 expiresAt := s.policy.expiry key nbytes now s.probe } := by
    rw [TierPolicy.insert,TierPolicy.get,Dict.get_eq_none.mpr hkey]
  have hforesee : foresee sched key now (s.policy.insert key nbytes now s.probe) =
      s.policy.insert key nbytes now s.probe := by
    rw [foresee,TierPolicy.insert_kind,hkind]
  rw [insertFresh,if_neg (not_lt.mpr hroom),insertFresh,hforesee,hinsert]
  exact ⟨_,rfl,rfl⟩

variable (h : LruTier held s) (hkey : key ∉ s.policy.entries)
include h

theorem freeRoom_of_lruTier : s.freeRoom = SizedLru.free s.ramTier.bytesCapacity held := by
  rw [freeRoom,TierPolicy.occupancy_eq,h.ranked.weight_eq]
  rfl

include hkey

theorem admit_miss : s.policy.admitChain (s.missing [key]) s.probe =
    [(key,s.index.nbytesOf key)] := by
  have hmissing : s.missing [key] = [(key,s.index.nbytesOf key)] := by
    simp [missing,TierPolicy.get,Dict.get_eq_none.mpr hkey]
  rw [hmissing,TierPolicy.admitChain,h.kind]

/-- A miss evicts what the block displaces, then stores the block where there is room. -/
theorem store_miss : (s.storeBatchToHost [key] now sched).policy.entries =
    (insertFresh now sched (s.without ((SizedLru.displaced s.ramTier.bytesCapacity
        (s.index.nbytesOf key) held).map Prod.fst))
      (SizedLru.room s.ramTier.bytesCapacity s.index.nbytesOf (s.index.nbytesOf key) held)
      [(key,s.index.nbytesOf key)]).policy.entries := by
  have hfree := freeRoom_of_lruTier h
  have hchain := admit_miss h hkey
  have hswept := TierPolicy.swept_eq_entries (congrArg PolicyKind.sweeps h.kind) now
  by_cases hfits : s.index.nbytesOf key ≤ s.freeRoom
  · have hquiet : s.evictRequest [key] = none := by
      apply evictRequest_eq_none
      rw [hchain]
      simpa using hfits
    have hnone : SizedLru.displaced s.ramTier.bytesCapacity (s.index.nbytesOf key) held = [] :=
      if_pos (hfree ▸ hfits)
    have hroom : SizedLru.room s.ramTier.bytesCapacity s.index.nbytesOf (s.index.nbytesOf key)
        held = s.freeRoom := by simp [SizedLru.room,SizedLru.measured,hnone,hfree]
    rw [storeBatchToHost,hquiet,hchain,hroom,hnone]
    simp only [without,List.map_nil,List.foldl_nil,Dict.eraseAll_nil]
  · have hout : SizedLru.displaced s.ramTier.bytesCapacity (s.index.nbytesOf key) held =
        takeUntil Prod.snd (s.index.nbytesOf key-s.freeRoom) 0 held := by
      rw [hfree]
      exact if_neg (hfree ▸ hfits)
    have hask : s.evictRequest [key] =
        some ([(key,s.index.nbytesOf key)],s.index.nbytesOf key-s.freeRoom) := by
      rw [evictRequest,hchain]
      simp only [List.map_cons,List.map_nil,List.sum_cons,List.sum_nil,add_zero]
      exact if_pos ⟨by simp,by omega⟩
    have hevict : s.policy.evictEntries (s.index.nbytesOf key-s.freeRoom)
        ([(key,s.index.nbytesOf key)].map Prod.fst).toFinset now s.probe =
          evicted (s.policy.swept now) ((takeUntil Prod.snd (s.index.nbytesOf key-s.freeRoom) 0
            held).map Prod.fst) := by
      have hset : ([(key,s.index.nbytesOf key)].map Prod.fst).toFinset = {key} := by simp
      rw [hset,TierPolicy.evictEntries,h.kind,hswept]
      exact h.ranked.evict _ hkey
    rw [store_of_evicted now sched hask hevict,hswept,← hout]
    split
    case isTrue hnone =>
      -- Nothing was there to evict, so there is no room either.
      have hnone : SizedLru.displaced s.ramTier.bytesCapacity (s.index.nbytesOf key) held = [] :=
        List.map_eq_nil_iff.mp hnone
      have hroom : SizedLru.room s.ramTier.bytesCapacity s.index.nbytesOf (s.index.nbytesOf key)
          held < s.index.nbytesOf key := by
        simpa [SizedLru.room,SizedLru.measured,hnone,← hfree] using hfits
      rw [hnone,insertFresh,if_pos hroom]
      simp only [without,List.map_nil,Dict.eraseAll_nil]
    case isFalse =>
      rw [SizedLru.room,SizedLru.measured,hfree,List.map_map]
      rfl

end Store

theorem one_entries (sched : Schedule F) {s : Simulator F} {turn : Turn F} {key : BlockKey}
    (hpath : s.path turn = [key]) : ∃ f : Entry F → Entry F, (∀ e, (f e).lastTouch = turn.t) ∧
      (one sched s turn).policy.entries =
        ((s.filled turn).storeBatchToHost [key] turn.t sched).policy.entries.modify key f := by
  have hone : (one sched s turn).policy = (settled sched s turn).policy := rfl
  have htouched : ∀ r : Simulator F, (r.touchHost [key] turn.t).policy.entries =
      r.policy.entries.modify key fun e => r.policy.refresh key e.nbytes turn.t r.probe e :=
    fun _ => rfl
  have hnoted : ∀ r : Simulator F, (r.refreshOracle [key] turn.t sched).policy.entries =
      r.policy.entries.modify key fun e => { e with nextUse := sched.next key turn.t } :=
    fun _ => rfl
  rw [hone,settled_eq,hpath,hnoted,htouched,Dict.modify_modify]
  exact ⟨_,fun _ => rfl,rfl⟩

section Step

variable {held : List (BlockKey × ℤ)} {s : Simulator F} {turn : Turn F} {key : BlockKey}
  (h : LruTier held s) (hpath : s.path turn = [key])
  (hlate : ∀ k ∈ s.policy.entries, touchOf s.policy.entries k < turn.t) (sched : Schedule F)

include h in
theorem filled_lruTier : LruTier held (s.filled turn) := by
  constructor
  case kind => exact filled_policy s turn ▸ h.kind
  case ranked => exact filled_policy s turn ▸ h.ranked

include hpath

theorem touchOf_one (hmem : key ∈ (one sched s turn).policy.entries) :
    touchOf (one sched s turn).policy.entries key = turn.t := by
  obtain ⟨f,htouch,hentries⟩ := one_entries sched hpath
  rw [hentries] at hmem ⊢
  obtain ⟨e,he⟩ := Dict.mem_iff_get.mp (Dict.mem_modify.mp hmem)
  rw [touchOf,Dict.get_modify,if_pos rfl,he]
  exact htouch e

theorem one_ranked_of_store {entries : Entries F} {rest : List (BlockKey × ℤ)} {e : Entry F}
    {nbytes : ℤ} (hranked : Ranked entries rest) (hkey : key ∉ entries)
    (hearly : ∀ k ∈ entries, touchOf entries k < turn.t) (hbytes : e.nbytes = nbytes)
    (hset : ((s.filled turn).storeBatchToHost [key] turn.t sched).policy.entries =
      entries.set key e) :
    Ranked (one sched s turn).policy.entries (rest ++ [(key,nbytes)]) := by
  obtain ⟨f,htouch,hentries⟩ := one_entries sched hpath
  have hnew : key ∉ rest.map Prod.fst := fun hk => hkey ((hranked.ordered.mem key).mp hk)
  constructor
  case ordered =>
    rw [List.map_append,List.map_singleton,← access_of_not_mem hnew,hentries,hset]
    refine hranked.ordered.access (e := f e) ?_ (fun k hk => ?_) fun k hk => ?_
    · rw [Dict.get_modify,if_pos rfl,Dict.get_set,if_pos rfl]
      rfl
    · rw [Dict.get_modify,if_neg hk,Dict.get_set,if_neg hk]
    · rw [htouch]
      exact hearly k ((hranked.ordered.mem k).mp hk)
  case stored =>
    intro p hp
    rw [sizes_one s turn sched,hpath,hset,sizes_set_new e hkey,hbytes]
    exact List.mem_append.mpr ((List.mem_append.mp hp).imp_left (hranked.stored p))

include h hlate

theorem one_ranked_of_hit (hhit : key ∈ s.policy.entries) :
    Ranked (one sched s turn).policy.entries
      (SizedLru.use s.ramTier.bytesCapacity (s.seenIndex turn).nbytesOf held key) := by
  obtain ⟨f,htouch,hentries⟩ := one_entries sched hpath
  obtain ⟨⟨key,size⟩,hmem,rfl⟩ := List.mem_map.mp ((h.ranked.ordered.mem key).mpr hhit)
  have hfilled : key ∈ (s.filled turn).policy.entries := by
    rw [filled_policy]
    exact hhit
  obtain ⟨e,he⟩ := Dict.mem_iff_get.mp hhit
  rw [SizedLru.use_of_mem h.ranked.ordered.nodup hmem]
  constructor
  case ordered =>
    have hkeys : (held.filter (·.1 ≠ key) ++ [(key,size)]).map Prod.fst =
        access (held.map Prod.fst) key := by
      rw [access,List.map_append,List.filter_map]
      rfl
    rw [hkeys,hentries,store_hit _ _ hfilled,filled_policy]
    refine h.ranked.ordered.access (e := f e) ?_ (fun k hk => ?_) fun k hk => ?_
    · rw [Dict.get_modify,if_pos rfl,he]
      rfl
    · rw [Dict.get_modify,if_neg hk]
    · rw [htouch]
      exact hlate k ((h.ranked.ordered.mem k).mp hk)
  case stored =>
    intro p hp
    rw [sizes_one s turn sched,hpath,store_hit _ _ hfilled,filled_policy]
    refine h.ranked.stored p ?_
    rcases List.mem_append.mp hp with hp | hp
    · exact List.mem_of_mem_filter hp
    · exact List.mem_singleton.mp hp ▸ hmem

theorem one_ranked_of_miss (hmiss : key ∉ s.policy.entries) :
    Ranked (one sched s turn).policy.entries
      (SizedLru.use s.ramTier.bytesCapacity (s.seenIndex turn).nbytesOf held key) := by
  have hfilled : key ∉ (s.filled turn).policy.entries := by rwa [filled_policy]
  have hstore := store_miss turn.t sched (filled_lruTier h) hfilled
  have hnew : key ∉ held.map Prod.fst := fun hk => hmiss ((h.ranked.ordered.mem key).mp hk)
  rw [filled_index,filled_ramTier] at hstore
  have hleft := h.ranked.eraseAll (SizedLru.displaced_append_kept s.ramTier.bytesCapacity
    ((s.seenIndex turn).nbytesOf key) held).symm
  have hkept : key ∉ s.policy.entries.eraseAll ((SizedLru.displaced s.ramTier.bytesCapacity
      ((s.seenIndex turn).nbytesOf key) held).map Prod.fst) := fun hmem =>
    hmiss (Dict.mem_eraseAll.mp hmem).1
  rw [SizedLru.use_of_not_mem hnew,SizedLru.enter]
  split
  case isTrue hroom =>
    obtain ⟨e,hsize,hset⟩ := insertFresh_single turn.t sched
      (s := (s.filled turn).without ((SizedLru.displaced s.ramTier.bytesCapacity
        ((s.seenIndex turn).nbytesOf key) held).map Prod.fst))
      (filled_lruTier h).kind (by rw [without,filled_policy]; exact hkept) hroom
    rw [hset] at hstore
    simp only [without,filled_policy] at hstore
    refine one_ranked_of_store hpath sched hleft hkept (fun k hk => ?_) hsize hstore
    rw [touchOf_eraseAll hk]
    exact hlate k (Dict.mem_eraseAll.mp hk).1
  case isFalse hroom =>
    obtain ⟨f,_,hentries⟩ := one_entries sched hpath
    rw [insertFresh,if_pos (not_le.mp hroom)] at hstore
    simp only [without,filled_policy] at hstore
    rw [hentries,hstore,List.append_nil,Dict.modify_of_absent (Dict.get_eq_none.mpr hkept)]
    exact hleft

/-- A turn is one access of the cache. -/
theorem one_lruTier : LruTier
    (SizedLru.use s.ramTier.bytesCapacity (s.seenIndex turn).nbytesOf held key)
    (one sched s turn) where
  kind := (one_kind s turn sched).trans h.kind
  ranked := by
    by_cases hhit : key ∈ s.policy.entries
    · exact one_ranked_of_hit h hpath hlate sched hhit
    · exact one_ranked_of_miss h hpath hlate sched hhit

omit h in
theorem touchOf_one_le : ∀ k ∈ (one sched s turn).policy.entries,
    touchOf (one sched s turn).policy.entries k ≤ turn.t := by
  intro k hk
  by_cases hkey : k = key
  · subst hkey
    exact (touchOf_one hpath sched hk).le
  · obtain ⟨e,he⟩ := Dict.mem_iff_get.mp hk
    have hold := get_one sched he
    rw [hpath,if_neg (by simpa using hkey)] at hold
    rw [touchOf_congr (he.trans hold.symm)]
    exact (hlate k (Dict.mem_iff_get.mpr ⟨e,hold⟩)).le

end Step

/-- The host tier is an exact LRU cache of equal blocks. -/
structure ExactLru (size : ℤ) (recent : List BlockKey) (s : Simulator F) : Prop where
  kind : s.policy.kind = .lru
  nodup : recent.Nodup
  ordered : Ordered s.policy.entries (newest (slots s.ramTier size) recent)
  stored : ∀ p ∈ sizes s.policy.entries, p.2 = size
  indexed : ∀ key ∈ s.policy.entries, s.index.nbytesOf key = size

theorem ExactLru.lruTier {size : ℤ} {recent : List BlockKey} {s : Simulator F}
    (h : ExactLru size recent s) :
    LruTier ((newest (slots s.ramTier size) recent).map fun key => (key,size)) s := by
  refine ⟨h.kind,?_,fun p hp => ?_⟩
  · rw [SizedLru.map_fst_pairs]
    exact h.ordered
  · obtain ⟨key,hkey,rfl⟩ := List.mem_map.mp hp
    obtain ⟨q,hq,rfl⟩ := List.mem_map.mp (mem_iff_sizes.mp ((h.ordered.mem key).mp hkey))
    rwa [← h.stored q hq]

theorem one_exactLru {size : ℤ} (hsize : 0 < size) {recent : List BlockKey} {s : Simulator F}
    {turn : Turn F} {key : BlockKey} (h : ExactLru size recent s)
    (hsingle : Single size s turn key)
    (hlate : ∀ k ∈ s.policy.entries, touchOf s.policy.entries k < turn.t) (sched : Schedule F) :
    ExactLru size (access recent key) (one sched s turn) where
  kind := (one_kind s turn sched).trans h.kind
  nodup := access_nodup h.nodup key
  ordered := by
    have hbytes : ∀ k, k = key ∨ k ∈ newest (slots s.ramTier size) recent →
        (s.seenIndex turn).nbytesOf k = size := by
      rintro k (rfl | hk)
      · exact hsingle.bytes
      · exact hsingle.seen_size h.indexed k ((h.ordered.mem k).mp hk)
    have hone := (one_lruTier h.lruTier hsingle.path hlate sched).ranked.ordered
    rw [SizedLru.use_of_equal (fun _ => lt_slots hsize) h.nodup hbytes,
      SizedLru.map_fst_pairs] at hone
    rwa [one_ramTier]
  stored := hsingle.stored_one sched h.stored
  indexed := hsingle.indexed_one sched h.indexed

section Trace

variable (cfg : SimConfig F) (ram : TierConfig F)

theorem start_lruTier : LruTier [] (start cfg .lru ram) :=
  ⟨rfl,⟨fun _ => ⟨fun hk => absurd hk List.not_mem_nil,fun hk => absurd hk (Dict.not_mem_empty _)⟩,
    List.Pairwise.nil⟩,by simp⟩

/-- The host tier is an exact LRU cache of the accesses so far, and the turns to come are
later than all of them. -/
structure Tracks (size : ℤ) (recent : List BlockKey) (s : Simulator F) (rest : List (Turn F)) :
    Prop where
  exact : ExactLru size recent s
  early : ∀ turn ∈ rest, ∀ k ∈ s.policy.entries, touchOf s.policy.entries k < turn.t

theorem start_tracks (size : ℤ) (rest : List (Turn F)) :
    Tracks size [] (start cfg .lru ram) rest := by
  have hempty : ∀ k, k ∉ (start cfg .lru ram).policy.entries := Dict.not_mem_empty
  constructor
  case exact =>
    constructor
    case kind => rfl
    case nodup => exact List.nodup_nil
    case ordered => exact ⟨fun k => by simp [newest,hempty k],by simp [newest]⟩
    case stored => simp [sizes_start]
    case indexed => exact fun k hk => absurd hk (hempty k)
  case early => exact fun _ _ k hk => absurd hk (hempty k)

theorem one_tracks {size : ℤ} (hsize : 0 < size) {recent : List BlockKey} {s : Simulator F}
    {turn : Turn F} {rest : List (Turn F)} (h : Tracks size recent s (turn::rest))
    {key : BlockKey} (hsingle : Single size s turn key) (hlater : ∀ next ∈ rest, turn.t < next.t)
    (sched : Schedule F) : Tracks size (access recent key) (one sched s turn) rest := by
  have hearly := h.early turn (by simp)
  constructor
  case exact => exact one_exactLru hsize h.exact hsingle hearly sched
  case early =>
    intro next hnext k hk
    exact (touchOf_one_le hsingle.path hearly sched k hk).trans_lt (hlater next hnext)

end Trace
end Simulator
end ContextResidency
