import ContextResidency.ReplayFacts
import ContextResidency.EvictionContract
import ContextResidency.Library.Sizes

/-! What one turn does to the keys and sizes of the host tier. An entry keeps the size
that it was stored with; a turn sweeps and evicts, then appends the blocks that fit. -/
namespace ContextResidency

variable {F : Type}

/-- The resident keys with the sizes they were stored with. -/
def sizes (entries : Entries F) : List (BlockKey × ℤ) := entries.items.map fun p => (p.1,p.2.nbytes)

theorem sizes_keys (entries : Entries F) : (sizes entries).map Prod.fst = entries.keys := by
  simp [sizes,Dict.keys,Function.comp_def]

theorem weight_sizes (entries : Entries F) :
    weight (sizes entries) = entries.sumBy fun _ e => e.nbytes := by
  simp [Dict.sumBy,weight,sizes,Function.comp_def]

theorem mem_of_sizes {entries : Entries F} {p : BlockKey × ℤ} (h : p ∈ sizes entries) :
    p.1 ∈ entries := by
  obtain ⟨q,hq,rfl⟩ := List.mem_map.mp h
  exact Dict.mem_of_item hq

theorem mem_iff_sizes {entries : Entries F} {key : BlockKey} :
    key ∈ entries ↔ key ∈ (sizes entries).map Prod.fst := by
  rw [sizes_keys,Dict.mem_def]

theorem get_nbytes (entries : Entries F) (key : BlockKey) :
    (entries.get key).map (·.nbytes) = ((sizes entries).find? fun p => p.1 = key).map Prod.snd := by
  rw [sizes,List.find?_map,Dict.get,Option.map_map,Option.map_map]
  rfl

theorem sizes_modify (entries : Entries F) (key : BlockKey) {f : Entry F → Entry F}
    (hf : ∀ e, (f e).nbytes = e.nbytes) : sizes (entries.modify key f) = sizes entries := by
  rw [sizes,sizes,Dict.modify,Dict.items_mapValues,List.map_map]
  refine List.map_congr_left fun p _ => ?_
  by_cases hk : p.1 = key
  · simp [hk,hf]
  · simp [hk]

theorem sizes_foldl_modify (keys : List BlockKey) (entries : Entries F)
    {f : BlockKey → Entry F → Entry F} (hf : ∀ key e, (f key e).nbytes = e.nbytes) :
    sizes (keys.foldl (fun entries key => entries.modify key (f key)) entries) =
      sizes entries := by
  induction keys generalizing entries with
  | nil => rfl
  | cons key keys ih => exact (ih _).trans (sizes_modify entries key (hf key))

theorem sizes_set_new {entries : Entries F} {key : BlockKey} (e : Entry F) (h : key ∉ entries) :
    sizes (entries.set key e) = sizes entries ++ [(key,e.nbytes)] := by
  simp [sizes,Dict.items_set_new e h]

theorem sizes_eraseAll (entries : Entries F) (out : List BlockKey) :
    sizes (entries.eraseAll out) = (sizes entries).filter fun p => p.1 ∉ out := by
  simp [sizes,Dict.eraseAll,List.filter_map,Function.comp_def]

variable [Scalar F]

def PolicyKind.admitsAll : PolicyKind F → Bool
  | .adaptiveValue _ _ => false
  | _ => true

namespace TierPolicy

variable (policy : TierPolicy F)

omit [Scalar F] in
theorem occupancy_eq : policy.occupancy = weight (sizes policy.entries) :=
  (weight_sizes _).symm

theorem sizes_swept (now : F) :
    (sizes (policy.swept now)).Sublist (sizes policy.entries) := by
  unfold swept
  split
  · exact List.filter_sublist.map _
  · exact List.Sublist.refl _

@[simp] theorem insert_kind (key : BlockKey) (nbytes : ℤ) (now : F) (probe : Probe F) :
    (policy.insert key nbytes now probe).kind = policy.kind := rfl

theorem sizes_insert {key : BlockKey} (nbytes : ℤ) (now : F) (probe : Probe F)
    (h : key ∉ policy.entries) : sizes (policy.insert key nbytes now probe).entries =
      sizes policy.entries ++ [(key,nbytes)] := by
  rw [insert,get,Dict.get_eq_none.mpr h]
  exact sizes_set_new _ h

theorem touch_frame (keys : List BlockKey) (now : F) (probe : Probe F) :
    (policy.touch keys now probe).kind = policy.kind ∧
    (policy.touch keys now probe).capacity = policy.capacity ∧
    sizes (policy.touch keys now probe).entries = sizes policy.entries := by
  induction keys generalizing policy with
  | nil => exact ⟨rfl,rfl,rfl⟩
  | cons key keys ih =>
    obtain ⟨hkind,hcap,hsizes⟩ := ih { policy with
      entries := policy.entries.modify key fun e => policy.refresh key e.nbytes now probe e }
    exact ⟨hkind,hcap,hsizes.trans (sizes_modify _ _ fun _ => rfl)⟩

/-- Below the threshold the gate of the adaptive policy is open. -/
theorem admitChain_of_low_pressure (horizonS : F) (priors : Dict String F)
    (items : List (BlockKey × ℤ)) (probe : Probe F) (hlow : policy.pressure < 9/10) :
    AdaptiveValuePolicy.admitChain horizonS priors policy.capacity policy.entries items probe =
      items := by
  by_cases hnil : items = []
  · rw [AdaptiveValuePolicy.admitChain,if_pos hnil,hnil]
  · rw [AdaptiveValuePolicy.admitChain,if_neg hnil]
    exact if_pos hlow

theorem admitChain_cases (items : List (BlockKey × ℤ)) (probe : Probe F) :
    policy.admitChain items probe = items ∨ policy.admitChain items probe = [] := by
  unfold admitChain
  split
  · unfold AdaptiveValuePolicy.admitChain
    split
    · exact Or.inr rfl
    · split
      · exact Or.inl rfl
      · exact ite_eq_or_eq _ _ _
  · exact Or.inl rfl

theorem admitChain_eq_self {policy : TierPolicy F} (h : policy.kind.admitsAll = true)
    (items : List (BlockKey × ℤ)) (probe : Probe F) : policy.admitChain items probe = items := by
  unfold admitChain
  cases hkind : policy.kind with
  | adaptiveValue horizonS priors =>
    rw [hkind] at h
    cases h
  | lru => rfl
  | lfu => rfl
  | fixedTtl baseS perGibS => rfl
  | continuumTtl k minS maxS => rfl
  | oracle => rfl

theorem admitChain_sublist (items : List (BlockKey × ℤ)) (probe : Probe F) :
    (policy.admitChain items probe).Sublist items := by
  cases policy.admitChain_cases items probe with
  | inl h => rw [h]
  | inr h =>
    rw [h]
    exact List.nil_sublist _

end TierPolicy

namespace Simulator

theorem foresee_frame (sched : Schedule F) (key : BlockKey) (now : F) (policy : TierPolicy F) :
    (foresee sched key now policy).kind = policy.kind ∧
    (foresee sched key now policy).capacity = policy.capacity ∧
    sizes (foresee sched key now policy).entries = sizes policy.entries := by
  unfold foresee
  split
  · exact ⟨rfl,rfl,sizes_modify _ _ fun _ => rfl⟩
  · exact ⟨rfl,rfl,rfl⟩

theorem insertFresh_kind (now : F) (sched : Schedule F) (s : Simulator F) (room : ℤ)
    (fresh : List (BlockKey × ℤ)) :
    (insertFresh now sched s room fresh).policy.kind = s.policy.kind ∧
    (insertFresh now sched s room fresh).policy.capacity = s.policy.capacity := by
  induction fresh generalizing s room with
  | nil => exact ⟨rfl,rfl⟩
  | cons p fresh ih =>
    rw [insertFresh]
    split
    · exact ⟨rfl,rfl⟩
    · obtain ⟨hkind,hcap,_⟩ := foresee_frame sched p.1 now (s.policy.insert p.1 p.2 now s.probe)
      have hrest := ih { s with
        reacquires := s.reacquires+if p.1 ∈ s.leftHostAt then 1 else 0
        policy := foresee sched p.1 now (s.policy.insert p.1 p.2 now s.probe) } (room-p.2)
      exact ⟨hrest.1.trans hkind,hrest.2.trans hcap⟩

/-- Inserting appends the prefix that fits, for blocks that are not resident yet. -/
theorem sizes_insertFresh (now : F) (sched : Schedule F) (s : Simulator F) (room : ℤ)
    (fresh : List (BlockKey × ℤ)) (hn : (fresh.map Prod.fst).Nodup)
    (hnew : ∀ p ∈ fresh, p.1 ∉ s.policy.entries) :
    sizes (insertFresh now sched s room fresh).policy.entries =
      sizes s.policy.entries ++ fitting room fresh := by
  induction fresh generalizing s room with
  | nil => simp [insertFresh,fitting]
  | cons p fresh ih =>
    rw [List.map_cons,List.nodup_cons] at hn
    rw [insertFresh,fitting]
    split
    · simp
    · have hstored : sizes (foresee sched p.1 now (s.policy.insert p.1 p.2 now s.probe)).entries =
          sizes s.policy.entries ++ [p] :=
        (foresee_frame _ _ _ _).2.2.trans (s.policy.sizes_insert _ _ _ (hnew p (by simp)))
      have hlater : ∀ q ∈ fresh,
          q.1 ∉ (foresee sched p.1 now (s.policy.insert p.1 p.2 now s.probe)).entries := by
        intro q hq hmem
        rw [mem_iff_sizes,hstored,List.map_append,List.mem_append,← mem_iff_sizes] at hmem
        cases hmem with
        | inl hmem => exact hnew q (by simp [hq]) hmem
        | inr hmem =>
          have he : q.1 = p.1 := by simpa using hmem
          exact hn.1 (he ▸ List.mem_map.mpr ⟨q,hq,rfl⟩)
      rw [ih _ _ hn.2 hlater,hstored,List.append_assoc]
      rfl

omit [Scalar F] in
theorem mem_missing {s : Simulator F} {keys : List BlockKey} {p : BlockKey × ℤ}
    (h : p ∈ s.missing keys) :
    p.1 ∈ keys ∧ p.1 ∉ s.policy.entries ∧ p.2 = s.index.nbytesOf p.1 := by
  obtain ⟨k,hk,rfl⟩ := List.mem_map.mp h
  obtain ⟨hk,hnew⟩ := List.mem_filter.mp hk
  exact ⟨hk,Dict.get_eq_none.mp (Option.isNone_iff_eq_none.mp hnew),rfl⟩

omit [Scalar F] in
theorem missing_nodup {s : Simulator F} {keys : List BlockKey} (hn : keys.Nodup) :
    ((s.missing keys).map Prod.fst).Nodup := by
  have hkeys : (s.missing keys).map Prod.fst =
      keys.filter fun k => (s.policy.get k).isNone := by
    simp [missing,Function.comp_def]
  rw [hkeys]
  exact hn.filter _

theorem evictRequest_some {s : Simulator F} {keys : List BlockKey}
    {fresh : List (BlockKey × ℤ)} {needed : ℤ} (h : s.evictRequest keys = some (fresh,needed)) :
    fresh.Sublist (s.missing keys) ∧ s.freeRoom < weight fresh := by
  have hsub := s.policy.admitChain_sublist (s.missing keys) s.probe
  rw [evictRequest] at h
  split at h
  · rename_i hneeded
    rw [Option.some.injEq,Prod.mk.injEq] at h
    have hpos := hneeded.2
    rw [h.1] at hsub hpos
    refine ⟨hsub,?_⟩
    unfold weight
    omega
  · cases h

theorem evictRequest_eq_none {s : Simulator F} {keys : List BlockKey}
    (h : weight (s.policy.admitChain (s.missing keys) s.probe) ≤ s.freeRoom) :
    s.evictRequest keys = none := by
  rw [evictRequest]
  refine if_neg fun hask => ?_
  have hpos := hask.2
  unfold weight at h
  omega

section Store

variable {s : Simulator F} {keys : List BlockKey} (hn : keys.Nodup) (now : F) (sched : Schedule F)
include hn

theorem sizes_store_of_none (h : s.evictRequest keys = none) :
    sizes (s.storeBatchToHost keys now sched).policy.entries = sizes s.policy.entries ++
      fitting s.freeRoom (s.policy.admitChain (s.missing keys) s.probe) := by
  have hsub := s.policy.admitChain_sublist (s.missing keys) s.probe
  rw [storeBatchToHost,h]
  refine sizes_insertFresh _ _ _ _ _ ((hsub.map _).nodup (missing_nodup hn)) fun p hp => ?_
  exact (mem_missing (hsub.subset hp)).2.1

omit hn in
/-- With one it stops when there was nothing to evict, and otherwise stores into the room
that it counts. -/
theorem store_of_evicted {fresh : List (BlockKey × ℤ)} {needed : ℤ} {out : List BlockKey}
    (hask : s.evictRequest keys = some (fresh,needed))
    (hout : s.policy.evictEntries needed (fresh.map Prod.fst).toFinset now s.probe =
      evicted (s.policy.swept now) out) :
    s.storeBatchToHost keys now sched =
      if out = [] then { s with policy := { s.policy with entries := s.policy.swept now } }
      else insertFresh now sched { s with
          policy := { s.policy with entries := (s.policy.swept now).eraseAll out }
          leftHostAt := out.foldl (fun d k => d.set k s.now) s.leftHostAt }
        (s.freeRoom+(out.map s.index.nbytesOf).sum) fresh := by
  rw [storeBatchToHost,hask]
  simp only [TierPolicy.evict,hout,evicted]
  by_cases hnone : out = []
  · simp only [hnone,if_true,Dict.eraseAll_nil]
  · simp only [hnone,if_false]
    rw [foldl_leftHost]

theorem sizes_store_of_evicted {fresh : List (BlockKey × ℤ)} {needed : ℤ} {out : List BlockKey}
    (hask : s.evictRequest keys = some (fresh,needed))
    (hout : s.policy.evictEntries needed (fresh.map Prod.fst).toFinset now s.probe =
      evicted (s.policy.swept now) out) :
    sizes (s.storeBatchToHost keys now sched).policy.entries =
      sizes ((s.policy.swept now).eraseAll out) ++
        if out = [] then [] else fitting (s.freeRoom+(out.map s.index.nbytesOf).sum) fresh := by
  have hsub := (evictRequest_some hask).1
  rw [store_of_evicted now sched hask hout]
  by_cases hnone : out = []
  · simp [hnone]
  · rw [if_neg hnone,if_neg hnone]
    refine sizes_insertFresh _ _ _ _ _ ((hsub.map _).nodup (missing_nodup hn)) fun p hp hmem => ?_
    obtain ⟨e,he⟩ := Dict.mem_iff_exists.mp (Dict.mem_eraseAll.mp hmem).1
    have hold := s.policy.item_of_mem_swept he
    exact (mem_missing (hsub.subset hp)).2.1 (Dict.mem_of_item hold)

theorem sizes_store_of_some {fresh : List (BlockKey × ℤ)} {needed : ℤ}
    (h : s.evictRequest keys = some (fresh,needed)) :
    ∃ out, Victims (s.policy.swept now) (fresh.map Prod.fst).toFinset out ∧
      sizes (s.storeBatchToHost keys now sched).policy.entries =
        sizes ((s.policy.swept now).eraseAll out) ++
          if out = [] then [] else fitting (s.freeRoom+(out.map s.index.nbytesOf).sum) fresh := by
  obtain ⟨out,hv,hout⟩ := s.policy.evictEntries_eq_evicted needed (fresh.map Prod.fst).toFinset now
    s.probe
  exact ⟨out,hv,sizes_store_of_evicted hn now sched h hout⟩

theorem mem_sizes_store {p : BlockKey × ℤ}
    (hp : p ∈ sizes (s.storeBatchToHost keys now sched).policy.entries) :
    p ∈ sizes s.policy.entries ∨ p ∈ s.missing keys := by
  cases h : s.evictRequest keys with
  | none =>
    rw [sizes_store_of_none hn now sched h] at hp
    have hsub := (fitting_initial s.freeRoom _).sublist.trans
      (s.policy.admitChain_sublist (s.missing keys) s.probe)
    exact (List.mem_append.mp hp).imp_right fun hp => hsub.subset hp
  | some request =>
    have hsub := (evictRequest_some h).1
    obtain ⟨out,_,hout⟩ := sizes_store_of_some hn now sched h
    have hkept : ∀ q ∈ sizes ((s.policy.swept now).eraseAll out), q ∈ sizes s.policy.entries := by
      intro q hq
      rw [sizes_eraseAll] at hq
      exact (s.policy.sizes_swept now).subset (List.mem_filter.mp hq).1
    rw [hout,List.mem_append] at hp
    refine hp.imp (hkept p) fun hp => ?_
    split at hp
    · simp at hp
    · exact hsub.subset ((fitting_initial _ _).subset hp)

end Store

/-- A store step inserts missing blocks into the tier as it is, or as an eviction left it. -/
theorem store_cases (s : Simulator F) (keys : List BlockKey) (now : F) (sched : Schedule F) :
    ∃ (t : Simulator F) (room : ℤ) (fresh : List (BlockKey × ℤ)), fresh.Sublist (s.missing keys) ∧
      (t.policy = s.policy ∨ ∃ neededBytes protectedKeys,
        t.policy = (s.policy.evict neededBytes protectedKeys now s.probe).2) ∧
      (s.storeBatchToHost keys now sched).policy = (insertFresh now sched t room fresh).policy := by
  rw [storeBatchToHost]
  split
  · exact ⟨s,_,_,s.policy.admitChain_sublist _ _,Or.inl rfl,rfl⟩
  · rename_i fresh needed hask
    split
    · -- Nothing was evicted, and nothing is stored.
      rename_i policy hevict
      refine ⟨{ s with policy := policy },0,[],List.nil_sublist _,?_,rfl⟩
      exact Or.inr ⟨needed,_,(congrArg Prod.snd hevict).symm⟩
    · rename_i freed policy hevict
      refine ⟨_,_,fresh,(evictRequest_some hask).1,?_,rfl⟩
      rw [foldl_leftHost]
      exact Or.inr ⟨needed,_,(congrArg Prod.snd hevict).symm⟩

theorem storeBatchToHost_kind (s : Simulator F) (keys : List BlockKey) (now : F)
    (sched : Schedule F) :
    (s.storeBatchToHost keys now sched).policy.kind = s.policy.kind ∧
    (s.storeBatchToHost keys now sched).policy.capacity = s.policy.capacity := by
  obtain ⟨t,room,fresh,_,hpolicy,hstore⟩ := s.store_cases keys now sched
  have hinsert := insertFresh_kind now sched t room fresh
  rw [hstore]
  rcases hpolicy with hsame | ⟨_,_,hevict⟩
  · rwa [hsame] at hinsert
  · rwa [hevict] at hinsert

theorem sizes_start (cfg : SimConfig F) (kind : PolicyKind F) (ram : TierConfig F) :
    sizes (start cfg kind ram).policy.entries = [] := rfl

/-- The state in which a turn reaches the host tier: registered, and filled into HBM. -/
def filled (s : Simulator F) (turn : Turn F) : Simulator F :=
  (s.observe turn).1.fillHbm (s.path turn)

section Filled

variable (s : Simulator F) (turn : Turn F) (sched : Schedule F)

theorem filled_eq : s.filled turn =
    let r := s.hbm.store ((s.path turn).map fun k => (k,(s.seenIndex turn).nbytesOf k))
      (s.path turn).toFinset
    { (s.observe turn).1 with
      hbm := r.1
      demotions := s.demotions+r.2.length
      leftHbmAt := r.2.foldl (fun d k => d.set k turn.t) s.leftHbmAt } :=
  fillHbm_eq _ _

@[simp] theorem filled_policy : (s.filled turn).policy = s.policy := by
  rw [filled_eq]
  rfl

@[simp] theorem filled_index : (s.filled turn).index = s.seenIndex turn := by
  rw [filled_eq]
  rfl

@[simp] theorem filled_ramTier : (s.filled turn).ramTier = s.ramTier := by
  rw [filled_eq]
  rfl

@[simp] theorem filled_now : (s.filled turn).now = turn.t := by
  rw [filled_eq]
  rfl

theorem filled_missing : (s.filled turn).missing (s.path turn) =
    (s.observe turn).1.missing (s.path turn) := by
  rw [missing,filled_policy,filled_index]
  rfl

theorem filled_freeRoom : (s.filled turn).freeRoom = s.freeRoom := by
  rw [freeRoom,filled_policy,filled_ramTier,freeRoom]

/-- The blocks of the path that the host tier misses fit its free room. -/
def Fits : Prop := weight ((s.observe turn).1.missing (s.path turn)) ≤ s.freeRoom

instance : Decidable (s.Fits turn) := inferInstanceAs (Decidable (_ ≤ _))

theorem settled_eq : settled sched s turn = (((s.filled turn).storeBatchToHost (s.path turn)
    turn.t sched).touchHost (s.path turn) turn.t).refreshOracle (s.path turn) turn.t sched := rfl

theorem one_kind : (one sched s turn).policy.kind = s.policy.kind := by
  have hstored := (storeBatchToHost_kind (s.filled turn) (s.path turn) turn.t sched).1
  rw [filled_policy] at hstored
  exact (TierPolicy.touch_frame _ _ _ _).1.trans hstored

theorem one_capacity : (one sched s turn).policy.capacity = s.policy.capacity := by
  have hstored := (storeBatchToHost_kind (s.filled turn) (s.path turn) turn.t sched).2
  rw [filled_policy] at hstored
  exact (TierPolicy.touch_frame _ _ _ _).2.1.trans hstored

theorem sizes_one : sizes (one sched s turn).policy.entries =
    sizes ((s.filled turn).storeBatchToHost (s.path turn) turn.t sched).policy.entries := by
  have htouched := TierPolicy.touch_frame
    ((s.filled turn).storeBatchToHost (s.path turn) turn.t sched).policy (s.path turn) turn.t
    ((s.filled turn).storeBatchToHost (s.path turn) turn.t sched).probe
  rw [← htouched.2.2]
  apply @sizes_foldl_modify F (s.path turn) _ fun key e =>
    { e with nextUse := sched.next key turn.t }
  exact fun _ _ => rfl

theorem mem_sizes_one {p : BlockKey × ℤ} (hp : p ∈ sizes (one sched s turn).policy.entries) :
    p ∈ sizes s.policy.entries ∨
      p.1 ∈ s.path turn ∧ p.2 = (s.seenIndex turn).nbytesOf p.1 := by
  rw [sizes_one s turn sched] at hp
  have hstore := mem_sizes_store (path_nodup s turn) turn.t sched hp
  rw [filled_policy] at hstore
  refine hstore.imp_right fun h => ?_
  have hmem := mem_missing h
  rw [filled_index] at hmem
  exact ⟨hmem.1,hmem.2.2⟩

/-- What holds of the entries before a turn, and of the blocks of its path, holds of the
entries after it. -/
theorem forall_sizes_one {P : BlockKey × ℤ → Prop} (hold : ∀ p ∈ sizes s.policy.entries, P p)
    (hnew : ∀ key ∈ s.path turn, P (key,(s.seenIndex turn).nbytesOf key)) :
    ∀ p ∈ sizes (one sched s turn).policy.entries, P p := by
  intro p hp
  cases mem_sizes_one s turn sched hp with
  | inl hp => exact hold p hp
  | inr hp =>
    have hpair : p = (p.1,(s.seenIndex turn).nbytesOf p.1) := Prod.ext rfl hp.2
    rw [hpair]
    exact hnew p.1 hp.1

end Filled

theorem after_kind (cfg : SimConfig F) (kind : PolicyKind F) (ram : TierConfig F)
    (turns : List (Turn F)) (n : ℕ) : ((start cfg kind ram).after turns n).policy.kind = kind :=
  List.foldlRecOn (motive := fun s : Simulator F => s.policy.kind = kind) _ _ rfl
    fun s h turn _ => (one_kind s turn _).trans h

end Simulator
end ContextResidency
