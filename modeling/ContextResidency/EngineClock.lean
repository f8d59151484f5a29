import ContextResidency.AtomicEviction
import ContextResidency.TtlEviction

/-! The engine's clock counts from an unspecified point. Both policies only measure how much
time has passed, so a clock that started elsewhere gets the same answers from them. -/
namespace ContextResidency

variable {F K B : Type} [Scalar F] [DecidableEq K]

def EngineCall.shift (c : F) : EngineCall F K B → EngineCall F K B
  | .insert key block now => .insert key block (now+c)
  | .touch keys hints now => .touch keys hints (now+c)
  | .evict order n protectedKeys now => .evict order n protectedKeys (now+c)
  | call => call

/-- The same under the reference counts of the moment. -/
def shiftCall (c : F) (call : (B → ℤ) × EngineCall F K B) : (B → ℤ) × EngineCall F K B :=
  (call.1,call.2.shift c)

def Meta.shift (c : F) (m : Meta F) : Meta F := { m with lastUse := m.lastUse+c }

namespace AcrValuePolicy

def shift (c : F) (policy : AcrValuePolicy F K B) : AcrValuePolicy F K B :=
  { policy with blockMeta := policy.blockMeta.mapValues fun _ => Meta.shift c }

def handover (policy : AcrValuePolicy F K B) :
    EngineCall F K B → Option (Except (EvictError K) (Option (List (K × B))))
  | .evict order n protectedKeys now =>
    some ((policy.evict (order policy.evictable) n protectedKeys now).map Prod.fst)
  | _ => none

section Shift

variable (c : F) (policy : AcrValuePolicy F K B)

theorem insert_shift (refCnt : B → ℤ) (key : K) (block : B) (now : F) :
    (policy.shift c).insert refCnt key block (now+c) =
      (policy.insert refCnt key block now).shift c := by
  have hbytes : (policy.shift c).bytesOf = policy.bytesOf := rfl
  simp only [insert,hbytes]
  simp only [shift,Dict.get_mapValues]
  cases policy.blockMeta.get key with
  | none =>
    rw [Option.map_none,Dict.mapValues_set]
    rfl
  | some m => rfl

theorem remove_shift (key : K) : (policy.shift c).remove key = (policy.remove key).shift c := by
  simp only [remove,shift,Dict.mapValues_erase]

theorem touched_shift (params : PolicyParams F) (hints : Option (Hints F)) (now : F) (m : Meta F) :
    touched params hints (now+c) (m.shift c) = (touched params hints now m).shift c := by
  have hgap : now+c-(m.lastUse+c) = now-m.lastUse := add_sub_add_right_eq_sub _ _ _
  cases hints with
  | none => simp only [touched,Meta.shift,hgap]
  | some h =>
    have heta : ∀ eta : F, min (now+c+eta) (now+c) = min (now+eta) now+c := by
      intro eta
      rw [← min_add_add_right,add_right_comm]
    cases htool : h.toolEtaS with
    | none => simp only [touched,Meta.shift,hgap,htool]
    | some eta => simp only [touched,Meta.shift,hgap,htool,heta]

theorem touch_shift (keys : List K) (hints : Option (Hints F)) (now : F) :
    (policy.shift c).touch keys hints (now+c) = (policy.touch keys hints now).shift c := by
  have hkeys : keys.foldl (fun entries k => entries.modify k (touched policy.params hints (now+c)))
        (policy.blockMeta.mapValues fun _ => Meta.shift c) =
      (keys.foldl (fun entries k => entries.modify k (touched policy.params hints now))
        policy.blockMeta).mapValues fun _ => Meta.shift c :=
    List.foldl_hom (fun entries => entries.mapValues fun _ => Meta.shift c) fun entries k =>
      (Dict.mapValues_modify _ entries k fun m =>
        (touched_shift c policy.params hints now m).symm).symm
  simp only [touch,shift,hkeys]

theorem score_shift (key : K) (now : F) :
    (policy.shift c).score key (now+c) = policy.score key now := by
  have hget : (policy.shift c).blockMeta.get key = (policy.blockMeta.get key).map (Meta.shift c) :=
    Dict.get_mapValues _ _ _
  unfold score
  rw [hget]
  cases policy.blockMeta.get key with
  | none => rfl
  | some m =>
    have hreuse : (policy.shift c).reuseProb (m.shift c) (now+c) = policy.reuseProb m now := by
      simp only [reuseProb,Meta.shift,add_sub_add_right_eq_sub]
      rfl
    simp only [Option.map_some,hreuse]
    rfl

theorem rank_shift_le_iff (now : F) {k k' : K} (hk : k ∈ policy.blockMeta)
    (hk' : k' ∈ policy.blockMeta) :
    (policy.shift c).rank (now+c) k ≤ (policy.shift c).rank (now+c) k' ↔
      policy.rank now k ≤ policy.rank now k' := by
  have hrank : ∀ {k : K} {m : Meta F}, policy.blockMeta.get k = some m →
      (policy.shift c).rank (now+c) k = toLex (policy.score k now,toLex (m.lastUse+c,m.uses)) ∧
        policy.rank now k = toLex (policy.score k now,toLex (m.lastUse,m.uses)) := by
    intro k m hm
    have hget : (policy.shift c).blockMeta.get k = some (m.shift c) := by
      rw [shift,Dict.get_mapValues,hm]
      rfl
    rw [rank,rank,hget,hm,score_shift]
    exact ⟨rfl,rfl⟩
  obtain ⟨m,hm⟩ := Dict.mem_iff_get.mp hk
  obtain ⟨m',hm'⟩ := Dict.mem_iff_get.mp hk'
  rw [(hrank hm).1,(hrank hm').1,(hrank hm).2,(hrank hm').2]
  simp only [Prod.Lex.toLex_le_toLex,add_lt_add_iff_right,add_left_inj]

theorem foldl_remove_shift (out : List (K × B)) :
    out.foldl (fun policy p => policy.remove p.1) (policy.shift c) =
      (out.foldl (fun policy p => policy.remove p.1) policy).shift c :=
  List.foldl_hom (shift c) fun policy p => remove_shift c policy p.1

end Shift

/-- As long as every candidate has its statistics, an eviction hands over the same blocks. -/
theorem Aligned.evict_shift {policy : AcrValuePolicy F K B} (h : Aligned policy) (c : F)
    (order : Listing policy.evictable) (n : ℤ) (protectedKeys : Finset K) (now : F) :
    (policy.shift c).evict order n protectedKeys (now+c) =
      (policy.evict order n protectedKeys now).map fun r => (r.1,r.2.shift c) := by
  have hstats : ∀ k ∈ order.keys.filter (· ∉ protectedKeys), k ∈ policy.blockMeta := fun k hk =>
    (h.keys k).mpr (h.evictable k ((order.mem_keys k).mp (List.mem_of_mem_filter hk)))
  have hsorted : sortedBy ((policy.shift c).rank (now+c)) (order.keys.filter (· ∉ protectedKeys)) =
      sortedBy (policy.rank now) (order.keys.filter (· ∉ protectedKeys)) := by
    have hmapped := sortedBy_map_of_mem (f := id) fun a ha b hb =>
      rank_shift_le_iff c policy now (hstats a ha) (hstats b hb)
    rwa [List.map_id,List.map_id] at hmapped
  have hmeta : ∀ k, k ∈ (policy.shift c).blockMeta ↔ k ∈ policy.blockMeta := fun _ =>
    Dict.mem_mapValues
  have hlookup : (policy.shift c).lookup = policy.lookup := rfl
  have hrated : (policy.shift c).Rated ↔ policy.Rated := Iff.rfl
  unfold AcrValuePolicy.evict
  simp only [hsorted,hmeta,hlookup,hrated]
  by_cases hzero : n = 0
  · simp [hzero,Except.map]
  · rw [if_neg hzero,if_neg hzero]
    split_ifs
    · rfl
    · rfl
    · cases (sliceTo n (sortedBy (policy.rank now)
        (order.keys.filter (· ∉ protectedKeys)))).mapM policy.lookup with
      | error e => rfl
      | ok out =>
        simp only [foldl_remove_shift]
        rfl

def handovers (policy : AcrValuePolicy F K B) (calls : List ((B → ℤ) × EngineCall F K B)) :
    List (Option (Except (EvictError K) (Option (List (K × B))))) :=
  (visits answer policy calls).map fun visit => visit.1.handover visit.2.2

theorem Aligned.answer_shift {policy : AcrValuePolicy F K B} (h : Aligned policy) (c : F)
    (refCnt : B → ℤ) (call : EngineCall F K B) :
    (policy.shift c).answer (refCnt,call.shift c) = (policy.answer (refCnt,call)).shift c ∧
      (policy.shift c).handover (call.shift c) = policy.handover call := by
  cases call with
  | get key => exact ⟨rfl,rfl⟩
  | insert key block now => exact ⟨insert_shift c policy refCnt key block now,rfl⟩
  | remove key => exact ⟨remove_shift c policy key,rfl⟩
  | touch keys hints now => exact ⟨touch_shift c policy keys hints now,rfl⟩
  | markEvictable key => exact ⟨rfl,rfl⟩
  | markNonEvictable key => exact ⟨rfl,rfl⟩
  | evict order n protectedKeys now =>
    have hevict := h.evict_shift c (order policy.evictable) n protectedKeys now
    constructor
    · show outcome (policy.shift c) ((policy.shift c).evict (order policy.evictable) n protectedKeys
        (now+c)) =
      (outcome policy (policy.evict (order policy.evictable) n protectedKeys now)).shift c
      rw [hevict]
      cases policy.evict (order policy.evictable) n protectedKeys now <;> rfl
    · show some (((policy.shift c).evict (order policy.evictable) n protectedKeys (now+c)).map
        Prod.fst) = some ((policy.evict (order policy.evictable) n protectedKeys now).map Prod.fst)
      rw [hevict]
      cases policy.evict (order policy.evictable) n protectedKeys now <;> rfl
  | clear => exact ⟨rfl,rfl⟩

/-- Whatever point the clock counts from, the value policy gives the same answers to the same
calls, and its state differs in the times of last use alone. -/
theorem value_clock_free (cacheCapacity : ℤ) (params : PolicyParams F) (c : F)
    {calls : List ((B → ℤ) × EngineCall F K B)}
    (hmarks : Along answer MarksResident (new cacheCapacity params) calls) :
    handovers (new cacheCapacity params) (calls.map (shiftCall c)) =
        handovers (new cacheCapacity params) calls ∧
      called cacheCapacity params (calls.map (shiftCall c)) =
        (called cacheCapacity params calls).shift c :=
  run_symmetric (f := shift c) (g := shiftCall c)
    (o := fun policy call => policy.handover call.2) (fun _ _ h hmark => h.answer hmark)
    (fun _ call h => h.answer_shift c call.1 call.2) hmarks (new_aligned cacheCapacity params)

def oneEvicted : List ((ℕ → ℤ) × EngineCall ℚ ℕ ℕ) :=
  twoIdle ++ [(fun _ => 0,.evict ascending 1 ∅ 4)]

theorem value_clock_free_oneEvicted :
    handovers (new 2 {}) (oneEvicted.map (shiftCall 1000)) = handovers (new 2 {}) oneEvicted :=
  (value_clock_free 2 {} 1000 (by decide +kernel)).1

end AcrValuePolicy

namespace SessionTtlPolicy

def shift (c : F) (policy : SessionTtlPolicy F K B) : SessionTtlPolicy F K B :=
  { policy with expires := policy.expires.mapValues fun _ expires => expires+c }

def handover (policy : SessionTtlPolicy F K B) :
    EngineCall F K B → Option (Except (EvictError K) (Option (List (K × B))))
  | .evict _ n protectedKeys now => some ((policy.evict n protectedKeys now).map Prod.fst)
  | _ => none

def handovers (policy : SessionTtlPolicy F K B) (calls : List (EngineCall F K B)) :
    List (Option (Except (EvictError K) (Option (List (K × B))))) :=
  (visits answer policy calls).map fun visit => visit.1.handover visit.2

section Shift

variable (c : F) (policy : SessionTtlPolicy F K B)

theorem insert_shift (key : K) (block : B) (now : F) :
    (policy.shift c).insert key block (now+c) = (policy.insert key block now).shift c := by
  simp only [insert,shift,Dict.get_mapValues]
  cases policy.expires.get key with
  | none =>
    rw [Option.map_none,Dict.mapValues_set,add_right_comm]
  | some expires => rfl

theorem remove_shift (key : K) : (policy.shift c).remove key = (policy.remove key).shift c := by
  simp only [remove,shift,Dict.mapValues_erase]

theorem touch_shift (keys : List K) (hints : Option (Hints F)) (now : F) :
    (policy.shift c).touch keys hints (now+c) = (policy.touch keys hints now).shift c := by
  simp only [touch,shift,Dict.mapValues_foldl_set _ _ _ (·+c),add_right_comm now c]
  rfl

theorem foldl_remove_shift (out : List (K × B)) :
    out.foldl (fun policy p => policy.remove p.1) (policy.shift c) =
      (out.foldl (fun policy p => policy.remove p.1) policy).shift c :=
  List.foldl_hom (shift c) fun policy p => remove_shift c policy p.1

theorem expiry_shift {key : K} (h : key ∈ policy.expires) :
    (policy.shift c).expiry key = policy.expiry key+c := by
  obtain ⟨expires,hget⟩ := Dict.mem_iff_get.mp h
  rw [expiry,expiry,shift,Dict.get_mapValues,hget]
  rfl

end Shift

theorem Lived.victims_shift {policy : SessionTtlPolicy F K B} (h : Lived policy) (c : F)
    (protectedKeys : Finset K) (now : F) :
    (policy.shift c).victims protectedKeys (now+c) = policy.victims protectedKeys now := by
  have hlive : (policy.shift c).live protectedKeys = policy.live protectedKeys := rfl
  have hexpiry : ∀ key ∈ policy.live protectedKeys,
      (policy.shift c).expiry key = policy.expiry key+c := fun key hkey =>
    expiry_shift c policy ((h.expires key).mpr (mem_live.mp hkey).1)
  have hexpired : (policy.live protectedKeys).filter ((policy.shift c).expiry · ≤ now+c) =
      (policy.live protectedKeys).filter (policy.expiry · ≤ now) := by
    refine List.filter_congr fun key hkey => ?_
    rw [hexpiry key hkey]
    simp
  have hrest : ∀ keys : List K, (∀ key ∈ keys, key ∈ policy.live protectedKeys) →
      sortedBy (policy.shift c).expiry keys = sortedBy policy.expiry keys := by
    intro keys hkeys
    have hmapped : sortedBy (policy.shift c).expiry (keys.map id) =
        (sortedBy policy.expiry keys).map id := sortedBy_map_of_mem fun a ha b hb => by
      rw [id_eq,id_eq,hexpiry a (hkeys a ha),hexpiry b (hkeys b hb)]
      exact add_le_add_iff_right c
    rwa [List.map_id,List.map_id] at hmapped
  simp only [victims,hlive,hexpired]
  rw [hrest _ fun key hkey => List.mem_of_mem_filter hkey]

theorem Lived.evict_shift {policy : SessionTtlPolicy F K B} (h : Lived policy) (c : F) (n : ℤ)
    (protectedKeys : Finset K) (now : F) :
    (policy.shift c).evict n protectedKeys (now+c) =
      (policy.evict n protectedKeys now).map fun r => (r.1,r.2.shift c) := by
  have hlive : (policy.shift c).live protectedKeys = policy.live protectedKeys := rfl
  have hblocks : (policy.shift c).blocks = policy.blocks := rfl
  have hexpires : ∀ key, key ∈ (policy.shift c).expires ↔ key ∈ policy.expires := fun _ =>
    Dict.mem_mapValues
  unfold SessionTtlPolicy.evict
  simp only [hlive,hblocks,hexpires,h.victims_shift]
  split_ifs
  · rfl
  · rfl
  · cases (policy.live protectedKeys).find? (· ∉ policy.expires) with
    | some key => rfl
    | none =>
      cases (sliceTo n (policy.victims protectedKeys now)).mapM
          (policy.blocks.fetch EvictError.keyError) with
      | error e => rfl
      | ok out =>
        simp only [foldl_remove_shift]
        rfl

theorem Lived.answer_shift {policy : SessionTtlPolicy F K B} (h : Lived policy) (c : F)
    (call : EngineCall F K B) :
    (policy.shift c).answer (call.shift c) = (policy.answer call).shift c ∧
      (policy.shift c).handover (call.shift c) = policy.handover call := by
  cases call with
  | get key => exact ⟨rfl,rfl⟩
  | insert key block now => exact ⟨insert_shift c policy key block now,rfl⟩
  | remove key => exact ⟨remove_shift c policy key,rfl⟩
  | touch keys hints now => exact ⟨touch_shift c policy keys hints now,rfl⟩
  | markEvictable key => exact ⟨rfl,rfl⟩
  | markNonEvictable key => exact ⟨rfl,rfl⟩
  | evict order n protectedKeys now =>
    have hevict := h.evict_shift c n protectedKeys now
    constructor
    · show outcome (policy.shift c) ((policy.shift c).evict n protectedKeys (now+c)) =
        (outcome policy (policy.evict n protectedKeys now)).shift c
      rw [hevict]
      cases policy.evict n protectedKeys now <;> rfl
    · show some (((policy.shift c).evict n protectedKeys (now+c)).map Prod.fst) =
        some ((policy.evict n protectedKeys now).map Prod.fst)
      rw [hevict]
      cases policy.evict n protectedKeys now <;> rfl
  | clear => exact ⟨rfl,rfl⟩

/-- The same of the TTL policy, whatever is called: only its expiries move with the clock. -/
theorem ttl_clock_free (cacheCapacity : ℤ) (params : TtlParams F) (c : F)
    (calls : List (EngineCall F K B)) :
    handovers (new cacheCapacity params) (calls.map (EngineCall.shift c)) =
        handovers (new cacheCapacity params) calls ∧
      called cacheCapacity params (calls.map (EngineCall.shift c)) =
        (called cacheCapacity params calls).shift c :=
  run_symmetric (f := shift c) (g := EngineCall.shift c) (o := handover)
    (fun _ call h _ => h.answer call) (fun _ call h => h.answer_shift c call)
    (along_of_forall (fun _ _ => trivial) _ calls) (new_lived cacheCapacity params)

end SessionTtlPolicy

end ContextResidency
