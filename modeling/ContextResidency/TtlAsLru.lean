import ContextResidency.HostBookkeeping
import ContextResidency.Closing
import ContextResidency.WorkingSet
import ContextResidency.HbmFootprint
import ContextResidency.BlockRecords

/-! Fixed lifetimes that never run out. On blocks of one size the block whose time is over
first is the one used least recently, so that as long as no block lies idle for a lifetime
the fixed TTL is LRU under another name. -/
namespace ContextResidency

variable {F : Type} [Scalar F]

/-- The entry with the time that a fixed lifetime grants it from its last use. -/
def Entry.granted (baseS perGibS : F) (e : Entry F) : Entry F :=
  { e with expiresAt := ((e.lastTouch+baseS+perGibS*(e.nbytes/1024^3) : F) : WithTop F) }

namespace TierPolicy

def granted (baseS perGibS : F) (policy : TierPolicy F) : TierPolicy F :=
  { policy with
    kind := .fixedTtl baseS perGibS
    entries := policy.entries.mapValues fun _ => Entry.granted baseS perGibS }

/-- No block of the tier, all of them of one size, has been idle for its lifetime. -/
structure Fresh (baseS perGibS : F) (size : ℤ) (now : F) (policy : TierPolicy F) : Prop where
  lru : policy.kind = .lru
  equal : ∀ key e, policy.get key = some e → e.nbytes = size
  live : ∀ key e, policy.get key = some e → now < e.lastTouch+baseS+perGibS*(size/1024^3)

section Granted

variable {baseS perGibS : F} {policy : TierPolicy F}

theorem get_granted (key : BlockKey) :
    (policy.granted baseS perGibS).get key = (policy.get key).map (Entry.granted baseS perGibS) :=
  Dict.get_mapValues _ _ _

theorem occupancy_granted : (policy.granted baseS perGibS).occupancy = policy.occupancy :=
  Dict.sumBy_mapValues (fun _ => Entry.granted baseS perGibS) policy.entries fun _ e => e.nbytes

theorem insert_granted {key : BlockKey} (hnew : key ∉ policy.entries)
    (nbytes : ℤ) (now : F) (probe : Probe F) :
    (policy.granted baseS perGibS).insert key nbytes now probe =
      (policy.insert key nbytes now probe).granted baseS perGibS := by
  have hnone : policy.get key = none := Dict.get_eq_none.mpr hnew
  have hnone' : (policy.granted baseS perGibS).get key = none := by rw [get_granted,hnone]; rfl
  unfold insert
  rw [hnone,hnone']
  simp only [granted,expiry,Dict.mapValues_set]
  rfl

theorem touch_granted (keys : List BlockKey) (now : F) (probe : Probe F) :
    (policy.granted baseS perGibS).touch keys now probe =
      (policy.touch keys now probe).granted baseS perGibS := by
  induction keys generalizing policy with
  | nil => rfl
  | cons key keys ih =>
    have hfirst : (policy.granted baseS perGibS).touch [key] now probe =
        (policy.touch [key] now probe).granted baseS perGibS := by
      have hmodified : (policy.entries.modify key fun e =>
          policy.refresh key e.nbytes now probe e).mapValues (fun _ => Entry.granted baseS perGibS) =
            (policy.granted baseS perGibS).entries.modify key fun e =>
              (policy.granted baseS perGibS).refresh key e.nbytes now probe e :=
        Dict.mapValues_modify _ _ _ fun _ => rfl
      simp only [touch,List.foldl_cons,List.foldl_nil,granted,hmodified]
    exact (congrArg (touch · keys now probe) hfirst).trans (@ih (policy.touch [key] now probe))

/-- Nothing expires, and what expires first was used first. -/
theorem Fresh.evict {size : ℤ} {now : F} (h : policy.Fresh baseS perGibS size now)
    (neededBytes : ℤ) (protectedKeys : Finset BlockKey) (probe : Probe F) :
    (policy.granted baseS perGibS).evict neededBytes protectedKeys now probe =
      let r := policy.evict neededBytes protectedKeys now probe
      (r.1,r.2.granted baseS perGibS) := by
  let grantedItem : BlockKey × Entry F → BlockKey × Entry F :=
    fun p => (p.1,p.2.granted baseS perGibS)
  have hitems : (policy.granted baseS perGibS).entries.items =
      policy.entries.items.map grantedItem := Dict.items_mapValues _ _
  have hkept : expire (policy.granted baseS perGibS).entries now =
      (policy.granted baseS perGibS).entries := by
    ext1
    rw [expire,Dict.items_filter,List.filter_eq_self,hitems]
    intro p hp
    obtain ⟨q,hq,rfl⟩ := List.mem_map.mp hp
    have hget : policy.get q.1 = some q.2 := Dict.get_eq_some.mpr hq
    have hlive := h.live q.1 q.2 hget
    rw [← h.equal q.1 q.2 hget] at hlive
    exact decide_eq_true (not_le.mpr (WithTop.coe_lt_coe.mpr hlive))
  have hcandidates : (policy.granted baseS perGibS).entries.items.filter (·.1 ∉ protectedKeys) =
      (policy.entries.items.filter (·.1 ∉ protectedKeys)).map grantedItem := by
    rw [hitems,List.filter_map]
    rfl
  have horder : sortedBy (fun p => toLex (p.2.expiresAt,p.2.lastTouch))
      ((policy.entries.items.filter (·.1 ∉ protectedKeys)).map grantedItem) =
        (sortedBy (fun p => p.2.lastTouch)
          (policy.entries.items.filter (·.1 ∉ protectedKeys))).map grantedItem := by
    refine sortedBy_map_of_mem fun p hp q hq => ?_
    have hp' := h.equal p.1 p.2 (Dict.get_eq_some.mpr (List.mem_of_mem_filter hp))
    have hq' := h.equal q.1 q.2 (Dict.get_eq_some.mpr (List.mem_of_mem_filter hq))
    simp only [grantedItem,Entry.granted,hp',hq',Prod.Lex.toLex_le_toLex,WithTop.coe_lt_coe,
      WithTop.coe_inj,add_lt_add_iff_right,add_left_inj]
    exact ⟨fun h => h.elim le_of_lt And.right,fun h => h.lt_or_eq.imp_right fun e => ⟨e,h⟩⟩
  have htaken : ∀ order : List (BlockKey × Entry F),
      (takeUntil (fun p => p.2.nbytes) neededBytes 0 (order.map grantedItem)).map Prod.fst =
        (takeUntil (fun p => p.2.nbytes) neededBytes 0 order).map Prod.fst := by
    intro order
    rw [takeUntil_map (fun _ => rfl),List.map_map]
    rfl
  unfold TierPolicy.evict evictEntries
  rw [h.lru]
  simp only [granted] at hkept hcandidates ⊢
  simp only [FixedTTLPolicy.evict,RecencyPolicy.evict,evictBy,take,hkept,hcandidates,horder,htaken]
  split
  · rfl
  · simp only [Dict.mapValues_eraseAll]

end Granted

end TierPolicy

namespace Simulator

def granted (baseS perGibS : F) (s : Simulator F) : Simulator F :=
  { s with policy := s.policy.granted baseS perGibS }

section Step

variable {baseS perGibS : F} {s : Simulator F} (sched : Schedule F)

theorem insertFresh_granted (hlru : s.policy.kind = .lru) (now : F) {room : ℤ}
    {fresh : List (BlockKey × ℤ)} (hn : (fresh.map Prod.fst).Nodup)
    (hnew : ∀ p ∈ fresh, p.1 ∉ s.policy.entries) :
    insertFresh now sched (s.granted baseS perGibS) room fresh =
      (insertFresh now sched s room fresh).granted baseS perGibS := by
  induction fresh generalizing s room with
  | nil => rfl
  | cons p fresh ih =>
    rw [List.map_cons,List.nodup_cons] at hn
    obtain ⟨hp,hfresh⟩ := List.forall_mem_cons.mp hnew
    have hkind : (s.policy.insert p.1 p.2 now s.probe).kind = .lru := hlru
    have hstill : foresee sched p.1 now (s.policy.insert p.1 p.2 now s.probe) =
        s.policy.insert p.1 p.2 now s.probe := by
      rw [foresee,hkind]
    have hinsert : foresee sched p.1 now ((s.granted baseS perGibS).policy.insert p.1 p.2 now
        (s.granted baseS perGibS).probe) =
          (foresee sched p.1 now (s.policy.insert p.1 p.2 now s.probe)).granted baseS perGibS := by
      rw [hstill,← TierPolicy.insert_granted hp]
      rfl
    rw [insertFresh,insertFresh,hinsert]
    split
    · rfl
    · refine @ih { s with
        reacquires := s.reacquires+if p.1 ∈ s.leftHostAt then 1 else 0
        policy := foresee sched p.1 now (s.policy.insert p.1 p.2 now s.probe) }
          ((congrArg TierPolicy.kind hstill).trans hkind) _ hn.2 fun q hq => ?_
      rw [mem_inserted sched now hp,not_or]
      exact ⟨fun hsame => hn.1 (hsame ▸ List.mem_map_of_mem hq),hfresh q hq⟩

theorem storeBatchToHost_granted {size : ℤ} {now : F}
    (h : s.policy.Fresh baseS perGibS size now) {keys : List BlockKey} (hn : keys.Nodup) :
    (s.granted baseS perGibS).storeBatchToHost keys now sched =
      (s.storeBatchToHost keys now sched).granted baseS perGibS := by
  have hmissing : (s.granted baseS perGibS).missing keys = s.missing keys := by
    unfold missing
    simp only [granted,TierPolicy.get_granted,Option.isNone_map]
  have hadmitted : (s.granted baseS perGibS).policy.admitChain (s.missing keys)
      (s.granted baseS perGibS).probe = s.missing keys := rfl
  have hadmitted' : s.policy.admitChain (s.missing keys) s.probe = s.missing keys := by
    rw [TierPolicy.admitChain,h.lru]
  have hroom : (s.granted baseS perGibS).freeRoom = s.freeRoom := by
    rw [freeRoom,freeRoom,granted,TierPolicy.occupancy_granted]
  have hrequest : (s.granted baseS perGibS).evictRequest keys = s.evictRequest keys := by
    rw [evictRequest,evictRequest,hmissing,hadmitted,hadmitted',hroom]
  have hnames := missing_nodup (s := s) hn
  have hnew : ∀ p ∈ s.missing keys, p.1 ∉ s.policy.entries := fun p hp => (mem_missing hp).2.1
  rw [storeBatchToHost,storeBatchToHost,hrequest,hmissing,hadmitted,hadmitted',hroom]
  cases hask : s.evictRequest keys with
  | none => exact insertFresh_granted sched h.lru now hnames hnew
  | some request =>
    obtain ⟨fresh,needed⟩ := request
    have hfresh : fresh.Sublist (s.missing keys) := (evictRequest_some hask).1
    have hevict : (s.granted baseS perGibS).policy.evict needed (fresh.map Prod.fst).toFinset now
        (s.granted baseS perGibS).probe = _ :=
      h.evict needed (fresh.map Prod.fst).toFinset s.probe
    simp only [hevict]
    cases hr : s.policy.evict needed (fresh.map Prod.fst).toFinset now s.probe with
    | mk freed policy =>
      have hkind : policy.kind = .lru := by
        have hsame := congrArg (fun r => r.2.kind) hr
        exact hsame.symm.trans h.lru
      have hleft : ∀ p ∈ fresh, p.1 ∉ policy.entries := by
        intro p hp hmem
        obtain ⟨e,he⟩ := Dict.mem_iff_get.mp hmem
        have hget : (s.policy.evict needed (fresh.map Prod.fst).toFinset now s.probe).2.get p.1 =
            some e := by rw [hr]; exact he
        exact hnew p (hfresh.subset hp) (Dict.mem_iff_get.mpr ⟨e,s.policy.get_evict hget⟩)
      cases freed with
      | none => rfl
      | some freed =>
        simp only [foldl_leftHost]
        exact @insertFresh_granted _ _ baseS perGibS { s with
          policy := policy
          leftHostAt := freed.foldl (fun d k => d.set k s.now) s.leftHostAt } sched hkind now _ _
            ((hfresh.map Prod.fst).nodup hnames) hleft

theorem settled_granted {size : ℤ} {turn : Turn F}
    (h : s.policy.Fresh baseS perGibS size turn.t) :
    settled sched (s.granted baseS perGibS) turn =
      (settled sched s turn).granted baseS perGibS := by
  have hfilled : (s.granted baseS perGibS).filled turn = (s.filled turn).granted baseS perGibS := by
    rw [filled_eq,filled_eq]
    rfl
  have hstored : ((s.granted baseS perGibS).filled turn).storeBatchToHost (s.path turn) turn.t sched =
      ((s.filled turn).storeBatchToHost (s.path turn) turn.t sched).granted baseS perGibS := by
    have hfresh : (s.filled turn).policy.Fresh baseS perGibS size turn.t := by
      rw [filled_policy]
      exact h
    rw [hfilled]
    exact storeBatchToHost_granted sched hfresh (path_nodup s turn)
  have htouched : ∀ stored : Simulator F,
      (stored.granted baseS perGibS).touchHost (s.path turn) turn.t =
        (stored.touchHost (s.path turn) turn.t).granted baseS perGibS := by
    intro stored
    rw [touchHost,touchHost]
    exact congrArg (fun policy => ({ stored with policy := policy } : Simulator F))
      (TierPolicy.touch_granted _ _ _)
  have hforeseen : ∀ stored : Simulator F,
      (stored.granted baseS perGibS).refreshOracle (s.path turn) turn.t sched =
        (stored.refreshOracle (s.path turn) turn.t sched).granted baseS perGibS := by
    intro stored
    have hmodified : ∀ (keys : List BlockKey) (entries : Entries F),
        (keys.foldl (fun entries key => entries.modify key fun e =>
          { e with nextUse := sched.next key turn.t }) entries).mapValues
            (fun _ => Entry.granted baseS perGibS) =
          keys.foldl (fun entries key => entries.modify key fun e =>
            { e with nextUse := sched.next key turn.t })
              (entries.mapValues fun _ => Entry.granted baseS perGibS) := by
      intro keys
      induction keys with
      | nil => exact fun _ => rfl
      | cons key keys ih =>
        intro entries
        have hfirst : (entries.modify key fun e =>
            { e with nextUse := sched.next key turn.t }).mapValues
              (fun _ => Entry.granted baseS perGibS) =
            (entries.mapValues fun _ => Entry.granted baseS perGibS).modify key fun e =>
              { e with nextUse := sched.next key turn.t } :=
          Dict.mapValues_modify _ _ _ fun _ => rfl
        rw [List.foldl_cons,List.foldl_cons,ih,hfirst]
    rw [refreshOracle,refreshOracle]
    simp only [granted,TierPolicy.granted,hmodified]
  show (((((s.granted baseS perGibS).filled turn).storeBatchToHost (s.path turn) turn.t
    sched).touchHost (s.path turn) turn.t).refreshOracle (s.path turn) turn.t sched) = _
  rw [hstored,htouched,hforeseen]
  rfl

theorem scan_granted (keys : List BlockKey) :
    (s.granted baseS perGibS).scan keys = s.scan keys := by
  induction keys with
  | nil => rfl
  | cons key keys ih =>
    have hget : (s.granted baseS perGibS).policy.get key =
        (s.policy.get key).map (Entry.granted baseS perGibS) := TierPolicy.get_granted key
    rw [scan,scan,ih,hget]
    cases s.policy.get key <;> rfl

theorem one_granted {size : ℤ} {turn : Turn F} (h : s.policy.Fresh baseS perGibS size turn.t) :
    one sched (s.granted baseS perGibS) turn = (one sched s turn).granted baseS perGibS := by
  have hfound : (s.granted baseS perGibS).found turn = s.found turn :=
    @scan_granted _ _ baseS perGibS (s.observe turn).1 (s.path turn)
  have htokens : (s.granted baseS perGibS).recomputeTokens turn = s.recomputeTokens turn := by
    unfold recomputeTokens
    rw [hfound]
    rfl
  have htiming : (s.granted baseS perGibS).timing turn = s.timing turn := by
    rw [timing,timing,hfound,htokens]
    rfl
  have hmetric : (s.granted baseS perGibS).metric turn = s.metric turn := by
    unfold metric
    rw [htiming,hfound,htokens]
    rfl
  have hoccupancy : ((settled sched s turn).granted baseS perGibS).policy.occupancy =
      (settled sched s turn).policy.occupancy := TierPolicy.occupancy_granted
  unfold one
  rw [settled_granted sched h,htiming,hmetric,hfound]
  simp only [hoccupancy]
  rfl

end Step

def partsOf (cfg : SimConfig F) (turn : Turn F) : List ChainPart :=
  (PrefixIndex.new cfg.blockTokens cfg.cost).chain turn.sessionId turn.promptTokens
    turn.sharedPrefixTokens s!"root:{turn.role}"

/-- All blocks so far hold as many tokens. -/
structure Level (cfg : SimConfig F) (tokens : ℤ) (s : Simulator F) : Prop where
  cost : s.index.cost = cfg.cost
  blocks : s.index.blockTokens = (PrefixIndex.new cfg.blockTokens cfg.cost).blockTokens
  sized : s.index.Sized
  known : ∀ key, s.index.tokensOf key ≤ tokens
  stored : ∀ p ∈ sizes s.policy.entries, p.2 = cfg.cost.blockBytes tokens

theorem start_level (cfg : SimConfig F) (kind : PolicyKind F) (ram : TierConfig F) {tokens : ℤ}
    (htokens : 0 ≤ tokens) : Level cfg tokens (start cfg kind ram) where
  cost := rfl
  blocks := rfl
  sized := PrefixIndex.new_sized _ _
  known _ := htokens
  stored p hp := by cases hp

theorem Level.parts {cfg : SimConfig F} {tokens : ℤ} {s : Simulator F} (h : Level cfg tokens s)
    (turn : Turn F) : s.parts turn = partsOf cfg turn := PrefixIndex.chain_congr h.blocks _ _ _ _

theorem Level.one {cfg : SimConfig F} {tokens : ℤ} {s : Simulator F} (h : Level cfg tokens s)
    (sched : Schedule F) {turn : Turn F} (hturn : ∀ part ∈ partsOf cfg turn, part.tokens = tokens) :
    Level cfg tokens (one sched s turn) := by
  have hpart : ∀ key ∈ s.path turn, ∃ part ∈ s.parts turn, part.key = key ∧
      max (s.index.tokensOf part.key) part.tokens = tokens := by
    intro key hkey
    obtain ⟨part,hmem,rfl⟩ := List.mem_map.mp hkey
    have htokens := hturn part (h.parts turn ▸ hmem)
    exact ⟨part,hmem,rfl,by rw [htokens]; exact max_eq_right (h.known part.key)⟩
  constructor
  case cost =>
    rw [one_index,seenIndex_cost]
    exact h.cost
  case blocks =>
    rw [one_index,seenIndex_blockTokens]
    exact h.blocks
  case sized =>
    rw [one_index]
    exact seenIndex_sized h.sized turn
  case known =>
    intro key
    rw [one_index]
    by_cases hkey : key ∈ s.path turn
    · obtain ⟨part,hmem,rfl,hmax⟩ := hpart key hkey
      exact (PrefixIndex.tokensOf_touchPath_of_mem _ _ _ _ _ _ hmem).trans_le hmax.le
    · exact (PrefixIndex.tokensOf_touchPath_of_not_mem _ _ _ _ _ _ hkey).trans_le (h.known key)
  case stored =>
    refine forall_sizes_one s turn sched h.stored fun key hkey => ?_
    obtain ⟨part,hmem,rfl,hmax⟩ := hpart key hkey
    show (s.seenIndex turn).nbytesOf part.key = _
    rw [seenIndex_nbytesOf h.sized hmem,hmax,h.cost]

section Runs

variable {baseS perGibS : F} {cfg : SimConfig F} {ram : TierConfig F} {turns : List (Turn F)}
  {tokens : ℤ} (htokens : ∀ turn ∈ turns, ∀ part ∈ partsOf cfg turn, part.tokens = tokens)
  (hlive : ∀ n turn, (inOrder turns)[n]? = some turn → ∀ key e,
    ((start cfg .lru ram).after turns n).policy.get key = some e →
      turn.t < e.lastTouch+baseS+perGibS*(cfg.cost.blockBytes tokens/1024^3))
include htokens hlive

theorem after_granted (hpos : 0 ≤ tokens) (n : ℕ) :
    Level cfg tokens ((start cfg .lru ram).after turns n) ∧
      (start cfg (.fixedTtl baseS perGibS) ram).after turns n =
        ((start cfg .lru ram).after turns n).granted baseS perGibS := by
  induction n with
  | zero => exact ⟨start_level cfg .lru ram hpos,rfl⟩
  | succ n ih =>
    cases hturn : (inOrder turns)[n]? with
    | none => rwa [after_of_done _ hturn,after_of_done _ hturn]
    | some turn =>
      obtain ⟨hlevel,hsame⟩ := ih
      have hmem : turn ∈ turns :=
        (sortedBy_perm _ turns).mem_iff.mp (List.mem_of_getElem? hturn)
      have hfresh : ((start cfg .lru ram).after turns n).policy.Fresh baseS perGibS
          (cfg.cost.blockBytes tokens) turn.t := by
        refine ⟨after_kind cfg .lru ram turns n,fun key e he => ?_,hlive n turn hturn⟩
        exact hlevel.stored (key,e.nbytes) (List.mem_map.mpr ⟨(key,e),Dict.get_eq_some.mp he,rfl⟩)
      rw [after_succ _ hturn,after_succ _ hturn,hsame]
      exact ⟨hlevel.one _ (htokens turn hmem),one_granted _ hfresh⟩

end Runs

end Simulator

open Simulator in
/-- The fixed TTL as LRU. On a trace whose blocks all hold as many tokens the two policies
report the same, their names apart, when no turn finds a block in the tier of LRU that has
been idle for its lifetime. -/
theorem fixedTtl_eq_lru (cfg : SimConfig F) (ram : TierConfig F) (turns : List (Turn F))
    (hram : cfg.tier "ram" = some ram) {tokens : ℤ} (hpos : 0 ≤ tokens)
    (htokens : ∀ turn ∈ turns, ∀ part ∈ partsOf cfg turn, part.tokens = tokens)
    (hlive : ∀ n turn, (inOrder turns)[n]? = some turn → ∀ key e,
      ((start cfg .lru ram).after turns n).policy.get key = some e →
        turn.t < e.lastTouch+180+60*(cfg.cost.blockBytes tokens/1024^3)) :
    runPolicy cfg turns "fixed_ttl" =
      (runPolicy cfg turns "lru").map fun report => { report with policy := "fixed_ttl" } := by
  have hlru : ("lru",PolicyKind.lru) ∈ POLICIES (F := F) := List.mem_cons_self
  have httl : ("fixed_ttl",PolicyKind.fixedTtl 180 60) ∈ POLICIES (F := F) :=
    List.mem_cons_of_mem _ (List.mem_cons_of_mem _ List.mem_cons_self)
  obtain ⟨_,hsame⟩ := after_granted htokens hlive hpos turns.length
  rw [runPolicy_name hram turns httl,runPolicy_name hram turns hlru,run_start,run_start,
    ← after_all,← after_all,hsame]
  rfl

open Simulator in
/-- Two sessions that displace each other within the three minutes. -/
theorem fixedTtl_eq_lru_small :
    let turns := [ask 1 "a" 2000,ask 2 "b" 1000,ask 4 "a" 2000]
    runPolicy (smallConfig 1000 2000) turns "fixed_ttl" =
      (runPolicy (smallConfig 1000 2000) turns "lru").map fun report =>
        { report with policy := "fixed_ttl" } := by
  intro turns
  have hchecked : ∀ n < 3, ∀ turn ∈ (inOrder turns)[n]?,
      ∀ p ∈ ((start (smallConfig 1000 2000) .lru (smallRam 2000)).after turns n).policy.entries.items,
        turn.t < p.2.lastTouch+180+60*((smallConfig 1000 2000).cost.blockBytes 1000/1024^3) := by
    decide +kernel
  refine fixedTtl_eq_lru (smallConfig 1000 2000) (smallRam 2000) turns rfl
    (show (0 : ℤ) ≤ 1000 by decide) (by decide +kernel) fun n turn hturn key e he => ?_
  have hn : n < 3 := (List.getElem?_eq_some_iff.mp hturn).1
  exact hchecked n hn turn hturn (key,e) (Dict.get_eq_some.mp he)

end ContextResidency
