import ContextResidency.Namespaces
import ContextResidency.ChainEviction

/-! Block records and the requests that made them. A record is created by the first request
for its block and raised by larger ones; its depth and its namespace are fixed by its key,
so they hold on every path, whatever the sessions do in between. -/
namespace ContextResidency

variable {F : Type}

namespace PrefixIndex

def Op.parts (index : PrefixIndex F) : Op F → List ChainPart
  | .touchPath sessionId role promptTokens sharedPrefixTokens _ _ =>
    index.chain sessionId promptTokens sharedPrefixTokens s!"root:{role}"
  | .releaseSession _ => []

theorem get_of_unleased {index : PrefixIndex F} {key : BlockKey} {info : BlockInfo F}
    (h : index.blocks.get key = some info) : index.unleased key = some { info with refs := ∅ } := by
  rw [unleased,h]
  rfl

variable [Scalar F]

/-! The history of a record: all that was ever asked of its block. -/

omit [Scalar F] in
theorem chain_congr {one other : PrefixIndex F} (h : one.blockTokens = other.blockTokens)
    (sessionId : String) (promptTokens sharedPrefixTokens : ℤ) (rootId : String) :
    one.chain sessionId promptTokens sharedPrefixTokens rootId =
      other.chain sessionId promptTokens sharedPrefixTokens rootId := by
  rw [chain,chain,h]

def asked (start : PrefixIndex F) (past : List (Op F)) (key : BlockKey) : Set ℤ :=
  { n | ∃ op ∈ past, ∃ part ∈ op.parts start, part.key = key ∧ part.tokens = n }

/-- A record agrees with the operations so far. -/
structure Agrees (start : PrefixIndex F) (past : List (Op F)) (key : BlockKey)
    (info : BlockInfo F) : Prop where
  depth : info.depth = key.index.toNat
  shared : info.shared = true ↔ ∃ (role : String) (i : ℤ), key = .root s!"root:{role}" i
  tokens : IsGreatest (start.asked past key) info.tokens
  bounds : 1 ≤ info.tokens ∧ info.tokens ≤ start.blockTokens
  nbytes : info.nbytes = start.cost.blockBytes info.tokens
  uses : info.uses = past.countP fun op => key ∈ (op.parts start).map (·.key)

/-- Every record agrees with the operations so far, and what has none was never asked for. -/
structure Recorded (start : PrefixIndex F) (past : List (Op F)) (index : PrefixIndex F) :
    Prop where
  blockTokens : index.blockTokens = start.blockTokens
  cost : index.cost = start.cost
  agrees : ∀ key info, index.unleased key = some info → Agrees start past key info
  unknown : ∀ key, index.unleased key = none →
    ∀ op ∈ past, key ∉ (op.parts start).map (·.key)

section History

variable {start index : PrefixIndex F} {past : List (Op F)} {op : Op F} {key : BlockKey}

omit [Scalar F] in
theorem asked_append_of_not_mem (h : key ∉ (op.parts start).map (·.key)) :
    start.asked (past ++ [op]) key = start.asked past key := by
  ext n
  simp only [asked,List.mem_append,List.mem_singleton,Set.mem_ofPred_eq]
  constructor
  · rintro ⟨op',hop | rfl,part,hpart,hkey,hn⟩
    · exact ⟨op',hop,part,hpart,hkey,hn⟩
    · exact absurd (hkey ▸ List.mem_map_of_mem hpart) h
  · rintro ⟨op',hop,hrest⟩
    exact ⟨op',Or.inl hop,hrest⟩

omit [Scalar F] in
theorem asked_append_of_mem {part : ChainPart} (hn : ((op.parts start).map (·.key)).Nodup)
    (hpart : part ∈ op.parts start) :
    start.asked (past ++ [op]) part.key = insert part.tokens (start.asked past part.key) := by
  ext n
  simp only [asked,List.mem_append,List.mem_singleton,Set.mem_ofPred_eq,Set.mem_insert_iff]
  constructor
  · rintro ⟨op',hop | rfl,part',hpart',hkey,rfl⟩
    · exact Or.inr ⟨op',hop,part',hpart',hkey,rfl⟩
    · exact Or.inl (congrArg ChainPart.tokens (List.inj_on_of_nodup_map hn hpart' hpart hkey))
  · rintro (rfl | ⟨op',hop,hrest⟩)
    · exact ⟨op,Or.inr rfl,part,hpart,rfl,rfl⟩
    · exact ⟨op',Or.inl hop,hrest⟩

omit [Scalar F] in
theorem asked_eq_empty (h : ∀ op ∈ past, key ∉ (op.parts start).map (·.key)) :
    start.asked past key = ∅ := by
  rw [Set.eq_empty_iff_forall_notMem]
  rintro n ⟨op,hop,part,hpart,rfl,_⟩
  exact h op hop (List.mem_map_of_mem hpart)

omit [Scalar F] in
theorem chain_part_shared {sessionId role : String} {promptTokens sharedPrefixTokens : ℤ}
    {part : ChainPart}
    (h : part ∈ start.chain sessionId promptTokens sharedPrefixTokens s!"root:{role}") :
    part.shared = true ↔ ∃ (role : String) (i : ℤ), part.key = .root s!"root:{role}" i := by
  cases List.mem_append.mp h with
  | inl hroot =>
    obtain ⟨i,hkey⟩ := segment_key hroot
    exact iff_of_true (segment_shared hroot) ⟨role,i,hkey⟩
  | inr hpriv =>
    obtain ⟨i,hkey⟩ := segment_key hpriv
    rw [segment_shared hpriv]
    exact iff_of_false (by simp) (by simp [hkey])

/-- Asking for other blocks leaves the account of a record as it is. -/
theorem Agrees.append {info : BlockInfo F} (h : Agrees start past key info)
    (hkey : key ∉ (op.parts start).map (·.key)) : Agrees start (past ++ [op]) key info where
  depth := h.depth
  shared := h.shared
  tokens := (asked_append_of_not_mem hkey).symm ▸ h.tokens
  bounds := h.bounds
  nbytes := h.nbytes
  uses := by
    rw [List.countP_append,h.uses]
    simpa using hkey

theorem Recorded.get_of_blocks (h : Recorded start past index) {info : BlockInfo F}
    (hinfo : index.blocks.get key = some info) : Agrees start past key info := by
  have hagrees := h.agrees key _ (get_of_unleased hinfo)
  exact ⟨hagrees.depth,hagrees.shared,hagrees.tokens,hagrees.bounds,hagrees.nbytes,hagrees.uses⟩

theorem new_recorded (blockTokens : ℤ) (cost : CostModel F) :
    Recorded (new blockTokens cost) [] (new blockTokens cost) where
  blockTokens := rfl
  cost := rfl
  agrees key info h := by simp [unleased,new] at h
  unknown key _ op hop := by simp at hop

omit [Scalar F] in
theorem Op.mem_parts {depth : ℕ} {part : ChainPart} (hat : (op.parts start)[depth]? = some part) :
    ∃ (sessionId role : String) (promptTokens sharedPrefixTokens : ℤ), op.parts start =
      start.chain sessionId promptTokens sharedPrefixTokens s!"root:{role}" := by
  cases op with
  | touchPath sessionId role promptTokens sharedPrefixTokens now aborted =>
    exact ⟨sessionId,role,promptTokens,sharedPrefixTokens,rfl⟩
  | releaseSession sessionId => simp [Op.parts] at hat

section Request

variable {depth : ℕ} {part : ChainPart} (hat : (op.parts start)[depth]? = some part)
include hat

omit [Scalar F] in
theorem Op.place : depth = part.key.index.toNat := by
  obtain ⟨_,_,_,_,hchain⟩ := Op.mem_parts hat
  have hpositional : Positional ((op.parts start).map (·.key)) :=
    hchain ▸ start.chain_positional _ _ _ _
  have hat' : ((op.parts start).map (·.key))[depth]? = some part.key := by
    rw [List.getElem?_map,hat]
    rfl
  exact (hpositional.toNat hat').symm

omit [Scalar F] in
theorem Op.part_tokens : 1 ≤ part.tokens ∧ part.tokens ≤ start.blockTokens := by
  obtain ⟨_,_,_,_,hchain⟩ := Op.mem_parts hat
  have hmem := List.mem_of_getElem? hat
  rw [hchain] at hmem
  exact ⟨start.chain_tokens_pos _ _ _ _ hmem,chain_tokens_le hmem⟩

omit [Scalar F] in
theorem asked_append_of_part : start.asked (past ++ [op]) part.key =
    insert part.tokens (start.asked past part.key) := by
  obtain ⟨_,_,_,_,hchain⟩ := Op.mem_parts hat
  have hn : ((op.parts start).map (·.key)).Nodup := hchain ▸ start.chain_keys_nodup _ _ _ _
  exact asked_append_of_mem hn (List.mem_of_getElem? hat)

omit [Scalar F] in
theorem countP_append_of_part :
    (past ++ [op]).countP (fun op => part.key ∈ (op.parts start).map (·.key)) =
      past.countP (fun op => part.key ∈ (op.parts start).map (·.key))+1 := by
  have hkey : part.key ∈ (op.parts start).map (·.key) :=
    List.mem_map_of_mem (List.mem_of_getElem? hat)
  rw [List.countP_append,List.countP_singleton,if_pos (by simpa using hkey)]

theorem Recorded.recordAfter_new (h : Recorded start past index)
    (hnew : index.blocks.get part.key = none) (role : String) (now : F) :
    Agrees start (past ++ [op]) part.key (index.recordAfter role now depth part) := by
  obtain ⟨_,_,_,_,hchain⟩ := Op.mem_parts hat
  have hmem := List.mem_of_getElem? hat
  have hnone : index.unleased part.key = none := by rw [unleased,hnew,Option.map_none]
  have hunknown := h.unknown part.key hnone
  have hrecord : index.recordFor now depth part =
      { tokens := part.tokens, nbytes := index.cost.blockBytes part.tokens, depth := depth
        shared := part.shared, createdAt := now, lastUse := 0, uses := 0, iatEma := none
        refs := ∅, roles := ∅ } := by
    rw [recordFor,hnew]
  rw [PrefixIndex.recordAfter,hrecord]
  constructor
  case depth => exact Op.place hat
  case shared => exact chain_part_shared (hchain ▸ hmem)
  case tokens =>
    rw [asked_append_of_part hat,asked_eq_empty hunknown,insert_empty_eq]
    exact isGreatest_singleton
  case bounds => exact Op.part_tokens hat
  case nbytes => exact congrArg (fun cost => CostModel.blockBytes cost part.tokens) h.cost
  case uses =>
    rw [countP_append_of_part hat,List.countP_eq_zero.mpr fun op hop => by
      simpa using hunknown op hop]
    rfl

theorem Recorded.recordAfter_known (h : Recorded start past index) {info : BlockInfo F}
    (hold : index.blocks.get part.key = some info) (role : String) (now : F) :
    Agrees start (past ++ [op]) part.key (index.recordAfter role now depth part) := by
  have hagrees := h.get_of_blocks hold
  have hrecord : (index.recordFor now depth part).tokens = max part.tokens info.tokens ∧
      (index.recordFor now depth part).nbytes =
        start.cost.blockBytes (max part.tokens info.tokens) ∧
      (index.recordFor now depth part).depth = info.depth ∧
      (index.recordFor now depth part).shared = info.shared ∧
      (index.recordFor now depth part).uses = info.uses := by
    rw [recordFor,hold]
    simp only
    split_ifs with hgrown
    · rw [max_eq_left hgrown.le,h.cost]
      exact ⟨rfl,rfl,rfl,rfl,rfl⟩
    · rw [max_eq_right (not_lt.mp hgrown)]
      exact ⟨rfl,hagrees.nbytes,rfl,rfl,rfl⟩
  obtain ⟨htokens,hnbytes,hdepth,hshared,huses⟩ := hrecord
  constructor
  case depth => exact hdepth.trans hagrees.depth
  case shared => exact (iff_of_eq (congrArg (· = true) hshared)).trans hagrees.shared
  case tokens =>
    rw [asked_append_of_part hat]
    exact htokens.symm ▸ hagrees.tokens.insert part.tokens
  case bounds =>
    have hpart := Op.part_tokens hat
    have hbounds := hagrees.bounds
    exact htokens.symm ▸ ⟨by omega,by omega⟩
  case nbytes =>
    show (index.recordFor now depth part).nbytes =
      start.cost.blockBytes (index.recordFor now depth part).tokens
    rw [hnbytes,htokens]
  case uses =>
    rw [countP_append_of_part hat,← hagrees.uses,← huses]
    rfl

/-- A request leaves the records of its blocks in agreement. -/
theorem Recorded.recordAfter (h : Recorded start past index) (role : String) (now : F) :
    Agrees start (past ++ [op]) part.key (index.recordAfter role now depth part) := by
  cases hold : index.blocks.get part.key with
  | none => exact h.recordAfter_new hat hold role now
  | some info => exact h.recordAfter_known hat hold role now

end Request

theorem Recorded.touchPath (h : Recorded start past index) (sessionId role : String)
    (promptTokens sharedPrefixTokens : ℤ) (now : F) (aborted : Bool) :
    Recorded start
      (past ++ [.touchPath sessionId role promptTokens sharedPrefixTokens now aborted])
      (index.touchPath sessionId role promptTokens sharedPrefixTokens now aborted).1 := by
  have hchain := chain_congr h.blockTokens sessionId promptTokens sharedPrefixTokens s!"root:{role}"
  constructor
  case blockTokens => rw [touchPath_blockTokens,h.blockTokens]
  case cost => rw [touchPath_cost,h.cost]
  case agrees =>
    intro key info hinfo
    by_cases hkey : key ∈ (index.chain sessionId promptTokens sharedPrefixTokens
        s!"root:{role}").map (·.key)
    · obtain ⟨part,hpart,rfl⟩ := List.mem_map.mp hkey
      obtain ⟨depth,hat⟩ := List.mem_iff_getElem?.mp hpart
      rw [unleased_touchPath_of_mem _ _ _ _ _ _ _ hat] at hinfo
      obtain rfl := Option.some.inj hinfo
      rw [hchain] at hat
      exact h.recordAfter hat role now
    · rw [unleased_touchPath_of_not_mem _ _ _ _ _ _ _ hkey] at hinfo
      rw [hchain] at hkey
      exact (h.agrees key info hinfo).append hkey
  case unknown =>
    intro key hnone op hop
    have hkey : key ∉ (index.chain sessionId promptTokens sharedPrefixTokens
        s!"root:{role}").map (·.key) := by
      intro hkey
      obtain ⟨part,hpart,rfl⟩ := List.mem_map.mp hkey
      obtain ⟨depth,hat⟩ := List.mem_iff_getElem?.mp hpart
      rw [unleased_touchPath_of_mem _ _ _ _ _ _ _ hat] at hnone
      cases hnone
    cases List.mem_append.mp hop with
    | inl hop =>
      rw [unleased_touchPath_of_not_mem _ _ _ _ _ _ _ hkey] at hnone
      exact h.unknown key hnone op hop
    | inr hop =>
      rw [List.mem_singleton.mp hop]
      rw [hchain] at hkey
      exact hkey

/-- A release moves leases only. -/
theorem Recorded.releaseSession (h : Recorded start past index) (hagree : index.LeasesAgree)
    {released : PrefixIndex F} {sessionId : String}
    (hreleased : index.releaseSession sessionId = .ok released) :
    Recorded start (past ++ [.releaseSession sessionId]) released := by
  obtain ⟨known,hknown,hblocks,_,_,hcost,hblockTokens⟩ :=
    releaseSession_of_known sessionId fun key => hagree.known
  obtain rfl := Except.ok.inj (hknown.symm.trans hreleased)
  have hsame : ∀ key, known.unleased key = index.unleased key := fun key => by
    rw [unleased,hblocks]
    exact unleased_foldl_discardRef _ _ _ _
  constructor
  case blockTokens => exact hblockTokens.trans h.blockTokens
  case cost => exact hcost.trans h.cost
  case agrees =>
    intro key info hinfo
    rw [hsame] at hinfo
    exact (h.agrees key info hinfo).append (by simp [Op.parts])
  case unknown =>
    intro key hnone op hop
    rw [hsame] at hnone
    cases List.mem_append.mp hop with
    | inl hop => exact h.unknown key hnone op hop
    | inr hop =>
      rw [List.mem_singleton.mp hop]
      simp [Op.parts]

end History

/-- Leases, records and paths after some operations. -/
structure Consistent (start : PrefixIndex F) (past : List (Op F)) (index : PrefixIndex F) :
    Prop where
  owned : index.Owned
  recorded : Recorded start past index
  positional : ∀ session, Positional (index.pathOf session)

theorem Consistent.apply {start index : PrefixIndex F} {past : List (Op F)}
    (h : Consistent start past index) (op : Op F) :
    ∃ after, index.apply op = .ok after ∧ Consistent start (past ++ [op]) after := by
  cases op with
  | touchPath sessionId role promptTokens sharedPrefixTokens now aborted =>
    refine ⟨_,rfl,h.owned.touchPath _ _ _ _ _ _,h.recorded.touchPath _ _ _ _ _ _,fun session => ?_⟩
    rw [pathOf_of_set (touchPath_sessionPath index _ _ _ _ _ _)]
    split_ifs
    · exact chain_positional _ _ _ _ _
    · exact h.positional session
  | releaseSession sessionId =>
    obtain ⟨released,hreleased,howned⟩ := h.owned.releaseSession sessionId
    obtain ⟨known,hknown,_,hpath⟩ := h.owned.agree.releaseSession sessionId
    obtain rfl := Except.ok.inj (hknown.symm.trans hreleased)
    refine ⟨known,hreleased,howned,h.recorded.releaseSession h.owned.agree hreleased,
      fun session => ?_⟩
    rw [pathOf_of_erase hpath]
    split_ifs
    · exact fun j key hj => by simp at hj
    · exact h.positional session

theorem run_consistent (blockTokens : ℤ) (cost : CostModel F) (ops : List (Op F)) :
    ∃ index, ops.foldlM PrefixIndex.apply (new blockTokens cost) = .ok index ∧
      Consistent (new blockTokens cost) ops index := by
  have hstart : Consistent (new blockTokens cost) [] (new blockTokens cost) :=
    ⟨new_owned _ _,new_recorded _ _,fun session j key hj => by simp [pathOf,new] at hj⟩
  have hstep : ∀ past index op, Consistent (new blockTokens cost) past index →
      ∃ after, index.apply op = .ok after ∧ Consistent (new blockTokens cost) (past ++ [op]) after :=
    fun _ _ op h => h.apply op
  exact runM_history hstep hstart ops

/-- After any requests and releases, every record has the depth at which each path holds the
block, is shared exactly in the namespace of a role, and holds the most tokens ever asked of
the block with the bytes they take, once for each request that asked. -/
theorem records_agree (blockTokens : ℤ) (cost : CostModel F) (ops : List (Op F)) :
    ∃ index, ops.foldlM PrefixIndex.apply (new blockTokens cost) = .ok index ∧
      ∀ key info, index.blocks.get key = some info →
        (∀ (session : String) (j : ℕ), (index.pathOf session)[j]? = some key → info.depth = j) ∧
        (info.shared = true ↔ ∃ (role : String) (i : ℤ), key = .root s!"root:{role}" i) ∧
        IsGreatest ((new blockTokens cost).asked ops key) info.tokens ∧
        (1 ≤ info.tokens ∧ info.tokens ≤ max 1 blockTokens) ∧
        info.nbytes = cost.blockBytes info.tokens ∧
        info.uses = ops.countP fun op => key ∈ (op.parts (new blockTokens cost)).map (·.key) := by
  obtain ⟨index,hindex,hconsistent⟩ := run_consistent blockTokens cost ops
  refine ⟨index,hindex,fun key info hinfo => ?_⟩
  have hagrees := hconsistent.recorded.get_of_blocks hinfo
  refine ⟨fun session j hj => ?_,hagrees.shared,hagrees.tokens,hagrees.bounds,hagrees.nbytes,
    hagrees.uses⟩
  exact hagrees.depth.trans ((hconsistent.positional session).toNat hj)

end PrefixIndex
end ContextResidency
