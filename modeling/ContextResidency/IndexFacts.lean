import ContextResidency.Index

/-! What the index guarantees about chains and about the records it keeps. A chain
has pairwise distinct keys and positive token counts; registering a path raises the
record of each of its blocks to what is asked of it and leaves all others alone, leases
apart. -/
namespace ContextResidency

section Chains

variable {mk : ℤ → BlockKey} {shared : Bool} {blockTokens base tokens : ℤ}

theorem segment_key {part : ChainPart} (hp : part ∈ segment mk shared blockTokens base tokens) :
    ∃ i, part.key = mk i := by
  cases List.mem_append.mp hp with
  | inl h =>
    obtain ⟨i,_,rfl⟩ := List.mem_map.mp h
    exact ⟨_,rfl⟩
  | inr h =>
    split at h
    · simp at h
    · rw [List.mem_singleton] at h
      exact ⟨_,congrArg ChainPart.key h⟩

theorem segment_tokens_pos (hbt : 1 ≤ blockTokens) {part : ChainPart}
    (hp : part ∈ segment mk shared blockTokens base tokens) : 1 ≤ part.tokens := by
  cases List.mem_append.mp hp with
  | inl h =>
    obtain ⟨i,_,rfl⟩ := List.mem_map.mp h
    exact hbt
  | inr h =>
    split at h
    · simp at h
    · rename_i hr
      have hn := Int.emod_nonneg tokens (show blockTokens ≠ 0 by omega)
      rw [List.mem_singleton] at h
      subst h
      show 1 ≤ tokens % blockTokens
      omega

theorem segment_keys_nodup (hmk : Function.Injective mk) :
    ((segment mk shared blockTokens base tokens).map (·.key)).Nodup := by
  have hfull : ((List.range (tokens/blockTokens).toNat).map fun i : ℕ => mk (base+i)).Nodup := by
    refine List.Nodup.map ?_ List.nodup_range
    intro i j h
    have := hmk h
    omega
  rw [segment,List.map_append,List.map_map]
  split
  · simpa [Function.comp_def] using hfull
  · refine List.nodup_append.mpr ⟨hfull,by simp,?_⟩
    rintro a ha b hb rfl
    obtain ⟨i,hi,rfl⟩ := List.mem_map.mp ha
    have hk : mk (base+i) = mk (base+tokens/blockTokens) := by simpa using hb
    have := hmk hk
    have := List.mem_range.mp hi
    omega

theorem segment_tokens_sum (hbt : 1 ≤ blockTokens) (h : 0 ≤ tokens) :
    ((segment mk shared blockTokens base tokens).map (·.tokens)).sum = tokens := by
  have hfull : 0 ≤ tokens/blockTokens := Int.ediv_nonneg h (by omega)
  have hsplit := Int.mul_ediv_add_emod tokens blockTokens
  have hmul : tokens/blockTokens*blockTokens = blockTokens*(tokens/blockTokens) := mul_comm _ _
  rw [segment,List.map_append,List.map_map,List.sum_append]
  split <;> simp [Function.comp_def,hfull] <;> omega

end Chains

variable {F : Type}

namespace PrefixIndex

variable (index : PrefixIndex F) (sessionId : String) (promptTokens sharedPrefixTokens : ℤ)
  (rootId : String)

theorem chain_keys_nodup :
    ((index.chain sessionId promptTokens sharedPrefixTokens rootId).map (·.key)).Nodup := by
  rw [chain,List.map_append]
  refine List.nodup_append.mpr ⟨segment_keys_nodup fun _ _ h => (BlockKey.root.inj h).2,
    segment_keys_nodup fun _ _ h => (BlockKey.priv.inj h).2,?_⟩
  rintro a ha b hb rfl
  obtain ⟨p,hp,rfl⟩ := List.mem_map.mp ha
  obtain ⟨q,hq,hk⟩ := List.mem_map.mp hb
  obtain ⟨i,hi⟩ := segment_key hp
  obtain ⟨j,hj⟩ := segment_key hq
  simp [hi,hj] at hk

theorem chain_tokens_pos {part : ChainPart}
    (hp : part ∈ index.chain sessionId promptTokens sharedPrefixTokens rootId) :
    1 ≤ part.tokens := by
  cases List.mem_append.mp hp with
  | inl h => exact segment_tokens_pos index.blockTokens_pos h
  | inr h => exact segment_tokens_pos index.blockTokens_pos h

/-- The chain of a prompt of non-negative size partitions the prompt. -/
theorem chain_tokens_sum (hp : 0 ≤ promptTokens) (hs : 0 ≤ sharedPrefixTokens) :
    ((index.chain sessionId promptTokens sharedPrefixTokens rootId).map (·.tokens)).sum =
      promptTokens := by
  have hroot : 0 ≤ min sharedPrefixTokens promptTokens := le_min hs hp
  have hpriv : 0 ≤ promptTokens-min sharedPrefixTokens promptTokens := by omega
  rw [chain,List.map_append,List.sum_append,segment_tokens_sum index.blockTokens_pos hroot,
    segment_tokens_sum index.blockTokens_pos hpriv]
  omega

end PrefixIndex

namespace PrefixIndex

theorem zipIdx_keys (parts : List ChainPart) :
    parts.zipIdx.map (·.1.key) = parts.map (·.key) := by
  have h : (fun x : ChainPart × ℕ => x.1.key) = ChainPart.key ∘ Prod.fst := rfl
  rw [h,← List.map_map,List.zipIdx_map_fst]

def unleased (index : PrefixIndex F) (key : BlockKey) : Option (BlockInfo F) :=
  (index.blocks.get key).map fun info => { info with refs := ∅ }

theorem unleased_discardRef (sessionId : String) (index : PrefixIndex F) (key key' : BlockKey) :
    (index.discardRef sessionId key).unleased key' = index.unleased key' := by
  rw [unleased,discardRef,Dict.get_modify]
  by_cases hk : key' = key
  · rw [if_pos hk,hk,unleased,Option.map_map]
    rfl
  · rw [if_neg hk,unleased]

theorem unleased_foldl_discardRef (sessionId : String) (stale : List BlockKey)
    (index : PrefixIndex F) (key : BlockKey) :
    (stale.foldl (discardRef sessionId) index).unleased key = index.unleased key := by
  induction stale generalizing index with
  | nil => rfl
  | cons k stale ih => rw [List.foldl_cons,ih,unleased_discardRef]

def record (index : PrefixIndex F) (key : BlockKey) : Option (ℤ × ℤ) :=
  (index.blocks.get key).map fun info => (info.tokens,info.nbytes)

theorem record_eq (index : PrefixIndex F) (key : BlockKey) :
    index.record key = (index.unleased key).map fun info => (info.tokens,info.nbytes) := by
  rw [record,unleased,Option.map_map]
  rfl

theorem tokensOf_eq (index : PrefixIndex F) (key : BlockKey) :
    index.tokensOf key = ((index.record key).map Prod.fst).getD 0 := by
  simp [tokensOf,record,Function.comp_def]

theorem nbytesOf_eq (index : PrefixIndex F) (key : BlockKey) :
    index.nbytesOf key = ((index.record key).map Prod.snd).getD 0 := by
  simp [nbytesOf,record,Function.comp_def]

theorem mem_blocks_iff {index : PrefixIndex F} {key : BlockKey} :
    key ∈ index.blocks ↔ ∃ r, index.record key = some r := by
  simp only [Dict.mem_iff_get,record,Option.map_eq_some_iff]
  constructor
  · rintro ⟨info,h⟩
    exact ⟨_,info,h,rfl⟩
  · rintro ⟨_,info,h,_⟩
    exact ⟨info,h⟩

variable [Scalar F]

/-- Every record has a positive token count and the byte size that goes with it. -/
def Sized (index : PrefixIndex F) : Prop :=
  ∀ key tokens nbytes, index.record key = some (tokens,nbytes) →
    1 ≤ tokens ∧ nbytes = index.cost.blockBytes tokens

/-- What one request leaves on record for a block that it asks `tokens` of. -/
def raise (cost : CostModel F) (tokens : ℤ) : Option (ℤ × ℤ) → ℤ × ℤ
  | none => (tokens,cost.blockBytes tokens)
  | some (t,n) => if t < tokens then (tokens,cost.blockBytes tokens) else (t,n)

theorem new_sized (blockTokens : ℤ) (cost : CostModel F) : (new blockTokens cost).Sized := by
  intro key tokens nbytes h
  simp [record,new] at h

/-- What one request leaves on record for a block at the given depth, leases apart. -/
def recordAfter (index : PrefixIndex F) (role : String) (now : F) (depth : ℕ) (part : ChainPart) :
    BlockInfo F :=
  let info := index.recordFor now depth part
  { info with roles := insert role info.roles, refs := ∅ }.observeUse now

theorem unleased_registerPart (sessionId role : String) (now : F) (index : PrefixIndex F)
    (item : ChainPart × ℕ) (key : BlockKey) :
    (registerPart sessionId role now index item).unleased key =
      if key = item.1.key then some (index.recordAfter role now item.2 item.1)
      else index.unleased key := by
  rw [unleased,registerPart,Dict.get_set]
  by_cases hk : key = item.1.key
  · rw [if_pos hk,if_pos hk]
    rfl
  · rw [if_neg hk,if_neg hk]
    rfl

/-- A request sees of an index only the record of the block and the cost model. -/
theorem recordAfter_congr {one other : PrefixIndex F} {role : String} {now : F} {depth : ℕ}
    {part : ChainPart} (hcost : one.cost = other.cost)
    (hrecord : one.unleased part.key = other.unleased part.key) :
    one.recordAfter role now depth part = other.recordAfter role now depth part := by
  rw [unleased,unleased] at hrecord
  rw [recordAfter,recordAfter,recordFor,recordFor,hcost]
  cases hone : one.blocks.get part.key with
  | none =>
    rw [hone,Option.map_none] at hrecord
    rw [Option.map_eq_none_iff.mp hrecord.symm]
  | some info =>
    rw [hone,Option.map_some] at hrecord
    obtain ⟨info',hother,hsame⟩ := Option.map_eq_some_iff.mp hrecord.symm
    obtain ⟨h1,h2,h3,h4,h5,h6,h7,h8,_,h9⟩ := BlockInfo.mk.inj hsame
    rw [hother]
    simp only [h1]
    split_ifs <;> simp [BlockInfo.observeUse,h1,h2,h3,h4,h5,h6,h7,h8,h9]

theorem unleased_foldl_of_not_mem (sessionId role : String) (now : F)
    (items : List (ChainPart × ℕ)) (index : PrefixIndex F) {key : BlockKey}
    (h : key ∉ items.map (·.1.key)) :
    (items.foldl (registerPart sessionId role now) index).unleased key = index.unleased key := by
  induction items generalizing index with
  | nil => rfl
  | cons item items ih =>
    rw [List.map_cons,List.mem_cons,not_or] at h
    rw [List.foldl_cons,ih _ h.2,unleased_registerPart,if_neg h.1]

theorem unleased_foldl_of_mem (sessionId role : String) (now : F)
    (items : List (ChainPart × ℕ)) (index : PrefixIndex F) (hn : (items.map (·.1.key)).Nodup)
    {item : ChainPart × ℕ} (hi : item ∈ items) :
    (items.foldl (registerPart sessionId role now) index).unleased item.1.key =
      some (index.recordAfter role now item.2 item.1) := by
  induction items generalizing index with
  | nil => simp at hi
  | cons first items ih =>
    rw [List.map_cons,List.nodup_cons] at hn
    rw [List.foldl_cons]
    cases List.mem_cons.mp hi with
    | inl hfirst =>
      subst hfirst
      rw [unleased_foldl_of_not_mem _ _ _ _ _ hn.1,unleased_registerPart,if_pos rfl]
    | inr hi =>
      have hne : item.1.key ≠ first.1.key := fun e => hn.1 (e ▸ List.mem_map.mpr ⟨item,hi,rfl⟩)
      rw [ih _ hn.2 hi]
      refine congrArg some (recordAfter_congr rfl ?_)
      rw [unleased_registerPart,if_neg hne]

theorem record_recordAfter (index : PrefixIndex F) (role : String) (now : F) (depth : ℕ)
    (part : ChainPart) : ((index.recordAfter role now depth part).tokens,
      (index.recordAfter role now depth part).nbytes) =
        raise index.cost part.tokens (index.record part.key) := by
  rw [recordAfter,recordFor,record]
  cases index.blocks.get part.key with
  | none => rfl
  | some info =>
    simp only [BlockInfo.observeUse,Option.map_some,raise]
    split_ifs <;> rfl

omit [Scalar F] in
theorem mem_foldl_discardRef (sessionId : String) (stale : List BlockKey)
    (index : PrefixIndex F) (key : BlockKey) :
    key ∈ (stale.foldl (discardRef sessionId) index).blocks ↔ key ∈ index.blocks := by
  induction stale generalizing index with
  | nil => rfl
  | cons k stale ih => exact (ih _).trans Dict.mem_modify

section TouchPath

variable (index : PrefixIndex F) (sessionId role : String) (promptTokens sharedPrefixTokens : ℤ)
  (now : F) (aborted : Bool)

theorem touchPath_keys :
    (index.touchPath sessionId role promptTokens sharedPrefixTokens now aborted).2 =
      (index.chain sessionId promptTokens sharedPrefixTokens s!"root:{role}").map (·.key) := rfl

omit [Scalar F] in
theorem foldl_discardRef_frame (stale : List BlockKey) :
    (stale.foldl (discardRef sessionId) index).cost = index.cost ∧
    (stale.foldl (discardRef sessionId) index).blockTokens = index.blockTokens ∧
    (stale.foldl (discardRef sessionId) index).sessionPath = index.sessionPath ∧
    (stale.foldl (discardRef sessionId) index).invalidations = index.invalidations ∧
    (stale.foldl (discardRef sessionId) index).sessionLastSeen = index.sessionLastSeen := by
  induction stale generalizing index with
  | nil => exact ⟨rfl,rfl,rfl,rfl,rfl⟩
  | cons key stale ih => exact ih _

theorem foldl_registerPart_frame (items : List (ChainPart × ℕ)) :
    (items.foldl (registerPart sessionId role now) index).cost = index.cost ∧
    (items.foldl (registerPart sessionId role now) index).blockTokens = index.blockTokens ∧
    (items.foldl (registerPart sessionId role now) index).sessionPath = index.sessionPath ∧
    (items.foldl (registerPart sessionId role now) index).invalidations =
      index.invalidations ∧
    (items.foldl (registerPart sessionId role now) index).sessionLastSeen =
      index.sessionLastSeen := by
  induction items generalizing index with
  | nil => exact ⟨rfl,rfl,rfl,rfl,rfl⟩
  | cons item items ih => exact ih _

@[simp] theorem touchPath_cost :
    (index.touchPath sessionId role promptTokens sharedPrefixTokens now aborted).1.cost =
      index.cost :=
  (foldl_discardRef_frame _ _ _).1.trans (foldl_registerPart_frame _ _ _ _ _).1

@[simp] theorem touchPath_blockTokens :
    (index.touchPath sessionId role promptTokens sharedPrefixTokens now aborted).1.blockTokens =
      index.blockTokens :=
  (foldl_discardRef_frame _ _ _).2.1.trans (foldl_registerPart_frame _ _ _ _ _).2.1

theorem touchPath_sessionPath :
    (index.touchPath sessionId role promptTokens sharedPrefixTokens now aborted).1.sessionPath =
      index.sessionPath.set sessionId
        (index.touchPath sessionId role promptTokens sharedPrefixTokens now aborted).2 :=
  (foldl_discardRef_frame _ _ _).2.2.1.trans (foldl_registerPart_frame _ _ _ _ _).2.2.1

theorem touchPath_sessionLastSeen :
    (index.touchPath sessionId role promptTokens sharedPrefixTokens now aborted).1.sessionLastSeen =
      index.sessionLastSeen.set sessionId now :=
  (foldl_discardRef_frame _ _ _).2.2.2.2.trans (foldl_registerPart_frame _ _ _ _ _).2.2.2.2

theorem unleased_touchPath_of_mem {depth : ℕ} {part : ChainPart}
    (h : (index.chain sessionId promptTokens sharedPrefixTokens s!"root:{role}")[depth]? =
      some part) :
    (index.touchPath sessionId role promptTokens sharedPrefixTokens now aborted).1.unleased
      part.key = some (index.recordAfter role now depth part) := by
  have hn : (((index.chain sessionId promptTokens sharedPrefixTokens
      s!"root:{role}").zipIdx).map (·.1.key)).Nodup := by
    rw [zipIdx_keys]
    exact chain_keys_nodup _ _ _ _ _
  rw [touchPath,unleased_foldl_discardRef]
  have hitem : (part,depth) ∈ (index.chain sessionId promptTokens sharedPrefixTokens
      s!"root:{role}").zipIdx := List.mk_mem_zipIdx_iff_getElem?.mpr h
  exact unleased_foldl_of_mem sessionId role now _ _ hn hitem

theorem unleased_touchPath_of_not_mem {key : BlockKey}
    (h : key ∉ (index.chain sessionId promptTokens sharedPrefixTokens
      s!"root:{role}").map (·.key)) :
    (index.touchPath sessionId role promptTokens sharedPrefixTokens now aborted).1.unleased key =
      index.unleased key := by
  rw [← zipIdx_keys] at h
  rw [touchPath,unleased_foldl_discardRef,unleased_foldl_of_not_mem _ _ _ _ _ h]
  rfl

theorem record_touchPath_of_not_mem (key : BlockKey)
    (h : key ∉ (index.touchPath sessionId role promptTokens sharedPrefixTokens now aborted).2) :
    (index.touchPath sessionId role promptTokens sharedPrefixTokens now aborted).1.record key =
      index.record key := by
  rw [record_eq,unleased_touchPath_of_not_mem _ _ _ _ _ _ _ h,← record_eq]

theorem record_touchPath_of_mem (part : ChainPart)
    (h : part ∈ index.chain sessionId promptTokens sharedPrefixTokens s!"root:{role}") :
    (index.touchPath sessionId role promptTokens sharedPrefixTokens now aborted).1.record
      part.key = some (raise index.cost part.tokens (index.record part.key)) := by
  obtain ⟨depth,hdepth⟩ := List.mem_iff_getElem?.mp h
  rw [record_eq,unleased_touchPath_of_mem _ _ _ _ _ _ _ hdepth,Option.map_some,
    record_recordAfter]

theorem mem_blocks_touchPath (key : BlockKey) :
    key ∈ (index.touchPath sessionId role promptTokens sharedPrefixTokens now aborted).1.blocks ↔
      key ∈ (index.touchPath sessionId role promptTokens sharedPrefixTokens now aborted).2 ∨
        key ∈ index.blocks := by
  by_cases h : key ∈ (index.touchPath sessionId role promptTokens sharedPrefixTokens now aborted).2
  · obtain ⟨part,hp,rfl⟩ := List.mem_map.mp h
    simp only [h,true_or,iff_true]
    exact mem_blocks_iff.mpr ⟨_,record_touchPath_of_mem _ _ _ _ _ _ _ part hp⟩
  · simp only [h,false_or,mem_blocks_iff,record_touchPath_of_not_mem _ _ _ _ _ _ _ key h]

variable {index}

theorem touchPath_sized (h : index.Sized) :
    (index.touchPath sessionId role promptTokens sharedPrefixTokens now aborted).1.Sized := by
  intro key tokens nbytes hr
  rw [touchPath_cost]
  by_cases hk : key ∈ (index.touchPath sessionId role promptTokens sharedPrefixTokens now aborted).2
  · obtain ⟨part,hp,rfl⟩ := List.mem_map.mp hk
    have hpos := chain_tokens_pos _ _ _ _ _ hp
    rw [record_touchPath_of_mem _ _ _ _ _ _ _ part hp,Option.some.injEq] at hr
    cases ho : index.record part.key with
    | none =>
      rw [ho,raise,Prod.mk.injEq] at hr
      exact ⟨hr.1 ▸ hpos,by rw [← hr.2,← hr.1]⟩
    | some r =>
      rw [ho,raise] at hr
      split at hr <;> rw [Prod.mk.injEq] at hr
      · exact ⟨hr.1 ▸ hpos,by rw [← hr.2,← hr.1]⟩
      · exact h _ _ _ (by rw [ho,← hr.1,← hr.2])
  · rw [record_touchPath_of_not_mem _ _ _ _ _ _ _ key hk] at hr
    exact h _ _ _ hr

theorem tokensOf_touchPath_of_mem {part : ChainPart}
    (hp : part ∈ index.chain sessionId promptTokens sharedPrefixTokens s!"root:{role}") :
    (index.touchPath sessionId role promptTokens sharedPrefixTokens now aborted).1.tokensOf
      part.key = max (index.tokensOf part.key) part.tokens := by
  have hpos := chain_tokens_pos _ _ _ _ _ hp
  rw [tokensOf_eq,tokensOf_eq,record_touchPath_of_mem _ _ _ _ _ _ _ part hp]
  cases ho : index.record part.key with
  | none =>
    show part.tokens = max 0 part.tokens
    omega
  | some r =>
    show (raise index.cost part.tokens (some r)).1 = max r.1 part.tokens
    rw [raise]
    split <;> simp only <;> omega

theorem tokensOf_touchPath_of_not_mem {key : BlockKey}
    (hk : key ∉ (index.touchPath sessionId role promptTokens sharedPrefixTokens now aborted).2) :
    (index.touchPath sessionId role promptTokens sharedPrefixTokens now aborted).1.tokensOf key =
      index.tokensOf key := by
  rw [tokensOf_eq,tokensOf_eq,record_touchPath_of_not_mem _ _ _ _ _ _ _ key hk]

theorem nbytesOf_touchPath_of_not_mem {key : BlockKey}
    (hk : key ∉ (index.touchPath sessionId role promptTokens sharedPrefixTokens now aborted).2) :
    (index.touchPath sessionId role promptTokens sharedPrefixTokens now aborted).1.nbytesOf key =
      index.nbytesOf key := by
  rw [nbytesOf_eq,nbytesOf_eq,record_touchPath_of_not_mem _ _ _ _ _ _ _ key hk]

theorem tokensOf_nonneg (h : index.Sized) (key : BlockKey) : 0 ≤ index.tokensOf key := by
  rw [tokensOf_eq]
  cases hr : index.record key with
  | none => exact le_rfl
  | some r =>
    have := (h key r.1 r.2 hr).1
    show 0 ≤ r.1
    omega

theorem nbytesOf_eq_blockBytes (h : index.Sized) {key : BlockKey} (hk : key ∈ index.blocks) :
    index.nbytesOf key = index.cost.blockBytes (index.tokensOf key) := by
  obtain ⟨r,hr⟩ := mem_blocks_iff.mp hk
  rw [nbytesOf_eq,tokensOf_eq,hr]
  exact (h key r.1 r.2 hr).2

omit [Scalar F] in
theorem tokensOf_of_not_mem {key : BlockKey} (hk : key ∉ index.blocks) :
    index.tokensOf key = 0 := by
  rw [tokensOf,Dict.get_eq_none.mpr hk]
  rfl

omit [Scalar F] in
theorem nbytesOf_of_not_mem {key : BlockKey} (hk : key ∉ index.blocks) :
    index.nbytesOf key = 0 := by
  rw [nbytesOf,Dict.get_eq_none.mpr hk]
  rfl

theorem nbytesOf_nonneg (h : index.Sized) (hkv : 0 ≤ index.cost.kvBytesPerToken)
    (key : BlockKey) : 0 ≤ index.nbytesOf key := by
  by_cases hk : key ∈ index.blocks
  · rw [nbytesOf_eq_blockBytes h hk]
    exact CostModel.blockBytes_nonneg hkv (tokensOf_nonneg h key)
  · exact (nbytesOf_of_not_mem hk).ge

theorem nbytesOf_nonpos (h : index.Sized) (hkv : index.cost.kvBytesPerToken ≤ 0)
    (key : BlockKey) : index.nbytesOf key ≤ 0 := by
  by_cases hk : key ∈ index.blocks
  · rw [nbytesOf_eq_blockBytes h hk]
    exact CostModel.blockBytes_nonpos hkv (tokensOf_nonneg h key)
  · exact (nbytesOf_of_not_mem hk).le

theorem tokensOf_le_touchPath (key : BlockKey) :
    index.tokensOf key ≤
      (index.touchPath sessionId role promptTokens sharedPrefixTokens now aborted).1.tokensOf
        key := by
  by_cases hk : key ∈ (index.touchPath sessionId role promptTokens sharedPrefixTokens now aborted).2
  · obtain ⟨part,hp,rfl⟩ := List.mem_map.mp hk
    rw [tokensOf_touchPath_of_mem _ _ _ _ _ _ hp]
    exact le_max_left _ _
  · exact (tokensOf_touchPath_of_not_mem _ _ _ _ _ _ hk).ge

theorem nbytesOf_le_touchPath (h : index.Sized) (hkv : 0 ≤ index.cost.kvBytesPerToken)
    (key : BlockKey) :
    index.nbytesOf key ≤
      (index.touchPath sessionId role promptTokens sharedPrefixTokens now aborted).1.nbytesOf
        key := by
  have h' := touchPath_sized sessionId role promptTokens sharedPrefixTokens now aborted h
  by_cases hk : key ∈ index.blocks
  · rw [nbytesOf_eq_blockBytes h hk,nbytesOf_eq_blockBytes h'
      ((mem_blocks_touchPath _ _ _ _ _ _ _ _).mpr (Or.inr hk)),touchPath_cost]
    exact CostModel.blockBytes_mono hkv (tokensOf_le_touchPath _ _ _ _ _ _ key)
  · rw [nbytesOf_of_not_mem hk]
    exact nbytesOf_nonneg h' (by rwa [touchPath_cost]) key

end TouchPath

end PrefixIndex
end ContextResidency
