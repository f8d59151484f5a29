import ContextResidency.Closing
import ContextResidency.Library.Runs

/-! Leases of the index. A block records the sessions that lease it and a session records
its path; the two say the same after any requests and releases, so a lease never outlives
its session and a release never fails. -/
namespace ContextResidency

variable {F : Type}

namespace PrefixIndex

/-- What a caller may do with an index, in any order. -/
inductive Op (F : Type)
  | touchPath (sessionId role : String) (promptTokens sharedPrefixTokens : ℤ) (now : F)
    (aborted : Bool)
  | releaseSession (sessionId : String)

def leasesOf (index : PrefixIndex F) (key : BlockKey) : Finset String :=
  ((index.blocks.get key).map (·.refs)).getD ∅

def pathOf (index : PrefixIndex F) (sessionId : String) : List BlockKey :=
  (index.sessionPath.get sessionId).getD []

theorem pathOf_of_erase {index released : PrefixIndex F} {sessionId : String}
    (h : released.sessionPath = index.sessionPath.erase sessionId) (session : String) :
    released.pathOf session = if session = sessionId then [] else index.pathOf session := by
  rw [pathOf,h,Dict.get_erase]
  by_cases hs : session = sessionId <;> simp [hs,pathOf]

theorem pathOf_of_set {index seen : PrefixIndex F} {sessionId : String} {keys : List BlockKey}
    (h : seen.sessionPath = index.sessionPath.set sessionId keys) (session : String) :
    seen.pathOf session = if session = sessionId then keys else index.pathOf session := by
  rw [pathOf,h,Dict.get_set]
  by_cases hs : session = sessionId <;> simp [hs,pathOf]

theorem mem_leasesOf {index : PrefixIndex F} {key : BlockKey} {session : String} :
    session ∈ index.leasesOf key ↔
      ∃ info, index.blocks.get key = some info ∧ session ∈ info.refs := by
  cases h : index.blocks.get key <;> simp [leasesOf,h]

theorem mem_leasesOf_discardRef {index : PrefixIndex F} {sessionId session : String}
    {key key' : BlockKey} : session ∈ (index.discardRef sessionId key).leasesOf key' ↔
      session ∈ index.leasesOf key' ∧ ¬ (session = sessionId ∧ key' = key) := by
  simp only [leasesOf,discardRef,Dict.get_modify]
  by_cases hk : key' = key
  · subst hk
    cases index.blocks.get key' <;> simp [and_comm]
  · simp [hk]

theorem mem_leasesOf_foldl_discardRef {index : PrefixIndex F} {sessionId session : String}
    {keys : List BlockKey} {key : BlockKey} :
    session ∈ (keys.foldl (discardRef sessionId) index).leasesOf key ↔
      session ∈ index.leasesOf key ∧ ¬ (session = sessionId ∧ key ∈ keys) := by
  induction keys generalizing index with
  | nil => simp
  | cons k keys ih =>
    rw [List.foldl_cons,ih,mem_leasesOf_discardRef,List.mem_cons]
    tauto

/-- Blocks and sessions agree on the leases, and every session with a path was seen. -/
structure LeasesAgree (index : PrefixIndex F) : Prop where
  leases : ∀ key session, session ∈ index.leasesOf key ↔ key ∈ index.pathOf session
  seen : ∀ session ∈ index.sessionPath, session ∈ index.sessionLastSeen

theorem new_leasesAgree (blockTokens : ℤ) (cost : CostModel F) :
    (new blockTokens cost).LeasesAgree := by
  constructor
  case leases => simp [leasesOf,pathOf,new]
  case seen => simp [new]

section Agree

variable {index : PrefixIndex F} (h : index.LeasesAgree)
include h

theorem LeasesAgree.known {session : String} {key : BlockKey} (hkey : key ∈ index.pathOf session) :
    key ∈ index.blocks := by
  obtain ⟨info,hinfo,_⟩ := mem_leasesOf.mp ((h.leases key session).mpr hkey)
  exact Dict.mem_iff_get.mpr ⟨info,hinfo⟩

theorem LeasesAgree.lastSeen {session : String} {key : BlockKey}
    (hlease : session ∈ index.leasesOf key) : session ∈ index.sessionLastSeen := by
  have hkey := (h.leases key session).mp hlease
  apply h.seen
  by_contra hnone
  simp [pathOf,Dict.get_eq_none.mpr hnone] at hkey

theorem LeasesAgree.releaseSession (sessionId : String) : ∃ released,
    index.releaseSession sessionId = .ok released ∧ released.LeasesAgree ∧
      released.sessionPath = index.sessionPath.erase sessionId := by
  obtain ⟨released,hreleased,hblocks,hpath,hlast,_⟩ :=
    releaseSession_of_known sessionId fun key => h.known
  refine ⟨released,hreleased,?_,hpath⟩
  constructor
  case leases =>
    intro key session
    have hbefore := h.leases key session
    have hleases : session ∈ released.leasesOf key ↔
        session ∈ index.leasesOf key ∧ ¬ (session = sessionId ∧ key ∈ index.pathOf sessionId) := by
      rw [leasesOf,hblocks]
      exact mem_leasesOf_foldl_discardRef
    rw [hleases,hbefore,pathOf_of_erase hpath]
    by_cases hsession : session = sessionId
    · simp [hsession]
    · simp [hsession]
  case seen =>
    intro session hsession
    rw [hpath,Dict.mem_erase] at hsession
    rw [hlast,Dict.mem_erase]
    exact ⟨h.seen session hsession.1,hsession.2⟩

end Agree

variable [Scalar F]

theorem mem_leasesOf_registerPart {index : PrefixIndex F} {sessionId role session : String}
    {now : F} {item : ChainPart × ℕ} {key : BlockKey} :
    session ∈ (registerPart sessionId role now index item).leasesOf key ↔
      session ∈ index.leasesOf key ∨ session = sessionId ∧ key = item.1.key := by
  by_cases hk : key = item.1.key
  · subst hk
    have hold : session ∈ (index.recordFor now item.2 item.1).refs ↔
        session ∈ index.leasesOf item.1.key := by
      rw [leasesOf,recordFor]
      cases index.blocks.get item.1.key with
      | none => simp
      | some info =>
        simp only [Option.map_some,Option.getD_some]
        split_ifs <;> rfl
    simp only [leasesOf,registerPart,Dict.get_set,if_true,Option.map_some,Option.getD_some,
      BlockInfo.observeUse,Finset.mem_insert,hold,and_true]
    tauto
  · simp [leasesOf,registerPart,Dict.get_set,hk]

theorem mem_leasesOf_foldl_registerPart {index : PrefixIndex F} {sessionId role session : String}
    {now : F} {items : List (ChainPart × ℕ)} {key : BlockKey} :
    session ∈ (items.foldl (registerPart sessionId role now) index).leasesOf key ↔
      session ∈ index.leasesOf key ∨ session = sessionId ∧ key ∈ items.map (·.1.key) := by
  induction items generalizing index with
  | nil => simp
  | cons item items ih =>
    rw [List.foldl_cons,ih,mem_leasesOf_registerPart,List.map_cons,List.mem_cons]
    tauto

section TouchPath

variable (index : PrefixIndex F) (sessionId role : String) (promptTokens sharedPrefixTokens : ℤ)
  (now : F) (aborted : Bool)

theorem mem_leasesOf_touchPath (key : BlockKey) (session : String) :
    session ∈ (index.touchPath sessionId role promptTokens sharedPrefixTokens now
        aborted).1.leasesOf key ↔
      (session ∈ index.leasesOf key ∨ session = sessionId ∧ key ∈
        (index.touchPath sessionId role promptTokens sharedPrefixTokens now aborted).2) ∧
      ¬ (session = sessionId ∧ key ∈ index.pathOf sessionId ∧ key ∉
        (index.touchPath sessionId role promptTokens sharedPrefixTokens now aborted).2) := by
  simp only [touchPath,mem_leasesOf_foldl_discardRef,mem_leasesOf_foldl_registerPart,zipIdx_keys,
    List.mem_filter,decide_eq_true_eq]
  rfl

variable {index}

theorem LeasesAgree.touchPath (h : index.LeasesAgree) :
    (index.touchPath sessionId role promptTokens sharedPrefixTokens now aborted).1.LeasesAgree := by
  have hpath := touchPath_sessionPath index sessionId role promptTokens sharedPrefixTokens now aborted
  constructor
  case leases =>
    intro key session
    have hbefore := h.leases key session
    rw [mem_leasesOf_touchPath,pathOf_of_set hpath,hbefore]
    by_cases hsession : session = sessionId
    · simp only [hsession,true_and,if_true]
      tauto
    · simp [hsession]
  case seen =>
    intro session hsession
    rw [hpath,Dict.mem_set] at hsession
    rw [touchPath_sessionLastSeen,Dict.mem_set]
    exact hsession.imp_right (h.seen session)

end TouchPath

/-- One operation; the error is the key of an unknown block. -/
def apply (index : PrefixIndex F) : Op F → Except BlockKey (PrefixIndex F)
  | .touchPath sessionId role promptTokens sharedPrefixTokens now aborted =>
    .ok (index.touchPath sessionId role promptTokens sharedPrefixTokens now aborted).1
  | .releaseSession sessionId => index.releaseSession sessionId

theorem LeasesAgree.apply {index : PrefixIndex F} (h : index.LeasesAgree) (op : Op F) :
    ∃ after, index.apply op = .ok after ∧ after.LeasesAgree := by
  cases op with
  | touchPath sessionId role promptTokens sharedPrefixTokens now aborted =>
    exact ⟨_,rfl,h.touchPath sessionId role promptTokens sharedPrefixTokens now aborted⟩
  | releaseSession sessionId =>
    obtain ⟨released,hreleased,hagree,_⟩ := h.releaseSession sessionId
    exact ⟨released,hreleased,hagree⟩

theorem LeasesAgree.run {index : PrefixIndex F} (h : index.LeasesAgree) (ops : List (Op F)) :
    ∃ after, ops.foldlM PrefixIndex.apply index = .ok after ∧ after.LeasesAgree :=
  runM_invariant (fun _ op h => LeasesAgree.apply h op) h ops

omit [Scalar F] in
/-- Releasing every session that has a path leaves no lease. -/
theorem LeasesAgree.releaseAll {index : PrefixIndex F} (h : index.LeasesAgree)
    {sessions : List String} (hall : ∀ session ∈ index.sessionPath, session ∈ sessions) :
    ∃ released, sessions.foldlM PrefixIndex.releaseSession index = .ok released ∧
      ∀ key, released.leasesOf key = ∅ := by
  induction sessions generalizing index with
  | nil =>
    refine ⟨index,rfl,fun key => Finset.eq_empty_of_forall_notMem fun session hlease => ?_⟩
    have hkey := (h.leases key session).mp hlease
    have hnone : session ∉ index.sessionPath := fun hmem => by simpa using hall session hmem
    simp [pathOf,Dict.get_eq_none.mpr hnone] at hkey
  | cons sid sessions ih =>
    obtain ⟨next,hnext,hagree,hpath⟩ := h.releaseSession sid
    have hrest : ∀ session ∈ next.sessionPath, session ∈ sessions := fun session hsession => by
      rw [hpath,Dict.mem_erase] at hsession
      exact (List.mem_cons.mp (hall session hsession.1)).resolve_left hsession.2
    obtain ⟨released,hreleased,hnone⟩ := ih hagree hrest
    refine ⟨released,?_,hnone⟩
    rw [List.foldlM_cons,hnext]
    exact hreleased

/-- Any requests and releases go through, and leave blocks and sessions in agreement: the
leases of a block are the sessions with the block on their path, these blocks have records
and these sessions were seen. Once every session is released, there are no leases. -/
theorem leases_consistent (blockTokens : ℤ) (cost : CostModel F) (ops : List (Op F)) :
    ∃ index, ops.foldlM PrefixIndex.apply (new blockTokens cost) = .ok index ∧
      (∀ key info session, index.blocks.get key = some info →
        (session ∈ info.refs ↔ key ∈ index.pathOf session)) ∧
      (∀ session, ∀ key ∈ index.pathOf session, key ∈ index.blocks) ∧
      (∀ key info, index.blocks.get key = some info → ∀ session ∈ info.refs,
        session ∈ index.sessionLastSeen) ∧
      ∀ sessions : List String, (∀ session ∈ index.sessionPath, session ∈ sessions) →
        ∃ released, sessions.foldlM PrefixIndex.releaseSession index = .ok released ∧
          ∀ key info, released.blocks.get key = some info → info.refs = ∅ := by
  obtain ⟨index,hindex,hagree⟩ := (new_leasesAgree blockTokens cost).run ops
  have hrefs : ∀ {index : PrefixIndex F} {key info}, index.blocks.get key = some info →
      index.leasesOf key = info.refs := fun hinfo => by simp [leasesOf,hinfo]
  refine ⟨index,hindex,?_,fun session key => hagree.known,?_,?_⟩
  · intro key info session hinfo
    rw [← hrefs hinfo]
    exact hagree.leases key session
  · intro key info hinfo session hsession
    rw [← hrefs hinfo] at hsession
    exact hagree.lastSeen hsession
  · intro sessions hall
    obtain ⟨released,hreleased,hnone⟩ := hagree.releaseAll hall
    exact ⟨released,hreleased,fun key info hinfo => hrefs hinfo ▸ hnone key⟩

end PrefixIndex
end ContextResidency
