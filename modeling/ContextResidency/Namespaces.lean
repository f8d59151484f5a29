import ContextResidency.PromptChains
import ContextResidency.Leases
import ContextResidency.Library.Runs

/-! Namespaces of keys. A private key names its session and a shared key names its role,
and no string is the name of two keys. So two sessions have at most the shared blocks of
a common role in common, and only these are ever leased by both. -/
namespace ContextResidency

variable {F : Type}

namespace PrefixIndex

section Chain

variable {index : PrefixIndex F} {sessionId : String} {promptTokens sharedPrefixTokens : ℤ}
  {rootId : String}

theorem mem_chain_shared {key : BlockKey} : key ∈ ((index.chain sessionId promptTokens
      sharedPrefixTokens rootId).filter (·.shared)).map (·.key) →
    ∃ i, key = .root rootId i := by
  rw [chain_filter_shared]
  rintro hkey
  obtain ⟨part,hpart,rfl⟩ := List.mem_map.mp hkey
  exact segment_key hpart

theorem mem_chain_keys {key : BlockKey} (h : key ∈ (index.chain sessionId promptTokens
      sharedPrefixTokens rootId).map (·.key)) :
    key ∈ ((index.chain sessionId promptTokens sharedPrefixTokens rootId).filter
      (·.shared)).map (·.key) ∨ ∃ i, key = .priv sessionId i := by
  rw [chain,List.map_append,List.mem_append] at h
  rw [chain_filter_shared]
  refine h.imp_right fun hpriv => ?_
  obtain ⟨part,hpart,rfl⟩ := List.mem_map.mp hpriv
  exact segment_key hpart

theorem mem_chain_of_shared {key : BlockKey} (h : key ∈ ((index.chain sessionId promptTokens
      sharedPrefixTokens rootId).filter (·.shared)).map (·.key)) :
    key ∈ (index.chain sessionId promptTokens sharedPrefixTokens rootId).map (·.key) :=
  (List.filter_sublist.map _).subset h

end Chain

variable [Scalar F]

def requested (index : PrefixIndex F) (sessionId role : String)
    (promptTokens sharedPrefixTokens : ℤ) (now : F) (aborted : Bool) : List String :=
  (index.touchPath sessionId role promptTokens sharedPrefixTokens now aborted).2.map
    BlockKey.render

omit [Scalar F] in
def sharedParts (index : PrefixIndex F) (sessionId role : String)
    (promptTokens sharedPrefixTokens : ℤ) : List ChainPart :=
  (index.chain sessionId promptTokens sharedPrefixTokens s!"root:{role}").filter (·.shared)

omit [Scalar F] in
/-- In number and in names, a shared part of non-negative size is `b0` and so on. -/
theorem mem_sharedParts_iff {index : PrefixIndex F} {sessionId role : String}
    {promptTokens sharedPrefixTokens : ℤ} (hp : 0 ≤ promptTokens) (hs : 0 ≤ sharedPrefixTokens)
    {key : BlockKey} :
    key ∈ (index.sharedParts sessionId role promptTokens sharedPrefixTokens).map (·.key) ↔
      ∃ i < (index.sharedParts sessionId role promptTokens sharedPrefixTokens).length,
        key = .root s!"root:{role}" i := by
  rw [sharedParts,chain_filter_shared,segment_eq_map index.blockTokens_pos (le_min hs hp)]
  simp only [List.map_map,List.mem_map,List.mem_range,List.length_map,List.length_range,
    Function.comp_def]
  constructor
  · rintro ⟨i,hi,rfl⟩
    exact ⟨i,hi,rfl⟩
  · rintro ⟨i,hi,rfl⟩
    exact ⟨i,hi,rfl⟩

section Requests

variable {one other : PrefixIndex F} {a b role role' : String}
  {promptTokens sharedPrefixTokens promptTokens' sharedPrefixTokens' : ℤ} {now now' : F}
  {aborted aborted' : Bool}

theorem mem_requested {name : String} :
    name ∈ one.requested a role promptTokens sharedPrefixTokens now aborted ↔
      ∃ key ∈ (one.chain a promptTokens sharedPrefixTokens s!"root:{role}").map (·.key),
        key.render = name := by
  rw [requested,List.mem_map,touchPath_keys]

/-- What two sessions both ask for is shared by both, in one namespace. -/
theorem mem_requested_both (hab : a ≠ b) {name : String} :
    name ∈ one.requested a role promptTokens sharedPrefixTokens now aborted ∧
      name ∈ other.requested b role' promptTokens' sharedPrefixTokens' now' aborted' ↔
    ∃ key, key.render = name ∧
      key ∈ (one.sharedParts a role promptTokens sharedPrefixTokens).map (·.key) ∧
      key ∈ (other.sharedParts b role' promptTokens' sharedPrefixTokens').map (·.key) := by
  rw [mem_requested,mem_requested]
  constructor
  · rintro ⟨⟨key,hkey,rfl⟩,⟨key',hkey',hname⟩⟩
    obtain rfl := BlockKey.render_injective hname
    refine ⟨key',rfl,?_⟩
    cases mem_chain_keys hkey with
    | inl hshared =>
      obtain ⟨i,rfl⟩ := mem_chain_shared hshared
      exact ⟨hshared,(mem_chain_keys hkey').resolve_right fun ⟨_,hj⟩ => by cases hj⟩
    | inr hpriv =>
      obtain ⟨i,rfl⟩ := hpriv
      cases mem_chain_keys hkey' with
      | inl hshared =>
        obtain ⟨_,hj⟩ := mem_chain_shared hshared
        cases hj
      | inr hpriv' =>
        obtain ⟨_,hj⟩ := hpriv'
        exact absurd (BlockKey.priv.inj hj).1 hab
  · rintro ⟨key,rfl,hone,hother⟩
    exact ⟨⟨key,mem_chain_of_shared hone,rfl⟩,⟨key,mem_chain_of_shared hother,rfl⟩⟩

end Requests

/-! Leases follow the paths, so a private block is leased by its own session only. -/

/-- Leases and paths agree, and private blocks lie on the path of their own session. -/
structure Owned (index : PrefixIndex F) : Prop where
  agree : index.LeasesAgree
  own : ∀ session sessionId i, .priv sessionId i ∈ index.pathOf session → sessionId = session

omit [Scalar F] in
theorem new_owned (blockTokens : ℤ) (cost : CostModel F) : (new blockTokens cost).Owned where
  agree := new_leasesAgree blockTokens cost
  own := by simp [pathOf,new]

theorem Owned.touchPath {index : PrefixIndex F} (h : index.Owned) (sessionId role : String)
    (promptTokens sharedPrefixTokens : ℤ) (now : F) (aborted : Bool) :
    (index.touchPath sessionId role promptTokens sharedPrefixTokens now aborted).1.Owned where
  agree := h.agree.touchPath _ _ _ _ _ _
  own session owner i hkey := by
    rw [pathOf_of_set (touchPath_sessionPath index _ _ _ _ _ _)] at hkey
    by_cases hsession : session = sessionId
    · rw [if_pos hsession,touchPath_keys] at hkey
      cases mem_chain_keys hkey with
      | inl hshared =>
        obtain ⟨_,hj⟩ := mem_chain_shared hshared
        cases hj
      | inr hpriv =>
        obtain ⟨_,hj⟩ := hpriv
        exact (BlockKey.priv.inj hj).1.trans hsession.symm
    · rw [if_neg hsession] at hkey
      exact h.own session owner i hkey

omit [Scalar F] in
theorem Owned.releaseSession {index : PrefixIndex F} (h : index.Owned) (sessionId : String) :
    ∃ released, index.releaseSession sessionId = .ok released ∧ released.Owned := by
  obtain ⟨released,hreleased,hagree,hpath⟩ := h.agree.releaseSession sessionId
  refine ⟨released,hreleased,hagree,fun session owner i hkey => ?_⟩
  rw [pathOf_of_erase hpath] at hkey
  split at hkey
  · simp at hkey
  · exact h.own session owner i hkey

theorem Owned.apply {index : PrefixIndex F} (h : index.Owned) (op : Op F) :
    ∃ after, index.apply op = .ok after ∧ after.Owned := by
  cases op with
  | touchPath sessionId role promptTokens sharedPrefixTokens now aborted =>
    exact ⟨_,rfl,h.touchPath sessionId role promptTokens sharedPrefixTokens now aborted⟩
  | releaseSession sessionId => exact h.releaseSession sessionId

omit [Scalar F] in
theorem Owned.lease_eq {index : PrefixIndex F} (h : index.Owned) {sessionId session : String}
    {i : ℤ} (hlease : session ∈ index.leasesOf (.priv sessionId i)) : session = sessionId :=
  (h.own session sessionId i ((h.agree.leases _ _).mp hlease)).symm

/-- Whatever the sessions and roles are called, two sessions of different roles ask for no
block in common. Two sessions of one role have in common what is shared by both, which is
the first shared blocks of the role, as many as both ask for. And after any requests and
releases no private block is leased by two sessions. -/
theorem namespaces_apart {a b : String} (hab : a ≠ b) (one other : PrefixIndex F)
    (role role' : String) (now now' : F) (aborted aborted' : Bool) :
    (role ≠ role' → ∀ promptTokens sharedPrefixTokens promptTokens' sharedPrefixTokens' : ℤ,
      List.Disjoint (one.requested a role promptTokens sharedPrefixTokens now aborted)
        (other.requested b role' promptTokens' sharedPrefixTokens' now' aborted')) ∧
    (∀ (promptTokens sharedPrefixTokens promptTokens' sharedPrefixTokens' : ℤ) (name : String),
      name ∈ one.requested a role promptTokens sharedPrefixTokens now aborted ∧
        name ∈ other.requested b role promptTokens' sharedPrefixTokens' now' aborted' ↔
      ∃ key, key.render = name ∧
        key ∈ (one.sharedParts a role promptTokens sharedPrefixTokens).map (·.key) ∧
        key ∈ (other.sharedParts b role promptTokens' sharedPrefixTokens').map (·.key)) ∧
    (∀ (promptTokens sharedPrefixTokens promptTokens' sharedPrefixTokens' : ℕ) (name : String),
      name ∈ one.requested a role promptTokens sharedPrefixTokens now aborted ∧
        name ∈ other.requested b role promptTokens' sharedPrefixTokens' now' aborted' ↔
      ∃ i < min (one.sharedParts a role promptTokens sharedPrefixTokens).length
          (other.sharedParts b role promptTokens' sharedPrefixTokens').length,
        name = s!"root:{role}:b{i}") ∧
    ∀ (blockTokens : ℤ) (cost : CostModel F) (ops : List (Op F)),
      ∃ index, ops.foldlM PrefixIndex.apply (new blockTokens cost) = .ok index ∧
        ∀ sessionId i info, index.blocks.get (.priv sessionId i) = some info →
          info.refs.card ≤ 1 := by
  refine ⟨fun hroles p s p' s' name hone hother => ?_,
    fun p s p' s' name => mem_requested_both hab,fun p s p' s' name => ?_,?_⟩
  · obtain ⟨key,_,hkey,hkey'⟩ := (mem_requested_both hab).mp ⟨hone,hother⟩
    obtain ⟨i,rfl⟩ := mem_chain_shared hkey
    obtain ⟨j,hj⟩ := mem_chain_shared hkey'
    have hroot : "root:" ++ role = "root:" ++ role' := (BlockKey.root.inj hj).1
    exact hroles ((String.append_right_inj _).mp hroot)
  · rw [mem_requested_both hab]
    simp only [mem_sharedParts_iff (Int.natCast_nonneg _) (Int.natCast_nonneg _),lt_min_iff]
    constructor
    · rintro ⟨key,rfl,⟨i,hi,rfl⟩,⟨j,hj,hkey⟩⟩
      have hij : i = j := by exact_mod_cast (BlockKey.root.inj hkey).2
      exact ⟨i,⟨hi,hij ▸ hj⟩,rfl⟩
    · rintro ⟨i,⟨hi,hj⟩,rfl⟩
      exact ⟨.root s!"root:{role}" i,rfl,⟨i,hi,rfl⟩,⟨i,hj,rfl⟩⟩
  · intro blockTokens cost ops
    obtain ⟨index,hindex,howned⟩ :=
      runM_invariant (fun _ op h => Owned.apply h op) (new_owned blockTokens cost) ops
    refine ⟨index,hindex,fun sessionId i info hinfo => Finset.card_le_one.mpr ?_⟩
    have hleases : ∀ session ∈ info.refs, session = sessionId := fun session hsession =>
      howned.lease_eq (mem_leasesOf.mpr ⟨info,hinfo,hsession⟩)
    intro session hsession session' hsession'
    rw [hleases session hsession,hleases session' hsession']

/-- Sessions whose names look like keys of each other. -/
theorem namespaces_apart_colons : List.Disjoint
    ((new 1000 (.default : CostModel ℚ)).requested "a:b0" "x" 2500 1500 0 false)
    ((new 1000 (.default : CostModel ℚ)).requested "root:x" "a" 2500 1500 0 false) :=
  (namespaces_apart (by decide : "a:b0" ≠ "root:x") (new 1000 (.default : CostModel ℚ))
    (new 1000 .default) "x" "a" 0 0 false false).1 (by decide) 2500 1500 2500 1500

end PrefixIndex
end ContextResidency
