import ContextResidency.Residency

/-! The end of a run. Every block on the path of a session has a record, so releasing the
sessions raises nothing, and a run always ends in a report. -/
namespace ContextResidency

variable {F : Type}

namespace PrefixIndex

/-- The blocks on the paths of the sessions have records. -/
def Leased (index : PrefixIndex F) : Prop :=
  ∀ sessionId keys, index.sessionPath.get sessionId = some keys → ∀ key ∈ keys, key ∈ index.blocks

theorem dropLeases_of_known {index : PrefixIndex F} (sessionId : String) {keys : List BlockKey}
    (h : ∀ key ∈ keys, key ∈ index.blocks) :
    dropLeases sessionId index keys = .ok (keys.foldl (discardRef sessionId) index) := by
  induction keys generalizing index with
  | nil => rfl
  | cons key keys ih =>
    obtain ⟨info,hinfo⟩ := Dict.mem_iff_get.mp (h key (by simp))
    rw [dropLeases,hinfo]
    exact ih fun k hk => Dict.mem_modify.mpr (h k (by simp [hk]))

theorem releaseSession_of_known {index : PrefixIndex F} (sessionId : String)
    (h : ∀ key ∈ (index.sessionPath.get sessionId).getD [], key ∈ index.blocks) :
    ∃ released, index.releaseSession sessionId = .ok released ∧
      released.blocks = (((index.sessionPath.get sessionId).getD []).foldl (discardRef sessionId)
        { index with sessionPath := index.sessionPath.erase sessionId }).blocks ∧
      released.sessionPath = index.sessionPath.erase sessionId ∧
      released.sessionLastSeen = index.sessionLastSeen.erase sessionId ∧
      released.cost = index.cost ∧ released.blockTokens = index.blockTokens := by
  let path := (index.sessionPath.get sessionId).getD []
  let pathless := { index with sessionPath := index.sessionPath.erase sessionId }
  let dropped := path.foldl (discardRef sessionId) pathless
  have hdrop : dropLeases sessionId pathless path = .ok dropped := dropLeases_of_known sessionId h
  obtain ⟨hcost,hblockTokens,hpath,_,hseen⟩ := foldl_discardRef_frame pathless sessionId path
  refine ⟨{ dropped with sessionLastSeen := dropped.sessionLastSeen.erase sessionId },?_,rfl,hpath,
    congrArg (Dict.erase · sessionId) hseen,hcost,hblockTokens⟩
  show (dropLeases sessionId pathless path).map _ = _
  rw [hdrop]
  rfl

theorem releaseSession_eq_ok {index : PrefixIndex F} (h : index.Leased) (sessionId : String) :
    ∃ released, index.releaseSession sessionId = .ok released ∧ released.Leased := by
  have hkeys : ∀ key ∈ (index.sessionPath.get sessionId).getD [], key ∈ index.blocks := by
    cases hp : index.sessionPath.get sessionId with
    | none => simp
    | some keys => exact h sessionId keys hp
  obtain ⟨released,hreleased,hblocks,hpath,_⟩ := releaseSession_of_known sessionId hkeys
  refine ⟨released,hreleased,?_⟩
  intro other keys hother key hkey
  rw [hpath,Dict.get_erase] at hother
  rw [hblocks,mem_foldl_discardRef]
  split at hother
  · cases hother
  · exact h other keys hother key hkey

theorem dropLeases_invalidations {sessionId : String} {keys : List BlockKey}
    {index released : PrefixIndex F} (h : dropLeases sessionId index keys = .ok released) :
    released.invalidations = index.invalidations := by
  induction keys generalizing index with
  | nil =>
    cases h
    rfl
  | cons key keys ih =>
    rw [dropLeases] at h
    split at h
    · cases h
    · exact @ih (index.discardRef sessionId key) h

theorem releaseSession_invalidations {index released : PrefixIndex F} {sessionId : String}
    (h : index.releaseSession sessionId = .ok released) :
    released.invalidations = index.invalidations := by
  revert h
  show (dropLeases sessionId { index with sessionPath := index.sessionPath.erase sessionId }
    ((index.sessionPath.get sessionId).getD [])).map _ = _ → _
  cases hdrop : dropLeases sessionId { index with
      sessionPath := index.sessionPath.erase sessionId }
      ((index.sessionPath.get sessionId).getD []) with
  | error key =>
    intro h
    cases h
  | ok dropped =>
    intro h
    cases h
    exact (dropLeases_invalidations hdrop :)

end PrefixIndex

variable [Scalar F]

namespace Simulator

theorem seenIndex_leased {s : Simulator F} (h : s.index.Leased) (turn : Turn F) :
    (s.seenIndex turn).Leased := by
  intro sessionId keys hkeys key hkey
  have hpath : (s.seenIndex turn).sessionPath =
      s.index.sessionPath.set turn.sessionId (s.path turn) :=
    PrefixIndex.touchPath_sessionPath _ _ _ _ _ _ _
  rw [hpath,Dict.get_set] at hkeys
  rw [mem_seenIndex]
  split at hkeys
  · obtain rfl := Option.some.inj hkeys
    exact Or.inl hkey
  · exact Or.inr (h sessionId keys hkeys key hkey)

theorem exec_leased (sched : Schedule F) (cfg : SimConfig F) (kind : PolicyKind F)
    (ram : TierConfig F) (turns : List (Turn F)) :
    (exec sched (start cfg kind ram) turns).index.Leased := by
  refine List.foldlRecOn (motive := fun s => s.index.Leased) turns (one sched) ?_
    fun s h turn _ => ?_
  · intro sessionId keys hkeys
    simp [start,new,PrefixIndex.new] at hkeys
  · rw [one_index]
    exact seenIndex_leased h turn

/-- The body of the loop that closes the sessions. -/
def closeSession (s : Simulator F) (sessionId : String) : Except PyError (Simulator F) :=
  match s.index.releaseSession sessionId with
  | .error key => .error (.keyError key.render)
  | .ok index => .ok { s with index := index }

omit [Scalar F] in
theorem closeSessions_eq_foldlM (s : Simulator F) :
    s.closeSessions = s.index.sessionPath.keys.foldlM closeSession s := rfl

omit [Scalar F] in
theorem foldlM_closeSession (sessions : List String) {index : PrefixIndex F} (h : index.Leased) :
    ∃ closed, ∀ s : Simulator F, s.index = index →
      sessions.foldlM closeSession s = .ok { s with index := closed } := by
  induction sessions generalizing index with
  | nil => exact ⟨index,fun s hs => by rw [← hs]; rfl⟩
  | cons sid sessions ih =>
    obtain ⟨released,hreleased,hleased⟩ := PrefixIndex.releaseSession_eq_ok h sid
    obtain ⟨closed,hclosed⟩ := ih hleased
    refine ⟨closed,fun s hs => ?_⟩
    rw [List.foldlM_cons,closeSession,hs,hreleased]
    exact hclosed { s with index := released } rfl

omit [Scalar F] in
/-- Closing the sessions moves the index only, and by the index alone. -/
theorem closeSessions_eq_ok {index : PrefixIndex F} (h : index.Leased) :
    ∃ closed, ∀ s : Simulator F, s.index = index →
      s.closeSessions = .ok { s with index := closed } := by
  obtain ⟨closed,hclosed⟩ := foldlM_closeSession index.sessionPath.keys h
  refine ⟨closed,fun s hs => ?_⟩
  rw [closeSessions_eq_foldlM,hs]
  exact hclosed s hs

theorem closeSession_finalize {s closed : Simulator F} {sessionId : String}
    (h : s.closeSession sessionId = .ok closed) : closed.finalize = s.finalize := by
  rw [closeSession] at h
  split at h
  · cases h
  · rename_i index hreleased
    cases h
    simp only [finalize,PrefixIndex.releaseSession_invalidations hreleased]

theorem closeSessions_finalize {s closed : Simulator F} (h : s.closeSessions = .ok closed) :
    closed.finalize = s.finalize := by
  rw [closeSessions_eq_foldlM] at h
  revert h
  generalize s.index.sessionPath.keys = sessions
  induction sessions generalizing s with
  | nil =>
    intro h
    cases h
    rfl
  | cons sid sessions ih =>
    intro h
    rw [List.foldlM_cons] at h
    cases hfirst : s.closeSession sid with
    | error e =>
      rw [hfirst] at h
      cases h
    | ok next =>
      rw [hfirst] at h
      exact (ih h).trans (closeSession_finalize hfirst)

theorem after_all (s : Simulator F) (turns : List (Turn F)) :
    s.after turns turns.length = exec (s.schedule turns) s (inOrder turns) := by
  have hlength : (inOrder turns).length = turns.length := (sortedBy_perm _ turns).length_eq
  rw [after,← hlength,List.take_length]

theorem run_start (cfg : SimConfig F) (kind : PolicyKind F) (ram : TierConfig F)
    (turns : List (Turn F)) :
    (start cfg kind ram).run turns = .ok (exec ((start cfg kind ram).schedule turns)
      (start cfg kind ram) (inOrder turns)).finalize := by
  obtain ⟨closed,hclosed⟩ := closeSessions_eq_ok
    (exec_leased ((start cfg kind ram).schedule turns) cfg kind ram (inOrder turns))
  have hlast := hclosed (exec ((start cfg kind ram).schedule turns) (start cfg kind ram)
    (inOrder turns)) rfl
  rw [run,hlast,← closeSessions_finalize hlast]
  rfl

end Simulator
end ContextResidency
