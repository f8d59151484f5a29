import ContextResidency.FreePrefill

/-! Rollback. An aborted turn that shortens the path of its session files the keys it
drops as invalid, but nothing reads them again: a later turn that grows back over them
is served whatever copies the tiers still hold. -/
namespace ContextResidency

def BlockKey.index : BlockKey → ℤ
  | .root _ i => i
  | .priv _ i => i

/-- Past the first block, a key names its own position in the path. -/
def Positional (keys : List BlockKey) : Prop :=
  ∀ (j : ℕ) key, keys[j]? = some key → key.index ≤ j ∧ (0 < j → key.index = j)

theorem Positional.not_mem_of_drop {old keys : List BlockKey} (hold : Positional old)
    (hkeys : Positional keys) {key : BlockKey} (h : key ∈ old.drop keys.length) : key ∉ keys := by
  intro hmem
  obtain ⟨i,hi⟩ := List.mem_iff_getElem?.mp hmem
  obtain ⟨j,hj⟩ := List.mem_iff_getElem?.mp h
  rw [List.getElem?_drop] at hj
  have hlt : i < keys.length := (List.getElem?_eq_some_iff.mp hi).1
  have hnew := (hkeys i key hi).1
  have hpos := (hold _ key hj).2 (by omega)
  push_cast at hpos
  omega

section Chains

variable {mk : ℤ → BlockKey} {shared : Bool} {blockTokens base tokens : ℤ}

theorem segment_getElem (hbt : 1 ≤ blockTokens) {j : ℕ} {part : ChainPart}
    (h : (segment mk shared blockTokens base tokens)[j]? = some part) :
    ∃ i, part.key = mk i ∧ i ≤ base+j ∧ (0 ≤ tokens ∨ 0 < j → i = base+j) := by
  rw [segment,List.getElem?_append,List.length_map,List.length_range] at h
  split at h
  · rename_i hlt
    rw [List.getElem?_map,List.getElem?_range hlt] at h
    obtain rfl := Option.some.inj h
    exact ⟨base+j,rfl,le_rfl,fun _ => rfl⟩
  · rename_i hge
    split at h
    · simp at h
    · obtain ⟨hj,rfl⟩ := List.getElem?_eq_some_iff.mp h
      simp only [List.length_cons,List.length_nil] at hj
      refine ⟨base+tokens/blockTokens,by simp,by omega,fun hcase => ?_⟩
      have hpos : 0 ≤ tokens → 0 ≤ tokens/blockTokens := fun h => Int.ediv_nonneg h (by omega)
      have hneg : tokens < 0 → tokens/blockTokens < 0 := fun h => Int.ediv_neg_of_neg_of_pos h hbt
      omega

end Chains

variable {F : Type}

/-- The chains of the index are positional, also for sizes that make no sense. -/
theorem PrefixIndex.chain_positional (index : PrefixIndex F) (sessionId : String)
    (promptTokens sharedPrefixTokens : ℤ) (rootId : String) :
    Positional ((index.chain sessionId promptTokens sharedPrefixTokens rootId).map (·.key)) := by
  intro j key h
  obtain ⟨part,hpart,rfl⟩ := Option.map_eq_some_iff.mp (List.getElem?_map ▸ h)
  rw [chain,List.getElem?_append] at hpart
  split at hpart
  · obtain ⟨i,hkey,hle,heq⟩ := segment_getElem index.blockTokens_pos hpart
    rw [hkey]
    rw [zero_add] at hle heq
    exact ⟨hle,fun hj => heq (Or.inr hj)⟩
  · obtain ⟨i,hkey,hle,heq⟩ := segment_getElem index.blockTokens_pos hpart
    have hi := heq (Or.inl (by omega))
    rw [hkey]
    simp only [BlockKey.index]
    omega

namespace Simulator

def rolledBack (s : Simulator F) (turn : Turn F) : List BlockKey :=
  let old := (s.index.sessionPath.get turn.sessionId).getD []
  let keys := (s.parts turn).map (·.key)
  if turn.aborted ∧ keys.length < old.length then old.drop keys.length else []

variable [Scalar F]

theorem seenIndex_invalidations (s : Simulator F) (turn : Turn F) :
    (s.seenIndex turn).invalidations = s.index.invalidations ++ s.rolledBack turn :=
  (PrefixIndex.foldl_discardRef_frame _ _ _).2.2.2.1.trans
    (PrefixIndex.foldl_registerPart_frame _ _ _ _ _).2.2.2.1

/-- The paths that the sessions have on record are positional. -/
def PositionalPaths (s : Simulator F) : Prop :=
  ∀ sessionId keys, s.index.sessionPath.get sessionId = some keys → Positional keys

theorem one_positionalPaths (sched : Schedule F) {s : Simulator F} (h : s.PositionalPaths)
    (turn : Turn F) : (one sched s turn).PositionalPaths := by
  intro sessionId keys hkeys
  have hpath : (one sched s turn).index.sessionPath =
      s.index.sessionPath.set turn.sessionId (s.path turn) := by
    rw [one_index]
    exact PrefixIndex.touchPath_sessionPath _ _ _ _ _ _ _
  rw [hpath,Dict.get_set] at hkeys
  split at hkeys
  · obtain rfl := Option.some.inj hkeys
    exact PrefixIndex.chain_positional _ _ _ _ _
  · exact h sessionId keys hkeys

theorem exec_positionalPaths (sched : Schedule F) (cfg : SimConfig F) (kind : PolicyKind F)
    (ram : TierConfig F) (turns : List (Turn F)) :
    (exec sched (start cfg kind ram) turns).PositionalPaths := by
  refine List.foldlRecOn (motive := PositionalPaths) turns (one sched) ?_ fun _ h turn _ =>
    one_positionalPaths sched h turn
  intro sessionId keys hkeys
  simp [start,new,PrefixIndex.new] at hkeys

theorem not_mem_path_of_rolledBack {s : Simulator F} (h : s.PositionalPaths) {turn : Turn F}
    {key : BlockKey} (hkey : key ∈ s.rolledBack turn) : key ∉ s.path turn := by
  rw [rolledBack] at hkey
  split at hkey
  · cases hold : s.index.sessionPath.get turn.sessionId with
    | none => simp [hold] at hkey
    | some old =>
      rw [hold] at hkey
      exact (h _ _ hold).not_mem_of_drop (PrefixIndex.chain_positional _ _ _ _ _) hkey
  · simp at hkey

/-- The turn counts a block of its path as recomputed: it lies at or after the cut. -/
def Recomputes (s : Simulator F) (turn : Turn F) (key : BlockKey) : Prop :=
  key ∈ (s.path turn).drop (s.found turn).cut

instance (s : Simulator F) (turn : Turn F) (key : BlockKey) : Decidable (s.Recomputes turn key) :=
  inferInstanceAs (Decidable (key ∈ _))

theorem recomputes_iff_mem (s : Simulator F) (turn : Turn F) (key : BlockKey) :
    s.Recomputes turn key ↔ key ∈ (s.path turn).dropWhile fun k => s.Resident k := by
  have hcut := drop_scan_cut (s.observe turn).1 (s.observe turn).2
  exact iff_of_eq (congrArg (key ∈ ·) hcut)

theorem recomputes_iff {s : Simulator F} {turn : Turn F} {key : BlockKey}
    (hkey : key ∈ s.path turn) : s.Recomputes turn key ↔
      ∃ k ∈ (s.path turn).takeWhile (· ≠ key) ++ [key], ¬ s.Resident k := by
  rw [recomputes_iff_mem,mem_dropWhile_iff (path_nodup s turn) hkey]
  simp only [decide_eq_false_iff_not]

/-- Between two points of a run, no block becomes resident away from the paths. -/
theorem resident_of_untouched {s : Simulator F} {turns : List (Turn F)} {key : BlockKey}
    {i j : ℕ} (hij : i ≤ j) (huntouched : ∀ m, i ≤ m → m < j → ∀ turn,
      (inOrder turns)[m]? = some turn → key ∉ (s.after turns m).path turn)
    (h : (s.after turns j).Resident key) : (s.after turns i).Resident key := by
  induction j, hij using Nat.le_induction with
  | base => exact h
  | succ j hij ih =>
    refine ih (fun m him hmj => huntouched m him (by omega)) ?_
    cases hturn : (inOrder turns)[j]? with
    | none => rwa [after_of_done s hturn] at h
    | some turn =>
      rw [after_succ s hturn] at h
      exact (resident_one h).resolve_right (huntouched j hij (by omega) turn hturn)

/-- After an aborted turn has filed a block as invalid, the next turn that asks for it
recomputes it exactly when some block up to it is in neither tier. Otherwise it is served
the very copy that was resident when the abort discarded it. -/
theorem rollback_recomputes_iff (cfg : SimConfig F) (kind : PolicyKind F) (ram : TierConfig F)
    (turns : List (Turn F)) {i j : ℕ} {aborted next : Turn F} {key : BlockKey} (hij : i < j)
    (haborted : (inOrder turns)[i]? = some aborted)
    (hfiled : key ∈ ((start cfg kind ram).after turns i).rolledBack aborted)
    (huntouched : ∀ m, i < m → m < j → ∀ turn, (inOrder turns)[m]? = some turn →
      key ∉ ((start cfg kind ram).after turns m).path turn)
    (hasked : key ∈ ((start cfg kind ram).after turns j).path next) :
    (((start cfg kind ram).after turns j).Recomputes next key ↔
      ∃ k ∈ (((start cfg kind ram).after turns j).path next).takeWhile (· ≠ key) ++ [key],
        ¬ ((start cfg kind ram).after turns j).Resident k) ∧
    (¬ ((start cfg kind ram).after turns j).Recomputes next key →
      ((start cfg kind ram).after turns i).Resident key) := by
  refine ⟨recomputes_iff hasked,fun hserved => ?_⟩
  have hnow : ((start cfg kind ram).after turns j).Resident key := by
    by_contra hres
    exact hserved ((recomputes_iff hasked).mpr ⟨key,by simp,hres⟩)
  have hpositional : ((start cfg kind ram).after turns i).PositionalPaths :=
    exec_positionalPaths _ cfg kind ram _
  refine resident_of_untouched hij.le (fun m him hmj turn hturn => ?_) hnow
  rcases him.eq_or_lt with rfl | hlt
  · rw [haborted,Option.some.injEq] at hturn
    exact hturn ▸ not_mem_path_of_rolledBack hpositional hfiled
  · exact huntouched m hlt hmj turn hturn

/-- A session of 2000 tokens aborts back to 500 and then asks for 2000 again. -/
def abortedSession : List (Turn ℚ) :=
  [ask 0 "a" 2000,{ ask 1 "a" 500 with aborted := true },ask 2 "a" 2000]

theorem rollback_recomputes_iff_small :
    ((start (smallConfig 5000 5000) .lru (smallRam 5000)).after abortedSession 1).Resident
      (.priv "a" 1) :=
  (rollback_recomputes_iff (smallConfig 5000 5000) .lru (smallRam 5000) abortedSession
    (by decide : 1 < 2) rfl (by decide +kernel) (fun m hlo hhi => by omega)
    (by decide +kernel : _ ∈ ((start (smallConfig 5000 5000) .lru (smallRam 5000)).after
      abortedSession 2).path (ask 2 "a" 2000))).2 (by decide +kernel)

/-- The block that the abort discarded is served from HBM. -/
theorem rollback_reuses : ¬ ∀ (cfg : SimConfig ℚ) (kind : PolicyKind ℚ) (ram : TierConfig ℚ)
    (turns : List (Turn ℚ)), cfg.tier "ram" = some ram →
    ∀ (i j : ℕ) (aborted next : Turn ℚ) (key : BlockKey), i < j →
      (inOrder turns)[i]? = some aborted → (inOrder turns)[j]? = some next →
      key ∈ ((start cfg kind ram).after turns i).rolledBack aborted →
      (∀ m, i < m → m < j → ∀ turn, (inOrder turns)[m]? = some turn →
        key ∉ ((start cfg kind ram).after turns m).path turn) →
      key ∈ ((start cfg kind ram).after turns j).path next →
      ((start cfg kind ram).after turns j).Recomputes next key := by
  intro h
  have hlate := h (smallConfig 5000 5000) .lru (smallRam 5000) abortedSession rfl 1 2
    { ask 1 "a" 500 with aborted := true } (ask 2 "a" 2000) (.priv "a" 1) (by decide) rfl rfl
    (by decide +kernel) (fun m hlo hhi => by omega) (by decide +kernel)
  exact absurd hlate (by decide +kernel)

end Simulator
end ContextResidency
