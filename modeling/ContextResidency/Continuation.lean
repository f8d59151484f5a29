import ContextResidency.BlockRecords
import ContextResidency.ColdStart
import ContextResidency.Invalidations
import ContextResidency.PromptChains

/-! Sessions that go on. HBM never drops the path that a turn asks for, so a session that asks
again at once pays for what its prompt gained and nothing else, whatever the tiers hold. -/
namespace ContextResidency

variable {F : Type}

/-- The next turn asks in the namespaces of this one. -/
structure Turn.Continues (turn next : Turn F) : Prop where
  sessionId : next.sessionId = turn.sessionId
  role : next.role = turn.role
  sharedPrefixTokens : next.sharedPrefixTokens = turn.sharedPrefixTokens

/-- It asks for at least as much. -/
structure Turn.Grows (turn next : Turn F) : Prop extends turn.Continues next where
  promptTokens : turn.promptTokens ≤ next.promptTokens

/-- No size is negative. -/
structure Turn.Whole (turn : Turn F) : Prop where
  promptTokens : 0 ≤ turn.promptTokens
  sharedPrefixTokens : 0 ≤ turn.sharedPrefixTokens

/-- What a test drops from the front, and the rest, without what a stricter test drops. -/
theorem filter_takeWhile_append_dropWhile {α : Type*} {p q : α → Prop} [DecidablePred p]
    [DecidablePred q] (hpq : ∀ x, p x → q x) (l : List α) :
    ((l.takeWhile fun x => q x).filter (¬p ·) ++ l.dropWhile fun x => q x).Sublist
      (l.dropWhile fun x => p x) := by
  induction l with
  | nil => exact List.Sublist.refl _
  | cons x l ih =>
    by_cases hp : p x
    · simpa [hp,hpq x hp] using ih
    · have hstop : (x::l).dropWhile (fun x => p x) = x::l := by simp [hp]
      have hpart : (((x::l).takeWhile fun x => q x).filter (¬p ·)).Sublist _ := List.filter_sublist
      have hwhole := hpart.append (List.Sublist.refl ((x::l).dropWhile fun x => q x))
      rw [List.takeWhile_append_dropWhile] at hwhole
      rwa [hstop]

variable [Scalar F]

namespace Simulator

section Step

variable {s : Simulator F} {turn next : Turn F}

theorem path_initial (h : turn.Grows next) (hsize : turn.Whole) : s.path turn <+: s.path next := by
  have hkeys : (s.parts turn).map (·.key) <+: (s.parts next).map (·.key) := by
    rw [parts,parts,h.sessionId,h.role,h.sharedPrefixTokens]
    exact PrefixIndex.chain_keys_initial hsize.promptTokens hsize.sharedPrefixTokens h.promptTokens
  exact hkeys

theorem path_length : (s.path turn).length = turn.blocks s.index.blockTokens :=
  (List.length_map _).trans (parts_length s turn)

/-- The path of the next turn: blocks that this one asks for, and those that its prompt gained. -/
theorem exists_gained (h : turn.Continues next) (hsize : turn.Whole) (hnext : next.Whole) :
    ∃ front gained, s.path next = front ++ gained ∧ (∀ key ∈ front, key ∈ s.path turn) ∧
      (∀ key ∈ gained, key ∉ s.path turn) ∧
      gained.length = next.blocks s.index.blockTokens-turn.blocks s.index.blockTokens := by
  rw [← path_length,← path_length]
  cases le_total turn.promptTokens next.promptTokens with
  | inl hle =>
    obtain ⟨gained,hgained⟩ := path_initial (s := s) ⟨h,hle⟩ hsize
    have hn := path_nodup s next
    rw [← hgained] at hn ⊢
    refine ⟨s.path turn,gained,rfl,fun _ hkey => hkey,fun key hkey hold => ?_,by simp⟩
    exact (List.nodup_append.mp hn).2.2 key hold key hkey rfl
  | inr hle =>
    have hback : next.Grows turn :=
      ⟨⟨h.sessionId.symm,h.role.symm,h.sharedPrefixTokens.symm⟩,hle⟩
    have hinitial := path_initial (s := s) hback hnext
    refine ⟨s.path next,[],(List.append_nil _).symm,fun _ hkey => hinitial.subset hkey,
      List.forall_mem_nil _,?_⟩
    rw [Nat.sub_eq_zero_of_le hinitial.length_le,List.length_nil]

theorem restored_append_recomputed : (s.restored turn ++ (s.recomputed turn).map (·.key)).Sublist
    ((s.path turn).dropWhile fun key => key ∈ s.hbm.blocks) := by
  have hdrop : (s.path turn).drop (s.found turn).cut =
      (s.path turn).dropWhile fun key => s.Resident key :=
    drop_scan_cut (s.observe turn).1 (s.path turn)
  have hsplit : (s.path turn).take (s.found turn).cut ++ (s.path turn).drop (s.found turn).cut =
      ((s.path turn).takeWhile fun key => s.Resident key) ++
        (s.path turn).drop (s.found turn).cut := by
    rw [List.take_append_drop,hdrop,List.takeWhile_append_dropWhile]
  have htake := List.append_cancel_right hsplit
  have hrecomputed : (s.recomputed turn).map (·.key) =
      (s.path turn).dropWhile fun key => s.Resident key := by
    have hpath : s.path turn = (s.parts turn).map (·.key) := rfl
    rw [hpath,List.dropWhile_map]
    rfl
  rw [restored,htake,hrecomputed]
  exact filter_takeWhile_append_dropWhile (fun _ hheld => Or.inl hheld) (s.path turn)

theorem dropWhile_sublist {front gained : List BlockKey} (hpath : s.path turn = front ++ gained)
    (hheld : ∀ key ∈ front, key ∈ s.hbm.blocks) :
    ((s.path turn).dropWhile fun key => key ∈ s.hbm.blocks).Sublist gained := by
  rw [hpath,List.dropWhile_append_of_pos fun key hkey => decide_eq_true (hheld key hkey)]
  exact (List.dropWhile_suffix _).sublist

theorem mem_hbm_of_path (h : s.hbm.Counted) (sched : Schedule F) {key : BlockKey}
    (hkey : key ∈ s.path turn) : key ∈ (one sched s turn).hbm.blocks := by
  cases mem_hbm_or_departs sched turn (Or.inr hkey) h with
  | inl hheld => exact hheld
  | inr hdeparts =>
    have horderly : HBMTier.Orderly s.hbm.capacityBytes s.hbm.blocks.keys s.hbm := ⟨rfl,h,.refl _⟩
    have hfree := (horderly.stored ((s.path turn).map fun k => (k,(s.seenIndex turn).nbytesOf k))
      (s.path turn).toFinset).unprotected key ((mem_dropped sched turn h key).mpr hdeparts)
    exact absurd (List.mem_toFinset.mpr hkey) hfree

theorem one_path (sched : Schedule F) : (one sched s turn).path next = s.path next := by
  have hsize : (one sched s turn).index.blockTokens = s.index.blockTokens := by
    rw [one_index]
    exact PrefixIndex.touchPath_blockTokens _ _ _ _ _ _ _
  exact congrArg (List.map (·.key)) (PrefixIndex.chain_congr hsize _ _ _ _)

end Step

/-- Whatever came before, and whatever the tiers hold, a session that asks again at once restores
and recomputes no block of its last turn, and no more blocks than its prompt gained. -/
theorem asked_again_gained (cfg : SimConfig F) (kind : PolicyKind F) (ram : TierConfig F)
    (turns : List (Turn F)) {n : ℕ} {turn next : Turn F} (hturn : (inOrder turns)[n]? = some turn)
    (h : turn.Continues next) (hsize : turn.Whole) (hnext : next.Whole) :
    let s := (start cfg kind ram).after turns (n+1)
    let missed := s.restored next ++ (s.recomputed next).map (·.key)
    (∀ key ∈ missed, key ∉ s.path turn) ∧
      missed.length ≤ next.blocks (max 1 cfg.blockTokens)-turn.blocks (max 1 cfg.blockTokens) := by
  intro s missed
  have hlast := after_succ (start cfg kind ram) hturn
  have hsize' : s.index.blockTokens = max 1 cfg.blockTokens :=
    (exec_remembers ((start cfg kind ram).schedule turns) cfg kind ram
      ((inOrder turns).take (n+1))).size
  have hheld : ∀ key ∈ s.path turn, key ∈ s.hbm.blocks := by
    intro key hkey
    have hpath : key ∈ ((start cfg kind ram).after turns n).path turn := by
      rwa [← one_path ((start cfg kind ram).schedule turns),← hlast]
    show key ∈ ((start cfg kind ram).after turns (n+1)).hbm.blocks
    rw [hlast]
    exact mem_hbm_of_path (after_hbm_counted cfg kind ram turns n) _ hpath
  obtain ⟨front,gained,hpath,hfront,hnew,hlength⟩ := exists_gained (s := s) h hsize hnext
  have hgained : missed.Sublist gained :=
    restored_append_recomputed.trans (dropWhile_sublist hpath fun key hkey =>
      hheld key (hfront key hkey))
  refine ⟨fun key hkey => hnew key (hgained.subset hkey),?_⟩
  rw [← hsize',← hlength]
  exact hgained.length_le

/-- No tier has room for a block. The session asks for three, then for four. -/
theorem asked_again_gained_small :
    let s := (start (smallConfig 0 0) .lru (smallRam 0)).after [ask 0 "b" 800,ask 1 "a" 2500] 2
    (s.restored (ask 2 "a" 3200) ++ (s.recomputed (ask 2 "a" 3200)).map (·.key)).length ≤ 1 :=
  (asked_again_gained (smallConfig 0 0) .lru (smallRam 0) [ask 0 "b" 800,ask 1 "a" 2500]
    (rfl : (inOrder [ask 0 "b" 800,ask 1 "a" 2500])[1]? = some (ask 1 "a" 2500))
    (⟨rfl,rfl,rfl⟩ : (ask 1 "a" 2500).Continues (ask 2 "a" 3200)) ⟨by decide,by decide⟩
    ⟨by decide,by decide⟩).2

/-- A run in which every turn asks in the namespaces of the ones before it, for at least as
much. The blocks on record are a front part of whatever such a turn asks for, and in HBM. -/
structure Alone (past : List (Simulator F × Turn F)) (s : Simulator F) : Prop where
  counted : s.hbm.Counted
  registered : s.Registered
  known : ∃ front, (∀ key, key ∈ s.index.blocks ↔ key ∈ front) ∧
    ∀ next, (∀ visit ∈ past, visit.2.Grows next) → front <+: s.path next
  held : ∀ key ∈ s.index.blocks, key ∈ s.hbm.blocks
  learned : ∀ visit ∈ past, visit.1.forgotten visit.2 = []
  restored : ∀ m ∈ s.metrics, m.restoreBytes = 0
  thrash : s.thrash = 0

section Alone

variable {past : List (Simulator F × Turn F)} {s : Simulator F} (h : Alone past s) {turn : Turn F}

include h

theorem Alone.restored_eq_nil : s.restored turn = [] := by
  refine List.eq_nil_iff_forall_not_mem.mpr fun key hkey => ?_
  obtain ⟨hhost,hout⟩ := mem_restored hkey
  exact hout (h.held key (h.registered key (Or.inr hhost)))

theorem Alone.forgotten_eq_nil (hgrows : ∀ visit ∈ past, visit.2.Grows turn) :
    s.forgotten turn = [] := by
  obtain ⟨front,hknown,hfront⟩ := h.known
  obtain ⟨gained,hpath⟩ := hfront turn hgrows
  refine List.filter_eq_nil_iff.mpr fun key hkey hold => ?_
  have hold : key ∈ front := (hknown key).mp (of_decide_eq_true hold)
  have hgained : key ∈ gained := by
    refine (dropWhile_sublist hpath.symm fun key hkey =>
      h.held key ((hknown key).mpr hkey)).subset ?_
    exact restored_append_recomputed.subset (List.mem_append_right _ hkey)
  have hn := path_nodup s turn
  rw [← hpath] at hn
  exact (List.nodup_append.mp hn).2.2 key hold key hgained rfl

theorem Alone.one (sched : Schedule F) (hsize : turn.Whole)
    (hgrows : ∀ visit ∈ past, visit.2.Grows turn) :
    Alone (past ++ [(s,turn)]) (one sched s turn) := by
  obtain ⟨front,hknown,hfront⟩ := h.known
  have hrecorded : ∀ key, key ∈ (Simulator.one sched s turn).index.blocks ↔ key ∈ s.path turn := by
    intro key
    rw [one_index,mem_seenIndex,hknown]
    exact ⟨fun hkey => hkey.elim id fun hold => (hfront turn hgrows).subset hold,Or.inl⟩
  obtain ⟨_,hbytes,hrecent⟩ := scan_eq (s.observe turn).1 (s.path turn)
  have hnone : ((s.path turn).take ((s.observe turn).1.scan (s.path turn)).cut).filter
      (· ∉ (s.observe turn).1.hbm.blocks) = [] := h.restored_eq_nil
  rw [hnone] at hbytes hrecent
  constructor
  case counted =>
    rw [one_hbm]
    exact HBMTier.store_counted h.counted _ _
  case registered => exact one_registered sched h.registered turn
  case known =>
    refine ⟨s.path turn,hrecorded,fun next hnext => ?_⟩
    rw [one_path]
    exact path_initial (hnext (s,turn) (by simp)) hsize
  case held =>
    intro key hkey
    exact mem_hbm_of_path h.counted sched ((hrecorded key).mp hkey)
  case learned =>
    exact List.forall_mem_append.mpr
      ⟨h.learned,List.forall_mem_singleton.mpr (h.forgotten_eq_nil hgrows)⟩
  case restored =>
    rw [one_metrics]
    exact List.forall_mem_append.mpr ⟨h.restored,List.forall_mem_singleton.mpr hbytes⟩
  case thrash =>
    show s.thrash+(s.found turn).thrash = 0
    rw [h.thrash]
    exact (zero_add _).trans hrecent

end Alone

theorem exec_alone (sched : Schedule F) (cfg : SimConfig F) (kind : PolicyKind F)
    (ram : TierConfig F) {turns : List (Turn F)} (hsize : ∀ turn ∈ turns, turn.Whole)
    (hgrows : turns.Pairwise Turn.Grows) :
    Alone (visits (one sched) (start cfg kind ram) turns)
      (exec sched (start cfg kind ram) turns) := by
  induction turns using List.reverseRecOn with
  | nil =>
    constructor
    case counted => rfl
    case registered => exact start_registered cfg kind ram
    case known => exact ⟨[],fun _ => iff_of_false (Dict.not_mem_empty _) List.not_mem_nil,
        fun _ _ => List.nil_prefix⟩
    case held => exact fun key hkey => absurd hkey (Dict.not_mem_empty key)
    case learned => exact List.forall_mem_nil _
    case restored => exact List.forall_mem_nil _
    case thrash => rfl
  | append_singleton turns turn ih =>
    obtain ⟨hfirst,_,hlast⟩ := List.pairwise_append.mp hgrows
    obtain ⟨hsizes,hsize⟩ := List.forall_mem_append.mp hsize
    rw [visits_append,exec_append]
    refine (ih hsizes hfirst).one sched (hsize turn (by simp)) fun visit hvisit => ?_
    have hinput : visit.2 ∈ turns := by
      rw [← visits_inputs (Simulator.one sched) (start cfg kind ram) turns]
      exact List.mem_map_of_mem hvisit
    exact hlast visit.2 hinput turn (by simp)

theorem Alone.totalRecompute {cfg : SimConfig F} {kind : PolicyKind F} {ram : TierConfig F}
    {turns : List (Turn F)} {n : ℕ} (h : Alone ((start cfg kind ram).visited turns n)
      ((start cfg kind ram).after turns n)) :
    ((start cfg kind ram).after turns n).totalRecompute = coldStart cfg turns n := by
  have hstart : (start cfg kind ram).totalRecompute = 0 := rfl
  rw [totalRecompute_eq_sum,hstart,zero_add,coldStart_eq_sum cfg kind ram]
  refine congrArg List.sum (List.map_congr_left fun visit hvisit => ?_)
  have hregistered := visited_registered cfg kind ram turns n visit hvisit
  rw [recomputeTokens_eq_unseen_add visit.2 hregistered,
    (relearned_eq_zero visit.2).mpr (h.learned visit hvisit),add_zero]

end Simulator

open Simulator in
/-- A session alone, whose prompts only grow, pays the floor under every policy, whatever the
sizes of HBM and the host tier: nothing is computed twice, and nothing is ever restored. -/
theorem runPolicy_alone {cfg : SimConfig F} {turns : List (Turn F)} {name : String}
    {report : Report F} (h : runPolicy cfg turns name = .ok report)
    (hsize : ∀ turn ∈ turns, turn.Whole) (hgrows : (inOrder turns).Pairwise Turn.Grows) :
    report.recomputeTokens = coldStart cfg turns turns.length ∧ report.restoreBytes = 0 ∧
      report.transferSeconds = 0 ∧ report.thrash = 0 := by
  obtain ⟨p,_,_,ram,_,rfl⟩ := runPolicy_eq_ok h
  rw [← after_all]
  have hsizes : ∀ turn ∈ (inOrder turns).take turns.length, turn.Whole := fun turn hturn =>
    hsize turn ((sortedBy_perm _ turns).mem_iff.mp (List.mem_of_mem_take hturn))
  have halone : Alone ((start cfg p.2 ram).visited turns turns.length)
      ((start cfg p.2 ram).after turns turns.length) :=
    exec_alone _ cfg p.2 ram hsizes (hgrows.sublist (List.take_sublist _ _))
  have hrestored : (((start cfg p.2 ram).after turns turns.length).metrics.map
      (·.restoreBytes)).sum = 0 := by
    refine List.sum_eq_zero fun nbytes hnbytes => ?_
    obtain ⟨m,hm,rfl⟩ := List.mem_map.mp hnbytes
    exact halone.restored m hm
  refine ⟨halone.totalRecompute,hrestored,?_,halone.thrash⟩
  show TierConfig.restoreSeconds _ _ = 0
  rw [hrestored,TierConfig.restoreSeconds,if_pos le_rfl]

open Simulator in
/-- The second prompt pays for its third block alone. -/
theorem runPolicy_alone_small : ∃ report,
    runPolicy (smallConfig 0 0) [ask 0 "a" 1500,ask 1 "a" 2500] "lru" = .ok report ∧
      report.recomputeTokens = 2000 ∧ report.restoreBytes = 0 := by
  have hsize : ∀ turn ∈ [ask 0 "a" 1500,ask 1 "a" 2500], turn.Whole := by
    simp only [List.forall_mem_cons]
    exact ⟨⟨by decide,by decide⟩,⟨by decide,by decide⟩,List.forall_mem_nil _⟩
  have hgrows : (inOrder [ask 0 "a" 1500,ask 1 "a" 2500]).Pairwise Turn.Grows :=
    List.pairwise_pair.mpr ⟨⟨rfl,rfl,rfl⟩,by decide⟩
  cases h : runPolicy (smallConfig 0 0) [ask 0 "a" 1500,ask 1 "a" 2500] "lru" with
  | error e =>
    have hok : (runPolicy (smallConfig 0 0) [ask 0 "a" 1500,ask 1 "a" 2500] "lru").toBool =
        true := by decide +kernel
    rw [h] at hok
    cases hok
  | ok report =>
    obtain ⟨hfloor,hrestored,_,_⟩ := runPolicy_alone h hsize hgrows
    exact ⟨report,rfl,hfloor.trans (by decide +kernel),hrestored⟩

end ContextResidency
