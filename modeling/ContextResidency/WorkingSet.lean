import ContextResidency.Uncontended

/-! The working set of a trace, and what follows when the host tier holds it with room
to spare: the choice of the policy is immaterial. -/
namespace ContextResidency

variable {F : Type} [Scalar F]

/-- The index after the first turns of a trace; the tiers have no part in it. -/
def registered (cfg : SimConfig F) (turns : List (Turn F)) (n : ℕ) : PrefixIndex F :=
  ((inOrder turns).take n).foldl (fun index turn => (index.touchPath turn.sessionId turn.role
    turn.promptTokens turn.sharedPrefixTokens turn.t turn.aborted).1)
    (.new cfg.blockTokens cfg.cost)

/-- The largest size that a block reaches in a run. -/
def largest (cfg : SimConfig F) (turns : List (Turn F)) (key : BlockKey) : ℤ :=
  ((List.range (turns.length+1)).map fun n => (registered cfg turns n).nbytesOf key).foldr max 0

def everyBlock (cfg : SimConfig F) (turns : List (Turn F)) : Finset BlockKey :=
  (registered cfg turns turns.length).blocks.keys.toFinset

/-- The bytes of all blocks of a run, each at its largest. -/
def workingSet (cfg : SimConfig F) (turns : List (Turn F)) : ℤ :=
  ∑ key ∈ everyBlock cfg turns, largest cfg turns key

theorem registered_succ (cfg : SimConfig F) {turns : List (Turn F)} {n : ℕ} {turn : Turn F}
    (hturn : (inOrder turns)[n]? = some turn) : registered cfg turns (n+1) =
      ((registered cfg turns n).touchPath turn.sessionId turn.role turn.promptTokens
        turn.sharedPrefixTokens turn.t turn.aborted).1 := by
  rw [registered,List.take_add_one,hturn,Option.toList_some,List.foldl_append]
  rfl

theorem mem_registered (cfg : SimConfig F) (turns : List (Turn F)) {key : BlockKey} {m n : ℕ}
    (hmn : m ≤ n) (h : key ∈ (registered cfg turns m).blocks) :
    key ∈ (registered cfg turns n).blocks := by
  induction n, hmn using Nat.le_induction with
  | base => exact h
  | succ n hmn ih =>
    cases hturn : (inOrder turns)[n]? with
    | none =>
      rw [registered,List.take_add_one,hturn,Option.toList_none,List.append_nil]
      exact ih
    | some turn =>
      rw [registered_succ cfg hturn,PrefixIndex.mem_blocks_touchPath]
      exact Or.inr ih

theorem foldr_max_nonneg (ns : List ℤ) : 0 ≤ ns.foldr max 0 := by
  induction ns with
  | nil => exact le_rfl
  | cons n ns ih => exact ih.trans (le_max_right _ _)

theorem le_foldr_max {ns : List ℤ} {n : ℤ} (h : n ∈ ns) : n ≤ ns.foldr max 0 := by
  induction ns with
  | nil => simp at h
  | cons m ns ih =>
    rcases List.mem_cons.mp h with rfl | h
    · exact le_max_left _ _
    · exact (ih h).trans (le_max_right _ _)

theorem le_largest (cfg : SimConfig F) (turns : List (Turn F)) (key : BlockKey) {n : ℕ}
    (hn : n ≤ turns.length) : (registered cfg turns n).nbytesOf key ≤ largest cfg turns key := by
  apply le_foldr_max
  exact List.mem_map.mpr ⟨n,List.mem_range.mpr (by omega),rfl⟩

namespace Simulator

theorem after_index (cfg : SimConfig F) (kind : PolicyKind F) (ram : TierConfig F)
    (turns : List (Turn F)) (n : ℕ) :
    ((start cfg kind ram).after turns n).index = registered cfg turns n :=
  run_simulation (R := fun (s : Simulator F) index => s.index = index)
    (fun s index turn hindex => by rw [one_index,← hindex]; rfl) rfl _

section Trace

variable (cfg : SimConfig F) (kind kind' : PolicyKind F) (ram : TierConfig F)
  (turns : List (Turn F))

theorem after_asks {n : ℕ} {turn : Turn F} (hturn : (inOrder turns)[n]? = some turn) :
    Asks (everyBlock cfg turns) (largest cfg turns) ((start cfg kind ram).after turns n) turn := by
  have hlength : (inOrder turns).length = turns.length := (sortedBy_perm _ turns).length_eq
  have hn : n+1 ≤ turns.length := by
    have hlt := (List.getElem?_eq_some_iff.mp hturn).1
    omega
  have hseen : ((start cfg kind ram).after turns n).seenIndex turn = registered cfg turns (n+1) := by
    rw [← after_index cfg kind ram,after_succ _ hturn,one_index]
  intro key hkey
  constructor
  · have hmem : key ∈ (registered cfg turns (n+1)).blocks := by
      rw [← hseen,mem_seenIndex]
      exact Or.inl hkey
    exact List.mem_toFinset.mpr (mem_registered cfg turns hn hmem)
  · rw [hseen]
    exact le_largest cfg turns key hn

variable (hkv : 0 < cfg.cost.kvBytesPerToken)
  (hroom : (workingSet cfg turns : F) < 9/10*ram.bytesCapacity)
include hkv hroom

theorem after_uncrowded (n : ℕ) : Uncrowded (everyBlock cfg turns) (largest cfg turns)
    ((start cfg kind ram).after turns n) := by
  induction n with
  | zero =>
    exact ⟨hkv.le,PrefixIndex.new_sized _ _,fun _ => foldr_max_nonneg _,
      by simp [after,exec,sizes_start],
      rfl,rfl,hroom⟩
  | succ n ih =>
    cases hturn : (inOrder turns)[n]? with
    | none =>
      rw [after_of_done _ hturn]
      exact ih
    | some turn =>
      rw [after_succ _ hturn]
      exact one_uncrowded ih (after_asks cfg kind ram turns hturn) _

/-- No turn of the run asks the policy to evict. -/
theorem after_evicts_nothing {n : ℕ} {turn : Turn F} (hturn : (inOrder turns)[n]? = some turn) :
    (((start cfg kind ram).after turns n).filled turn).evictRequest
      (((start cfg kind ram).after turns n).path turn) = none :=
  (one_uncontended (after_uncrowded cfg kind ram turns hkv hroom n)
    (after_asks cfg kind ram turns hturn) .empty).1

theorem after_alike (n : ℕ) :
    Alike ((start cfg kind ram).after turns n) ((start cfg kind' ram).after turns n) := by
  induction n with
  | zero => exact ⟨rfl,rfl⟩
  | succ n ih =>
    cases hturn : (inOrder turns)[n]? with
    | none =>
      rw [after_of_done _ hturn,after_of_done _ hturn]
      exact ih
    | some turn =>
      have hs := after_uncrowded cfg kind ram turns hkv hroom n
      have ht := after_uncrowded cfg kind' ram turns hkv hroom n
      have hsasks := after_asks cfg kind ram turns hturn
      have htasks := after_asks cfg kind' ram turns hturn
      have hindex : ((start cfg kind' ram).after turns n).index =
          ((start cfg kind ram).after turns n).index := by rw [after_index,after_index]
      rw [after_succ _ hturn,after_succ _ hturn]
      refine one_alike ih hs.left (after_evicts_nothing cfg kind ram turns hkv hroom hturn)
        (after_evicts_nothing cfg kind' ram turns hkv hroom hturn) ?_
      have hmissing := missing_congr_sizes
        (s := ((start cfg kind ram).after turns n).filled turn)
        (t := ((start cfg kind' ram).after turns n).filled turn)
        (by rw [filled_policy,filled_policy,ih.same])
        (by rw [filled_index,filled_index,seenIndex_congr hindex])
        (((start cfg kind ram).after turns n).path turn)
      rw [(one_uncontended ht htasks _).2,(one_uncontended hs hsasks _).2,ih.same,
        path_congr hindex,hmissing]

end Trace

theorem report_of_alike {s t : Simulator F} (h : Alike s t) (hleased : s.index.Leased) :
    ∃ report, s.closeSessions.map finalize = .ok report ∧
      t.closeSessions.map finalize = .ok { report with policy := t.policy.kind.name } := by
  obtain ⟨closed,hclosed⟩ := closeSessions_eq_ok hleased
  obtain ⟨policy,rfl⟩ : ∃ policy, t = { s with policy := policy } := ⟨_,h.rest⟩
  rw [hclosed s rfl,hclosed { s with policy := policy } rfl]
  exact ⟨_,rfl,rfl⟩

theorem run_eq_after (s : Simulator F) (turns : List (Turn F)) :
    s.run turns = (s.after turns turns.length).closeSessions.map finalize := by
  have hlength : (inOrder turns).length = turns.length := (sortedBy_perm _ turns).length_eq
  rw [run,after,← hlength,List.take_length]

end Simulator

theorem build_name {p : String × PolicyKind F} (hp : p ∈ POLICIES (F := F)) (capacity : ℤ) :
    build p.1 capacity = .ok (.new p.2 capacity) := by
  simp only [POLICIES,List.map_cons,List.map_nil,List.mem_cons,List.not_mem_nil,or_false] at hp
  rcases hp with rfl | rfl | rfl | rfl | rfl | rfl <;> rfl

theorem runPolicy_name {cfg : SimConfig F} {ram : TierConfig F} (hram : cfg.tier "ram" = some ram)
    (turns : List (Turn F)) {p : String × PolicyKind F} (hp : p ∈ POLICIES (F := F)) :
    runPolicy cfg turns p.1 = (Simulator.start cfg p.2 ram).run turns := by
  rw [runPolicy,hram]
  simp only [build_name hp]
  rfl

theorem name_of_mem {p : String × PolicyKind F} (hp : p ∈ POLICIES (F := F)) :
    p.2.name = p.1 := by
  obtain ⟨kind,_,rfl⟩ := List.mem_map.mp hp
  rfl

open Simulator in
/-- A trace whose working set stays below nine tenths of the host tier: none of the
policies ever evicts, and all of them report the same, their names apart. -/
theorem uncontended_policies_agree (cfg : SimConfig F) (ram : TierConfig F)
    (turns : List (Turn F)) (hram : cfg.tier "ram" = some ram)
    (hkv : 0 < cfg.cost.kvBytesPerToken)
    (hroom : (workingSet cfg turns : F) < 9/10*ram.bytesCapacity) :
    (∀ p ∈ POLICIES (F := F), ∀ n turn, (inOrder turns)[n]? = some turn →
      (((start cfg p.2 ram).after turns n).filled turn).evictRequest
        (((start cfg p.2 ram).after turns n).path turn) = none) ∧
    ∃ report : Report F, ∀ p ∈ POLICIES (F := F),
      runPolicy cfg turns p.1 = .ok { report with policy := p.1 } := by
  refine ⟨fun p _ n turn hturn => after_evicts_nothing cfg p.2 ram turns hkv hroom hturn,?_⟩
  have hleased : ((start cfg .lru ram).after turns turns.length).index.Leased :=
    exec_leased _ cfg .lru ram _
  obtain ⟨report,hreport,_⟩ := report_of_alike
    (after_alike cfg .lru .lru ram turns hkv hroom turns.length) hleased
  refine ⟨report,fun p hp => ?_⟩
  obtain ⟨report',hlru,hreport'⟩ := report_of_alike
    (after_alike cfg .lru p.2 ram turns hkv hroom turns.length) hleased
  have hsame : report' = report := by
    rw [hreport] at hlru
    exact (Except.ok.inj hlru).symm
  rw [runPolicy_name hram turns hp,run_eq_after,hreport',hsame,after_kind,name_of_mem hp]

open Simulator in
theorem uncontended_policies_agree_small :
    ∃ report : Report ℚ, ∀ p ∈ POLICIES (F := ℚ),
      runPolicy (smallConfig 1000 5000) [ask 0 "a" 1500,ask 1 "b" 900,ask 2 "a" 2500] p.1 =
        .ok { report with policy := p.1 } :=
  (uncontended_policies_agree (smallConfig 1000 5000) (smallRam 5000)
    [ask 0 "a" 1500,ask 1 "b" 900,ask 2 "a" 2500] rfl (by decide +kernel) (by decide +kernel)).2

end ContextResidency
