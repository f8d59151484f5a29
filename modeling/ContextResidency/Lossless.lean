import ContextResidency.ColdStart

/-! A host tier that holds the working set with room to spare. Nothing that was asked for is
ever lost, so every policy pays for what lies behind the first new block of each prompt. -/
namespace ContextResidency

variable {F : Type} [Scalar F]

/-- The parts of the chain of a turn from the first one on that was never asked for. -/
def PrefixIndex.fromUnseen (index : PrefixIndex F) (turn : Turn F) : List ChainPart :=
  (index.chain turn.sessionId turn.promptTokens turn.sharedPrefixTokens
    s!"root:{turn.role}").dropWhile (·.key ∈ index.blocks)

/-- The tokens of these parts over the turns of a trace; the tiers have no part in it. -/
def compulsory (cfg : SimConfig F) (turns : List (Turn F)) (n : ℕ) : ℤ :=
  ((visits PrefixIndex.observeTurn (.new cfg.blockTokens cfg.cost) ((inOrder turns).take n)).map
    fun visit => ((visit.1.fromUnseen visit.2).map fun part =>
      (visit.1.observeTurn visit.2).tokensOf part.key).sum).sum

theorem compulsory_succ (cfg : SimConfig F) {turns : List (Turn F)} {n : ℕ} {turn : Turn F}
    (hturn : (inOrder turns)[n]? = some turn) : compulsory cfg turns (n+1) =
      compulsory cfg turns n+(((registered cfg turns n).fromUnseen turn).map fun part =>
        ((registered cfg turns n).observeTurn turn).tokensOf part.key).sum := by
  rw [compulsory,List.take_add_one,hturn,Option.toList_some,visits_append,List.map_append,
    List.sum_append]
  exact congrArg (compulsory cfg turns n+·) List.sum_singleton

namespace Simulator

def Lossless (s : Simulator F) : Prop := ∀ key ∈ s.index.blocks, key ∈ s.policy.entries

theorem one_lossless {S : Finset BlockKey} {size : BlockKey → ℤ} {s : Simulator F} {turn : Turn F}
    (h : Uncrowded S size s) (hasks : Asks S size s turn) (sched : Schedule F)
    (hkept : s.Lossless) : (one sched s turn).Lossless := by
  intro key hkey
  rw [mem_iff_sizes,(one_uncontended h hasks sched).2,List.map_append,List.mem_append]
  have hheld : key ∈ s.policy.entries ∨ key ∈ s.path turn := by
    rw [one_index,mem_seenIndex] at hkey
    exact hkey.symm.imp_left (hkept key)
  by_cases hold : key ∈ s.policy.entries
  · exact Or.inl (mem_iff_sizes.mp hold)
  · have hmissing : (key,(s.filled turn).index.nbytesOf key) ∈
        (s.filled turn).missing (s.path turn) := by
      refine List.mem_map.mpr ⟨key,List.mem_filter.mpr ⟨hheld.resolve_left hold,?_⟩,rfl⟩
      rw [filled_policy,TierPolicy.get,Dict.get_eq_none.mpr hold]
      rfl
    exact Or.inr (List.mem_map_of_mem hmissing)

omit [Scalar F] in
theorem Lossless.resident_iff {s : Simulator F} (h : s.Lossless) (hregistered : s.Registered)
    (key : BlockKey) : s.Resident key ↔ key ∈ s.index.blocks :=
  ⟨hregistered key,fun hkey => Or.inr (h key hkey)⟩

theorem Lossless.recomputeTokens {s : Simulator F} (h : s.Lossless) (hregistered : s.Registered)
    (turn : Turn F) : s.recomputeTokens turn =
      ((s.index.fromUnseen turn).map fun part =>
        (s.index.observeTurn turn).tokensOf part.key).sum := by
  have hpath : s.path turn = (s.parts turn).map (·.key) := rfl
  rw [recomputeTokens_eq,hpath,List.dropWhile_map,List.map_map]
  simp only [Function.comp_def,h.resident_iff hregistered]
  rfl

section Runs

variable (cfg : SimConfig F) (kind : PolicyKind F) (ram : TierConfig F) (turns : List (Turn F))
  (hkv : 0 < cfg.cost.kvBytesPerToken)
  (hroom : (workingSet cfg turns : F) < 9/10*ram.bytesCapacity)
include hkv hroom

theorem after_lossless (n : ℕ) : ((start cfg kind ram).after turns n).Lossless := by
  induction n with
  | zero => exact fun key hkey => absurd hkey (Dict.not_mem_empty key)
  | succ n ih =>
    cases hturn : (inOrder turns)[n]? with
    | none =>
      rw [after_of_done _ hturn]
      exact ih
    | some turn =>
      rw [after_succ _ hturn]
      exact one_lossless (after_uncrowded cfg kind ram turns hkv hroom n)
        (after_asks cfg kind ram turns hturn) _ ih

theorem after_totalRecompute (n : ℕ) :
    ((start cfg kind ram).after turns n).totalRecompute = compulsory cfg turns n := by
  induction n with
  | zero => rfl
  | succ n ih =>
    cases hturn : (inOrder turns)[n]? with
    | none =>
      have htake : (inOrder turns).take (n+1) = (inOrder turns).take n := by
        rw [List.take_add_one,hturn,Option.toList_none,List.append_nil]
      rw [after_of_done _ hturn,ih,compulsory,compulsory,htake]
    | some turn =>
      have hkept := after_lossless cfg kind ram turns hkv hroom n
      have hregistered := exec_registered ((start cfg kind ram).schedule turns)
        (start_registered cfg kind ram) ((inOrder turns).take n)
      rw [after_succ _ hturn,one_totalRecompute,ih,compulsory_succ cfg hturn,
        ← after_index cfg kind ram]
      exact congrArg _ (hkept.recomputeTokens hregistered turn)

theorem after_resident_iff (n : ℕ) (key : BlockKey) :
    ((start cfg kind ram).after turns n).Resident key ↔ key ∈ (registered cfg turns n).blocks := by
  have hregistered := exec_registered ((start cfg kind ram).schedule turns)
    (start_registered cfg kind ram) ((inOrder turns).take n)
  rw [← after_index cfg kind ram]
  exact (after_lossless cfg kind ram turns hkv hroom n).resident_iff hregistered key

/-- Whatever was asked for stays resident, and the bill is what the trace alone makes
unavoidable, under every policy and after every number of turns. -/
theorem lossless_compulsory (n : ℕ) :
    (∀ key, ((start cfg kind ram).after turns n).Resident key ↔
      key ∈ (registered cfg turns n).blocks) ∧
    ((start cfg kind ram).after turns n).totalRecompute = compulsory cfg turns n :=
  ⟨after_resident_iff cfg kind ram turns hkv hroom n,
    after_totalRecompute cfg kind ram turns hkv hroom n⟩

end Runs

theorem lossless_compulsory_small :
    ((start (smallConfig 1000 5000) .lfu (smallRam 5000)).after
      [ask 0 "a" 1500,ask 1 "b" 900,ask 2 "a" 2500] 3).totalRecompute = 2900 :=
  (lossless_compulsory (smallConfig 1000 5000) .lfu (smallRam 5000)
    [ask 0 "a" 1500,ask 1 "b" 900,ask 2 "a" 2500] (by decide +kernel) (by decide +kernel) 3).2.trans
      (by decide +kernel)

end Simulator
end ContextResidency
