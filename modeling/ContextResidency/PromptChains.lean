import ContextResidency.Chains
import ContextResidency.Library.Labels

/-! Prompts and the strings that name their blocks. Distinct keys are filed under distinct
strings, whatever the session and the role are called. The chain of a prompt partitions it,
and a longer prompt extends the chain. -/
namespace ContextResidency

namespace BlockKey

theorem render_root (rootId : String) (i : ℤ) : (root rootId i).render = label rootId 'b' i := by
  simp only [render,label,String.append_assoc]
  rfl

theorem render_priv (sessionId : String) (i : ℤ) :
    (priv sessionId i).render = label sessionId 'p' i := by
  simp only [render,label,String.append_assoc]
  rfl

theorem render_injective : Function.Injective render := by
  intro key key' h
  cases key with
  | root rootId i =>
    cases key' with
    | root rootId' i' =>
      rw [render_root,render_root,label_inj (by decide) (by decide)] at h
      rw [h.1,h.2.2]
    | priv sessionId i' =>
      rw [render_root,render_priv,label_inj (by decide) (by decide)] at h
      exact absurd h.2.1 (by decide)
  | priv sessionId i =>
    cases key' with
    | root rootId i' =>
      rw [render_priv,render_root,label_inj (by decide) (by decide)] at h
      exact absurd h.2.1 (by decide)
    | priv sessionId' i' =>
      rw [render_priv,render_priv,label_inj (by decide) (by decide)] at h
      rw [h.1,h.2.2]

end BlockKey

/-- Blocks of distinct names that partition a prompt, the shared ones first, where only the
last shared block and the last block may be partial. -/
structure Partitions (parts : List ChainPart) (blockTokens sharedTokens tokens : ℤ) : Prop where
  distinct : (parts.map fun part => part.key.render).Nodup
  sized : ∀ part ∈ parts, 1 ≤ part.tokens ∧ part.tokens ≤ blockTokens
  sharedFirst : parts = parts.filter (·.shared) ++ parts.filter fun part => ¬ part.shared
  sharedSum : ((parts.filter (·.shared)).map (·.tokens)).sum = sharedTokens
  sum : (parts.map (·.tokens)).sum = tokens
  full : ∀ part ∈ (parts.filter (·.shared)).dropLast ++
    (parts.filter fun part => ¬ part.shared).dropLast, part.tokens = blockTokens

/-- A chain that starts with the blocks of another and asks for no less of any of them. -/
structure Extends (parts more : List ChainPart) : Prop where
  initial : parts.map (fun part => part.key.render) <+: more.map fun part => part.key.render
  grown : ∀ part ∈ parts, ∀ later ∈ more, part.key.render = later.key.render →
    part.tokens ≤ later.tokens

section Segments

variable {mk : ℤ → BlockKey} {shared : Bool} {blockTokens base tokens : ℤ}

theorem segment_shared {part : ChainPart}
    (hp : part ∈ segment mk shared blockTokens base tokens) : part.shared = shared := by
  cases List.mem_append.mp hp with
  | inl h =>
    obtain ⟨i,_,rfl⟩ := List.mem_map.mp h
    rfl
  | inr h =>
    split at h
    · simp at h
    · rw [List.mem_singleton] at h
      exact congrArg ChainPart.shared h

theorem segment_tokens_le (hbt : 1 ≤ blockTokens) {part : ChainPart}
    (hp : part ∈ segment mk shared blockTokens base tokens) : part.tokens ≤ blockTokens := by
  cases List.mem_append.mp hp with
  | inl h =>
    obtain ⟨i,_,rfl⟩ := List.mem_map.mp h
    exact le_rfl
  | inr h =>
    split at h
    · simp at h
    · rw [List.mem_singleton] at h
      subst h
      exact (Int.emod_lt_of_pos _ (by omega)).le

theorem segment_full {part : ChainPart}
    (hp : part ∈ (segment mk shared blockTokens base tokens).dropLast) :
    part.tokens = blockTokens := by
  have hrun : part ∈ (List.range (tokens/blockTokens).toNat).map fun i : ℕ =>
      (⟨mk (base+i),blockTokens,shared⟩ : ChainPart) := by
    rw [segment] at hp
    split at hp
    · rw [List.append_nil] at hp
      exact List.mem_of_mem_dropLast hp
    · rwa [List.dropLast_concat] at hp
  obtain ⟨i,_,rfl⟩ := List.mem_map.mp hrun
  rfl

end Segments

namespace PrefixIndex

variable {F : Type} {index : PrefixIndex F} {sessionId : String}
  {promptTokens sharedPrefixTokens : ℤ} {rootId : String}

theorem chain_filter_shared :
    (index.chain sessionId promptTokens sharedPrefixTokens rootId).filter (·.shared) =
      segment (.root rootId) true index.blockTokens 0 (min sharedPrefixTokens promptTokens) := by
  rw [chain,List.filter_append,List.filter_eq_self.mpr fun part hp => segment_shared hp,
    List.filter_eq_nil_iff.mpr,List.append_nil]
  intro part hp
  simp [segment_shared hp]

theorem chain_filter_private :
    ((index.chain sessionId promptTokens sharedPrefixTokens rootId).filter fun part =>
      ¬ part.shared) = segment (.priv sessionId) false index.blockTokens
        (segment (.root rootId) true index.blockTokens 0
          (min sharedPrefixTokens promptTokens)).length
        (promptTokens-min sharedPrefixTokens promptTokens) := by
  rw [chain,List.filter_append,List.filter_eq_nil_iff.mpr,List.nil_append,
    List.filter_eq_self.mpr]
  · intro part hp
    simp [segment_shared hp]
  · intro part hp
    simp [segment_shared hp]

theorem chain_tokens_le {part : ChainPart}
    (hp : part ∈ index.chain sessionId promptTokens sharedPrefixTokens rootId) :
    part.tokens ≤ index.blockTokens := by
  cases List.mem_append.mp hp with
  | inl h => exact segment_tokens_le index.blockTokens_pos h
  | inr h => exact segment_tokens_le index.blockTokens_pos h

theorem chain_partitions (hp : 0 ≤ promptTokens) (hs : 0 ≤ sharedPrefixTokens) :
    Partitions (index.chain sessionId promptTokens sharedPrefixTokens rootId) index.blockTokens
      (min sharedPrefixTokens promptTokens) promptTokens where
  distinct := by
    have hkeys := index.chain_keys_nodup sessionId promptTokens sharedPrefixTokens rootId
    rw [← Function.comp_def,← List.map_map]
    exact hkeys.map BlockKey.render_injective
  sized part hpart := ⟨index.chain_tokens_pos _ _ _ _ hpart,chain_tokens_le hpart⟩
  sharedFirst := by
    rw [chain_filter_shared,chain_filter_private]
    rfl
  sharedSum := by
    rw [chain_filter_shared]
    exact segment_tokens_sum index.blockTokens_pos (le_min hs hp)
  sum := index.chain_tokens_sum _ _ _ _ hp hs
  full part hpart := by
    rw [chain_filter_shared,chain_filter_private] at hpart
    cases List.mem_append.mp hpart with
    | inl h => exact segment_full h
    | inr h => exact segment_full h

theorem range_initial {m n : ℕ} (h : m ≤ n) : List.range m <+: List.range n := by
  have htake : (List.range n).take m = List.range m := by rw [List.take_range,min_eq_left h]
  exact htake ▸ List.take_prefix _ _

theorem chain_keys (hp : 0 ≤ promptTokens) (hs : 0 ≤ sharedPrefixTokens) :
    let base := blockCount index.blockTokens (min sharedPrefixTokens promptTokens)
    (index.chain sessionId promptTokens sharedPrefixTokens rootId).map (·.key) =
      ((List.range base).map fun i : ℕ => .root rootId i) ++ (List.range (blockCount
        index.blockTokens (promptTokens-min sharedPrefixTokens promptTokens))).map
          fun i : ℕ => .priv sessionId (base+i) := by
  rw [chain_eq_map hp hs]
  simp [Function.comp_def]

variable {longer : ℤ} (hp : 0 ≤ promptTokens) (hs : 0 ≤ sharedPrefixTokens)
  (hlonger : promptTokens ≤ longer)
include hp hs hlonger

theorem chain_keys_initial :
    (index.chain sessionId promptTokens sharedPrefixTokens rootId).map (·.key) <+:
      (index.chain sessionId longer sharedPrefixTokens rootId).map (·.key) := by
  have hbt := index.blockTokens_pos
  rw [chain_keys hp hs,chain_keys (hp.trans hlonger) hs]
  cases le_or_gt sharedPrefixTokens promptTokens with
  | inl hwhole =>
    have hcount := blockCount_mono hbt (sub_nonneg.mpr hwhole)
      (sub_le_sub_right hlonger sharedPrefixTokens)
    rw [min_eq_left hwhole,min_eq_left (hwhole.trans hlonger)]
    exact (List.prefix_append_right_inj _).mpr ((range_initial hcount).map _)
  | inr hcut =>
    -- The prompt ends in the shared part, and nothing of it is private.
    have hcount := blockCount_mono hbt hp (le_min hcut.le hlonger)
    rw [min_eq_right hcut.le,sub_self,blockCount_zero,List.range_zero,List.map_nil,List.append_nil]
    exact ((range_initial hcount).map _).trans (List.prefix_append _ _)

theorem chain_tokens_grow {part later : ChainPart}
    (hpart : part ∈ index.chain sessionId promptTokens sharedPrefixTokens rootId)
    (hlater : later ∈ index.chain sessionId longer sharedPrefixTokens rootId)
    (hkey : part.key = later.key) : part.tokens ≤ later.tokens := by
  rw [chain_eq_map hp hs,List.mem_append] at hpart
  rw [chain_eq_map (hp.trans hlonger) hs,List.mem_append] at hlater
  cases hpart with
  | inl hpart =>
    obtain ⟨i,_,rfl⟩ := List.mem_map.mp hpart
    cases hlater with
    | inl hlater =>
      obtain ⟨j,_,rfl⟩ := List.mem_map.mp hlater
      have hij : (i : ℤ) = j := (BlockKey.root.inj hkey).2
      simp only [hij]
      omega
    | inr hlater =>
      obtain ⟨j,_,rfl⟩ := List.mem_map.mp hlater
      cases hkey
  | inr hpart =>
    obtain ⟨i,hi,rfl⟩ := List.mem_map.mp hpart
    cases hlater with
    | inl hlater =>
      obtain ⟨j,_,rfl⟩ := List.mem_map.mp hlater
      cases hkey
    | inr hlater =>
      obtain ⟨j,_,rfl⟩ := List.mem_map.mp hlater
      have hcut : sharedPrefixTokens < promptTokens := by
        by_contra hnone
        simp [min_eq_right (not_lt.mp hnone),blockCount_zero] at hi
      have hij := (BlockKey.priv.inj hkey).2
      rw [min_eq_left hcut.le,min_eq_left (hcut.le.trans hlonger)] at hij
      have hsame : (i : ℤ) = j := by omega
      simp only [hsame,min_eq_left hcut.le,min_eq_left (hcut.le.trans hlonger)]
      omega

theorem chain_extends : Extends
    (index.chain sessionId promptTokens sharedPrefixTokens rootId)
    (index.chain sessionId longer sharedPrefixTokens rootId) where
  initial := by
    have hkeys : (index.chain sessionId promptTokens sharedPrefixTokens rootId).map (·.key) <+:
        (index.chain sessionId longer sharedPrefixTokens rootId).map (·.key) :=
      chain_keys_initial hp hs hlonger
    have hnames := hkeys.map BlockKey.render
    rwa [List.map_map,List.map_map] at hnames
  grown part hpart later hlater hname :=
    chain_tokens_grow hp hs hlonger hpart hlater (BlockKey.render_injective hname)

/-- For every block size, the chain of a prompt partitions it, and the chain of a longer prompt
with the same names and the same shared prefix extends it. -/
theorem chain_partitions_and_extends (blockTokens : ℤ) (cost : CostModel F) :
    Partitions ((new blockTokens cost).chain sessionId promptTokens sharedPrefixTokens rootId)
        (max 1 blockTokens) (min sharedPrefixTokens promptTokens) promptTokens ∧
      Extends ((new blockTokens cost).chain sessionId promptTokens sharedPrefixTokens rootId)
        ((new blockTokens cost).chain sessionId longer sharedPrefixTokens rootId) :=
  ⟨chain_partitions hp hs,chain_extends hp hs hlonger⟩

omit hp hs hlonger in
theorem chain_partitions_and_extends_small :
    Partitions ((new 1000 (.default : CostModel ℚ)).chain "a" 1500 700 "root") 1000 700 1500 ∧
      Extends ((new 1000 (.default : CostModel ℚ)).chain "a" 1500 700 "root")
        ((new 1000 (.default : CostModel ℚ)).chain "a" 2500 700 "root") :=
  chain_partitions_and_extends (by decide) (by decide) (by decide) 1000 .default

end PrefixIndex
end ContextResidency
