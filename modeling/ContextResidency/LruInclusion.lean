import ContextResidency.LruHost

/-! Where more host RAM never costs recompute under LRU, and where it can. On turns of one
block each the tiers of two capacities are two LRU caches over the same accesses, and the
larger one ends in what the smaller one holds, whatever the sizes of the blocks. On chains
that fails: by evicting less a tier can come to evict something else. -/
namespace ContextResidency

variable {F : Type} [Scalar F]

namespace Simulator

/-- After the turns `past` the host tier is an LRU cache within its capacity. -/
structure Cached (past : List (Turn F)) (held : List (BlockKey × ℤ)) (s : Simulator F) :
    Prop where
  lru : LruTier held s
  within : SizedLru.Within s.ramTier.bytesCapacity s.index.nbytesOf held
  early : ∀ k ∈ s.policy.entries, ∃ turn ∈ past, touchOf s.policy.entries k ≤ turn.t

theorem one_entries_of_nil {s : Simulator F} {turn : Turn F} (sched : Schedule F)
    (hpath : s.path turn = []) : (one sched s turn).policy.entries = s.policy.entries := by
  have hone : (one sched s turn).policy = (settled sched s turn).policy := rfl
  have hchain : (s.filled turn).policy.admitChain ((s.filled turn).missing [])
      (s.filled turn).probe = [] := List.sublist_nil.mp (TierPolicy.admitChain_sublist _ _ _)
  have hquiet : (s.filled turn).evictRequest [] = none := by
    rw [evictRequest,hchain]
    exact if_neg (by simp)
  have hstore : (s.filled turn).storeBatchToHost [] turn.t sched = s.filled turn := by
    rw [storeBatchToHost,hquiet,hchain]
    rfl
  rw [hone,settled_eq,hpath,hstore]
  exact congrArg TierPolicy.entries (filled_policy s turn)

section Cached

variable {past : List (Turn F)} {held : List (BlockKey × ℤ)} {s : Simulator F} {turn : Turn F}
  (h : Cached past held s) (sched : Schedule F)

/-- Where a block takes any bytes, sizes do not shrink. -/
theorem nbytesOf_mono {key : BlockKey} (hsized : s.index.Sized)
    (hpos : 0 < (s.seenIndex turn).nbytesOf key) (k : BlockKey) :
    s.index.nbytesOf k ≤ (s.seenIndex turn).nbytesOf k := by
  refine PrefixIndex.nbytesOf_le_touchPath _ _ _ _ _ _ hsized (le_of_not_gt fun hneg => ?_) k
  have hcost : (s.seenIndex turn).cost = s.index.cost := PrefixIndex.touchPath_cost _ _ _ _ _ _ _
  have hnonpos := PrefixIndex.nbytesOf_nonpos (seenIndex_sized hsized turn) (hcost ▸ hneg.le) key
  omega

include h

theorem Cached.late (hlater : ∀ earlier ∈ past, earlier.t < turn.t) :
    ∀ k ∈ s.policy.entries, touchOf s.policy.entries k < turn.t := by
  intro k hk
  obtain ⟨earlier,hmem,hle⟩ := h.early k hk
  exact hle.trans_lt (hlater earlier hmem)

theorem Cached.one (hsized : s.index.Sized) (hlater : ∀ earlier ∈ past, earlier.t < turn.t)
    {key : BlockKey} (hpath : s.path turn = [key]) (hpos : 0 < (s.seenIndex turn).nbytesOf key) :
    Cached (past ++ [turn])
      (SizedLru.use s.ramTier.bytesCapacity (s.seenIndex turn).nbytesOf held key)
      (one sched s turn) where
  lru := one_lruTier h.lru hpath (h.late hlater) sched
  within := by
    rw [one_ramTier,one_index]
    exact (h.within.grow (nbytesOf_mono hsized hpos)).use hpos
  early := fun k hk => ⟨turn,by simp,touchOf_one_le hpath (h.late hlater) sched k hk⟩

theorem Cached.skip (hpath : s.path turn = []) :
    Cached (past ++ [turn]) held (Simulator.one sched s turn) := by
  have hentries := one_entries_of_nil sched hpath
  have hkeys : (s.index.touchPath turn.sessionId turn.role turn.promptTokens
      turn.sharedPrefixTokens turn.t turn.aborted).2 = [] := hpath
  have hbytes : ∀ k, s.index.nbytesOf k ≤ (s.seenIndex turn).nbytesOf k := fun k =>
    (PrefixIndex.nbytesOf_touchPath_of_not_mem _ _ _ _ _ _ (hkeys ▸ List.not_mem_nil)).ge
  constructor
  case lru =>
    exact ⟨(one_kind s turn sched).trans h.lru.kind,hentries ▸ h.lru.ranked⟩
  case within =>
    rw [one_ramTier,one_index]
    exact h.within.grow hbytes
  case early =>
    rw [hentries]
    intro k hk
    obtain ⟨earlier,hmem,hle⟩ := h.early k hk
    exact ⟨earlier,List.mem_append_left _ hmem,hle⟩

end Cached

/-- Two capacities after the same turns: the larger tier covers the smaller one. -/
structure Nested (past : List (Turn F)) (held held' : List (BlockKey × ℤ)) (s t : Simulator F) :
    Prop where
  small : Cached past held s
  large : Cached past held' t
  capacity : s.ramTier.bytesCapacity ≤ t.ramTier.bytesCapacity
  covers : Covers held' held
  relieved : Relieved s t

theorem hosts_of_covers {held held' : List (BlockKey × ℤ)} {s t : Simulator F}
    (hlru : LruTier held s) (hlru' : LruTier held' t) (hcovers : Covers held' held) :
    ∀ key ∈ s.policy.entries, key ∈ t.policy.entries := by
  intro key hkey
  have hmem := (hlru.ranked.ordered.mem key).mpr hkey
  exact (hlru'.ranked.ordered.mem key).mp (hcovers.mem_keys hmem)

theorem Nested.one {past : List (Turn F)} {held held' : List (BlockKey × ℤ)} {s t : Simulator F}
    {turn : Turn F} (h : Nested past held held' s t)
    (hlater : ∀ earlier ∈ past, earlier.t < turn.t) (hlone : (s.path turn).length ≤ 1)
    (hpos : ∀ key ∈ s.path turn, 0 < (s.seenIndex turn).nbytesOf key) (sched sched' : Schedule F) :
    ∃ held held', Nested (past ++ [turn]) held held' (one sched s turn)
      (Simulator.one sched' t turn) := by
  have hindex := h.relieved.engine.index
  have hpath' : t.path turn = s.path turn := (path_congr hindex turn).symm
  have hseen : t.seenIndex turn = s.seenIndex turn := (seenIndex_congr hindex turn).symm
  have hsized' : t.index.Sized := hindex ▸ h.relieved.sized
  have hcap : (Simulator.one sched s turn).ramTier.bytesCapacity ≤
      (Simulator.one sched' t turn).ramTier.bytesCapacity := by
    rw [one_ramTier,one_ramTier]
    exact h.capacity
  cases hpath : s.path turn with
  | nil =>
    have hsmall := h.small.skip sched hpath
    have hlarge := h.large.skip sched' (hpath'.trans hpath)
    exact ⟨held,held',hsmall,hlarge,hcap,h.covers,
      one_relieved h.relieved (hosts_of_covers hsmall.lru hlarge.lru h.covers)⟩
  | cons key keys =>
    have hone : s.path turn = [key] := by
      rw [hpath,List.length_cons] at hlone
      have hnil : keys = [] := List.length_eq_zero_iff.mp (by omega)
      rw [hpath,hnil]
    have hkey : 0 < (s.seenIndex turn).nbytesOf key := hpos key (by simp [hone])
    have hsmall := h.small.one sched h.relieved.sized hlater hone hkey
    have hlarge := h.large.one sched' hsized' hlater (hpath'.trans hone) (hseen ▸ hkey)
    rw [hseen] at hlarge
    have hwithin' := h.large.within
    rw [← hindex] at hwithin'
    have hgrow := nbytesOf_mono h.relieved.sized hkey
    have hcovers := SizedLru.use_covers (h.small.within.grow hgrow) (hwithin'.grow hgrow) h.covers
      h.capacity hkey
    exact ⟨_,_,hsmall,hlarge,hcap,hcovers,
      one_relieved h.relieved (hosts_of_covers hsmall.lru hlarge.lru hcovers)⟩

section Trace

variable (cfg : SimConfig F) (ram ram' : TierConfig F) (turns : List (Turn F))

theorem start_cached : Cached [] [] (start cfg .lru ram) where
  lru := start_lruTier cfg ram
  within := SizedLru.within_nil _ _
  early := fun _ hk => absurd hk (Dict.not_mem_empty _)

/-- The turns ask for at most one block each, at increasing times, and no block is empty. -/
structure LoneBlocks (n : ℕ) : Prop where
  times : ((inOrder turns).take n).Pairwise fun a b => a.t < b.t
  lone : ∀ m turn, m < n → (inOrder turns)[m]? = some turn →
    (((start cfg .lru ram).after turns m).path turn).length ≤ 1
  bytes : ∀ m turn, m < n → (inOrder turns)[m]? = some turn →
    ∀ key ∈ ((start cfg .lru ram).after turns m).path turn,
      0 < (((start cfg .lru ram).after turns m).seenIndex turn).nbytesOf key

theorem after_nested (hcap : ram.bytesCapacity ≤ ram'.bytesCapacity) {n : ℕ}
    (h : LoneBlocks cfg ram turns n) : ∃ held held', Nested ((inOrder turns).take n) held held'
      ((start cfg .lru ram).after turns n) ((start cfg .lru ram').after turns n) := by
  induction n with
  | zero =>
    exact ⟨[],[],start_cached cfg ram,start_cached cfg ram',hcap,covers_nil _,
      start_relieved cfg .lru .lru ram ram'⟩
  | succ n ih =>
    have htimes := h.times
    rw [List.take_add_one] at htimes ⊢
    obtain ⟨hbefore,_,hlater⟩ := List.pairwise_append.mp htimes
    obtain ⟨held,held',hnested⟩ := ih ⟨hbefore,fun m turn hm => h.lone m turn (by omega),
      fun m turn hm => h.bytes m turn (by omega)⟩
    cases hturn : (inOrder turns)[n]? with
    | none =>
      rw [after_of_done _ hturn,after_of_done _ hturn,Option.toList_none,List.append_nil]
      exact ⟨held,held',hnested⟩
    | some turn =>
      rw [hturn] at hlater
      rw [after_succ _ hturn,after_succ _ hturn,Option.toList_some]
      exact hnested.one (fun earlier hmem => hlater earlier hmem turn (by simp))
        (h.lone n turn n.lt_succ_self hturn) (h.bytes n turn n.lt_succ_self hturn) _ _

end Trace

/-- More host RAM never costs recompute under LRU over a run whose larger tier has had
room for every turn but the last, or whose smaller tier has stayed empty; nor over a run
that asks for at most one block in every turn but the last, at increasing times, with
blocks of any sizes. -/
theorem more_ram_never_costs (cfg : SimConfig F) (ram : TierConfig F) (capacity : ℤ)
    (turns : List (Turn F)) (n : ℕ) (hcap : ram.bytesCapacity ≤ capacity)
    (hrun : (∀ m turn, m+1 < n → (inOrder turns)[m]? = some turn →
        ((start cfg .lru { ram with bytesCapacity := capacity }).after turns m).Fits turn ∨
        ((start cfg .lru ram).after turns (m+1)).policy.entries.items = []) ∨
      LoneBlocks cfg ram turns (n-1)) :
    ((start cfg .lru { ram with bytesCapacity := capacity }).after turns n).totalRecompute ≤
      ((start cfg .lru ram).after turns n).totalRecompute := by
  rcases hrun with hfits | hlone
  · exact totalRecompute_le_of_fits cfg .lru .lru ram { ram with bytesCapacity := capacity } turns
      rfl n hfits
  · obtain ⟨_,_,hnested⟩ := after_nested cfg ram { ram with bytesCapacity := capacity } turns hcap
      hlone
    exact totalRecompute_le_of_relieved cfg .lru .lru ram _ turns n hnested.relieved

/-- Two chains, for which a tier of 2000 bytes has to evict and one of 4000 does not. -/
def twoChains : List (Turn ℚ) := [ask 1 "a" 2000,ask 2 "b" 1500,ask 3 "a" 2000]

/-- Lone blocks of four sizes, one of which grows. -/
def loneBlocks : List (Turn ℚ) :=
  [ask 1 "a" 500,ask 2 "b" 300,ask 3 "a" 900,ask 4 "c" 700,ask 5 "d" 400,ask 6 "c" 700]

theorem loneBlocks_lone : LoneBlocks (smallConfig 0 1000) (smallRam 1000) loneBlocks (6-1) where
  times := by decide +kernel
  lone := by
    intro m turn hm hturn
    interval_cases m <;> obtain rfl := Option.some.inj hturn <;> decide +kernel
  bytes := by
    intro m turn hm hturn
    interval_cases m <;> obtain rfl := Option.some.inj hturn <;> decide +kernel

/-- Tiers of 1000 and of 1500 bytes both evict lone blocks; the larger one saves 700 tokens. -/
theorem more_ram_never_costs_small :
    ((start (smallConfig 0 2000) .lru { smallRam 2000 with bytesCapacity := 4000 }).after
        twoChains 3).totalRecompute ≤
      ((start (smallConfig 0 2000) .lru (smallRam 2000)).after twoChains 3).totalRecompute ∧
    ((start (smallConfig 0 1000) .lru { smallRam 1000 with bytesCapacity := 1500 }).after
        loneBlocks 6).totalRecompute ≤
      ((start (smallConfig 0 1000) .lru (smallRam 1000)).after loneBlocks 6).totalRecompute := by
  constructor
  · refine more_ram_never_costs (smallConfig 0 2000) (smallRam 2000) 4000 twoChains 3 (by decide)
      (Or.inl fun m turn hm hturn => Or.inl ?_)
    have hm : m < 2 := by omega
    interval_cases m <;> obtain rfl := Option.some.inj hturn <;> decide +kernel
  · exact more_ram_never_costs (smallConfig 0 1000) (smallRam 1000) 1500 loneBlocks 6 (by decide)
      (Or.inr loneBlocks_lone)

/-- A chain of three blocks that a tier of 2000 bytes has room for the first two of, and one
of 1750 bytes only for the first. -/
def cutChain : List (Turn ℚ) := [ask 0 "a" 500,ask 1 "b" 3000,ask 2 "a" 500,ask 3 "b" 1000]

/-- The larger tier has to give up a block for the third turn, and it gives up the head of the
chain; the smaller one has room. It recomputes 5000 tokens, the smaller one 4000. -/
theorem more_ram_can_cost : ¬ ∀ (cfg : SimConfig ℚ) (ram : TierConfig ℚ) (capacity : ℤ)
    (turns : List (Turn ℚ)) (n : ℕ), ram.bytesCapacity ≤ capacity →
    ((start cfg .lru { ram with bytesCapacity := capacity }).after turns n).totalRecompute ≤
      ((start cfg .lru ram).after turns n).totalRecompute := by
  intro h
  have hlate := h (smallConfig 0 1750) (smallRam 1750) 2000 cutChain 4 (by decide)
  exact absurd hlate (by decide +kernel)

end Simulator
end ContextResidency
