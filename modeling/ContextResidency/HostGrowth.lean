import ContextResidency.Residency

/-! More host RAM under LRU. Until the larger tier has to evict it holds every block that
was ever asked for, so it recomputes no more than a smaller one. After its first eviction
that can fail: a round of eviction may split chains, and where it splits them depends on
the capacity. -/
namespace ContextResidency

variable {F : Type} [Scalar F]

namespace Simulator

/-- The recompute bill of the turns so far. -/
def totalRecompute (s : Simulator F) : ℤ := (s.metrics.map (·.recomputeTokens)).sum

theorem one_totalRecompute (sched : Schedule F) (s : Simulator F) (turn : Turn F) :
    (one sched s turn).totalRecompute = s.totalRecompute+s.recomputeTokens turn := by
  rw [totalRecompute,one_metrics,List.map_append,List.sum_append]
  simp [totalRecompute,metric]

theorem mem_one_of_fits {s : Simulator F} {turn : Turn F} (sched : Schedule F)
    (hadmits : s.policy.kind.admitsAll = true) (hsized : s.index.Sized) (hfits : s.Fits turn)
    {key : BlockKey} (hkey : key ∈ s.policy.entries ∨ key ∈ s.path turn) :
    key ∈ (one sched s turn).policy.entries := by
  have hsized' := seenIndex_sized hsized turn
  have hroom : weight ((s.filled turn).missing (s.path turn)) ≤ (s.filled turn).freeRoom := by
    rw [filled_missing,filled_freeRoom]
    exact hfits
  have hchain : ∀ items, (s.filled turn).policy.admitChain items (s.filled turn).probe = items := by
    intro items
    rw [filled_policy]
    exact TierPolicy.admitChain_eq_self hadmits items _
  have hquiet : (s.filled turn).evictRequest (s.path turn) = none := by
    apply evictRequest_eq_none
    rw [hchain]
    exact hroom
  have hbytes : ∀ p ∈ (s.filled turn).missing (s.path turn),
      p.2 = (s.seenIndex turn).nbytesOf p.1 := fun p hp => by
    rw [(mem_missing hp).2.2,filled_index]
  have hall : fitting (s.filled turn).freeRoom ((s.filled turn).missing (s.path turn)) =
      (s.filled turn).missing (s.path turn) := by
    cases le_total 0 (s.seenIndex turn).cost.kvBytesPerToken with
    | inl hkv =>
      exact fitting_eq_self (fun p hp => hbytes p hp ▸ PrefixIndex.nbytesOf_nonneg hsized' hkv _)
        hroom
    | inr hkv =>
      exact fitting_of_nonpos (fun p hp => hbytes p hp ▸ PrefixIndex.nbytesOf_nonpos hsized' hkv _)
        (le_max_left _ _)
  rw [mem_iff_sizes,sizes_one s turn sched,
    sizes_store_of_none (path_nodup s turn) turn.t sched hquiet,hchain,hall,filled_policy,
    List.map_append,List.mem_append,← mem_iff_sizes]
  by_cases hold : key ∈ s.policy.entries
  · exact Or.inl hold
  · refine Or.inr (List.mem_map.mpr ⟨(key,(s.filled turn).index.nbytesOf key),?_,rfl⟩)
    refine List.mem_map.mpr ⟨key,List.mem_filter.mpr ⟨hkey.resolve_left hold,?_⟩,rfl⟩
    rw [filled_policy,TierPolicy.get,Dict.get_eq_none.mpr hold]
    rfl

/-- The second replay has a host tier that holds no less, and a bill that is no higher. -/
structure Relieved (s t : Simulator F) : Prop where
  engine : SameEngine s t
  sized : s.index.Sized
  hosts : ∀ key ∈ s.policy.entries, key ∈ t.policy.entries
  total : t.totalRecompute ≤ s.totalRecompute

theorem Relieved.recomputeTokens_le {s t : Simulator F} (h : Relieved s t) (turn : Turn F) :
    t.recomputeTokens turn ≤ s.recomputeTokens turn := by
  have hindex := h.engine.index
  rw [recomputeTokens_eq,recomputeTokens_eq,← path_congr hindex,← seenIndex_congr hindex]
  refine sum_dropWhile_le (fun key _ hkey => ?_)
    (PrefixIndex.tokensOf_nonneg (seenIndex_sized h.sized turn))
  have hres : s.Resident key := by simpa using hkey
  have hres' : t.Resident key := hres.imp (fun hhbm => h.engine.hbm ▸ hhbm) (h.hosts key)
  simpa using hres'

theorem Relieved.totalRecompute_le {s t : Simulator F} (h : Relieved s t)
    (sched sched' : Schedule F) (turn : Turn F) :
    (one sched' t turn).totalRecompute ≤ (one sched s turn).totalRecompute := by
  have hturn := h.recomputeTokens_le turn
  have htotal := h.total
  rw [one_totalRecompute,one_totalRecompute]
  omega

theorem one_relieved {sched sched' : Schedule F} {s t : Simulator F} {turn : Turn F}
    (h : Relieved s t) (hhosts : ∀ key ∈ (one sched s turn).policy.entries,
      key ∈ (one sched' t turn).policy.entries) :
    Relieved (one sched s turn) (one sched' t turn) where
  engine := one_sameEngine sched sched' s t turn h.engine
  sized := by
    rw [one_index]
    exact seenIndex_sized h.sized turn
  hosts := hhosts
  total := h.totalRecompute_le sched sched' turn

theorem hosts_of_fits {sched sched' : Schedule F} {s t : Simulator F} {turn : Turn F}
    (h : Relieved s t) (hadmits : t.policy.kind.admitsAll = true) (hfits : t.Fits turn) :
    ∀ key ∈ (one sched s turn).policy.entries, key ∈ (one sched' t turn).policy.entries := by
  intro key hkey
  have hsized : t.index.Sized := h.engine.index ▸ h.sized
  obtain ⟨p,hp,rfl⟩ := List.mem_map.mp (mem_iff_sizes.mp hkey)
  refine mem_one_of_fits sched' hadmits hsized hfits ?_
  rcases mem_sizes_one s turn sched hp with hold | ⟨hpath,_⟩
  · exact Or.inl (h.hosts p.1 (mem_of_sizes hold))
  · exact Or.inr (path_congr h.engine.index turn ▸ hpath)

section Trace

variable (cfg : SimConfig F) (kind kind' : PolicyKind F) (ram ram' : TierConfig F)
  (turns : List (Turn F))

theorem start_relieved : Relieved (start cfg kind ram) (start cfg kind' ram') where
  engine := ⟨rfl,rfl,rfl⟩
  sized := PrefixIndex.new_sized _ _
  hosts := fun _ hkey => absurd hkey (Dict.not_mem_empty _)
  total := le_rfl

/-- As long as the second tier has room, or the first one stays empty. -/
theorem after_relieved_of_fits (hadmits : kind'.admitsAll = true) (n : ℕ)
    (hfits : ∀ m turn, m < n → (inOrder turns)[m]? = some turn →
      ((start cfg kind' ram').after turns m).Fits turn ∨
      ((start cfg kind ram).after turns (m+1)).policy.entries.items = []) :
    Relieved ((start cfg kind ram).after turns n) ((start cfg kind' ram').after turns n) := by
  induction n with
  | zero => exact start_relieved cfg kind kind' ram ram'
  | succ n ih =>
    have hbefore := ih fun m turn hm => hfits m turn (by omega)
    cases hturn : (inOrder turns)[n]? with
    | none =>
      rw [after_of_done _ hturn,after_of_done _ hturn]
      exact hbefore
    | some turn =>
      have hadmits' : ((start cfg kind' ram').after turns n).policy.kind.admitsAll = true := by
        rw [after_kind]
        exact hadmits
      have hcase := hfits n turn (by omega) hturn
      rw [after_succ _ hturn] at hcase
      rw [after_succ _ hturn,after_succ _ hturn]
      refine one_relieved hbefore ?_
      cases hcase with
      | inl hroom => exact hosts_of_fits hbefore hadmits' hroom
      | inr hempty =>
        intro key hkey
        rw [Dict.mem_def,Dict.keys,hempty] at hkey
        simp at hkey

/-- The last turn is billed before the host tier moves. -/
theorem totalRecompute_le_of_relieved (n : ℕ)
    (h : Relieved ((start cfg kind ram).after turns (n-1))
      ((start cfg kind' ram').after turns (n-1))) :
    ((start cfg kind' ram').after turns n).totalRecompute ≤
      ((start cfg kind ram).after turns n).totalRecompute := by
  cases n with
  | zero => exact le_rfl
  | succ n =>
    cases hturn : (inOrder turns)[n]? with
    | none =>
      rw [after_of_done _ hturn,after_of_done _ hturn]
      exact h.total
    | some turn =>
      rw [after_succ _ hturn,after_succ _ hturn]
      exact h.totalRecompute_le _ _ turn

theorem totalRecompute_le_of_fits (hadmits : kind'.admitsAll = true) (n : ℕ)
    (hfits : ∀ m turn, m+1 < n → (inOrder turns)[m]? = some turn →
      ((start cfg kind' ram').after turns m).Fits turn ∨
      ((start cfg kind ram).after turns (m+1)).policy.entries.items = []) :
    ((start cfg kind' ram').after turns n).totalRecompute ≤
      ((start cfg kind ram).after turns n).totalRecompute :=
  totalRecompute_le_of_relieved cfg kind kind' ram ram' turns n
    (after_relieved_of_fits cfg kind kind' ram ram' turns hadmits (n-1)
      fun m turn hm => hfits m turn (by omega))

end Trace

end Simulator
end ContextResidency
