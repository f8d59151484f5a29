import ContextResidency.Prefill
import ContextResidency.Chains

/-! Tokens that a session sends for the first time. Without shared prefixes a session
asks for the same blocks again, each of them filled further. A block that was partial
when it became resident is served in full, so new tokens escape the bill exactly when
the walk gets past the block in which they start. -/
namespace ContextResidency

variable {F : Type} [Scalar F]

omit [Scalar F] in
/-- The largest prompt that a session has sent, zero if there is none. -/
def sent (earlier : List (Turn F)) (sessionId : String) : ℤ :=
  earlier.foldl (fun m turn => if turn.sessionId = sessionId then max m turn.promptTokens else m) 0

omit [Scalar F] in
theorem sent_append (earlier : List (Turn F)) (turn : Turn F) (sessionId : String) :
    sent (earlier ++ [turn]) sessionId = if turn.sessionId = sessionId
      then max (sent earlier sessionId) turn.promptTokens else sent earlier sessionId := by
  rw [sent,List.foldl_append]
  rfl

omit [Scalar F] in
theorem sent_le_append (earlier : List (Turn F)) (turn : Turn F) (sessionId : String) :
    sent earlier sessionId ≤ sent (earlier ++ [turn]) sessionId := by
  rw [sent_append]
  split
  · exact le_max_left _ _
  · exact le_rfl

omit [Scalar F] in
theorem sent_nonneg (earlier : List (Turn F)) (sessionId : String) :
    0 ≤ sent earlier sessionId := by
  induction earlier using List.reverseRecOn with
  | nil => exact le_rfl
  | append_singleton earlier turn ih => exact ih.trans (sent_le_append _ _ _)

namespace Simulator

section Unshared

variable {s : Simulator F} {turn : Turn F} (hshared : turn.sharedPrefixTokens = 0)
include hshared

omit [Scalar F] in
theorem parts_of_nonneg (hp : 0 ≤ turn.promptTokens) :
    s.parts turn = (List.range (blockCount s.index.blockTokens turn.promptTokens)).map
      fun i : ℕ => ⟨.priv turn.sessionId i,
        min s.index.blockTokens (turn.promptTokens-i*s.index.blockTokens),false⟩ := by
  rw [parts,PrefixIndex.chain,hshared,min_eq_left hp,sub_zero,segment_zero]
  exact segment_eq_map s.index.blockTokens_pos hp

omit [Scalar F] in
theorem parts_of_neg (hp : turn.promptTokens < 0) {part : ChainPart}
    (hpart : part ∈ s.parts turn) : ∃ rootId i, part.key = .root rootId i := by
  rw [parts,PrefixIndex.chain,hshared,min_eq_right hp.le,sub_self,segment_zero,
    List.append_nil] at hpart
  obtain ⟨i,hi⟩ := segment_key hpart
  exact ⟨_,i,hi⟩

theorem part_of_priv {sessionId : String} {i : ℤ}
    (hkey : .priv sessionId i ∈ s.path turn) : turn.sessionId = sessionId ∧
      i*s.index.blockTokens < turn.promptTokens ∧ ∃ part ∈ s.parts turn,
        part.key = .priv sessionId i ∧
        part.tokens = min s.index.blockTokens (turn.promptTokens-i*s.index.blockTokens) := by
  obtain ⟨part,hpart,hk⟩ := List.mem_map.mp hkey
  have hpart' : part ∈ s.parts turn := hpart
  cases lt_or_ge turn.promptTokens 0 with
  | inl hneg =>
    obtain ⟨rootId,j,hroot⟩ := parts_of_neg hshared hneg hpart
    rw [hroot] at hk
    cases hk
  | inr hpos =>
    have hparts := parts_of_nonneg (s := s) hshared hpos
    rw [hparts] at hpart'
    obtain ⟨j,hj,rfl⟩ := List.mem_map.mp hpart'
    obtain ⟨rfl,rfl⟩ := BlockKey.priv.inj hk
    have hlt := (lt_blockCount s.index.blockTokens_pos hpos).mp (List.mem_range.mp hj)
    exact ⟨rfl,hlt,_,hpart,rfl,rfl⟩

end Unshared

/-- The record of a private block holds no tokens that its session has not sent. -/
def WithinSent (index : PrefixIndex F) (earlier : List (Turn F)) : Prop :=
  ∀ sessionId i, .priv sessionId i ∈ index.blocks →
    index.tokensOf (.priv sessionId i) ≤ index.blockTokens ∧
    i*index.blockTokens+index.tokensOf (.priv sessionId i) ≤ sent earlier sessionId

theorem seenIndex_blockTokens (s : Simulator F) (turn : Turn F) :
    (s.seenIndex turn).blockTokens = s.index.blockTokens :=
  PrefixIndex.touchPath_blockTokens _ _ _ _ _ _ _

theorem seenIndex_withinSent {s : Simulator F} {turn : Turn F} {earlier : List (Turn F)}
    (h : WithinSent s.index earlier) (hshared : turn.sharedPrefixTokens = 0) :
    WithinSent (s.seenIndex turn) (earlier ++ [turn]) := by
  intro sessionId i hmem
  rw [seenIndex_blockTokens]
  have hmore := sent_le_append earlier turn sessionId
  by_cases hpath : .priv sessionId i ∈ s.path turn
  · obtain ⟨hsession,hlt,part,hpart,hkey,htokens⟩ := part_of_priv hshared hpath
    have hsent : turn.promptTokens ≤ sent (earlier ++ [turn]) sessionId := by
      rw [sent_append,if_pos hsession]
      exact le_max_right _ _
    have hseen : (s.seenIndex turn).tokensOf (.priv sessionId i) =
        max (s.index.tokensOf (.priv sessionId i)) part.tokens := by
      rw [← hkey]
      exact PrefixIndex.tokensOf_touchPath_of_mem _ _ _ _ _ _ hpart
    have hbt := s.index.blockTokens_pos
    by_cases hold : .priv sessionId i ∈ s.index.blocks
    · have hrecord := h sessionId i hold
      omega
    · have hnone := PrefixIndex.tokensOf_of_not_mem hold
      omega
  · have hold : .priv sessionId i ∈ s.index.blocks := (mem_seenIndex.mp hmem).resolve_left hpath
    have hrecord := h sessionId i hold
    have hsame : (s.seenIndex turn).tokensOf (.priv sessionId i) =
        s.index.tokensOf (.priv sessionId i) :=
      PrefixIndex.tokensOf_touchPath_of_not_mem _ _ _ _ _ _ hpath
    rw [hsame]
    omega

theorem exec_blockTokens (sched : Schedule F) (s : Simulator F) (turns : List (Turn F)) :
    (exec sched s turns).index.blockTokens = s.index.blockTokens := by
  induction turns using List.reverseRecOn with
  | nil => rfl
  | append_singleton turns turn ih => rw [exec_append,one_index,seenIndex_blockTokens,ih]

theorem exec_withinSent (sched : Schedule F) (cfg : SimConfig F) (kind : PolicyKind F)
    (ram : TierConfig F) (turns : List (Turn F))
    (hshared : ∀ turn ∈ turns, turn.sharedPrefixTokens = 0) :
    WithinSent (exec sched (start cfg kind ram) turns).index turns := by
  induction turns using List.reverseRecOn with
  | nil => exact fun sessionId i hmem => absurd hmem (by simp [exec,start,new,PrefixIndex.new])
  | append_singleton turns turn ih =>
    rw [exec_append,one_index]
    exact seenIndex_withinSent (ih fun t ht => hshared t (by simp [ht])) (hshared turn (by simp))

theorem recomputeTokens_nonneg {s : Simulator F} (hsized : s.index.Sized) (turn : Turn F) :
    0 ≤ s.recomputeTokens turn := by
  rw [recomputeTokens_eq]
  refine List.sum_nonneg fun n hn => ?_
  obtain ⟨key,_,rfl⟩ := List.mem_map.mp hn
  exact PrefixIndex.tokensOf_nonneg (seenIndex_sized hsized turn) key

section Growth

variable {s : Simulator F} {earlier : List (Turn F)} {turn : Turn F}
  (hsent : WithinSent s.index earlier) (hshared : turn.sharedPrefixTokens = 0)

include hsent in
theorem not_resident_of_unsent (hsized : s.index.Sized) (hreg : s.Registered) {i : ℕ}
    (hi : sent earlier turn.sessionId ≤ i*s.index.blockTokens) :
    ¬ s.Resident (.priv turn.sessionId i) := by
  intro hres
  have hmem := hreg _ hres
  obtain ⟨⟨tokens,nbytes⟩,hr⟩ := PrefixIndex.mem_blocks_iff.mp hmem
  have hpos : 1 ≤ s.index.tokensOf (.priv turn.sessionId i) := by
    rw [PrefixIndex.tokensOf_eq,hr]
    exact (hsized _ _ _ hr).1
  have hwithin := (hsent _ _ hmem).2
  omega

omit [Scalar F] in
include hsent hshared in
/-- A turn that asks for more than was sent asks at least what is on record. -/
theorem overRecorded_of_growth (hgrown : sent earlier turn.sessionId < turn.promptTokens)
    (hp : 0 ≤ turn.promptTokens) : s.overRecorded turn = 0 := by
  refine List.sum_eq_zero fun n hn => ?_
  obtain ⟨part,hpart,rfl⟩ := List.mem_map.mp hn
  have hmem : part ∈ s.parts turn := (List.dropWhile_suffix _).subset hpart
  rw [parts_of_nonneg hshared hp] at hmem
  obtain ⟨i,hi,rfl⟩ := List.mem_map.mp hmem
  have hlt := (lt_blockCount s.index.blockTokens_pos hp).mp (List.mem_range.mp hi)
  have hbt := s.index.blockTokens_pos
  by_cases hold : .priv turn.sessionId i ∈ s.index.blocks
  · have hrecord := hsent turn.sessionId i hold
    exact max_eq_left (by simp only; omega)
  · have hnone := PrefixIndex.tokensOf_of_not_mem hold
    exact max_eq_left (by simp only; omega)

omit [Scalar F] in
include hshared in
/-- The walk serves the tokens of the blocks before the first one outside both tiers. -/
theorem servedTokens_eq (hp : 0 ≤ turn.promptTokens) :
    ∃ c : ℕ, s.servedTokens turn = min turn.promptTokens (c*s.index.blockTokens) ∧
      (∀ i < c, s.Resident (.priv turn.sessionId i)) ∧
      (c*s.index.blockTokens < turn.promptTokens → ¬ s.Resident (.priv turn.sessionId c)) := by
  obtain ⟨c,hc,htake,hin,hout⟩ := takeWhile_range
    (fun i : ℕ => s.Resident (.priv turn.sessionId i))
    (blockCount s.index.blockTokens turn.promptTokens)
  refine ⟨c,?_,fun i hi => by simpa using hin i hi,fun hlt => ?_⟩
  · rw [servedTokens,served,parts_of_nonneg hshared hp,List.takeWhile_map,List.map_map]
    have hpred : (fun part : ChainPart => decide (s.Resident part.key)) ∘ (fun i : ℕ =>
        (⟨.priv turn.sessionId i,min s.index.blockTokens
          (turn.promptTokens-i*s.index.blockTokens),false⟩ : ChainPart)) =
        fun i : ℕ => decide (s.Resident (.priv turn.sessionId i)) := rfl
    rw [hpred,htake]
    exact sum_blocks s.index.blockTokens_pos hp hc
  · simpa using hout ((lt_blockCount s.index.blockTokens_pos hp).mpr hlt)

include hsent hshared in
/-- A turn recomputes what its session has not sent before exactly when the prompt has
not grown, or it grew from the end of a block, or the walk stops before the growth. -/
theorem recomputeTokens_ge_iff (hsized : s.index.Sized) (hreg : s.Registered) :
    turn.promptTokens-sent earlier turn.sessionId ≤ s.recomputeTokens turn ↔
      turn.promptTokens ≤ sent earlier turn.sessionId ∨
      s.index.blockTokens ∣ sent earlier turn.sessionId ∨
      ∃ i : ℕ, i*s.index.blockTokens < sent earlier turn.sessionId ∧
        ¬ s.Resident (.priv turn.sessionId i) := by
  have hbt := s.index.blockTokens_pos
  have hzero := sent_nonneg earlier turn.sessionId
  rcases le_or_gt turn.promptTokens (sent earlier turn.sessionId) with hle | hgrown
  · have hpos := recomputeTokens_nonneg hsized turn
    exact ⟨fun _ => Or.inl hle,fun _ => by omega⟩
  have hp : 0 ≤ turn.promptTokens := by omega
  have hbill := s.recomputeTokens_add_served turn
  have hasked := s.overAsked_eq_zero turn hp hshared.ge
  have hrecord := overRecorded_of_growth hsent hshared hgrown hp
  obtain ⟨c,hserved,hin,hout⟩ := servedTokens_eq (s := s) hshared hp
  -- What remains is whether the served blocks end within what was sent.
  have hcut : turn.promptTokens-sent earlier turn.sessionId ≤ s.recomputeTokens turn ↔
      c*s.index.blockTokens ≤ sent earlier turn.sessionId := by omega
  have hbefore : ∀ i : ℕ, ¬ s.Resident (.priv turn.sessionId i) →
      c*s.index.blockTokens ≤ i*s.index.blockTokens := by
    intro i hi
    have hci : c ≤ i := not_lt.mp fun hlt => hi (hin i hlt)
    exact mul_le_mul_of_nonneg_right (by exact_mod_cast hci) (by omega)
  rw [hcut]
  constructor
  · intro hend
    refine Or.inr ?_
    cases hend.eq_or_lt with
    | inl heq => exact Or.inl (heq ▸ Dvd.intro_left _ rfl)
    | inr hlt => exact Or.inr ⟨c,hlt,hout (by omega)⟩
  · rintro (hle | ⟨q,hq⟩ | ⟨i,hi,hres⟩)
    · omega
    · have hq0 : 0 ≤ q := nonneg_of_mul_nonneg_right (hq ▸ hzero) (by omega)
      have hcast : (q.toNat : ℤ)*s.index.blockTokens = sent earlier turn.sessionId := by
        rw [Int.toNat_of_nonneg hq0,hq,mul_comm]
      have hend := hbefore q.toNat (not_resident_of_unsent hsent hsized hreg hcast.ge)
      omega
    · have hend := hbefore i hres
      omega

end Growth

/-- In every run of sessions that share nothing, this is exactly when a turn recomputes
all the tokens that no earlier turn of its session has sent. -/
theorem no_free_prefill_iff (cfg : SimConfig F) (kind : PolicyKind F) (ram : TierConfig F)
    (turns : List (Turn F)) (hshared : ∀ turn ∈ turns, turn.sharedPrefixTokens = 0) {n : ℕ}
    {turn : Turn F} (hturn : (inOrder turns)[n]? = some turn) :
    turn.promptTokens-sent ((inOrder turns).take n) turn.sessionId ≤
        ((start cfg kind ram).after turns n).recomputeTokens turn ↔
      turn.promptTokens ≤ sent ((inOrder turns).take n) turn.sessionId ∨
      max 1 cfg.blockTokens ∣ sent ((inOrder turns).take n) turn.sessionId ∨
      ∃ i : ℕ, i*max 1 cfg.blockTokens < sent ((inOrder turns).take n) turn.sessionId ∧
        ¬ ((start cfg kind ram).after turns n).Resident (.priv turn.sessionId i) := by
  have hordered : ∀ turn ∈ inOrder turns, turn.sharedPrefixTokens = 0 := fun turn ht =>
    hshared turn (mem_sortedBy.mp ht)
  have hsized : (start cfg kind ram).index.Sized := PrefixIndex.new_sized _ _
  have hblock : ((start cfg kind ram).after turns n).index.blockTokens = max 1 cfg.blockTokens :=
    exec_blockTokens _ _ _
  rw [← hblock]
  exact recomputeTokens_ge_iff
    (exec_withinSent _ cfg kind ram _ fun turn ht => hordered turn (List.mem_of_mem_take ht))
    (hordered turn (List.mem_of_getElem? hturn)) (exec_sized hsized _)
    (exec_registered _ (start_registered cfg kind ram) _)

theorem no_free_prefill_iff_small :
    1500-sent ((inOrder [ask 0 "a" 1000,ask 1 "a" 1500]).take 1) "a" ≤
      ((start (smallConfig 5000 5000) .lru (smallRam 5000)).after
        [ask 0 "a" 1000,ask 1 "a" 1500] 1).recomputeTokens (ask 1 "a" 1500) :=
  (no_free_prefill_iff (smallConfig 5000 5000) .lru (smallRam 5000)
    [ask 0 "a" 1000,ask 1 "a" 1500] (by simp [ask]) rfl).mpr (Or.inr (Or.inl (by decide +kernel)))

/-- A session that grew from 100 tokens to 800 in one block recomputes none of them. -/
theorem growth_is_free : ¬ ∀ (cfg : SimConfig ℚ) (kind : PolicyKind ℚ) (ram : TierConfig ℚ)
    (turns : List (Turn ℚ)), cfg.tier "ram" = some ram →
    (∀ turn ∈ turns, turn.sharedPrefixTokens = 0) →
    ∀ (n : ℕ) (turn : Turn ℚ), (inOrder turns)[n]? = some turn →
      turn.promptTokens-sent ((inOrder turns).take n) turn.sessionId ≤
        ((start cfg kind ram).after turns n).recomputeTokens turn := by
  intro h
  have hlate := h (smallConfig 5000 5000) .lru (smallRam 5000) [ask 0 "a" 100,ask 1 "a" 800] rfl
    (by simp [ask]) 1 (ask 1 "a" 800) rfl
  exact absurd hlate (by decide +kernel)

end Simulator
end ContextResidency
