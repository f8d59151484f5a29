import ContextResidency.Oracle
import ContextResidency.LruHost
import ContextResidency.Library.Competitive

/-! What LRU can cost, against any policy. On equal single blocks that come one at a time
the host tier under LRU is a cache of the newest blocks, and every policy that stores what
it is asked for is a paging: the bill of LRU is bounded by that of the other policy, the
oracle included, and the more so the more room LRU has beyond it. -/
namespace ContextResidency

variable {F : Type} [Scalar F]

namespace Simulator

/-- The replay `s` of some policy and the replay `t` of LRU in a tier with `spare` slots more. -/
structure Racing (size tokens : ℤ) (spare : ℕ) (rest : List (Turn F)) (recent : List BlockKey)
    (s t : Simulator F) : Prop where
  engine : SameEngine s t
  room : slots t.ramTier size = slots s.ramTier size+spare
  blocks : EqualBlocks size s
  tracks : Tracks size recent t rest
  lone : HBMTier.Lone size s.hbm
  cached : t.residents = t.held
  bills : ∃ m n : ℕ, t.totalRecompute = m*tokens ∧ s.totalRecompute = n*tokens ∧
    Competing (slots s.ramTier size) spare recent s.residents m n

section Step

variable {size tokens : ℤ} (hsize : 0 < size) {spare : ℕ} {rest : List (Turn F)}
  {recent : List BlockKey} {s t : Simulator F} {turn : Turn F} {key : BlockKey}

theorem held_of_exactLru (h : ExactLru size recent s) :
    s.held = (newest (slots s.ramTier size) recent).toFinset := by
  ext k
  rw [mem_held,List.mem_toFinset,h.ordered.mem]

theorem mem_one_of_exactLru (h : ExactLru size (access recent key) s)
    (hslots : 0 < slots s.ramTier size) : key ∈ s.held := by
  obtain ⟨before,hbefore⟩ := exists_newest_access hslots recent key
  rw [held_of_exactLru h,hbefore]
  simp

variable (h : Racing size tokens spare (turn::rest) recent s t) (hsingle : Single size s turn key)
  (htokens : (s.seenIndex turn).tokensOf key = tokens) (hadmits : s.Admits turn)
  (hslots : 0 < slots s.ramTier size) (hlater : ∀ next ∈ rest, turn.t < next.t)
include h hsize hsingle htokens hadmits hslots hlater

omit hlater in
/-- The bills stay in proportion over a turn. -/
theorem Racing.bills_one (sched sched' : Schedule F) :
    ∃ m n : ℕ, (one sched' t turn).totalRecompute = m*tokens ∧
      (one sched s turn).totalRecompute = n*tokens ∧
      Competing (slots s.ramTier size) spare (access recent key)
        (one sched s turn).residents m n := by
  obtain ⟨m,n,ht,hs,hcompeting⟩ := h.bills
  have hsingle' : Single size t turn key := hsingle.congr h.engine.index.symm
  have hheld : t.residents =
      (newest (slots s.ramTier size+spare) recent).toFinset := by
    rw [h.cached,held_of_exactLru h.tracks.exact,h.room]
  have hpaged := paged_one hsize h.blocks hsingle sched hadmits hslots h.lone
  refine ⟨m+missed t.residents key,n+missed s.residents key,?_,?_,?_⟩
  · have hseen : (t.seenIndex turn).tokensOf key = tokens := by
      rw [← seenIndex_congr h.engine.index]
      exact htokens
    rw [one_totalRecompute,ht,recomputeTokens_single hsingle' hseen]
    push_cast
    ring
  · rw [one_totalRecompute,hs,recomputeTokens_single hsingle htokens]
    push_cast
    ring
  · rw [hheld]
    exact hcompeting.step hpaged

theorem Racing.one (sched sched' : Schedule F) :
    Racing size tokens spare rest (access recent key) (one sched s turn) (one sched' t turn) := by
  have hsingle' : Single size t turn key := hsingle.congr h.engine.index.symm
  have hlone' : HBMTier.Lone size t.hbm := h.engine.hbm ▸ h.lone
  have htracks := one_tracks hsize h.tracks hsingle' hlater sched'
  constructor
  case engine => exact one_sameEngine sched sched' s t turn h.engine
  case room =>
    rw [one_ramTier,one_ramTier]
    exact h.room
  case blocks => exact h.blocks.one hsingle sched
  case tracks => exact htracks
  case lone => exact lone_one hsingle sched h.lone
  case cached =>
    have hroom : 0 < slots (Simulator.one sched' t turn).ramTier size := by
      rw [one_ramTier,h.room]
      omega
    rw [residents_one hsingle' sched' hlone',
      Finset.insert_eq_of_mem (mem_one_of_exactLru htracks.exact hroom)]
  case bills =>
    rw [one_ramTier]
    exact h.bills_one hsize hsingle htokens hadmits hslots sched sched'

end Step

section Trace

variable (cfg : SimConfig F) (kind : PolicyKind F) (ram ram' : TierConfig F) (turns : List (Turn F))
  {size tokens : ℤ} (h : EvenTrace cfg kind ram turns size tokens) (hslots : 0 < slots ram size)
  (hcap : ram.bytesCapacity ≤ ram'.bytesCapacity)
include h hslots hcap

theorem start_racing : Racing size tokens (slots ram' size-slots ram size) (inOrder turns) []
    (start cfg kind ram) (start cfg .lru ram') := by
  have hmore := slots_mono h.size_pos hcap
  have hpos : 0 ≤ ram.bytesCapacity := by
    by_contra hneg
    have hdiv : ram.bytesCapacity/size < 0 := Int.ediv_neg_of_neg_of_pos (not_le.mp hneg) h.size_pos
    unfold slots at hslots
    omega
  constructor
  case engine => exact ⟨rfl,rfl,rfl⟩
  case room => exact (Nat.add_sub_cancel' hmore).symm
  case blocks =>
    refine ⟨⟨PrefixIndex.new_sized _ _,?_,?_,hpos,hpos⟩,?_,?_⟩
    · simp [sizes_start]
    · simp [sizes_start]
    · simp [sizes_start]
    · exact fun key hkey => absurd hkey (Dict.not_mem_empty _)
  case tracks => exact start_tracks cfg ram' size _
  case lone => exact ⟨h.hbm,Or.inl ⟨rfl,rfl⟩⟩
  case cached => rfl
  case bills =>
    exact ⟨0,0,by simp [start,new,totalRecompute],by simp [start,new,totalRecompute],.start _ _⟩

theorem after_racing (n : ℕ) : ∃ recent,
    Racing size tokens (slots ram' size-slots ram size) ((inOrder turns).drop n) recent
      ((start cfg kind ram).after turns n) ((start cfg .lru ram').after turns n) := by
  induction n with
  | zero => exact ⟨[],start_racing cfg kind ram ram' turns h hslots hcap⟩
  | succ n ih =>
    obtain ⟨recent,hracing⟩ := ih
    cases hturn : (inOrder turns)[n]? with
    | none =>
      rw [after_of_done _ hturn,after_of_done _ hturn,rest_of_done hturn]
      exact ⟨recent,hracing⟩
    | some turn =>
      obtain ⟨key,hsingle,htokens⟩ := h.single n turn hturn
      have hslots' : 0 < slots ((start cfg kind ram).after turns n).ramTier size := by
        rw [after_ramTier]
        exact hslots
      rw [rest_of_turn hturn] at hracing
      rw [after_succ _ hturn,after_succ _ hturn]
      exact ⟨access recent key,hracing.one h.size_pos hsingle htokens (h.admits n turn hturn) hslots'
        (later_of_turn h.times hturn) _ _⟩

/-- LRU is competitive. Over an even trace its bill in a tier of `slots ram' size` slots is
bounded by the bill of any policy, the oracle too, in a tier of `slots ram size` slots: at
equal capacity by as many times as there are slots, in a tier twice as large by about twice. -/
theorem lru_competitive (htokens : 0 ≤ tokens) (n : ℕ) :
    ((slots ram' size : ℤ)-slots ram size+1)*((start cfg .lru ram').after turns n).totalRecompute ≤
      slots ram' size*((start cfg kind ram).after turns n).totalRecompute+
        ((slots ram' size : ℤ)-slots ram size)*(slots ram' size*tokens) := by
  obtain ⟨_,hracing⟩ := after_racing cfg kind ram ram' turns h hslots hcap n
  obtain ⟨m,k,ht,hs,hcompeting⟩ := hracing.bills
  have hmore : slots ram size ≤ slots ram' size := slots_mono h.size_pos hcap
  have hmisses := hcompeting.total
  rw [after_ramTier,Nat.add_sub_cancel' hmore] at hmisses
  have hcast : ((slots ram' size : ℤ)-slots ram size+1)*m ≤
      slots ram' size*k+((slots ram' size : ℤ)-slots ram size)*slots ram' size := by
    have hreal : (((slots ram' size-slots ram size+1)*m : ℕ) : ℤ) ≤
        (slots ram' size*k+(slots ram' size-slots ram size)*slots ram' size : ℕ) := by
      exact_mod_cast hmisses
    push_cast [Nat.cast_sub hmore] at hreal
    exact hreal
  rw [ht,hs]
  calc ((slots ram' size : ℤ)-slots ram size+1)*(m*tokens)
      = ((slots ram' size : ℤ)-slots ram size+1)*m*tokens := by ring
    _ ≤ (slots ram' size*k+((slots ram' size : ℤ)-slots ram size)*slots ram' size)*tokens :=
        mul_le_mul_of_nonneg_right hcast htokens
    _ = _ := by ring

end Trace

/-- LRU in two slots against one slot. -/
theorem lru_competitive_alternating :
    ((slots (smallRam 2000) 1000 : ℤ)-slots (smallRam 1000) 1000+1)*
        ((start (smallConfig 1000 1000) .lru (smallRam 2000)).after alternating 3).totalRecompute ≤
      slots (smallRam 2000) 1000*
          ((start (smallConfig 1000 1000) .lru (smallRam 1000)).after alternating 3).totalRecompute+
        ((slots (smallRam 2000) 1000 : ℤ)-slots (smallRam 1000) 1000)*
          (slots (smallRam 2000) 1000*1000) :=
  lru_competitive (smallConfig 1000 1000) .lru (smallRam 1000) (smallRam 2000) alternating
    alternating_even (by decide) (by decide) (by decide) 3

end Simulator
end ContextResidency
