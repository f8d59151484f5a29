import ContextResidency.HostFacts
import ContextResidency.Decoupling

/-! Turns that ask for one block, all blocks of one size. The host tier is then a set of
as many blocks as there are slots, and a turn that finds its block there stores nothing. -/
namespace ContextResidency

variable {F : Type} [Scalar F]

namespace Simulator

/-- The blocks of one size that a tier has room for. -/
def slots (tier : TierConfig F) (size : ℤ) : ℕ := (tier.bytesCapacity/size).toNat

omit [Scalar F] in
theorem lt_slots {tier : TierConfig F} {size : ℤ} (hsize : 0 < size) {n : ℕ} :
    n < slots tier size ↔ size ≤ max 0 (tier.bytesCapacity-n*size) := by
  have hdiv : (n : ℤ)+1 ≤ tier.bytesCapacity/size ↔ ((n : ℤ)+1)*size ≤ tier.bytesCapacity :=
    Int.le_ediv_iff_mul_le hsize
  have hmul : ((n : ℤ)+1)*size = n*size+size := by ring
  unfold slots
  omega

omit [Scalar F] in
theorem slots_mono {tier tier' : TierConfig F} {size : ℤ} (hsize : 0 < size)
    (h : tier.bytesCapacity ≤ tier'.bytesCapacity) : slots tier size ≤ slots tier' size :=
  Int.toNat_le_toNat (Int.ediv_le_ediv hsize h)

/-- The turn asks for one block, of the given size. -/
structure Single (size : ℤ) (s : Simulator F) (turn : Turn F) (key : BlockKey) : Prop where
  path : s.path turn = [key]
  bytes : (s.seenIndex turn).nbytesOf key = size

theorem Single.congr {size : ℤ} {s t : Simulator F} {turn : Turn F} {key : BlockKey}
    (h : Single size s turn key) (hindex : t.index = s.index) : Single size t turn key where
  path := by rw [path_congr hindex,h.path]
  bytes := by rw [seenIndex_congr hindex,h.bytes]

theorem store_hit {s : Simulator F} {key : BlockKey} (now : F) (sched : Schedule F)
    (hkey : key ∈ s.policy.entries) :
    (s.storeBatchToHost [key] now sched).policy = s.policy := by
  obtain ⟨e,he⟩ := Dict.mem_iff_get.mp hkey
  have hmissing : s.missing [key] = [] := by simp [missing,TierPolicy.get,he]
  have hchain : s.policy.admitChain (s.missing [key]) s.probe = [] := by
    rw [hmissing]
    exact List.sublist_nil.mp (s.policy.admitChain_sublist [] s.probe)
  have hquiet : s.evictRequest [key] = none := by
    rw [evictRequest,hchain]
    exact if_neg (by simp)
  rw [storeBatchToHost,hquiet,hchain]
  rfl

namespace Single

variable {size : ℤ} {s : Simulator F} {turn : Turn F} {key : BlockKey}
  (hsingle : Single size s turn key)
include hsingle

theorem seen_size (hindexed : ∀ k ∈ s.policy.entries, s.index.nbytesOf k = size) :
    ∀ k ∈ s.policy.entries, (s.seenIndex turn).nbytesOf k = size := by
  intro k hk
  by_cases hkey : k = key
  · rw [hkey]
    exact hsingle.bytes
  · have hpath : k ∉ s.path turn := by simpa [hsingle.path] using hkey
    have hsame : (s.seenIndex turn).nbytesOf k = s.index.nbytesOf k :=
      PrefixIndex.nbytesOf_touchPath_of_not_mem _ _ _ _ _ _ hpath
    rw [hsame]
    exact hindexed k hk

variable (sched : Schedule F)

theorem mem_sizes {p : BlockKey × ℤ} (hp : p ∈ sizes (one sched s turn).policy.entries) :
    p ∈ sizes s.policy.entries ∨ p.1 = key ∧ p.2 = size := by
  refine (mem_sizes_one s turn sched hp).imp_right fun hnew => ?_
  rw [hsingle.path,List.mem_singleton] at hnew
  exact ⟨hnew.1,by rw [hnew.2,hnew.1,hsingle.bytes]⟩

theorem stored_one (hstored : ∀ p ∈ sizes s.policy.entries, p.2 = size) :
    ∀ p ∈ sizes (one sched s turn).policy.entries, p.2 = size := by
  intro p hp
  cases hsingle.mem_sizes sched hp with
  | inl hold => exact hstored p hold
  | inr hnew => exact hnew.2

theorem indexed_one (hindexed : ∀ k ∈ s.policy.entries, s.index.nbytesOf k = size) :
    ∀ k ∈ (one sched s turn).policy.entries, (one sched s turn).index.nbytesOf k = size := by
  intro k hk
  rw [one_index]
  obtain ⟨p,hp,rfl⟩ := List.mem_map.mp (mem_iff_sizes.mp hk)
  cases hsingle.mem_sizes sched hp with
  | inl hold => exact hsingle.seen_size hindexed p.1 (mem_of_sizes hold)
  | inr hnew =>
    rw [hnew.1]
    exact hsingle.bytes

end Single
end Simulator
end ContextResidency
