import ContextResidency.IndexFacts

/-! The blocks of a prompt in closed form. Both parts of a chain are runs of full blocks
that may end in a partial one, and the private part goes on counting where the shared
part stops. A longer prompt therefore asks for the same blocks first, and for no less of
each of them. -/
namespace ContextResidency

section Segments

variable {mk : ℤ → BlockKey} {shared : Bool} {blockTokens tokens : ℤ}

def blockCount (blockTokens tokens : ℤ) : ℕ :=
  (tokens/blockTokens).toNat+if tokens % blockTokens = 0 then 0 else 1

theorem lt_blockCount (hbt : 1 ≤ blockTokens) (h : 0 ≤ tokens) {i : ℕ} :
    i < blockCount blockTokens tokens ↔ i*blockTokens < tokens := by
  have hq : 0 ≤ tokens/blockTokens := Int.ediv_nonneg h (by omega)
  have hle : (i : ℤ) ≤ tokens/blockTokens ↔ i*blockTokens ≤ tokens :=
    Int.le_ediv_iff_mul_le (by omega)
  unfold blockCount
  split
  · rename_i hr
    have hdvd : tokens/blockTokens*blockTokens = tokens :=
      Int.ediv_mul_cancel (Int.dvd_of_emod_eq_zero hr)
    have hlt : (i : ℤ)*blockTokens < tokens/blockTokens*blockTokens ↔ (i : ℤ) < tokens/blockTokens :=
      mul_lt_mul_iff_of_pos_right (by omega)
    rw [hdvd] at hlt
    rw [hlt]
    omega
  · rename_i hr
    have hne : (i : ℤ)*blockTokens ≠ tokens := fun e => hr (by rw [← e,Int.mul_emod_left])
    omega

/-- The blocks of a segment, full up to the last one. -/
theorem segment_eq_map (hbt : 1 ≤ blockTokens) (h : 0 ≤ tokens) :
    segment mk shared blockTokens 0 tokens = (List.range (blockCount blockTokens tokens)).map
      fun i : ℕ => ⟨mk i,min blockTokens (tokens-i*blockTokens),shared⟩ := by
  have hq : 0 ≤ tokens/blockTokens := Int.ediv_nonneg h (by omega)
  have hsplit := Int.mul_ediv_add_emod tokens blockTokens
  have hfull : ∀ i ∈ List.range (tokens/blockTokens).toNat,
      (⟨mk (0+i),blockTokens,shared⟩ : ChainPart) =
        ⟨mk i,min blockTokens (tokens-i*blockTokens),shared⟩ := by
    intro i hi
    have hlt := List.mem_range.mp hi
    have hle : ((i : ℤ)+1)*blockTokens ≤ tokens :=
      (Int.le_ediv_iff_mul_le (by omega)).mp (by omega)
    have hmul : ((i : ℤ)+1)*blockTokens = i*blockTokens+blockTokens := by ring
    rw [zero_add,min_eq_left (by omega)]
  rw [segment,List.map_congr_left hfull,blockCount]
  split
  · simp
  · have hr : 0 ≤ tokens % blockTokens := Int.emod_nonneg _ (by omega)
    have hlt : tokens % blockTokens < blockTokens := Int.emod_lt_of_pos _ (by omega)
    have hcast : ((tokens/blockTokens).toNat : ℤ) = tokens/blockTokens := Int.toNat_of_nonneg hq
    have hrest : tokens-tokens/blockTokens*blockTokens = tokens % blockTokens := by
      have hcomm : tokens/blockTokens*blockTokens = blockTokens*(tokens/blockTokens) := mul_comm _ _
      omega
    rw [List.range_succ,List.map_append]
    simp only [List.map_cons,List.map_nil,hcast,hrest,zero_add]
    rw [min_eq_right (by omega)]

theorem sum_blocks (hbt : 1 ≤ blockTokens) (h : 0 ≤ tokens) {c : ℕ}
    (hc : c ≤ blockCount blockTokens tokens) :
    ((List.range c).map fun i : ℕ => min blockTokens (tokens-i*blockTokens)).sum =
      min tokens (c*blockTokens) := by
  induction c with
  | zero => simp [h]
  | succ c ih =>
    have hlt : c*blockTokens < tokens := (lt_blockCount hbt h).mp (by omega)
    have hmul : ((c+1 : ℕ) : ℤ)*blockTokens = c*blockTokens+blockTokens := by
      push_cast
      ring
    rw [List.range_succ,List.map_append,List.sum_append,ih (by omega),hmul]
    simp only [List.map_cons,List.map_nil,List.sum_cons,List.sum_nil]
    omega

theorem segment_zero {base : ℤ} : segment mk shared blockTokens base 0 = [] := by
  simp [segment]

theorem segment_shift (mk : ℤ → BlockKey) (shared : Bool) (blockTokens base tokens : ℤ) :
    segment mk shared blockTokens base tokens =
      segment (fun i => mk (base+i)) shared blockTokens 0 tokens := by
  simp only [segment,zero_add]

theorem blockCount_zero : blockCount blockTokens 0 = 0 := by
  simp [blockCount]

theorem blockCount_mono (hbt : 1 ≤ blockTokens) {m n : ℤ} (hm : 0 ≤ m) (h : m ≤ n) :
    blockCount blockTokens m ≤ blockCount blockTokens n := by
  by_contra hlt
  have hlast := (lt_blockCount hbt hm).mp (not_le.mp hlt)
  have hover := (lt_blockCount hbt (hm.trans h)).not.mp (lt_irrefl (blockCount blockTokens n))
  omega

end Segments

namespace PrefixIndex

variable {F : Type} {index : PrefixIndex F} {sessionId : String}
  {promptTokens sharedPrefixTokens : ℤ} {rootId : String}

/-- The chain of a prompt of non-negative size: the shared blocks, then the private ones. -/
theorem chain_eq_map (hp : 0 ≤ promptTokens) (hs : 0 ≤ sharedPrefixTokens) :
    let shared := min sharedPrefixTokens promptTokens
    let base := blockCount index.blockTokens shared
    index.chain sessionId promptTokens sharedPrefixTokens rootId =
      ((List.range base).map fun i : ℕ => (⟨.root rootId i,
        min index.blockTokens (shared-i*index.blockTokens),true⟩ : ChainPart)) ++
      (List.range (blockCount index.blockTokens (promptTokens-shared))).map fun i : ℕ =>
        (⟨.priv sessionId (base+i),
          min index.blockTokens (promptTokens-shared-i*index.blockTokens),false⟩ : ChainPart) := by
  intro shared base
  have hshared : 0 ≤ shared := le_min hs hp
  have hpriv : 0 ≤ promptTokens-shared := sub_nonneg.mpr (min_le_right _ _)
  have hbt := index.blockTokens_pos
  have hroot : segment (.root rootId) true index.blockTokens 0 shared = (List.range base).map
      fun i : ℕ => ⟨.root rootId i,min index.blockTokens (shared-i*index.blockTokens),true⟩ :=
    segment_eq_map hbt hshared
  have hlength : (segment (.root rootId) true index.blockTokens 0 shared).length = base := by
    rw [hroot,List.length_map,List.length_range]
  rw [chain,segment_shift (.priv sessionId),segment_eq_map hbt hpriv,hlength,hroot]

end PrefixIndex
end ContextResidency
