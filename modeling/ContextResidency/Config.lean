import ContextResidency.Scalar

/-! The cost model and the tier configuration. -/
namespace ContextResidency

/-- One storage tier below HBM. -/
structure TierConfig (F : Type) where
  name : String
  bytesCapacity : ℤ
  bandwidthGbs : F
  enabled : Bool := true
  efficiency : F

/-- The physical constants that turn a residency decision into seconds. -/
structure CostModel (F : Type) where
  kvBytesPerToken : F
  prefillTokensPerS : F
  decodeTokensPerS : F
  requestOverheadS : F

structure SimConfig (F : Type) where
  hbmPoolTokens : ℤ
  blockTokens : ℤ
  cost : CostModel F
  tiers : List (TierConfig F)
  patientSloTtftS : F
  thrashWindowS : F

variable {F : Type} [Scalar F]

namespace TierConfig

def effectiveGbs (tier : TierConfig F) : F := tier.bandwidthGbs*tier.efficiency

def restoreSeconds (tier : TierConfig F) (nbytes : ℤ) : F :=
  -- Without any bandwidth the source raises.
  if nbytes ≤ 0 then 0 else nbytes/(tier.effectiveGbs*10^9)

end TierConfig

namespace CostModel

/-- The measured defaults. -/
def default : CostModel F where
  kvBytesPerToken := 57591
  prefillTokensPerS := 11000
  decodeTokensPerS := 118
  requestOverheadS := 36/100

def recomputeSeconds (cost : CostModel F) (tokens : F) : F := tokens/cost.prefillTokensPerS

/-- The tier bandwidth at which restoring beats recomputing, in GB/s. -/
def breakevenBwGbs (cost : CostModel F) : F := cost.kvBytesPerToken*cost.prefillTokensPerS/10^9

def isWorthTier (cost : CostModel F) (tier : TierConfig F) : Prop :=
  cost.breakevenBwGbs < tier.effectiveGbs

/-- `int(tokens * kv_bytes_per_token)`, the size of a block of so many tokens. -/
def blockBytes (cost : CostModel F) (tokens : ℤ) : ℤ := truncate (tokens*cost.kvBytesPerToken)

theorem blockBytes_mono {cost : CostModel F} (hkv : 0 ≤ cost.kvBytesPerToken) {m n : ℤ}
    (h : m ≤ n) : cost.blockBytes m ≤ cost.blockBytes n := by
  have hc : (m : F) ≤ n := by exact_mod_cast h
  exact truncate_mono (mul_le_mul_of_nonneg_right hc hkv)

theorem blockBytes_nonneg {cost : CostModel F} (hkv : 0 ≤ cost.kvBytesPerToken) {n : ℤ}
    (h : 0 ≤ n) : 0 ≤ cost.blockBytes n := by
  have hn : (0 : F) ≤ n := by exact_mod_cast h
  exact truncate_nonneg (mul_nonneg hn hkv)

theorem blockBytes_nonpos {cost : CostModel F} (hkv : cost.kvBytesPerToken ≤ 0) {n : ℤ}
    (h : 0 ≤ n) : cost.blockBytes n ≤ 0 := by
  have hn : (0 : F) ≤ n := by exact_mod_cast h
  exact truncate_nonpos (mul_nonpos_of_nonneg_of_nonpos hn hkv)

end CostModel

namespace SimConfig

def hbmBytes (cfg : SimConfig F) : ℤ := truncate (cfg.hbmPoolTokens*cfg.cost.kvBytesPerToken)

def tier (cfg : SimConfig F) (name : String) : Option (TierConfig F) :=
  cfg.tiers.find? fun t => t.name = name ∧ t.enabled

/-- The host the project was written on: a RAM tier and a disabled disk tier. -/
def default : SimConfig F where
  hbmPoolTokens := 1003197
  blockTokens := 816
  cost := CostModel.default
  tiers := [⟨"ram",160*1024^3,96,true,55/100⟩,⟨"disk",1024*1024^3,413/1000,false,1⟩]
  patientSloTtftS := 3/2
  thrashWindowS := 60

end SimConfig

end ContextResidency
