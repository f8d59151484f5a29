import ContextResidency.HostGrowth
import ContextResidency.StoreStep
import ContextResidency.RoleReport

/-! The break-even bandwidth and the run as a whole. An engine without a host tier is a small
machine: an index and an HBM pool. A tier above the break-even bandwidth never costs time
against it, whatever the policy does with the tier. -/
namespace ContextResidency

variable {F : Type} [Scalar F]

/-- An engine without a host tier, with the tokens that it has computed. -/
structure BareEngine (F : Type) where
  index : PrefixIndex F
  hbm : HBMTier
  computed : ℤ

namespace BareEngine

def new (cfg : SimConfig F) : BareEngine F := ⟨.new cfg.blockTokens cfg.cost,.new cfg.hbmBytes,0⟩

/-- A turn computes its path from the first block that HBM does not hold. -/
def serve (engine : BareEngine F) (turn : Turn F) : BareEngine F :=
  let r := engine.index.touchPath turn.sessionId turn.role turn.promptTokens
    turn.sharedPrefixTokens turn.t turn.aborted
  { index := r.1
    hbm := (engine.hbm.store (r.2.map fun k => (k,r.1.nbytesOf k)) r.2.toFinset).1
    computed := engine.computed+
      ((r.2.dropWhile (· ∈ engine.hbm.blocks)).map r.1.tokensOf).sum }

def run (cfg : SimConfig F) (turns : List (Turn F)) : BareEngine F :=
  (inOrder turns).foldl serve (new cfg)

end BareEngine

/-- What restoring so many bytes saves, when they are worth so many tokens at most. -/
theorem restoreSeconds_le_recomputeSeconds {cost : CostModel F} {tier : TierConfig F}
    (hrate : 0 < cost.prefillTokensPerS) (hkv : 0 ≤ cost.kvBytesPerToken)
    (hworth : cost.isWorthTier tier) {nbytes : ℤ} {tokens : F} (htokens : 0 ≤ tokens)
    (hbytes : (nbytes : F) ≤ cost.kvBytesPerToken*tokens) :
    tier.restoreSeconds nbytes ≤ cost.recomputeSeconds tokens := by
  unfold TierConfig.restoreSeconds CostModel.recomputeSeconds
  split
  · positivity
  · rename_i hsome
    have hpos : (0 : F) < nbytes := by exact_mod_cast not_le.mp hsome
    have hkvpos : 0 < cost.kvBytesPerToken := by
      refine hkv.lt_of_ne fun hzero => ?_
      rw [← hzero,zero_mul] at hbytes
      exact absurd hbytes (not_le.mpr hpos)
    have hspeed : cost.kvBytesPerToken*cost.prefillTokensPerS < tier.effectiveGbs*10^9 := by
      rw [CostModel.isWorthTier,CostModel.breakevenBwGbs,div_lt_iff₀ (by positivity)] at hworth
      exact hworth
    have hprice : 0 < cost.kvBytesPerToken*cost.prefillTokensPerS := mul_pos hkvpos hrate
    calc (nbytes : F)/(tier.effectiveGbs*10^9)
        ≤ nbytes/(cost.kvBytesPerToken*cost.prefillTokensPerS) :=
          div_le_div_of_nonneg_left hpos.le hprice hspeed.le
      _ ≤ cost.kvBytesPerToken*tokens/(cost.kvBytesPerToken*cost.prefillTokensPerS) :=
          div_le_div_of_nonneg_right hbytes hprice.le
      _ = tokens/cost.prefillTokensPerS := by
          rw [mul_div_mul_left _ _ hkvpos.ne']

theorem PrefixIndex.nbytesOf_le_tokens {index : PrefixIndex F} (h : index.Sized)
    (hkv : 0 ≤ index.cost.kvBytesPerToken) (key : BlockKey) :
    (index.nbytesOf key : F) ≤ index.cost.kvBytesPerToken*index.tokensOf key := by
  have htokens : (0 : F) ≤ index.tokensOf key := by exact_mod_cast tokensOf_nonneg h key
  by_cases hk : key ∈ index.blocks
  · rw [nbytesOf_eq_blockBytes h hk,CostModel.blockBytes,mul_comm,truncate,
      if_pos (mul_nonneg hkv htokens)]
    exact Int.floor_le _
  · rw [nbytesOf_of_not_mem hk,Int.cast_zero]
    exact mul_nonneg hkv htokens

namespace Simulator

/-- The bytes that a walk restores weigh at most what the blocks behind HBM spare. -/
theorem scan_restoreBytes_le {s : Simulator F} (h : Weighed s.index s.policy.entries)
    (hkv : 0 ≤ s.index.cost.kvBytesPerToken) (keys : List BlockKey) :
    ((s.scan keys).restoreBytes : F) ≤ s.index.cost.kvBytesPerToken*
      ((((keys.dropWhile fun k => k ∈ s.hbm.blocks).map s.index.tokensOf).sum-
        ((keys.dropWhile fun k => s.Resident k).map s.index.tokensOf).sum : ℤ) : F) := by
  induction keys with
  | nil => simp [scan]
  | cons key keys ih =>
    rw [scan,List.dropWhile_cons,List.dropWhile_cons]
    by_cases hhbm : key ∈ s.hbm.blocks
    · have hresident : s.Resident key := Or.inl hhbm
      simpa [hhbm,hresident] using ih
    · cases hentry : s.policy.get key with
      | none =>
        have hout : key ∉ s.policy.entries := Dict.get_eq_none.mp hentry
        have hgone : ¬ s.Resident key := fun hresident => hresident.elim hhbm hout
        simp [hhbm,hgone]
      | some entry =>
        have hin : key ∈ s.policy.entries := Dict.mem_iff_get.mpr ⟨entry,hentry⟩
        have hresident : s.Resident key := Or.inr hin
        have hitem : (key,entry.nbytes) ∈ sizes s.policy.entries :=
          List.mem_map.mpr ⟨(key,entry),Dict.get_eq_some.mp hentry,rfl⟩
        have hsize : (entry.nbytes : F) ≤ s.index.nbytesOf key := by
          exact_mod_cast (h.nonneg hkv _ hitem).2
        have hweight := hsize.trans (PrefixIndex.nbytesOf_le_tokens h.sized hkv key)
        have htail : ((keys.dropWhile fun k => k ∈ s.hbm.blocks).map s.index.tokensOf).sum ≤
            (keys.map s.index.tokensOf).sum :=
          ((List.dropWhile_sublist _).map _).sum_le_sum fun tokens htokens => by
            obtain ⟨k,_,rfl⟩ := List.mem_map.mp htokens
            exact PrefixIndex.tokensOf_nonneg h.sized k
        have hspared := Int.sub_le_sub_right htail
          ((keys.dropWhile fun k => s.Resident k).map s.index.tokensOf).sum
        have hrest := ih.trans (mul_le_mul_of_nonneg_left (Int.cast_le.mpr hspared) hkv)
        simp only [hhbm,hresident,decide_true,decide_false,if_true,if_false,Bool.false_eq_true]
        rw [List.map_cons,List.sum_cons,add_sub_assoc,Int.cast_add,Int.cast_add,mul_add]
        exact add_le_add hweight hrest

/-- A replay and the engine that serves the same turns without a host tier. -/
structure Spares (s : Simulator F) (engine : BareEngine F) : Prop where
  index : s.index = engine.index
  hbm : s.hbm = engine.hbm
  weighed : Weighed s.index s.policy.entries
  computed : s.totalRecompute ≤ engine.computed
  restored : (((s.metrics.map (·.restoreBytes)).sum : ℤ) : F) ≤
    s.index.cost.kvBytesPerToken*((engine.computed-s.totalRecompute : ℤ) : F)

theorem Spares.one {s : Simulator F} {engine : BareEngine F} (h : Spares s engine)
    (hkv : 0 ≤ s.index.cost.kvBytesPerToken) (sched : Schedule F) (turn : Turn F) :
    Spares (one sched s turn) (engine.serve turn) := by
  have hindex : s.seenIndex turn = (engine.serve turn).index := by
    rw [seenIndex,observe,BareEngine.serve,h.index]
  have hpath : s.path turn = (engine.index.touchPath turn.sessionId turn.role turn.promptTokens
      turn.sharedPrefixTokens turn.t turn.aborted).2 := by
    rw [path,observe,h.index]
  have hseen : Weighed (s.seenIndex turn) s.policy.entries := seenIndex_weighed h.weighed turn
  have hcost : (s.seenIndex turn).cost = s.index.cost := seenIndex_cost s turn
  have hbill : (engine.serve turn).computed = engine.computed+
      (((s.path turn).dropWhile fun k => k ∈ s.hbm.blocks).map (s.seenIndex turn).tokensOf).sum := by
    rw [hindex,hpath,h.hbm]
    rfl
  constructor
  case index => rw [one_index,hindex]
  case hbm =>
    rw [one_hbm,hindex,hpath,h.hbm]
    rfl
  case weighed => exact one_weighed sched h.weighed turn
  case computed =>
    rw [one_totalRecompute,hbill]
    exact add_le_add h.computed (recomputeTokens_le_hbm h.weighed.sized turn)
  case restored =>
    have hwalk := scan_restoreBytes_le (s := (s.observe turn).1) hseen (hcost.symm ▸ hkv)
      (s.path turn)
    have hwalk : ((s.found turn).restoreBytes : F) ≤ s.index.cost.kvBytesPerToken*
        (((((s.path turn).dropWhile fun k => k ∈ s.hbm.blocks).map (s.seenIndex turn).tokensOf).sum-
          s.recomputeTokens turn : ℤ) : F) := by
      rw [recomputeTokens_eq,← hcost]
      exact hwalk
    have hbytes : ((Simulator.one sched s turn).metrics.map (·.restoreBytes)).sum =
        (s.metrics.map (·.restoreBytes)).sum+(s.found turn).restoreBytes := by
      rw [one_metrics,List.map_append,List.sum_append]
      simp [metric]
    have hspared : (engine.serve turn).computed-(Simulator.one sched s turn).totalRecompute =
        (engine.computed-s.totalRecompute)+
          ((((s.path turn).dropWhile fun k => k ∈ s.hbm.blocks).map
            (s.seenIndex turn).tokensOf).sum-s.recomputeTokens turn) := by
      rw [hbill,one_totalRecompute]
      omega
    rw [hbytes,hspared,one_index,hcost,Int.cast_add,Int.cast_add,mul_add]
    exact add_le_add h.restored hwalk

theorem exec_spares (cfg : SimConfig F) (kind : PolicyKind F) (ram : TierConfig F)
    (hkv : 0 ≤ cfg.cost.kvBytesPerToken) (sched : Schedule F) (turns : List (Turn F)) :
    Spares (exec sched (start cfg kind ram) turns) (turns.foldl BareEngine.serve (.new cfg)) ∧
      (exec sched (start cfg kind ram) turns).index.cost = cfg.cost := by
  induction turns using List.reverseRecOn with
  | nil =>
    refine ⟨⟨rfl,rfl,⟨PrefixIndex.new_sized _ _,?_,?_⟩,le_rfl,?_⟩,rfl⟩
    · simp [exec,sizes_start]
    · simp [exec,sizes_start]
    · simp [exec,start,Simulator.new,totalRecompute,BareEngine.new]
  | append_singleton turns turn ih =>
    rw [exec_append,List.foldl_append,List.foldl_cons,List.foldl_nil,one_index,seenIndex_cost]
    exact ⟨ih.1.one (ih.2.symm ▸ hkv) sched turn,ih.2⟩

end Simulator

open Simulator in
/-- A host tier above the break-even bandwidth never loses to the engine alone: whatever the
policy demotes and evicts, the seconds of its prefill and of its transfers together are at most
those of the prefill that no tier spares. -/
theorem objective_le_engine {cfg : SimConfig F} {turns : List (Turn F)} {name : String}
    {report : Report F} {ram : TierConfig F} (h : runPolicy cfg turns name = .ok report)
    (hram : cfg.tier "ram" = some ram) (hworth : cfg.cost.isWorthTier ram)
    (hrate : 0 < cfg.cost.prefillTokensPerS) (hkv : 0 ≤ cfg.cost.kvBytesPerToken) :
    report.objective ≤ cfg.cost.recomputeSeconds (BareEngine.run cfg turns).computed := by
  obtain ⟨p,_,_,tier,htier,rfl⟩ := runPolicy_eq_ok h
  obtain rfl : tier = ram := Option.some.inj (htier.symm.trans hram)
  obtain ⟨hspares,hcost⟩ := exec_spares cfg p.2 tier hkv ((start cfg p.2 tier).schedule turns)
    (inOrder turns)
  have hlastCfg := after_cfg cfg p.2 tier turns turns.length
  have hlastTier := after_ramTier cfg p.2 tier turns turns.length
  rw [after_all] at hlastCfg hlastTier
  set last := exec ((start cfg p.2 tier).schedule turns) (start cfg p.2 tier) (inOrder turns)
  have hsaved : (0 : F) ≤ (((BareEngine.run cfg turns).computed-last.totalRecompute : ℤ) : F) := by
    exact_mod_cast sub_nonneg.mpr hspares.computed
  have htransfer : last.finalize.transferSeconds ≤ cfg.cost.recomputeSeconds
      (((BareEngine.run cfg turns).computed-last.totalRecompute : ℤ) : F) := by
    rw [finalize,hlastTier]
    exact restoreSeconds_le_recomputeSeconds hrate hkv hworth hsaved (hcost ▸ hspares.restored)
  have hprefill : last.finalize.prefillSeconds =
      cfg.cost.recomputeSeconds (last.totalRecompute : F) := by
    rw [finalize,hlastCfg]
    rfl
  calc last.finalize.objective
      ≤ cfg.cost.recomputeSeconds (last.totalRecompute : F)+cfg.cost.recomputeSeconds
          (((BareEngine.run cfg turns).computed-last.totalRecompute : ℤ) : F) := by
        rw [Report.objective,hprefill]
        exact add_le_add_right htransfer _
    _ = cfg.cost.recomputeSeconds (BareEngine.run cfg turns).computed := by
        simp only [CostModel.recomputeSeconds]
        rw [← add_div,Int.cast_sub,add_sub_cancel]

/-- Two sessions that push each other out of HBM, over a host tier that keeps both. -/
theorem objective_le_engine_small :
    ∃ report, runPolicy (smallConfig 1000 2000) [ask 1 "a" 900,ask 2 "b" 900,ask 3 "a" 900] "lru" =
        .ok report ∧
      report.objective ≤ (smallConfig 1000 2000).cost.recomputeSeconds
        (BareEngine.run (smallConfig 1000 2000)
          [ask 1 "a" 900,ask 2 "b" 900,ask 3 "a" 900]).computed := by
  let turns := [ask 1 "a" 900,ask 2 "b" 900,ask 3 "a" 900]
  cases h : runPolicy (smallConfig 1000 2000) turns "lru" with
  | error e =>
    have hok : (runPolicy (smallConfig 1000 2000) turns "lru").toBool = true := by decide +kernel
    rw [h] at hok
    cases hok
  | ok report =>
    refine ⟨report,rfl,objective_le_engine h (show _ = some (smallRam 2000) from rfl) ?_ ?_ ?_⟩
    · norm_num [CostModel.isWorthTier,CostModel.breakevenBwGbs,TierConfig.effectiveGbs,smallConfig,
        smallRam]
    · norm_num [smallConfig]
    · norm_num [smallConfig]

end ContextResidency
