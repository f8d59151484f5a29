import ContextResidency.BreakEven
import ContextResidency.Lossless
import ContextResidency.Library.Decimals
import ContextResidency.Library.JsonText

/-! The serve-time configuration. The host tier is sized against the token budget, and the
storage tier is there only above the break-even bandwidth. A plan that warns of nothing is for a
host tier that loses nothing, as long as a trace keeps to nine tenths of the budget. -/
namespace ContextResidency

open JsonText PyText

variable {F : Type} [Scalar F]

structure LaunchPlan (F : Type) where
  cpuBytesToUse : ℤ
  blockSize : Option ℤ
  evictionPolicy : String
  cachePolicyModulePath : String
  secondaryTiers : List (List (PyText × JsonValue F))
  tokenBudget : ℤ
  warnings : List String

/-- `f"{n:,}"` -/
def countText (n : ℤ) : List Char := (if n < 0 then ['-'] else []) ++ grouped n.natAbs

/-- `f"{x:,.0f}"` -/
def wholeText (x : F) : List Char :=
  (if x < 0 then ['-'] else []) ++ grouped (roundHalfEven |x|).toNat

/-- `f"{x:.3f}"` -/
def thousandthsText (x : F) : List Char :=
  let n := (roundHalfEven (1000*|x|)).toNat
  (if x < 0 then ['-'] else []) ++ Nat.toDigits 10 (n/1000) ++
    ['.',Nat.digitChar (n/100%10),Nat.digitChar (n/10%10),Nat.digitChar (n%10)]

def capacityWarning (tokenBudget wanted : ℤ) (ramCapGib : F) : String :=
  "token budget " ++ String.ofList (countText tokenBudget) ++ " needs " ++
    String.ofList (wholeText ((wanted : F)/1024^3)) ++ " GiB but the host tier is capped at " ++
    String.ofList (wholeText ramCapGib) ++ " GiB — residency will be lossy under pressure"

def storageWarning (storageBwGbs breakeven : F) : String :=
  "storage tier " ++ String.ofList (thousandthsText storageBwGbs) ++ " GB/s <= break-even " ++
    String.ofList (thousandthsText breakeven) ++
    " GB/s: restore is no cheaper than recompute, so the tier is emitted for durability only " ++
    "if you enable it explicitly"

/-- The storage tier of the connector. -/
def fsTier : List (PyText × JsonValue F) :=
  [(ofString "type",.str (ofString "fs")),(ofString "root_dir",.str (ofString "/data/acr/kv")),
    (ofString "n_read_threads",.int 8),(ofString "n_write_threads",.int 8)]

def plan (tokenBudget : ℤ := 3000000) (ramCapGib : F := 160) (storageGib : Option F := none)
    (storageBwGbs : Option F := none) (cost : Option (CostModel F) := none)
    (blockSize : Option ℤ := none) : LaunchPlan F :=
  let cost := cost.getD SimConfig.default.cost
  let wanted := truncate (tokenBudget*cost.kvBytesPerToken)
  let cap := truncate (ramCapGib*1024^3)
  let capped := if cap < wanted then [capacityWarning tokenBudget wanted ramCapGib] else []
  let (tiers,slow) := match storageGib, storageBwGbs with
    | some gib, some bw =>
      -- A size or a bandwidth of zero is as good as none.
      if gib = 0 ∨ bw = 0 then ([],[])
      else if bw ≤ cost.breakevenBwGbs then ([],[storageWarning bw cost.breakevenBwGbs])
      else ([fsTier],[])
    | _, _ => ([],[])
  { cpuBytesToUse := if cap < wanted then cap else wanted
    blockSize := blockSize
    evictionPolicy := "AcrValuePolicy"
    cachePolicyModulePath := "acr.vllm.policy"
    secondaryTiers := tiers
    tokenBudget := tokenBudget
    warnings := capped ++ slow }

/-- The tokens of all blocks of a run, each at its most. -/
def workingTokens (cfg : SimConfig F) (turns : List (Turn F)) : ℤ :=
  ∑ key ∈ everyBlock cfg turns, (registered cfg turns turns.length).tokensOf key

section Tokens

variable (cfg : SimConfig F) (turns : List (Turn F))

theorem registered_tokens_mono (key : BlockKey) {m n : ℕ} (hmn : m ≤ n) :
    (registered cfg turns m).tokensOf key ≤ (registered cfg turns n).tokensOf key := by
  induction n, hmn using Nat.le_induction with
  | base => exact le_rfl
  | succ n hmn ih =>
    cases hturn : (inOrder turns)[n]? with
    | none =>
      have hsame : registered cfg turns (n+1) = registered cfg turns n := by
        rw [registered,List.take_add_one,hturn,Option.toList_none,List.append_nil]
        rfl
      rw [hsame]
      exact ih
    | some turn =>
      rw [registered_succ cfg hturn]
      exact ih.trans (PrefixIndex.tokensOf_le_touchPath _ _ _ _ _ _ key)

theorem foldr_max_le {ns : List ℤ} {c : F} (h0 : 0 ≤ c) (h : ∀ n ∈ ns, (n : F) ≤ c) :
    ((ns.foldr max 0 : ℤ) : F) ≤ c := by
  induction ns with
  | nil => simpa using h0
  | cons n ns ih =>
    rcases List.forall_mem_cons.mp h with ⟨hn,hns⟩
    rw [List.foldr_cons,Int.cast_max]
    exact max_le hn (ih hns)

/-- The bytes of a trace are what its tokens weigh, or less. -/
theorem workingSet_le_tokens (hkv : 0 ≤ cfg.cost.kvBytesPerToken) :
    (workingSet cfg turns : F) ≤ cfg.cost.kvBytesPerToken*workingTokens cfg turns := by
  have hindex : ∀ n, (registered cfg turns n).Sized ∧ (registered cfg turns n).cost = cfg.cost := by
    intro n
    refine List.foldlRecOn (motive := fun index : PrefixIndex F =>
      index.Sized ∧ index.cost = cfg.cost) _ _ ⟨PrefixIndex.new_sized _ _,rfl⟩
        fun index h turn _ => ?_
    exact ⟨PrefixIndex.touchPath_sized _ _ _ _ _ _ h.1,
      (PrefixIndex.touchPath_cost _ _ _ _ _ _ _).trans h.2⟩
  have hlargest : ∀ key, (largest cfg turns key : F) ≤
      cfg.cost.kvBytesPerToken*(registered cfg turns turns.length).tokensOf key := by
    intro key
    have hlast : (0 : F) ≤ (registered cfg turns turns.length).tokensOf key := by
      exact_mod_cast PrefixIndex.tokensOf_nonneg (hindex turns.length).1 key
    refine foldr_max_le (mul_nonneg hkv hlast) fun nbytes hnbytes => ?_
    obtain ⟨n,hn,rfl⟩ := List.mem_map.mp hnbytes
    have hn := List.mem_range.mp hn
    obtain ⟨hsized,hcost⟩ := hindex n
    have hgrown : ((registered cfg turns n).tokensOf key : F) ≤
        (registered cfg turns turns.length).tokensOf key := by
      exact_mod_cast registered_tokens_mono cfg turns key (by omega)
    calc ((registered cfg turns n).nbytesOf key : F)
        ≤ cfg.cost.kvBytesPerToken*(registered cfg turns n).tokensOf key :=
          hcost ▸ PrefixIndex.nbytesOf_le_tokens hsized (hcost.symm ▸ hkv) key
      _ ≤ cfg.cost.kvBytesPerToken*(registered cfg turns turns.length).tokensOf key :=
          mul_le_mul_of_nonneg_left hgrown hkv
  rw [workingSet,workingTokens,Int.cast_sum,Int.cast_sum,Finset.mul_sum]
  exact Finset.sum_le_sum fun key _ => hlargest key

end Tokens

theorem lt_truncate_add_one (x : F) : x < truncate x+1 := by
  unfold truncate
  split_ifs
  · exact Int.lt_floor_add_one x
  · exact (Int.le_ceil x).trans_lt (lt_add_one _)

section Plan

variable {tokenBudget : ℤ} {ramCapGib : F} {storageGib storageBwGbs : Option F}
  {cost : Option (CostModel F)} {blockSize : Option ℤ}

theorem cpuBytesToUse_of_quiet
    (h : (plan tokenBudget ramCapGib storageGib storageBwGbs cost blockSize).warnings = []) :
    (plan tokenBudget ramCapGib storageGib storageBwGbs cost blockSize).cpuBytesToUse =
      (cost.getD SimConfig.default.cost).blockBytes tokenBudget := by
  have hcapped := (List.append_eq_nil_iff.mp h).1
  refine if_neg fun hover => ?_
  rw [if_pos hover] at hcapped
  cases hcapped

open Simulator in
/-- A plan that warns of nothing is lossless in a replay: as long as the blocks of a trace hold
less than nine tenths of the token budget, no policy ever loses one of them. -/
theorem planned_lossless
    (hquiet : (plan tokenBudget ramCapGib storageGib storageBwGbs cost blockSize).warnings = [])
    (cfg : SimConfig F) (hcost : cfg.cost = cost.getD SimConfig.default.cost)
    (kind : PolicyKind F) {ram : TierConfig F} (hram : ram.bytesCapacity =
      (plan tokenBudget ramCapGib storageGib storageBwGbs cost blockSize).cpuBytesToUse)
    (turns : List (Turn F)) (hkv : 9 ≤ cfg.cost.kvBytesPerToken)
    (hfits : 10*workingTokens cfg turns < 9*tokenBudget) (n : ℕ) :
    (∀ key, ((start cfg kind ram).after turns n).Resident key ↔
      key ∈ (registered cfg turns n).blocks) ∧
    ((start cfg kind ram).after turns n).totalRecompute = compulsory cfg turns n := by
  have hpos : 0 < cfg.cost.kvBytesPerToken := lt_of_lt_of_le (by norm_num) hkv
  have hroom : (workingSet cfg turns : F) < 9/10*ram.bytesCapacity := by
    have hworking := workingSet_le_tokens cfg turns hpos.le
    have hbudget : (10 : F)*workingTokens cfg turns+1 ≤ 9*tokenBudget := by exact_mod_cast hfits
    have hbytes : (tokenBudget : F)*cfg.cost.kvBytesPerToken < ram.bytesCapacity+1 := by
      rw [hram,cpuBytesToUse_of_quiet hquiet,← hcost]
      exact lt_truncate_add_one _
    nlinarith
  exact ⟨after_resident_iff cfg kind ram turns hpos hroom n,
    after_totalRecompute cfg kind ram turns hpos hroom n⟩

open Simulator in
/-- A budget of a thousand tokens on the default host. -/
theorem planned_lossless_small :
    ((start { smallConfig 1000 0 with cost := .default } .lru (smallRam 57591000)).after
      [ask 0 "a" 500,ask 1 "b" 300] 2).totalRecompute = 800 := by
  have hquiet : (plan 1000 : LaunchPlan ℚ).warnings = [] := by decide +kernel
  have hbytes : (plan 1000 : LaunchPlan ℚ).cpuBytesToUse = 57591000 := by decide +kernel
  exact (planned_lossless hquiet { smallConfig 1000 0 with cost := .default } rfl .lru hbytes.symm
    [ask 0 "a" 500,ask 1 "b" 300] (by norm_num [CostModel.default]) (by decide +kernel) 2).2.trans
      (by decide +kernel)

end Plan
end ContextResidency
