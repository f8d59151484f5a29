import ContextResidency.RoleReport
import ContextResidency.WorkingSet
import ContextResidency.Library.Decimals

/-! The table that compares the policies. A row is made of the figures of one report, and the
columns of the table are those of its first row; a figure is printed with at most two places. -/
namespace ContextResidency

variable {F : Type} [Scalar F]

/-- What a row holds in a column: a text, a count or a figure. -/
inductive Cell (F : Type)
  | text (s : String)
  | count (n : ℤ)
  | figure (x : F)

/-- `round(x, digits)`. -/
def roundTo (digits : ℕ) (x : F) : F := roundHalfEven (x*10^digits)/10^digits

def RoleStats.cells (stats : RoleStats F) (role : String) : List (String × Cell F) :=
  [(role ++ "_ttft_p50",.figure (roundTo 2 stats.ttftP50)),
    (role ++ "_ttft_p95",.figure (roundTo 2 stats.ttftP95))] ++
  match stats.sloViol with
  | none => []
  | some violations => [(role ++ "_slo_viol",.count (truncate violations))]

def Report.cells (r : Report F) : List (String × Cell F) :=
  [("policy",.text r.policy),
    ("turns",.count r.turns),
    ("recompute_ktok",.figure (roundTo 1 ((r.recomputeTokens : F)/1000))),
    ("wasted_s",.figure (roundTo 1 r.objective)),
    ("prefill_s",.figure (roundTo 1 r.prefillSeconds)),
    ("xfer_s",.figure (roundTo 2 r.transferSeconds)),
    ("ram_hit_%",.figure (roundTo 1 (((100*r.restoreBytes : ℤ) : F)/
      (max 1 (r.restoreBytes+r.recomputeTokens*57591) : ℤ)))),
    ("demotions",.count r.demotions),
    ("thrash",.count r.thrash),
    ("reacquire",.count r.reacquires)]

def Report.asRow (r : Report F) : Dict String (Cell F) :=
  (sortedBy Prod.fst r.perRole.items).foldl (fun row p =>
    (p.2.cells p.1).foldl (fun row cell => row.set cell.1 cell.2) row) (.ofList r.cells)

def Cell.fmt : Cell F → String
  | .text s => s
  | .count n => toString n
  | .figure x =>
    if x ≠ 0 then
      String.ofList (stripped ((if x < 0 then ['-'] else []) ++
        hundredths (roundHalfEven (100*|x|)).toNat))
    else "0"

def barred (cells : List String) : String := "| " ++ String.intercalate " | " cells ++ " |"

def ruled (columns : ℕ) : String :=
  "|" ++ String.intercalate "|" (List.replicate columns "---") ++ "|"

def comparePolicies (cfg : SimConfig F) (turns : List (Turn F)) (names : List String) :
    Except PyError (List (Report F)) :=
  names.mapM (runPolicy cfg turns)

def markdownTable (reports : List (Report F)) : Except PyError String :=
  match reports.map Report.asRow with
  | [] => .ok ""
  | row::rows => do
    let cols := row.keys
    let lines ← (row::rows).mapM fun row =>
      (cols.mapM (row.fetch PyError.keyError)).map fun cells => barred (cells.map fun p => p.2.fmt)
    .ok (String.intercalate "\n" (barred cols::ruled cols.length::lines))

/-! The text of a figure. -/
section Figures

theorem roundHalfEven_intCast (k : ℤ) : roundHalfEven (k : F) = k := by
  simp [roundHalfEven]

theorem roundHalfEven_neg (x : F) : roundHalfEven (-x) = -roundHalfEven x := by
  rcases (Int.floor_le x).eq_or_lt with hwhole | hpart
  · rw [← hwhole,← Int.cast_neg,roundHalfEven_intCast,roundHalfEven_intCast]
  · have hbelow := Int.lt_floor_add_one x
    have hfloor : ⌊-x⌋ = -⌊x⌋-1 := by
      rw [Int.floor_eq_iff]
      push_cast
      constructor <;> linarith
    have hrest : -x-((-⌊x⌋-1 : ℤ) : F) = 1-(x-⌊x⌋) := by
      push_cast
      ring
    simp only [roundHalfEven,hfloor,hrest]
    split_ifs <;> first | omega | (exfalso; linarith)

theorem roundTo_roundTo {digits : ℕ} (h : digits ≤ 2) (x : F) :
    roundTo 2 (roundTo digits x) = roundTo digits x := by
  have hsplit : (10 : F)^2 = 10^digits*10^(2-digits) := by rw [← pow_add,Nat.add_sub_cancel' h]
  have hscaled : roundTo digits x*10^2 =
      ((roundHalfEven (x*10^digits)*10^(2-digits) : ℤ) : F) := by
    rw [roundTo,hsplit]
    push_cast
    field_simp
  rw [roundTo,hscaled,roundHalfEven_intCast,← hscaled]
  field_simp

/-- The text of a figure is read as the figure, rounded to two places. -/
theorem readSigned_fmt (x : F) : (readSigned (Cell.figure x).fmt.toList : F) = roundTo 2 x := by
  by_cases hzero : x = 0
  · subst hzero
    have htext : (Cell.figure (0 : F)).fmt.toList = ['0'] := by simp [Cell.fmt]
    have hdigit : Nat.ofDigitChars 10 ['0'] 0 = 0 := rfl
    rw [htext]
    simp [readSigned,readDecimal,roundTo,roundHalfEven,hdigit]
  · have hnonneg : 0 ≤ roundHalfEven (100*|x|) := by
      have hround := (abs_le.mp (abs_roundHalfEven_sub_le (100*|x|))).1
      have habs := abs_nonneg x
      have hcast : (-1 : F) < roundHalfEven (100*|x|) := by linarith
      have hlow : (-1 : ℤ) < roundHalfEven (100*|x|) := by exact_mod_cast hcast
      omega
    have hcents : ((roundHalfEven (100*|x|)).toNat : F) = roundHalfEven (100*|x|) := by
      rw [← Int.cast_natCast,Int.toNat_of_nonneg hnonneg]
    have hread := readSigned_stripped (K := F) (decide (x < 0)) (roundHalfEven (100*|x|)).toNat
    simp only [decide_eq_true_eq] at hread
    rw [Cell.fmt,if_pos hzero,String.toList_ofList,hread,hcents,roundTo]
    split
    · rename_i hneg
      have hflip : 100*|x| = -(x*10^2) := by
        rw [abs_of_neg hneg]
        ring
      rw [hflip,roundHalfEven_neg]
      push_cast
      ring
    · rename_i hpos
      have hsame : 100*|x| = x*10^2 := by
        rw [abs_of_nonneg (not_lt.mp hpos)]
        ring
      rw [hsame]
      norm_num

end Figures

/-! The columns of a row. -/
section Columns

def fixedColumns : List String :=
  ["policy","turns","recompute_ktok","wasted_s","prefill_s","xfer_s","ram_hit_%","demotions",
    "thrash","reacquire"]

/-- What the columns of a role are called after it. -/
def RoleStats.measures (stats : RoleStats F) : List String :=
  ["_ttft_p50","_ttft_p95"] ++ if stats.sloViol.isSome then ["_slo_viol"] else []

omit [Scalar F] in
theorem RoleStats.measures_subset (stats : RoleStats F) :
    stats.measures.Sublist ["_ttft_p50","_ttft_p95","_slo_viol"] := by
  unfold measures
  split
  · exact List.Sublist.refl _
  · exact List.sublist_append_left ["_ttft_p50","_ttft_p95"] ["_slo_viol"]

theorem RoleStats.cells_keys (stats : RoleStats F) (role : String) :
    (stats.cells role).map Prod.fst = stats.measures.map (role ++ ·) := by
  unfold cells measures
  cases stats.sloViol <;> rfl

theorem Report.cells_keys (r : Report F) : r.cells.map Prod.fst = fixedColumns := rfl

/-- All measures are as long, so a column names its role and its measure. -/
theorem column_inj {role role' measure measure' : String}
    (h : measure ∈ ["_ttft_p50","_ttft_p95","_slo_viol"])
    (h' : measure' ∈ ["_ttft_p50","_ttft_p95","_slo_viol"])
    (hcolumn : role ++ measure = role' ++ measure') : role = role' ∧ measure = measure' := by
  have hlengths : ∀ m ∈ ["_ttft_p50","_ttft_p95","_slo_viol"], m.toList.length = 9 := by decide
  have hchars := congrArg String.toList hcolumn
  rw [String.toList_append,String.toList_append] at hchars
  obtain ⟨hrole,hmeasure⟩ := List.append_inj' hchars ((hlengths _ h).trans (hlengths _ h').symm)
  exact ⟨String.toList_inj.mp hrole,String.toList_inj.mp hmeasure⟩

theorem fixedColumns_ne {role measure : String}
    (h : measure ∈ ["_ttft_p50","_ttft_p95","_slo_viol"]) : role ++ measure ∉ fixedColumns := by
  have hends : ∀ m ∈ ["_ttft_p50","_ttft_p95","_slo_viol"], ∀ column ∈ fixedColumns,
      ¬ m.toList <:+ column.toList := by decide
  intro hmem
  refine hends measure h _ hmem ?_
  rw [String.toList_append]
  exact List.suffix_append _ _

theorem columns_nodup {roles : List (String × RoleStats F)} (h : (roles.map Prod.fst).Nodup) :
    (fixedColumns ++ (roles.flatMap fun p => p.2.cells p.1).map Prod.fst).Nodup := by
  have hkeys : (roles.flatMap fun p => p.2.cells p.1).map Prod.fst =
      roles.flatMap fun p => p.2.measures.map (p.1 ++ ·) := by
    rw [List.map_flatMap]
    exact congrArg (roles.flatMap ·) (funext fun p => p.2.cells_keys p.1)
  rw [hkeys,List.nodup_append]
  refine ⟨by decide,List.nodup_flatMap.mpr ⟨fun p _ => ?_,?_⟩,?_⟩
  · refine List.Nodup.map_on (fun m hm m' hm' heq => ?_) (p.2.measures_subset.nodup (by decide))
    exact (column_inj (p.2.measures_subset.subset hm) (p.2.measures_subset.subset hm') heq).2
  · refine (List.pairwise_map.mp h).imp fun {p q} hne column hp hq => ?_
    obtain ⟨m,hm,rfl⟩ := List.mem_map.mp hp
    obtain ⟨m',hm',heq⟩ := List.mem_map.mp hq
    exact hne (column_inj (p.2.measures_subset.subset hm) (q.2.measures_subset.subset hm')
      heq.symm).1
  · rintro column hfixed _ hrole rfl
    obtain ⟨p,_,hcolumn⟩ := List.mem_flatMap.mp hrole
    obtain ⟨m,hm,rfl⟩ := List.mem_map.mp hcolumn
    exact fixedColumns_ne (p.2.measures_subset.subset hm) hfixed

theorem Report.asRow_items (r : Report F) : r.asRow.items =
    r.cells ++ (sortedBy Prod.fst r.perRole.items).flatMap fun p => p.2.cells p.1 := by
  have hroles : ((sortedBy Prod.fst r.perRole.items).map Prod.fst).Nodup :=
    ((sortedBy_perm _ r.perRole.items).map Prod.fst).nodup_iff.mpr r.perRole.nodup
  have hnodup := columns_nodup hroles
  have hfixed : (Dict.ofList r.cells).items = r.cells :=
    Dict.items_foldl_set (List.nodup_append.mp hnodup).1
  have hkeys : (Dict.ofList r.cells).keys = fixedColumns := congrArg (List.map Prod.fst) hfixed
  rw [asRow,← List.foldl_flatMap,Dict.items_foldl_set (by rwa [hkeys]),hfixed]

end Columns

theorem RoleStats.figure_cell {stats : RoleStats F} {role column : String} {x : F}
    (h : (column,Cell.figure x) ∈ stats.cells role) : ∃ y, x = roundTo 2 y := by
  unfold cells at h
  rcases List.mem_append.mp h with hwait | hcount
  · simp only [List.mem_cons,Prod.mk.injEq,Cell.figure.injEq,List.not_mem_nil,or_false] at hwait
    rcases hwait with ⟨_,hx⟩ | ⟨_,hx⟩
    · exact ⟨_,hx⟩
    · exact ⟨_,hx⟩
  · cases hviolations : stats.sloViol <;> simp [hviolations] at hcount

theorem Report.figure_cell {r : Report F} {column : String} {x : F}
    (h : (column,Cell.figure x) ∈ r.cells) : ∃ digits y, digits ≤ 2 ∧ x = roundTo digits y := by
  simp only [cells,List.mem_cons,Prod.mk.injEq,Cell.figure.injEq,reduceCtorEq,and_false,
    List.not_mem_nil,or_false,false_or] at h
  rcases h with ⟨_,hx⟩ | ⟨_,hx⟩ | ⟨_,hx⟩ | ⟨_,hx⟩ | ⟨_,hx⟩
  · exact ⟨1,_,by norm_num,hx⟩
  · exact ⟨1,_,by norm_num,hx⟩
  · exact ⟨1,_,by norm_num,hx⟩
  · exact ⟨2,_,le_rfl,hx⟩
  · exact ⟨1,_,by norm_num,hx⟩

/-- What the table prints of a report is what its row holds: no figure of a row loses a digit
to its text. -/
theorem Report.row_reads_back (r : Report F) {column : String} {x : F}
    (h : (column,Cell.figure x) ∈ r.asRow.items) :
    (readSigned (Cell.figure x).fmt.toList : F) = x := by
  have hrounded : ∃ digits y, digits ≤ 2 ∧ x = roundTo digits y := by
    rw [asRow_items] at h
    rcases List.mem_append.mp h with hfixed | hrole
    · exact Report.figure_cell hfixed
    · obtain ⟨p,_,hcell⟩ := List.mem_flatMap.mp hrole
      obtain ⟨y,hy⟩ := RoleStats.figure_cell hcell
      exact ⟨2,y,le_rfl,hy⟩
  obtain ⟨digits,y,hdigits,rfl⟩ := hrounded
  rw [readSigned_fmt,roundTo_roundTo hdigits]

/-- The 1234.5 seconds of a report, with a comma and one place. -/
theorem Report.row_reads_back_small :
    (readSigned (Cell.figure (2469/2 : ℚ)).fmt.toList : ℚ) = 2469/2 := by
  let r : Report ℚ := ⟨"lru",1,0,900,0,0,2469/2,0,0,0,0,0,0,0,.empty⟩
  have hround : roundTo 1 (2469/2 : ℚ) = 2469/2 := by norm_num [roundTo,roundHalfEven]
  have hcell : ("prefill_s",Cell.figure (2469/2)) ∈ r.asRow.items := by
    rw [asRow_items]
    simp [cells,r,hround]
  exact Report.row_reads_back r hcell

/-! The table of a comparison. -/

/-- The columns of the roles that ask in a trace, in the order of their names. -/
def columns (turns : List (Turn F)) : List String :=
  fixedColumns ++ (sortedBy id (turns.map (·.role)).dedup).flatMap fun role =>
    [role ++ "_ttft_p50",role ++ "_ttft_p95"] ++
      if role = "patient" then [role ++ "_slo_viol"] else []

open Simulator in
theorem runPolicy_policy {cfg : SimConfig F} {turns : List (Turn F)} {name : String}
    {report : Report F} (h : runPolicy cfg turns name = .ok report) : report.policy = name := by
  obtain ⟨p,hp,rfl,ram,_,rfl⟩ := runPolicy_eq_ok h
  have hkind := after_kind cfg p.2 ram turns turns.length
  rw [after_all] at hkind
  exact (congrArg PolicyKind.name hkind).trans (name_of_mem hp)

theorem RoleStats.measures_of_sound {cfg : SimConfig F} {role : String} {turns : ℕ}
    {stats : RoleStats F} (h : stats.Sound cfg role turns) :
    stats.measures = ["_ttft_p50","_ttft_p95"] ++ if role = "patient" then ["_slo_viol"] else [] := by
  simp only [measures,h.patients]

open Simulator in
theorem asRow_keys {cfg : SimConfig F} {turns : List (Turn F)} {name : String}
    {report : Report F} (h : runPolicy cfg turns name = .ok report) :
    report.asRow.keys = columns turns := by
  obtain ⟨last,rfl,_,hcopied⟩ := exists_run_of_report h
  have hroles : last.metrics.map (·.role) = (inOrder turns).map (·.role) := hcopied fun _ _ => rfl
  have hmem : ∀ role, role ∈ last.finalize.perRole.keys ↔ role ∈ turns.map (·.role) := by
    intro role
    have hperm := (sortedBy_perm (·.t) turns).map (·.role)
    rw [← Dict.mem_def,← not_iff_not,← Dict.get_eq_none,perRole_get,ite_eq_left_iff,
      ← hperm.mem_iff,← inOrder,← hroles]
    simp
  have hperm : last.finalize.perRole.keys.Perm (turns.map (·.role)).dedup := by
    refine (List.perm_ext_iff_of_nodup last.finalize.perRole.keys_nodup
      (List.nodup_dedup _)).mpr fun role => ?_
    rw [hmem,List.mem_dedup]
  have hsorted : (sortedBy Prod.fst last.finalize.perRole.items).map Prod.fst =
      sortedBy id (turns.map (·.role)).dedup := by
    have hkeys : sortedBy id last.finalize.perRole.keys =
        (sortedBy Prod.fst last.finalize.perRole.items).map Prod.fst :=
      sortedBy_map (fun _ _ => Iff.rfl) _
    rw [← sortedBy_id_of_perm hperm,hkeys]
  have hcells : ∀ p ∈ sortedBy Prod.fst last.finalize.perRole.items,
      (p.2.cells p.1).map Prod.fst = (["_ttft_p50","_ttft_p95"] ++
        if p.1 = "patient" then ["_slo_viol"] else []).map (p.1 ++ ·) := by
    intro p hp
    have hget : last.finalize.perRole.get p.1 = some p.2 :=
      Dict.get_eq_some.mpr (mem_sortedBy.mp hp)
    rw [perRole_get] at hget
    dsimp only at hget
    split at hget
    · cases hget
    · rename_i hitems
      rw [RoleStats.cells_keys,← Option.some.inj hget,
        RoleStats.measures_of_sound (statsOf_sound last.cfg p.1 hitems)]
  rw [Dict.keys,Report.asRow_items,List.map_append,Report.cells_keys,columns,← hsorted,
    List.map_flatMap,List.flatMap_map,List.flatMap_congr hcells]
  refine congrArg (fixedColumns ++ ·) (List.flatMap_congr fun p _ => ?_)
  split <;> rfl

/-- Rows with the same columns make a table. -/
theorem markdownTable_of_columns {reports : List (Report F)} {cols : List String}
    (hreports : reports ≠ []) (h : ∀ r ∈ reports, r.asRow.keys = cols) :
    markdownTable reports = .ok (String.intercalate "\n" (barred cols::ruled cols.length::
      reports.map fun r => barred (r.asRow.values.map Cell.fmt))) := by
  have hline : ∀ r ∈ reports, (cols.mapM (r.asRow.fetch PyError.keyError)).map
      (fun cells => barred (cells.map fun p => p.2.fmt)) =
        .ok (barred (r.asRow.values.map Cell.fmt)) := by
    intro r hr
    rw [Dict.mapM_fetch_eq_ok.mpr ⟨h r hr,fun _ hp => hp⟩,Dict.values,List.map_map]
    rfl
  have hlines : (reports.map Report.asRow).mapM (fun row =>
      (cols.mapM (row.fetch PyError.keyError)).map
        fun cells => barred (cells.map fun p => p.2.fmt)) =
          .ok (reports.map fun r => barred (r.asRow.values.map Cell.fmt)) := by
    rw [Dict.mapM_eq_ok,List.forall₂_map_left_iff,List.forall₂_map_right_iff,List.forall₂_same]
    exact hline
  cases reports with
  | nil => exact absurd rfl hreports
  | cons r reports =>
    obtain rfl := h r List.mem_cons_self
    simp only [markdownTable,List.map_cons] at hlines ⊢
    rw [hlines]
    rfl

/-- A comparison always has its table: each policy that was asked for has its row, in the order
of the names, every row has the columns that the trace alone fixes, and it shows all its cells. -/
theorem comparePolicies_table {cfg : SimConfig F} {turns : List (Turn F)} {names : List String}
    {reports : List (Report F)} (h : comparePolicies cfg turns names = .ok reports) :
    reports.map (·.policy) = names ∧ (∀ r ∈ reports, r.asRow.keys = columns turns) ∧
      markdownTable reports = .ok (if names = [] then "" else
        String.intercalate "\n" (barred (columns turns)::ruled (columns turns).length::
          reports.map fun r => barred (r.asRow.values.map Cell.fmt))) := by
  have hruns := Dict.mapM_eq_ok.mp h
  have hnames : reports.map (·.policy) = names := by
    clear h
    induction hruns with
    | nil => rfl
    | cons hrun _ ih => rw [List.map_cons,ih,runPolicy_policy hrun]
  have hkeys : ∀ r ∈ reports, r.asRow.keys = columns turns := by
    clear h hnames
    induction hruns with
    | nil => simp
    | cons hrun _ ih => exact List.forall_mem_cons.mpr ⟨asRow_keys hrun,ih⟩
  refine ⟨hnames,hkeys,?_⟩
  split
  · rename_i hnil
    rw [hnil,List.map_eq_nil_iff] at hnames
    rw [hnames]
    rfl
  · rename_i hne
    refine markdownTable_of_columns (fun hnil => hne ?_) hkeys
    rw [← hnames,hnil]
    rfl

open Simulator in
/-- Two policies over a trace of two roles. -/
theorem comparePolicies_table_small :
    let turns := [{ ask 1 "p" 900 with role := "patient" },ask 2 "a" 900]
    ∃ reports, comparePolicies (smallConfig 1000 2000) turns ["oracle","lru"] = .ok reports ∧
      reports.map (·.policy) = ["oracle","lru"] ∧
      (∀ r ∈ reports, r.asRow.keys = columns turns) ∧
      markdownTable reports = .ok (if ["oracle","lru"] = [] then "" else
        String.intercalate "\n" (barred (columns turns)::ruled (columns turns).length::
          reports.map fun r => barred (r.asRow.values.map Cell.fmt))) := by
  intro turns
  have hram : (smallConfig 1000 2000).tier "ram" = some (smallRam 2000) := rfl
  have hlru : ("lru",PolicyKind.lru) ∈ POLICIES (F := ℚ) := List.mem_cons_self
  have horacle : ("oracle",PolicyKind.oracle) ∈ POLICIES (F := ℚ) := by
    simp [POLICIES,PolicyKind.name]
  have hruns := Dict.mapM_eq_ok.mpr
    (.cons ((runPolicy_name hram turns horacle).trans (run_start _ _ _ _))
      (.cons ((runPolicy_name hram turns hlru).trans (run_start _ _ _ _)) .nil))
  exact ⟨_,hruns,comparePolicies_table hruns⟩

end ContextResidency
