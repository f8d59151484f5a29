import ContextResidency.Closing
import ContextResidency.AdmissionGate

/-! The figures of the roles in a report. The turns of a run are filed under their roles, each
of them once, and the median, the 95th percentile and the maximum of the waits of a role are
read off their order. -/
namespace ContextResidency

variable {F : Type} [Scalar F]

section Order

variable {values : List F}

theorem ordered_getD_mono {i j : ℕ} (hij : i ≤ j) (hj : j < values.length) :
    (sortedBy id values).getD i 0 ≤ (sortedBy id values).getD j 0 := by
  have hlength : (sortedBy id values).length = values.length := (sortedBy_perm id values).length_eq
  have hi : i < (sortedBy id values).length := by omega
  have hj' : j < (sortedBy id values).length := by omega
  rw [← List.getElem_eq_getD (h := hi) 0,← List.getElem_eq_getD (h := hj') 0]
  rcases Nat.lt_or_eq_of_le hij with hlt | rfl
  · exact List.pairwise_iff_getElem.mp (sortedBy_pairwise id values) i j hi hj' hlt
  · exact le_rfl

theorem ordered_getD_le_max {i : ℕ} (hi : i < values.length) :
    (sortedBy id values).getD i 0 ≤ (values.max?).getD 0 := by
  have hlength : (sortedBy id values).length = values.length := (sortedBy_perm id values).length_eq
  have hmem : (sortedBy id values).getD i 0 ∈ values := by
    rw [← List.getElem_eq_getD (h := by omega) 0]
    exact mem_sortedBy.mp (List.getElem_mem _)
  have hne : values ≠ [] := List.ne_nil_of_mem hmem
  rw [List.max?_eq_some_max hne]
  exact (List.max?_eq_some_iff.mp (List.max?_eq_some_max hne)).2 _ hmem

def pctRank (q : F) (n : ℕ) : ℕ :=
  (min ((n : ℤ)-1) (max 0 (roundHalfEven (q*((n : ℤ)-1 : ℤ))))).toNat

theorem pct_eq (h : values ≠ []) (q : F) :
    pct values q = (sortedBy id values).getD (pctRank q values.length) 0 := by
  have hlength : (sortedBy id values).length = values.length := (sortedBy_perm id values).length_eq
  rw [pct,if_neg h]
  simp only [hlength,pctRank]

theorem half_le_pctRank {n : ℕ} (hn : 0 < n) :
    n/2 ≤ pctRank (95/100 : F) n ∧ pctRank (95/100 : F) n < n := by
  have hround := (abs_le.mp (abs_roundHalfEven_sub_le ((95/100 : F)*((n : ℤ)-1 : ℤ)))).1
  have hnear : 19*((n : ℤ)-1)-10 ≤ 20*roundHalfEven ((95/100 : F)*((n : ℤ)-1 : ℤ)) := by
    have hscaled : (19*((n : ℤ)-1 : ℤ)-10 : F) ≤
        20*(roundHalfEven ((95/100 : F)*((n : ℤ)-1 : ℤ)) : F) := by linarith
    exact_mod_cast hscaled
  unfold pctRank
  omega

theorem median_le_pct (h : values ≠ []) : median values ≤ pct values (95/100) := by
  have hpos : 0 < values.length := List.length_pos_iff.mpr h
  have hlength : (sortedBy id values).length = values.length := (sortedBy_perm id values).length_eq
  obtain ⟨hhalf,hlast⟩ := half_le_pctRank (F := F) hpos
  have hupper := @ordered_getD_mono _ _ values _ _ hhalf hlast
  have hlower := @ordered_getD_mono _ _ values (values.length/2-1) (values.length/2)
    (by omega) (by omega)
  rw [pct_eq h,median]
  simp only [hlength]
  split
  · exact hupper
  · linarith

theorem pct_le_max (h : values ≠ []) : pct values (95/100) ≤ (values.max?).getD 0 := by
  rw [pct_eq h]
  exact ordered_getD_le_max (half_le_pctRank (List.length_pos_iff.mpr h)).2

/-- The later half waits no less than a value above which none waits. -/
theorem filter_lt_eq_nil_iff (h : values ≠ []) (bound : F) :
    values.filter (bound < ·) = [] ↔ (values.max?).getD 0 ≤ bound := by
  rw [List.max?_eq_some_max h,Option.getD_some,List.filter_eq_nil_iff]
  have hmax := List.max?_eq_some_iff.mp (List.max?_eq_some_max h)
  constructor
  · intro hnone
    simpa using hnone _ hmax.1
  · intro hle value hvalue
    simpa using (hmax.2 value hvalue).trans hle

end Order

def byRole (metrics : List (TurnMetric F)) : Dict String (List (TurnMetric F)) :=
  metrics.foldl (fun byRole m => byRole.push m.role m) .empty

omit [Scalar F] in
theorem byRole_get (metrics : List (TurnMetric F)) (role : String) :
    (byRole metrics).get role =
      let items := metrics.filter fun m => m.role = role
      if items = [] then none else some items := by
  have hgrouped : (byRole metrics).Grouped :=
    List.foldlRecOn (motive := Dict.Grouped) _ _ Dict.grouped_empty
      fun _ h m _ => h.push m.role m
  have hitems := Dict.get_foldl_push TurnMetric.role id metrics .empty role
  rw [Dict.get_empty,Option.getD_none,List.nil_append,List.map_id] at hitems
  rw [hgrouped.get_eq]
  simp only [← hitems]
  rfl

omit [Scalar F] in
theorem byRole_sum {M : Type} [AddCommMonoid M] (metrics : List (TurnMetric F))
    (f : TurnMetric F → M) :
    ((byRole metrics).values.map fun items => (items.map f).sum).sum = (metrics.map f).sum := by
  have hperm := Dict.foldl_push_values_perm TurnMetric.role id metrics .empty
  rw [List.map_id] at hperm
  have hsum := (hperm.map f).sum_eq
  rw [List.map_flatten,List.sum_flatten,List.map_map] at hsum
  exact hsum

/-- The figures of a role that so many turns have. -/
structure RoleStats.Sound (cfg : SimConfig F) (role : String) (turns : ℕ) (stats : RoleStats F) :
    Prop where
  counted : stats.n = turns
  median : stats.ttftP50 ≤ stats.ttftP95
  percentile : stats.ttftP95 ≤ stats.ttftMax
  patients : stats.sloViol.isSome ↔ role = "patient"
  violations : ∀ violations ∈ stats.sloViol, violations ≤ stats.n ∧
    (violations = 0 ↔ stats.ttftMax ≤ cfg.patientSloTtftS)

namespace Simulator

theorem statsOf_sound (cfg : SimConfig F) (role : String) {items : List (TurnMetric F)}
    (h : items ≠ []) : (statsOf cfg role items).Sound cfg role items.length := by
  have hwaits : items.map (·.ttftS) ≠ [] := mt List.map_eq_nil_iff.mp h
  constructor
  case counted => rfl
  case median => exact median_le_pct hwaits
  case percentile => exact pct_le_max hwaits
  case patients =>
    rw [statsOf]
    split <;> simp_all
  case violations =>
    intro violations hviolations
    rw [statsOf] at hviolations
    simp only at hviolations
    split at hviolations
    · obtain rfl := Option.some.inj hviolations
      constructor
      · have hfilter := List.length_filter_le (cfg.patientSloTtftS < ·) (items.map (·.ttftS))
        rw [List.length_map] at hfilter
        exact Nat.cast_le.mpr hfilter
      · rw [Nat.cast_eq_zero,List.length_eq_zero_iff]
        exact filter_lt_eq_nil_iff hwaits _
    · cases hviolations

/-- What a measurement copies from its turn, the measurements of a run copy from its turns. -/
theorem exec_metrics_map {A : Type} {f : TurnMetric F → A} {g : Turn F → A}
    (hcopy : ∀ (s : Simulator F) (turn : Turn F), f (s.metric turn) = g turn)
    (sched : Schedule F) (s : Simulator F) (turns : List (Turn F)) :
    (exec sched s turns).metrics.map f = s.metrics.map f ++ turns.map g := by
  induction turns using List.reverseRecOn with
  | nil => simp [exec]
  | append_singleton turns turn ih =>
    rw [exec_append,one_metrics,List.map_append,ih]
    simp [hcopy]

theorem perRole_get (s : Simulator F) (role : String) :
    s.finalize.perRole.get role =
      let items := s.metrics.filter fun m => m.role = role
      if items = [] then none else some (statsOf s.cfg role items) := by
  have hperRole : s.finalize.perRole = (byRole s.metrics).mapValues (statsOf s.cfg) := rfl
  rw [hperRole,Dict.get_mapValues,byRole_get]
  dsimp only
  split_ifs <;> rfl

theorem perRole_sum (s : Simulator F) {f : RoleStats F → F} {g : TurnMetric F → F}
    (hf : ∀ role items, f (statsOf s.cfg role items) = (items.map g).sum) :
    (s.finalize.perRole.values.map f).sum = (s.metrics.map g).sum := by
  have hperRole : s.finalize.perRole = (byRole s.metrics).mapValues (statsOf s.cfg) := rfl
  rw [← byRole_sum,hperRole,Dict.values,Dict.values,Dict.items_mapValues,List.map_map,List.map_map,
    List.map_map]
  exact congrArg List.sum (List.map_congr_left fun p _ => hf p.1 p.2)

end Simulator

open Simulator in
theorem runPolicy_eq_ok {cfg : SimConfig F} {turns : List (Turn F)} {name : String}
    {report : Report F} (h : runPolicy cfg turns name = .ok report) :
    ∃ p ∈ POLICIES (F := F), p.1 = name ∧ ∃ ram, cfg.tier "ram" = some ram ∧
      (exec ((start cfg p.2 ram).schedule turns) (start cfg p.2 ram) (inOrder turns)).finalize =
        report := by
  unfold runPolicy at h
  cases hram : cfg.tier "ram" with
  | none => simp [hram] at h
  | some ram =>
    rw [hram] at h
    unfold build at h
    cases hfind : (POLICIES (F := F)).find? fun p => p.1 = name with
    | none =>
      rw [hfind] at h
      cases h
    | some p =>
      rw [hfind] at h
      have hrun : (start cfg p.2 ram).run turns = .ok report := h
      rw [run_start] at hrun
      exact ⟨p,List.mem_of_find?_eq_some hfind,by simpa using List.find?_some hfind,ram,rfl,
        Except.ok.inj hrun⟩

open Simulator in
theorem exists_run_of_report {cfg : SimConfig F} {turns : List (Turn F)} {name : String}
    {report : Report F} (h : runPolicy cfg turns name = .ok report) :
    ∃ last : Simulator F, last.finalize = report ∧ last.cfg = cfg ∧
      ∀ {A : Type} {f : TurnMetric F → A} {g : Turn F → A},
        (∀ (s : Simulator F) (turn : Turn F), f (s.metric turn) = g turn) →
          last.metrics.map f = (inOrder turns).map g := by
  obtain ⟨p,_,_,ram,_,hreport⟩ := runPolicy_eq_ok h
  have hcfg := after_cfg cfg p.2 ram turns turns.length
  rw [after_all] at hcfg
  exact ⟨_,hreport,hcfg,fun hcopy => exec_metrics_map hcopy _ _ _⟩

open Simulator in
/-- The figures of the roles are those of the turns of the trace, whatever the policy: every
role that asks is reported and no other, its turns are counted once, its median wait is at most
its percentile and that at most its longest, and its violations are those above the level. -/
theorem runPolicy_perRole {cfg : SimConfig F} {turns : List (Turn F)} {name : String}
    {report : Report F} (h : runPolicy cfg turns name = .ok report) :
    (∀ role, report.perRole.get role = none ↔ ∀ turn ∈ turns, turn.role ≠ role) ∧
    (∀ role stats, report.perRole.get role = some stats →
      stats.Sound cfg role ((turns.map (·.role)).count role)) ∧
    (report.perRole.values.map (·.n)).sum = turns.length ∧
    (report.perRole.values.map (·.recomputeKtok)).sum = (report.recomputeTokens : F)/1000 := by
  obtain ⟨last,rfl,hcfg,hcopied⟩ := exists_run_of_report h
  have hroles : (last.metrics.map (·.role)).Perm (turns.map (·.role)) := by
    rw [hcopied fun _ _ => rfl]
    exact (sortedBy_perm _ turns).map _
  have hcount : ∀ role, (last.metrics.filter fun m => m.role = role).length =
      (turns.map (·.role)).count role := by
    intro role
    rw [← hroles.count_eq,List.count,List.countP_map,List.countP_eq_length_filter]
    rfl
  have hlength : last.metrics.length = turns.length := by
    have hlengths := hroles.length_eq
    rwa [List.length_map,List.length_map] at hlengths
  refine ⟨fun role => ?_,fun role stats hstats => ?_,?_,?_⟩
  · rw [perRole_get,ite_eq_left_iff,← List.length_eq_zero_iff,hcount,List.count_eq_zero]
    simp
  · rw [perRole_get] at hstats
    dsimp only at hstats
    split at hstats
    · cases hstats
    · rename_i hitems
      obtain rfl := Option.some.inj hstats
      rw [← hcount,← hcfg]
      exact statsOf_sound last.cfg role hitems
  · rw [perRole_sum (g := fun _ => 1) last fun role items => by simp [statsOf],← hlength]
    simp
  · have hsum : ∀ items : List (TurnMetric F), ((items.map (·.recomputeTokens)).sum : ℤ)/1000 =
        (items.map fun m => (m.recomputeTokens : F)/1000).sum := by
      intro items
      rw [Int.cast_list_sum,List.map_map]
      simp only [div_eq_mul_inv,List.sum_map_mul_right]
      rfl
    rw [perRole_sum (g := fun m => (m.recomputeTokens : F)/1000) last fun _ items => hsum items]
    exact (hsum last.metrics).symm

open Simulator in
/-- Two patients and a coder on a pool of one block. -/
theorem runPolicy_perRole_small :
    ∃ report, runPolicy (smallConfig 1000 2000)
        [askAs "patient" 1 "a" 900,askAs "coding" 2 "b" 900,askAs "patient" 3 "a" 900] "lru" =
          .ok report ∧
      (report.perRole.values.map (·.n)).sum = 3 ∧ report.perRole.get "rag" = none := by
  let turns := [askAs "patient" 1 "a" 900,askAs "coding" 2 "b" 900,askAs "patient" 3 "a" 900]
  cases h : runPolicy (smallConfig 1000 2000) turns "lru" with
  | error e =>
    have hok : (runPolicy (smallConfig 1000 2000) turns "lru").toBool = true := by decide +kernel
    rw [h] at hok
    cases hok
  | ok report =>
    have hroles := runPolicy_perRole h
    exact ⟨report,rfl,hroles.2.2.1,(hroles.1 "rag").mpr (by decide)⟩

end ContextResidency
