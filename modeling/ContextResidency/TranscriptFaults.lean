import ContextResidency.Transcript
import ContextResidency.Library.Dict
import ContextResidency.Library.Runs

/-! What the transcript loader survives. Lines that are no JSON, records of other kinds and
ill-formed timestamps are skipped, but a line that is JSON of another shape, a timestamp
that is no text, a usage that does not convert and a clock without an offset among clocks
with one all raise, and the turns read before are lost. -/
namespace ContextResidency

variable {F : Type} [Scalar F]

namespace Decoders

variable (d : Decoders F)

/-- A line that can be read on its own: an object if it is JSON at all, with text for a
timestamp and numbers in its usage if both are needed. -/
structure Readable (line : String) : Prop where
  object : ∀ v, d.loads line = some v → ∃ record, v = .obj record
  text : ∀ record usage ts, d.loads line = some (.obj record) → usageOf record = some usage →
    timestampOf record = some ts → ∃ s, ts = .str s
  numbers : ∀ dt usage, d.reported line = .ok (some (dt,usage)) →
    ∃ fields prompt completion, usage = .obj fields ∧
      d.count fields "input_tokens" = .ok prompt ∧ d.count fields "output_tokens" = .ok completion

/-- Every time that the lines report has an offset, or none has. -/
def OneZone (lines : List String) : Prop :=
  ∃ zoned : Bool, ∀ line ∈ lines, ∀ dt usage, d.reported line = .ok (some (dt,usage)) →
    dt.offset.isSome = zoned

def usable (line : String) : Bool :=
  match d.reported line with
  | .ok (some (_,usage)) => (d.counts usage).isOk
  | _ => false

def zoned (line : String) : Option Bool :=
  match d.reported line with
  | .ok (some (dt,_)) => some dt.offset.isSome
  | _ => none

/-- The usable records, less those whose clock cannot be compared with that of the first. -/
def usableLines (lines : List String) : List String :=
  let records := lines.filter d.usable
  records.filter fun line => d.zoned line = records.head?.bind d.zoned

/-- The loader returns, and every line but the usable records might as well not be there. -/
def Survives (args : LoadArgs) (lines : List String) : Prop :=
  ∃ turns, loadCcTranscript d args lines = .ok turns ∧
    loadCcTranscript d args (d.usableLines lines) = .ok turns

variable {d}

theorem exists_counts {usage : Json F} : (∃ call, d.counts usage = .ok call) ↔
    ∃ fields prompt completion, usage = .obj fields ∧
      d.count fields "input_tokens" = .ok prompt ∧
      d.count fields "output_tokens" = .ok completion := by
  constructor
  · rintro ⟨call,hcall⟩
    cases usage with
    | obj fields =>
      unfold counts at hcall
      cases hprompt : d.count fields "input_tokens" with
      | error e => simp [hprompt] at hcall
      | ok prompt =>
        cases hcompletion : d.count fields "output_tokens" with
        | error e => simp [hprompt,hcompletion,Except.map] at hcall
        | ok completion => exact ⟨fields,prompt,completion,rfl,hprompt,hcompletion⟩
    | _ => cases hcall
  · rintro ⟨fields,prompt,completion,rfl,hprompt,hcompletion⟩
    refine ⟨(prompt,completion),?_⟩
    simp only [counts,hprompt,hcompletion]
    rfl

theorem exists_stamped {record : Fields F} : (∃ r, d.stamped record = .ok r) ↔
    ∀ usage ts, usageOf record = some usage → timestampOf record = some ts → ∃ s, ts = .str s := by
  unfold stamped
  cases usageOf record with
  | none => simp
  | some usage =>
    cases timestampOf record with
    | none => simp
    | some ts => cases ts <;> simp

theorem exists_reported {line : String} : (∃ r, d.reported line = .ok r) ↔
    (∀ v, d.loads line = some v → ∃ record, v = .obj record) ∧
    ∀ record usage ts, d.loads line = some (.obj record) → usageOf record = some usage →
      timestampOf record = some ts → ∃ s, ts = .str s := by
  unfold reported
  cases d.loads line with
  | none => simp
  | some v =>
    cases v with
    | obj record =>
      show (∃ r, d.stamped record = .ok r) ↔ _
      rw [exists_stamped]
      constructor
      · intro h
        refine ⟨fun v hv => ⟨record,(Option.some.inj hv).symm⟩,?_⟩
        rintro _ usage ts ⟨⟩
        exact h usage ts
      · exact fun h usage ts => h.2 record usage ts rfl
    | _ => simp

/-- A line is readable when it reports nothing, or a time with counts that convert. -/
theorem readable_iff {line : String} : d.Readable line ↔ d.reported line = .ok none ∨
    ∃ dt usage call, d.reported line = .ok (some (dt,usage)) ∧ d.counts usage = .ok call := by
  constructor
  · intro h
    rcases exists_reported.mpr ⟨h.object,h.text⟩ with ⟨r,hr⟩
    cases r with
    | none => exact Or.inl hr
    | some p =>
      rcases exists_counts.mpr (h.numbers p.1 p.2 hr) with ⟨call,hcall⟩
      exact Or.inr ⟨p.1,p.2,call,hr,hcall⟩
  · intro h
    have hreported : ∃ r, d.reported line = .ok r := by
      rcases h with hnone | ⟨dt,usage,call,hr,-⟩
      · exact ⟨_,hnone⟩
      · exact ⟨_,hr⟩
    rcases exists_reported.mp hreported with ⟨hobject,htext⟩
    refine ⟨hobject,htext,fun dt usage hr => exists_counts.mp ?_⟩
    rcases h with hnone | ⟨dt',usage',call,hr',hcall⟩
    · rw [hnone] at hr
      cases hr
    · rw [hr'] at hr
      cases hr
      exact ⟨call,hcall⟩

end Decoders

namespace Loading

open Decoders

variable {d : Decoders F} {args : LoadArgs} {s : Loading F} {line : String}

theorem exists_since (dt origin : Datetime F) : (∃ t, dt.since origin = some t) ↔
    dt.offset.isSome = origin.offset.isSome := by
  unfold Datetime.since
  cases dt.offset <;> cases origin.offset <;> simp

@[simp] theorem take_t0 (s : Loading F) (t : F) (call : ℤ × ℤ) :
    (s.take args t call).t0 = s.t0 := by
  unfold take
  split
  · rfl
  · split <;> rfl

/-- A line that is read reports nothing, or it sets the origin and is taken for a call. -/
theorem readLine_eq_ok {next : Loading F} : readLine d args s line = .ok next ↔
    d.reported line = .ok none ∧ next = s ∨
    ∃ dt usage t call, d.reported line = .ok (some (dt,usage)) ∧
      dt.since (s.t0.getD dt) = some t ∧ d.counts usage = .ok call ∧
      next = { s with t0 := some (s.t0.getD dt) }.take args t call := by
  unfold readLine
  cases d.reported line with
  | error e => simp
  | ok r =>
    cases r with
    | none => simp [eq_comm]
    | some p =>
      rcases p with ⟨dt,usage⟩
      cases hsince : dt.since (s.t0.getD dt) with
      | none => simp [hsince]
      | some t =>
        cases hcounts : d.counts usage with
        | error e => simp [hsince,hcounts,Except.map]
        | ok call =>
          rcases call with ⟨prompt,completion⟩
          simp [hsince,hcounts,Except.map,eq_comm]

theorem readLine_skip (h : d.reported line = .ok none) : readLine d args s line = .ok s :=
  readLine_eq_ok.mpr (Or.inl ⟨h,rfl⟩)

/-- A line is read when it is readable and its clock can be compared with the origin. -/
theorem exists_readLine : (∃ next, readLine d args s line = .ok next) ↔ d.Readable line ∧
    ∀ dt usage, d.reported line = .ok (some (dt,usage)) → ∀ origin ∈ s.t0,
      dt.offset.isSome = origin.offset.isSome := by
  rw [readable_iff]
  constructor
  · rintro ⟨next,hnext⟩
    rcases readLine_eq_ok.mp hnext with ⟨hnone,-⟩ | ⟨dt,usage,t,call,hr,hsince,hcall,-⟩
    · exact ⟨Or.inl hnone,by simp [hnone]⟩
    · refine ⟨Or.inr ⟨dt,usage,call,hr,hcall⟩,?_⟩
      intro dt' usage' hr' origin horigin
      rw [hr] at hr'
      cases hr'
      have hsame := (exists_since _ _).mp ⟨t,hsince⟩
      rwa [Option.mem_def.mp horigin] at hsame
  · rintro ⟨hnone | ⟨dt,usage,call,hr,hcall⟩,hzone⟩
    · exact ⟨s,readLine_skip hnone⟩
    · have hsame : dt.offset.isSome = (s.t0.getD dt).offset.isSome := by
        cases horigin : s.t0 with
        | none => rfl
        | some origin => exact hzone dt usage hr origin horigin
      rcases (exists_since _ _).mpr hsame with ⟨t,ht⟩
      exact ⟨_,readLine_eq_ok.mpr (Or.inr ⟨dt,usage,t,call,hr,ht,hcall,rfl⟩)⟩

theorem readLine_t0 {dt : Datetime F} {usage : Json F} {next : Loading F}
    (h : d.reported line = .ok (some (dt,usage))) (hnext : readLine d args s line = .ok next) :
    next.t0 = some (s.t0.getD dt) := by
  rcases readLine_eq_ok.mp hnext with ⟨hnone,-⟩ | ⟨dt',usage',t,call,hr,-,-,rfl⟩
  · rw [h] at hnone
    cases hnone
  · rw [h] at hr
    cases hr
    exact take_t0 _ _ _

theorem zone_step {next : Loading F} (hnext : readLine d args s line = .ok next) (zoned : Bool) :
    (∀ origin ∈ next.t0, origin.offset.isSome = zoned) ↔
      (∀ origin ∈ s.t0, origin.offset.isSome = zoned) ∧
      ∀ dt usage, d.reported line = .ok (some (dt,usage)) → dt.offset.isSome = zoned := by
  rcases exists_readLine.mp ⟨next,hnext⟩ with ⟨hreadable,hzone⟩
  rcases readable_iff.mp hreadable with hnone | ⟨dt,usage,call,hr,-⟩
  · rw [readLine_skip hnone] at hnext
    cases hnext
    simp [hnone]
  · rw [readLine_t0 hr hnext]
    cases horigin : s.t0 with
    | none => simp [hr]
    | some origin =>
      have hsame := hzone dt usage hr origin horigin
      constructor
      · intro h
        refine ⟨h,?_⟩
        rintro dt' usage' hr'
        rw [hr] at hr'
        cases hr'
        exact hsame.trans (h origin rfl)
      · exact And.left

/-- A whole file is read when every line is readable, and every reported clock, like the
origin if there is one already, has an offset or none has. -/
theorem exists_foldlM (lines : List String) :
    (∃ last, lines.foldlM (readLine d args) s = .ok last) ↔
    (∀ line ∈ lines, d.Readable line) ∧ ∃ zoned : Bool,
      (∀ origin ∈ s.t0, origin.offset.isSome = zoned) ∧
      ∀ line ∈ lines, ∀ dt usage, d.reported line = .ok (some (dt,usage)) →
        dt.offset.isSome = zoned := by
  induction lines generalizing s with
  | nil =>
    refine iff_of_true ⟨s,rfl⟩ ⟨by simp,(s.t0.map fun o => o.offset.isSome).getD true,?_,by simp⟩
    intro origin horigin
    rw [Option.mem_def.mp horigin]
    rfl
  | cons line lines ih =>
    rw [List.foldlM_cons]
    constructor
    · rintro ⟨last,hlast⟩
      rcases Dict.bind_eq_ok.mp hlast with ⟨next,hnext,hrest⟩
      rcases ih.mp ⟨last,hrest⟩ with ⟨hlines,zoned,horigin,hreports⟩
      rcases (zone_step hnext zoned).mp horigin with ⟨hbefore,hline⟩
      have hreadable := (exists_readLine.mp ⟨next,hnext⟩).1
      exact ⟨List.forall_mem_cons.mpr ⟨hreadable,hlines⟩,zoned,hbefore,
        List.forall_mem_cons.mpr ⟨hline,hreports⟩⟩
    · rintro ⟨hlines,zoned,horigin,hreports⟩
      rcases List.forall_mem_cons.mp hlines with ⟨hreadable,hlines⟩
      rcases List.forall_mem_cons.mp hreports with ⟨hline,hreports⟩
      have hread : ∃ next, readLine d args s line = .ok next := exists_readLine.mpr
        ⟨hreadable,fun dt usage hr o ho => (hline dt usage hr).trans (horigin o ho).symm⟩
      rcases hread with ⟨next,hnext⟩
      rcases ih.mpr ⟨hlines,zoned,(zone_step hnext zoned).mpr ⟨horigin,hline⟩,hreports⟩
        with ⟨last,hlast⟩
      exact ⟨last,Dict.bind_eq_ok.mpr ⟨next,hnext,hlast⟩⟩

end Loading

namespace Decoders

variable {d : Decoders F} {lines : List String}

theorem reported_of_unusable {line : String} (h : d.Readable line) (hu : d.usable line = false) :
    d.reported line = .ok none := by
  rcases readable_iff.mp h with hnone | ⟨dt,usage,call,hr,hcall⟩
  · exact hnone
  · simp [usable,hr,hcall,Except.isOk,Except.toBool] at hu

theorem exists_of_usable {line : String} (hu : d.usable line = true) :
    ∃ dt usage, d.reported line = .ok (some (dt,usage)) := by
  unfold usable at hu
  cases hr : d.reported line with
  | error e => simp [hr] at hu
  | ok r =>
    cases r with
    | none => simp [hr] at hu
    | some p => exact ⟨p.1,p.2,rfl⟩

theorem usableLines_eq (h : d.OneZone lines) : d.usableLines lines = lines.filter d.usable := by
  rcases h with ⟨zoned,hzoned⟩
  have hzone : ∀ line ∈ lines.filter d.usable, d.zoned line = some zoned := by
    intro line hline
    rcases List.mem_filter.mp hline with ⟨hmem,hu⟩
    rcases exists_of_usable hu with ⟨dt,usage,hr⟩
    simp only [Decoders.zoned,hr,hzoned line hmem dt usage hr]
  refine List.filter_eq_self.mpr fun line hline => ?_
  rw [decide_eq_true_iff,hzone line hline]
  cases hhead : (lines.filter d.usable).head? with
  | none =>
    rw [List.head?_eq_none_iff.mp hhead] at hline
    cases hline
  | some first => exact (hzone first (List.mem_of_mem_head? hhead)).symm

/-- The loader survives exactly the files whose lines are all readable and whose reported
clocks all have an offset or all have none. -/
theorem survives_iff (d : Decoders F) (args : LoadArgs) (lines : List String) :
    d.Survives args lines ↔ (∀ line ∈ lines, d.Readable line) ∧ d.OneZone lines := by
  have hfold := @Loading.exists_foldlM F _ d args {} lines
  have hrun : (∃ last, lines.foldlM (Loading.readLine d args) {} = .ok last) ↔
      (∀ line ∈ lines, d.Readable line) ∧ d.OneZone lines := by
    rw [hfold]
    refine and_congr_right fun _ => exists_congr fun zoned => ?_
    exact and_iff_right (by simp)
  rw [← hrun]
  unfold Survives loadCcTranscript
  constructor
  · rintro ⟨turns,hturns,-⟩
    cases hlast : lines.foldlM (Loading.readLine d args) {} with
    | error e =>
      rw [hlast] at hturns
      cases hturns
    | ok last => exact ⟨last,rfl⟩
  · rintro ⟨last,hlast⟩
    rcases hrun.mp ⟨last,hlast⟩ with ⟨hreadable,hzone⟩
    have hskip : (lines.filter d.usable).foldlM (Loading.readLine d args) {} = .ok last := by
      rw [foldlM_filter_of_skip,hlast]
      intro line hline hu s
      exact Loading.readLine_skip (reported_of_unusable (hreadable line hline) hu)
    rw [usableLines_eq hzone,hlast,hskip]
    exact ⟨last.out,rfl,rfl⟩

/-- A file of one line, which is an empty list. -/
theorem list_line_raises : ¬ ∀ (d : Decoders ℚ) (args : LoadArgs) (lines : List String),
    d.Survives args lines := by
  intro h
  rcases h ⟨fun _ => some (.arr []),fun _ => none,fun _ => none⟩ ⟨"session","supervisor",0⟩ ["[]"]
    with ⟨turns,hturns,-⟩
  cases hturns

end Decoders

end ContextResidency
