import ContextResidency.TranscriptFaults

/-! What the transcript loader emits. It compares each call with the turn that it emitted
last, so of a row of equal calls the next one passes that comes late enough after the last
one that passed. Every call that is dropped repeats the turn before it. -/
namespace ContextResidency

variable {F : Type} [Scalar F]

def Turn.call {F : Type} (turn : Turn F) : ℤ × ℤ := (turn.promptTokens,turn.completionTokens)

/-- Turns as the loader emits them: every turn is a model call with a part of the stamp, each
one but the first announces the gap to the turn before it, and equal calls in a row are some
time apart. -/
structure Emitted (stamp : ℤ) (turns : List (Turn F)) : Prop where
  prompt : ∀ turn ∈ turns, 0 < turn.promptTokens
  shared : ∀ turn ∈ turns, turn.sharedPrefixTokens ≤ turn.promptTokens ∧
    (0 ≤ stamp → 0 ≤ turn.sharedPrefixTokens)
  first : ∀ turn ∈ turns.head?, turn.toolEtaS = none
  gap : turns.IsChain fun a b => b.toolEtaS = some (max 0 (b.t-a.t))
  apart : turns.IsChain fun a b => b.call = a.call → 3/2 ≤ b.t-a.t

/-- One more turn that announces its gap and does not repeat the last turn too soon. -/
theorem Emitted.append {stamp : ℤ} {turns : List (Turn F)} (h : Emitted stamp turns)
    {turn : Turn F} (hprompt : 0 < turn.promptTokens)
    (hshared : turn.sharedPrefixTokens ≤ turn.promptTokens ∧
      (0 ≤ stamp → 0 ≤ turn.sharedPrefixTokens))
    (hgap : turn.toolEtaS = turns.getLast?.map fun last => max 0 (turn.t-last.t))
    (hapart : ∀ last ∈ turns.getLast?, turn.call = last.call → 3/2 ≤ turn.t-last.t) :
    Emitted stamp (turns ++ [turn]) := by
  constructor
  case prompt => exact List.forall_mem_append.mpr ⟨h.prompt,List.forall_mem_singleton.mpr hprompt⟩
  case shared => exact List.forall_mem_append.mpr ⟨h.shared,List.forall_mem_singleton.mpr hshared⟩
  case first =>
    intro x hx
    cases turns with
    | nil =>
      cases hx
      exact hgap
    | cons first turns => exact h.first x hx
  case gap =>
    refine h.gap.append (.singleton _) ?_
    rintro last hlast _ ⟨⟩
    rw [hgap,Option.mem_def.mp hlast]
    rfl
  case apart =>
    refine h.apart.append (.singleton _) ?_
    rintro last hlast _ ⟨⟩
    exact hapart last hlast

namespace Loading

/-- What is carried from line to line is what the last turn shows. -/
structure Sound (args : LoadArgs) (s : Loading F) : Prop where
  emitted : Emitted args.sharedPrefixTokens s.out
  prev : s.prev = s.out.getLast?.map Turn.call
  prevT : s.prevT = s.out.getLast?.map (·.t)

variable {args : LoadArgs} {s : Loading F} {t : F} {call : ℤ × ℤ}

theorem sound_empty (args : LoadArgs) : Sound args ({} : Loading F) := by
  constructor
  case emitted => constructor <;> simp
  case prev => rfl
  case prevT => rfl

/-- A call is dropped when it has no prompt, or when it repeats the last turn. -/
theorem take_cases (h : Sound args s) : s.take args t call = s ∧
      (0 < call.1 → ∃ last ∈ s.out.getLast?, last.call = call ∧ t-last.t < 3/2) ∨
    0 < call.1 ∧ (∀ last ∈ s.out.getLast?, call = last.call → 3/2 ≤ t-last.t) ∧
      s.take args t call =
        { s with prev := some call, prevT := some t, out := s.out ++ [s.turn args t call] } := by
  unfold take
  by_cases hprompt : call.1 ≤ 0
  · rw [if_pos hprompt]
    exact Or.inl ⟨rfl,fun hpos => absurd hprompt (not_le.mpr hpos)⟩
  · rw [if_neg hprompt]
    by_cases hrepeated : s.Repeated t call
    · rw [if_pos hrepeated]
      refine Or.inl ⟨rfl,fun _ => ?_⟩
      rcases hrepeated with ⟨hprev,hclose⟩
      rw [h.prev,Option.map_eq_some_iff] at hprev
      rcases hprev with ⟨last,hlast,hcall⟩
      have hlastT : last.t ∈ s.prevT := by
        rw [h.prevT,hlast]
        rfl
      exact ⟨last,hlast,hcall,hclose last.t hlastT⟩
    · rw [if_neg hrepeated]
      refine Or.inr ⟨not_le.mp hprompt,fun last hlast hcall => ?_,rfl⟩
      by_contra hclose
      refine hrepeated ⟨?_,?_⟩
      · rw [h.prev,Option.mem_def.mp hlast,hcall]
        rfl
      · rw [h.prevT,Option.mem_def.mp hlast]
        rintro _ ⟨⟩
        exact not_le.mp hclose

theorem Sound.take (h : Sound args s) (t : F) (call : ℤ × ℤ) : Sound args (s.take args t call) := by
  rcases @take_cases _ _ args s t call h with ⟨hsame,-⟩ | ⟨hprompt,hapart,htake⟩
  · rwa [hsame]
  · rw [htake]
    constructor
    case emitted =>
      apply h.emitted.append hprompt
      · exact ⟨min_le_right _ _,fun hstamp => le_min hstamp hprompt.le⟩
      · simp only [turn,h.prevT,Option.map_map]
        rfl
      · exact hapart
    case prev => simp [turn,Turn.call]
    case prevT => simp [turn]

end Loading

namespace Decoders

def time (d : Decoders F) (line : String) : Option (Datetime F) :=
  match d.reported line with
  | .ok (some (dt,_)) => some dt
  | _ => none

def origin (d : Decoders F) (lines : List String) : Option (Datetime F) := lines.findSome? d.time

/-- Every call with a prompt is emitted next, or it repeats the turn that was emitted last
before it, later by less than a second and a half if later at all. -/
def Accounted (d : Decoders F) (args : LoadArgs) (lines : List String) (turns : List (Turn F)) :
    Prop :=
  ∀ pre line post dt usage call, lines = pre ++ line::post →
    d.reported line = .ok (some (dt,usage)) → d.counts usage = .ok call → 0 < call.1 →
    ∃ before origin t, loadCcTranscript d args pre = .ok before ∧
      d.origin lines = some origin ∧ dt.since origin = some t ∧
      ((∃ turn, turn.t = t ∧ turn.call = call ∧
          loadCcTranscript d args (pre ++ [line]) = .ok (before ++ [turn]) ∧
          before ++ [turn] <+: turns) ∨
        loadCcTranscript d args (pre ++ [line]) = .ok before ∧ before <+: turns ∧
          ∃ last ∈ before.getLast?, last.call = call ∧ t-last.t < 3/2)

end Decoders

namespace Loading

variable {d : Decoders F} {args : LoadArgs} {s next : Loading F} {line : String}

/-- The state after some lines: sound, and with the origin that they report. -/
structure History (d : Decoders F) (args : LoadArgs) (past : List String) (s : Loading F) :
    Prop where
  sound : Sound args s
  t0 : s.t0 = d.origin past

theorem origin_append (past : List String) : d.origin (past ++ [line]) =
    (d.origin past).or (d.time line) := by
  simp [Decoders.origin,List.findSome?_append]

theorem History.opened {past : List String} (h : History d args past s) (dt : Datetime F) :
    Sound args { s with t0 := some (s.t0.getD dt) } :=
  ⟨h.sound.emitted,h.sound.prev,h.sound.prevT⟩

theorem History.step {past : List String} (h : History d args past s)
    (hnext : readLine d args s line = .ok next) : History d args (past ++ [line]) next := by
  rcases readLine_eq_ok.mp hnext with ⟨hnone,rfl⟩ | ⟨dt,usage,t,call,hr,-,-,rfl⟩
  · constructor
    case sound => exact h.sound
    case t0 => rw [h.t0,origin_append,Decoders.time,hnone,Option.or_none]
  · constructor
    case sound => exact (h.opened dt).take t call
    case t0 =>
      rw [take_t0,origin_append,Decoders.time,hr,h.t0]
      cases d.origin past <;> rfl

theorem history_of_ok {lines : List String}
    (h : lines.foldlM (readLine d args) {} = .ok s) : History d args lines s := by
  have hempty : History d args [] ({} : Loading F) := ⟨sound_empty args,rfl⟩
  have hrun := runM_of_ok (fun _ _ _ _ hs hstep => hs.step hstep) hempty h
  rwa [List.nil_append] at hrun

theorem out_prefix {lines : List String} (h : lines.foldlM (readLine d args) s = .ok next) :
    s.out <+: next.out := by
  have hstep : ∀ (_ : List String) (a : Loading F) (line : String) (b : Loading F),
      s.out <+: a.out → readLine d args a line = .ok b → s.out <+: b.out := by
    intro _ a line b ha hb
    rcases readLine_eq_ok.mp hb with ⟨-,rfl⟩ | ⟨dt,usage,t,call,-,-,-,rfl⟩
    · exact ha
    · unfold take
      split_ifs
      · exact ha
      · exact ha
      · exact ha.trans (List.prefix_append _ _)
  exact @runM_of_ok _ _ _ (readLine d args) (fun _ a => s.out <+: a.out) hstep [] s next
    (List.prefix_refl _) lines h

end Loading

namespace Decoders

theorem load_of_ok {d : Decoders F} {args : LoadArgs} {lines : List String} {s : Loading F}
    (h : lines.foldlM (Loading.readLine d args) {} = .ok s) :
    loadCcTranscript d args lines = .ok s.out := by
  rw [loadCcTranscript,h]
  rfl

theorem exists_of_load {d : Decoders F} {args : LoadArgs} {lines : List String}
    {turns : List (Turn F)} (h : loadCcTranscript d args lines = .ok turns) :
    ∃ s, lines.foldlM (Loading.readLine d args) {} = .ok s ∧ s.out = turns := by
  unfold loadCcTranscript at h
  cases hlast : lines.foldlM (Loading.readLine d args) {} with
  | error e =>
    rw [hlast] at h
    cases h
  | ok s =>
    rw [hlast] at h
    exact ⟨s,rfl,Except.ok.inj h⟩

theorem accounted_of_ok {d : Decoders F} {args : LoadArgs} {lines : List String} {s : Loading F}
    (h : lines.foldlM (Loading.readLine d args) {} = .ok s) : d.Accounted args lines s.out := by
  rintro pre line post dt usage call rfl hr hcall hprompt
  rcases foldlM_append_eq_ok.mp h with ⟨before,hbefore,hrest⟩
  rw [List.foldlM_cons] at hrest
  rcases Dict.bind_eq_ok.mp hrest with ⟨next,hline,hpost⟩
  have hnext : (pre ++ [line]).foldlM (Loading.readLine d args) {} = .ok next :=
    foldlM_append_eq_ok.mpr ⟨before,hbefore,by rw [List.foldlM_cons,hline]; rfl⟩
  have hhistory := Loading.history_of_ok hbefore
  have horigin : d.origin (pre ++ line::post) = some (before.t0.getD dt) := by
    rw [origin,List.findSome?_append,List.findSome?_cons,time,hr,hhistory.t0]
    cases hfirst : pre.findSome? d.time <;> simp [origin,hfirst]
  rcases Loading.readLine_eq_ok.mp hline with ⟨hnone,-⟩ | ⟨dt',usage',t,call',hr',hsince,hcall',rfl⟩
  · rw [hr] at hnone
    cases hnone
  · rw [hr] at hr'
    cases hr'
    rw [hcall] at hcall'
    cases hcall'
    refine ⟨before.out,_,t,load_of_ok hbefore,horigin,hsince,?_⟩
    have hstays := Loading.out_prefix hpost
    rcases @Loading.take_cases _ _ args _ t call (hhistory.opened dt) with
      ⟨hsame,hrepeats⟩ | ⟨-,-,htake⟩
    · rw [hsame] at hnext hstays
      have hload := load_of_ok hnext
      exact Or.inr ⟨hload,hstays,hrepeats hprompt⟩
    · rw [htake] at hnext hstays
      exact Or.inl ⟨_,rfl,rfl,load_of_ok hnext,hstays⟩

/-- The loader returns for lines that can be read in one zone, and whenever it returns, its
turns are as they should be and every call is accounted for. -/
theorem emits (d : Decoders F) (args : LoadArgs) (lines : List String) :
    ((∀ line ∈ lines, d.Readable line) ∧ d.OneZone lines →
      ∃ turns, loadCcTranscript d args lines = .ok turns) ∧
    ∀ turns, loadCcTranscript d args lines = .ok turns →
      Emitted args.sharedPrefixTokens turns ∧ d.Accounted args lines turns := by
  constructor
  · rintro ⟨hreadable,zoned,hzoned⟩
    have hread : ∃ s, lines.foldlM (Loading.readLine d args) {} = .ok s :=
      (Loading.exists_foldlM lines).mpr ⟨hreadable,zoned,by simp,hzoned⟩
    rcases hread with ⟨s,hs⟩
    exact ⟨s.out,load_of_ok hs⟩
  · intro turns hturns
    rcases exists_of_load hturns with ⟨s,hs,rfl⟩
    exact ⟨(Loading.history_of_ok hs).sound.emitted,accounted_of_ok hs⟩

def sameCall : Decoders ℚ where
  loads _ := some (.obj [("type",.str "assistant"),("timestamp",.str "now"),
    ("message",.obj [("usage",.obj [("input_tokens",.int 5)])])])
  fromisoformat _ := some ⟨0,none⟩
  int _ := none

/-- A call that is logged twice is one turn. -/
theorem emits_sameCall :
    Emitted 0 [(⟨0,"session","supervisor",5,0,0,none,false,"interactive"⟩ : Turn ℚ)] ∧
    sameCall.Accounted ⟨"session","supervisor",0⟩ ["once","again"]
      [⟨0,"session","supervisor",5,0,0,none,false,"interactive"⟩] := by
  have hr : ∀ line, sameCall.reported line =
      .ok (some (⟨0,none⟩,.obj [("input_tokens",.int 5)])) := fun _ => rfl
  have hcounts : sameCall.counts (.obj [("input_tokens",.int 5)]) = .ok (5,0) := rfl
  refine (emits sameCall ⟨"session","supervisor",0⟩ ["once","again"]).2 _ ?_
  simp [loadCcTranscript,Loading.readLine,hr,hcounts,Datetime.since,Loading.take,
    Loading.Repeated,Loading.turn,Except.map,bind,Except.bind,pure,Except.pure]

end Decoders

end ContextResidency
