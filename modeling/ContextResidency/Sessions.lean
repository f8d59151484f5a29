import ContextResidency.Online

/-! The sessions of a trace. Grouping the turns by their sessions loses nothing: the sessions
hold every turn once, in order, and a replay of the sessions one after the other is the replay
of the trace. -/
namespace ContextResidency

variable {F : Type}

structure Session (F : Type) where
  sessionId : String
  role : String
  sharedPrefixTokens : ℤ
  turns : List (Turn F) := []

/-- File a turn under its session, which the first turn opens. -/
def fileTurn (sessions : Dict String (Session F)) (turn : Turn F) : Dict String (Session F) :=
  let s := (sessions.get turn.sessionId).getD
    ⟨turn.sessionId,turn.role,turn.sharedPrefixTokens,[]⟩
  sessions.set turn.sessionId { s with turns := s.turns ++ [turn] }

def groupBySession [Scalar F] (turns : List (Turn F)) : List (Session F) :=
  ((inOrder turns).foldl fileTurn .empty).values

/-- The session that the turns of an id make up. -/
def Session.of (turns : List (Turn F)) (sessionId : String) : Option (Session F) :=
  let own := turns.filter (·.sessionId = sessionId)
  own.head?.map fun first => ⟨sessionId,first.role,first.sharedPrefixTokens,own⟩

theorem Session.of_eq_some {turns : List (Turn F)} {sessionId : String} {s : Session F} :
    Session.of turns sessionId = some s ↔ s.sessionId = sessionId ∧
      s.turns = turns.filter (·.sessionId = sessionId) ∧
      s.turns.head?.map (fun first => (first.role,first.sharedPrefixTokens)) =
        some (s.role,s.sharedPrefixTokens) := by
  unfold Session.of
  cases hown : turns.filter (·.sessionId = sessionId) with
  | nil =>
    constructor
    · intro h
      cases h
    · rintro ⟨_,hturns,hfirst⟩
      simp [hturns] at hfirst
  | cons first rest =>
    obtain ⟨id,role,shared,own⟩ := s
    simp only [List.head?_cons,Option.map_some,Option.some.injEq,Session.mk.injEq]
    constructor
    · rintro ⟨rfl,rfl,rfl,rfl⟩
      exact ⟨rfl,rfl,rfl⟩
    · rintro ⟨rfl,rfl,hfirst⟩
      simpa [eq_comm] using hfirst

theorem Session.of_append (turns : List (Turn F)) (turn : Turn F) (sessionId : String) :
    Session.of (turns ++ [turn]) sessionId =
      if sessionId = turn.sessionId then
        let s := (Session.of turns sessionId).getD
          ⟨turn.sessionId,turn.role,turn.sharedPrefixTokens,[]⟩
        some { s with turns := s.turns ++ [turn] }
      else Session.of turns sessionId := by
  unfold Session.of
  rw [List.filter_append]
  by_cases h : sessionId = turn.sessionId
  · subst h
    cases turns.filter (·.sessionId = turn.sessionId) <;> simp
  · simp [h,Ne.symm h]

def turnsBySession (turns : List (Turn F)) : Dict String (List (Turn F)) :=
  turns.foldl (fun groups turn => groups.push turn.sessionId turn) .empty

structure Filed (turns : List (Turn F)) (sessions : Dict String (Session F)) : Prop where
  get : ∀ sessionId, sessions.get sessionId = Session.of turns sessionId
  firsts : (sessions.values.map (·.turns.head?)).Sublist (turns.map some)
  whole : sessions.mapValues (fun _ s => s.turns) = turnsBySession turns

theorem Filed.fileTurn {turns : List (Turn F)} {sessions : Dict String (Session F)}
    (h : Filed turns sessions) (turn : Turn F) :
    Filed (turns ++ [turn]) (fileTurn sessions turn) := by
  constructor
  case get =>
    intro sessionId
    rw [ContextResidency.fileTurn,Dict.get_set,Session.of_append,← h.get sessionId]
    by_cases hid : sessionId = turn.sessionId
    · subst hid
      rfl
    · rw [if_neg hid,if_neg hid]
  case firsts =>
    rw [List.map_append]
    unfold ContextResidency.fileTurn
    cases hget : sessions.get turn.sessionId with
    | none =>
      rw [Dict.values,Dict.items_set_new _ (Dict.get_eq_none.mp hget),List.map_append,
        List.map_append]
      exact h.firsts.append (List.Sublist.refl _)
    | some s =>
      obtain ⟨pre,post,hitems⟩ := List.append_of_mem (Dict.get_eq_some.mp hget)
      have hfirst : (s.turns ++ [turn]).head? = s.turns.head? := by
        have hown := Session.of_eq_some.mp ((h.get turn.sessionId).symm.trans hget)
        cases hturns : s.turns with
        | nil => simp [hturns] at hown
        | cons first rest => rfl
      have hsame := h.firsts
      rw [Dict.values,hitems] at hsame
      rw [Dict.set_of_mem _ (Dict.mem_iff_get.mpr ⟨s,hget⟩),Dict.values,
        Dict.modify_append _ hitems]
      simp only [Option.getD_some,List.map_append,List.map_cons,hfirst] at hsame ⊢
      exact hsame.trans (List.sublist_append_left _ _)
  case whole =>
    rw [turnsBySession,List.foldl_concat,← turnsBySession,← h.whole,ContextResidency.fileTurn,
      Dict.mapValues_set,Dict.push,Dict.get_mapValues]
    cases sessions.get turn.sessionId <;> rfl

theorem foldl_fileTurn_filed (turns : List (Turn F)) :
    Filed turns (turns.foldl fileTurn .empty) := by
  induction turns using List.reverseRecOn with
  | nil => exact ⟨fun _ => rfl,List.nil_sublist _,rfl⟩
  | append_singleton turns turn ih =>
    rw [List.foldl_concat]
    exact ih.fileTurn turn

section Trace

variable [Scalar F] (turns : List (Turn F))

theorem groupBySession_turns :
    (groupBySession turns).map (·.turns) = (turnsBySession (inOrder turns)).values := by
  rw [← (foldl_fileTurn_filed (inOrder turns)).whole,Dict.values,Dict.items_mapValues,List.map_map,
    groupBySession,Dict.values,List.map_map]
  rfl

theorem mem_groupBySession {s : Session F} : s ∈ groupBySession turns ↔
    Session.of (inOrder turns) s.sessionId = some s := by
  have hfiled := foldl_fileTurn_filed (inOrder turns)
  rw [groupBySession,Dict.values,← hfiled.get,Dict.get_eq_some]
  constructor
  · intro hs
    obtain ⟨⟨sessionId,_⟩,hitem,rfl⟩ := List.mem_map.mp hs
    have hown := Session.of_eq_some.mp ((hfiled.get _).symm.trans (Dict.get_eq_some.mpr hitem))
    exact hown.1 ▸ hitem
  · exact fun hitem => List.mem_map_of_mem hitem

theorem filter_sessions (sessionId : String) :
    ((groupBySession turns).flatMap (·.turns)).filter (·.sessionId = sessionId) =
      inOrder (turns.filter (·.sessionId = sessionId)) := by
  have hgroup := Dict.get_foldl_push (fun turn : Turn F => turn.sessionId) id (inOrder turns)
    .empty sessionId
  rw [Dict.get_empty,Option.getD_none,List.nil_append,List.map_id] at hgroup
  have howned : ∀ k own, (turnsBySession (inOrder turns)).get k = some own →
      ∀ turn ∈ own, turn.sessionId = k := fun k own hget =>
    Dict.mem_foldl_push (P := fun k turn => turn.sessionId = k)
      (fun turn : Turn F => turn.sessionId) id (fun _ => rfl) (fun _ _ hempty => by simp at hempty) hget
  have hown : (turnsBySession (inOrder turns)).values.flatten.filter (·.sessionId = sessionId) =
      ((turnsBySession (inOrder turns)).get sessionId).getD [] :=
    Dict.filter_flatten_values howned sessionId
  rw [List.flatMap_def,groupBySession_turns,hown]
  exact hgroup.trans (sortedBy_filter _ _ turns)

/-- Grouping is a partition: the sessions are distinct, each has all of its turns in order and
the settings of the first, together they have every turn once, and they come in the order in
which they open. -/
theorem groupBySession_sound :
    ((groupBySession turns).map (·.sessionId)).Nodup ∧
    (∀ s ∈ groupBySession turns, s.turns = inOrder (turns.filter (·.sessionId = s.sessionId)) ∧
      s.turns.head?.map (fun first => (first.role,first.sharedPrefixTokens)) =
        some (s.role,s.sharedPrefixTokens)) ∧
    ((groupBySession turns).flatMap (·.turns)).Perm turns ∧
    ((groupBySession turns).map (·.turns.head?)).Sublist ((inOrder turns).map some) := by
  have hfiled := foldl_fileTurn_filed (inOrder turns)
  refine ⟨?_,fun s hs => ?_,?_,hfiled.firsts⟩
  · have hids : (groupBySession turns).map (·.sessionId) =
        ((inOrder turns).foldl fileTurn .empty).keys := by
      rw [groupBySession,Dict.values,Dict.keys,List.map_map]
      refine List.map_congr_left fun p hp => ?_
      exact (Session.of_eq_some.mp ((hfiled.get _).symm.trans (Dict.get_eq_some.mpr hp))).1
    rw [hids]
    exact Dict.keys_nodup _
  · obtain ⟨_,hturns,hfirst⟩ := Session.of_eq_some.mp ((mem_groupBySession turns).mp hs)
    exact ⟨hturns.trans (sortedBy_filter _ _ turns),hfirst⟩
  · have hperm := Dict.foldl_push_values_perm (fun turn : Turn F => turn.sessionId) id
      (inOrder turns) .empty
    rw [List.map_id] at hperm
    rw [List.flatMap_def,groupBySession_turns]
    exact hperm.trans (sortedBy_perm _ turns)

/-- The sessions one after the other are the trace again, unless two sessions ask at once. -/
theorem inOrder_sessions
    (h : ∀ a ∈ turns, ∀ b ∈ turns, a.t = b.t → a.sessionId = b.sessionId) :
    inOrder ((groupBySession turns).flatMap (·.turns)) = inOrder turns := by
  have hperm := (groupBySession_sound turns).2.2.1
  refine sortedBy_eq_of_filter fun c => ?_
  by_cases hc : ∃ a ∈ turns, a.t = c
  · obtain ⟨a,ha,rfl⟩ := hc
    -- At this time all turns are of one session, and grouping keeps them in their order.
    have hsession : ∀ xs : List (Turn F), (∀ x ∈ xs, x ∈ turns) → xs.filter (·.t = a.t) =
        (xs.filter (·.sessionId = a.sessionId)).filter (·.t = a.t) := by
      intro xs hxs
      rw [List.filter_filter]
      refine List.filter_congr fun x hx => ?_
      by_cases ht : x.t = a.t
      · simp [ht,h x (hxs x hx) a ha ht]
      · simp [ht]
    have hconst : ∀ xs : List (Turn F),
        inOrder (xs.filter (·.t = a.t)) = xs.filter (·.t = a.t) := by
      intro xs
      refine sortedBy_eq_self (List.pairwise_of_forall_mem_list fun x hx y hy => ?_)
      have hx := (List.mem_filter.mp hx).2
      have hy := (List.mem_filter.mp hy).2
      simp only [decide_eq_true_eq] at hx hy
      exact (hx.trans hy.symm).le
    rw [hsession _ fun x hx => hperm.mem_iff.mp hx,hsession turns fun _ hx => hx,filter_sessions]
    exact (sortedBy_filter _ _ _).trans (hconst _)
  · have hnone : ∀ xs : List (Turn F), (∀ x ∈ xs, x ∈ turns) → xs.filter (·.t = c) = [] :=
      fun xs hxs => List.filter_eq_nil_iff.mpr fun x hx ht => hc ⟨x,hxs x hx,by simpa using ht⟩
    rw [hnone _ fun x hx => hperm.mem_iff.mp hx,hnone turns fun _ hx => hx]

end Trace

/-- A replay sees of a trace the order of its turns. -/
theorem runPolicy_congr [Scalar F] {turns turns' : List (Turn F)}
    (h : inOrder turns = inOrder turns') (cfg : SimConfig F) (name : String) :
    runPolicy cfg turns name = runPolicy cfg turns' name := by
  have hrun : ∀ s : Simulator F, s.run turns = s.run turns' := by
    intro s
    have hsched : s.schedule turns = s.schedule turns' := by
      unfold Simulator.schedule Simulator.futureAccesses
      rw [h]
    rw [Simulator.run,Simulator.run,h,hsched]
  unfold runPolicy
  simp only [hrun]

/-- A replay of the sessions one after the other is the replay of the trace they come from. -/
theorem runPolicy_sessions [Scalar F] (cfg : SimConfig F) (name : String) {turns : List (Turn F)}
    (h : ∀ a ∈ turns, ∀ b ∈ turns, a.t = b.t → a.sessionId = b.sessionId) :
    runPolicy cfg ((groupBySession turns).flatMap (·.turns)) name = runPolicy cfg turns name :=
  runPolicy_congr (inOrder_sessions turns h) cfg name

theorem runPolicy_sessions_small :
    runPolicy (smallConfig 1000 2000) ((groupBySession [ask 2 "b" 1000,ask 1 "a" 1000,
      ask 3 "b" 2000]).flatMap (·.turns)) "lru" =
        runPolicy (smallConfig 1000 2000) [ask 2 "b" 1000,ask 1 "a" 1000,ask 3 "b" 2000] "lru" :=
  runPolicy_sessions (smallConfig 1000 2000) "lru" (by norm_num [ask])

end ContextResidency
