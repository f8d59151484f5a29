import ContextResidency.HostFacts
import ContextResidency.FreePrefill

/-! What the oracle knows. Its schedule lists, for every block, the times of the turns
whose path it is on; so when no two turns come at once, every resident block carries the
time at which the rest of the trace asks for it next. -/
namespace ContextResidency

variable {F : Type} [Scalar F]

/-- The path of a turn, whatever was replayed before it. -/
def pathOf (cfg : SimConfig F) (turn : Turn F) : List BlockKey :=
  ((PrefixIndex.new cfg.blockTokens cfg.cost).chain turn.sessionId turn.promptTokens
    turn.sharedPrefixTokens s!"root:{turn.role}").map (·.key)

/-- The time of the first of these turns whose path the block is on. -/
def upcoming (cfg : SimConfig F) (rest : List (Turn F)) (key : BlockKey) : WithTop F :=
  match rest.find? fun turn => key ∈ pathOf cfg turn with
  | none => ⊤
  | some turn => turn.t

omit [Scalar F] in
theorem upcoming_cons (cfg : SimConfig F) (turn : Turn F) (rest : List (Turn F)) (key : BlockKey) :
    upcoming cfg (turn::rest) key =
      if key ∈ pathOf cfg turn then (turn.t : WithTop F) else upcoming cfg rest key := by
  unfold upcoming
  by_cases h : key ∈ pathOf cfg turn
  · simp [h]
  · simp [h]

theorem lt_upcoming {cfg : SimConfig F} {now : F} {rest : List (Turn F)}
    (hlater : ∀ turn ∈ rest, now < turn.t) (key : BlockKey) :
    (now : WithTop F) < upcoming cfg rest key := by
  induction rest with
  | nil => exact WithTop.coe_lt_top now
  | cons turn rest ih =>
    rw [upcoming_cons]
    split
    · exact WithTop.coe_lt_coe.mpr (hlater turn (by simp))
    · exact ih fun t ht => hlater t (by simp [ht])

namespace Simulator

theorem after_path (cfg : SimConfig F) (kind : PolicyKind F) (ram : TierConfig F)
    (turns : List (Turn F)) (n : ℕ) (turn : Turn F) :
    ((start cfg kind ram).after turns n).path turn = pathOf cfg turn := by
  have hblocks := exec_blockTokens ((start cfg kind ram).schedule turns) (start cfg kind ram)
    ((inOrder turns).take n)
  have hchain : ∀ index : PrefixIndex F,
      index.blockTokens = (PrefixIndex.new cfg.blockTokens cfg.cost : PrefixIndex F).blockTokens →
      (index.chain turn.sessionId turn.promptTokens turn.sharedPrefixTokens
        s!"root:{turn.role}").map (·.key) = pathOf cfg turn := by
    intro index h
    unfold pathOf PrefixIndex.chain
    rw [h]
  exact hchain _ hblocks

section Schedule

variable {key : BlockKey}

omit [Scalar F] in
theorem get_push_parts {parts : List ChainPart} (hn : (parts.map (·.key)).Nodup) (now : F)
    (sched : Schedule F) :
    ((parts.foldl (fun sched part => sched.push part.key now) sched).get key).getD [] =
      (sched.get key).getD [] ++ if key ∈ parts.map (·.key) then [now] else [] := by
  induction parts generalizing sched with
  | nil => simp
  | cons part parts ih =>
    rw [List.map_cons,List.nodup_cons] at hn
    rw [List.foldl_cons,ih hn.2,Dict.get_push,List.append_assoc]
    by_cases hkey : key = part.key
    · subst hkey
      simp [hn.1]
    · simp [hkey]

omit [Scalar F] in
theorem get_push_turns (cfg : SimConfig F) (turns : List (Turn F)) (sched : Schedule F)
    (key : BlockKey) :
    ((turns.foldl (fun sched turn =>
      ((PrefixIndex.new cfg.blockTokens cfg.cost).chain turn.sessionId turn.promptTokens
        turn.sharedPrefixTokens s!"root:{turn.role}").foldl (fun sched part =>
          sched.push part.key turn.t) sched) sched).get key).getD [] =
      (sched.get key).getD [] ++ (turns.filter fun turn => key ∈ pathOf cfg turn).map (·.t) := by
  induction turns generalizing sched with
  | nil => simp
  | cons turn turns ih =>
    have hnodup : (pathOf cfg turn).Nodup := PrefixIndex.chain_keys_nodup _ _ _ _ _
    rw [List.foldl_cons,ih,get_push_parts hnodup,List.filter_cons,List.append_assoc]
    show (sched.get key).getD [] ++ ((if key ∈ pathOf cfg turn then [turn.t] else []) ++ _) = _
    by_cases hkey : key ∈ pathOf cfg turn
    · simp [hkey]
    · simp [hkey]

theorem futureAccesses_get (cfg : SimConfig F) (turns : List (Turn F)) :
    ((futureAccesses cfg turns).get key).getD [] =
      ((inOrder turns).filter fun turn => key ∈ pathOf cfg turn).map (·.t) := by
  have hall := get_push_turns cfg (inOrder turns) .empty key
  have hsorted : (((inOrder turns).filter fun turn => key ∈ pathOf cfg turn).map (·.t)).Pairwise
      fun a b => a ≤ b := by
    rw [List.pairwise_map]
    exact (sortedBy_pairwise (·.t) turns).filter _
  rw [Dict.get_empty,Option.getD_none,List.nil_append] at hall
  have hmap : ∀ times : Option (List F),
      (times.map (sortedBy id)).getD [] = sortedBy id (times.getD []) := by
    intro times
    cases times with
    | none => rfl
    | some times => rfl
  rw [futureAccesses,Dict.get_mapValues,hmap,hall]
  exact sortedBy_eq_self hsorted

/-- When no two turns come at once, the next access after a turn is in the rest of the trace. -/
theorem next_eq_upcoming {cfg : SimConfig F} {turns before rest : List (Turn F)} {turn : Turn F}
    (htimes : (inOrder turns).Pairwise fun a b => a.t < b.t)
    (hsplit : inOrder turns = before ++ turn::rest) :
    (futureAccesses cfg turns).next key turn.t = upcoming cfg rest key := by
  rw [hsplit,List.pairwise_append,List.pairwise_cons] at htimes
  obtain ⟨_,⟨hafter,_⟩,hbefore⟩ := htimes
  have hpast : ((before ++ [turn]).filter fun turn => key ∈ pathOf cfg turn).find?
      (fun t => turn.t < t.t) = none := by
    rw [List.find?_eq_none]
    intro t ht
    rcases List.mem_append.mp (List.mem_filter.mp ht).1 with hold | hnow
    · simpa using (hbefore t hold turn (by simp)).le
    · simp [List.mem_singleton.mp hnow]
  have hfuture : (rest.filter fun turn => key ∈ pathOf cfg turn).find? (fun t => turn.t < t.t) =
      rest.find? fun turn => key ∈ pathOf cfg turn := by
    have hhead : rest.find? (fun turn => key ∈ pathOf cfg turn) =
        (rest.filter fun turn => key ∈ pathOf cfg turn).head? := List.head?_filter.symm
    rw [hhead]
    cases hlist : rest.filter fun turn => key ∈ pathOf cfg turn with
    | nil => rfl
    | cons t ts =>
      have ht : t ∈ rest := (List.mem_filter.mp (hlist ▸ List.mem_cons_self)).1
      simp [hafter t ht]
  have hfind : (((inOrder turns).filter fun turn => key ∈ pathOf cfg turn).map (·.t)).find?
      (turn.t < ·) = (rest.find? fun turn => key ∈ pathOf cfg turn).map (·.t) := by
    have hlist : inOrder turns = (before ++ [turn]) ++ rest := by simp [hsplit]
    rw [List.find?_map,hlist,List.filter_append,List.find?_append]
    show Option.map _ (Option.or (List.find? (fun t : Turn F => turn.t < t.t) _)
      (List.find? (fun t : Turn F => turn.t < t.t) _)) = _
    rw [hpast,hfuture,Option.none_or]
  unfold Schedule.next upcoming
  rw [futureAccesses_get,hfind]
  cases rest.find? fun turn => key ∈ pathOf cfg turn with
  | none => rfl
  | some t => rfl

end Schedule

section Entries

variable {s : Simulator F} {turn : Turn F} {key : BlockKey} {e : Entry F} (sched : Schedule F)

theorem get_insertFresh (now : F) {room : ℤ} {fresh : List (BlockKey × ℤ)}
    (hkey : key ∉ fresh.map Prod.fst) :
    (insertFresh now sched s room fresh).policy.get key = s.policy.get key := by
  induction fresh generalizing s room with
  | nil => rfl
  | cons p fresh ih =>
    rw [List.map_cons,List.mem_cons,not_or] at hkey
    have hinsert : (s.policy.insert p.1 p.2 now s.probe).get key = s.policy.get key := by
      unfold TierPolicy.insert TierPolicy.get
      cases s.policy.entries.get p.1 with
      | none => simp [Dict.get_set,hkey.1]
      | some old => simp [Dict.get_modify,hkey.1]
    have hforesee : ∀ policy : TierPolicy F,
        (foresee sched p.1 now policy).get key = policy.get key := by
      intro policy
      unfold foresee TierPolicy.get
      split
      · simp [Dict.get_modify,hkey.1]
      · rfl
    rw [insertFresh]
    split
    · rfl
    · rw [ih hkey.2]
      exact (hforesee _).trans hinsert

theorem get_store {keys : List BlockKey} (now : F) (hkey : key ∉ keys)
    (h : (s.storeBatchToHost keys now sched).policy.get key = some e) :
    s.policy.get key = some e := by
  obtain ⟨t,room,fresh,hsub,hpolicy,hstore⟩ := s.store_cases keys now sched
  have hfresh : key ∉ fresh.map Prod.fst := by
    intro hmem
    obtain ⟨p,hp,rfl⟩ := List.mem_map.mp hmem
    exact hkey (mem_missing (hsub.subset hp)).1
  rw [hstore,get_insertFresh sched now hfresh] at h
  rcases hpolicy with hsame | ⟨_,_,hevict⟩
  · rwa [hsame] at h
  · rw [hevict] at h
    exact s.policy.get_evict h

theorem get_touch (policy : TierPolicy F) {keys : List BlockKey} (now : F) (probe : Probe F)
    (hkey : key ∉ keys) : (policy.touch keys now probe).get key = policy.get key := by
  induction keys generalizing policy with
  | nil => rfl
  | cons k keys ih =>
    rw [List.mem_cons,not_or] at hkey
    have hrest := ih (policy.touch [k] now probe) hkey.2
    refine hrest.trans ?_
    show (policy.entries.modify k _).get key = policy.entries.get key
    rw [Dict.get_modify,if_neg hkey.1]

theorem get_refresh (entries : Entries F) (keys : List BlockKey) (now : F) :
    (keys.foldl (fun entries key => entries.modify key fun e =>
      { e with nextUse := sched.next key now }) entries).get key =
      if key ∈ keys then (entries.get key).map fun e => { e with nextUse := sched.next key now }
      else entries.get key := by
  apply @Dict.get_foldl_modify BlockKey (Entry F) _ fun key e =>
    { e with nextUse := sched.next key now }
  exact fun _ _ => rfl

/-- After a turn a block of its path notes its next access; the others are as they were. -/
theorem get_one (h : (one sched s turn).policy.get key = some e) :
    if key ∈ s.path turn then e.nextUse = sched.next key turn.t
    else s.policy.get key = some e := by
  have hone : (one sched s turn).policy.entries =
      (s.path turn).foldl (fun entries key => entries.modify key fun e =>
        { e with nextUse := sched.next key turn.t })
        (((s.filled turn).storeBatchToHost (s.path turn) turn.t sched).touchHost
          (s.path turn) turn.t).policy.entries := rfl
  rw [TierPolicy.get,hone,get_refresh] at h
  split
  · rename_i hkey
    rw [if_pos hkey] at h
    obtain ⟨_,_,rfl⟩ := Option.map_eq_some_iff.mp h
    rfl
  · rename_i hkey
    rw [if_neg hkey] at h
    have htouch := get_touch ((s.filled turn).storeBatchToHost (s.path turn) turn.t sched).policy
      turn.t ((s.filled turn).storeBatchToHost (s.path turn) turn.t sched).probe hkey
    have hstored := get_store (s := s.filled turn) sched turn.t hkey (htouch.symm.trans h)
    rwa [filled_policy] at hstored

end Entries

/-- Every resident block carries the time of its next access in the rest of the trace. -/
def Foreseen (cfg : SimConfig F) (rest : List (Turn F)) (s : Simulator F) : Prop :=
  ∀ key e, s.policy.get key = some e → e.nextUse = upcoming cfg rest key

theorem after_foreseen (cfg : SimConfig F) (ram : TierConfig F) (turns : List (Turn F))
    (htimes : (inOrder turns).Pairwise fun a b => a.t < b.t) (n : ℕ) :
    Foreseen cfg ((inOrder turns).drop n) ((start cfg .oracle ram).after turns n) := by
  induction n with
  | zero =>
    intro key e he
    simp [start,after,exec,new,TierPolicy.new,TierPolicy.get] at he
  | succ n ih =>
    cases hturn : (inOrder turns)[n]? with
    | none =>
      rw [after_of_done _ hturn,rest_of_done hturn]
      exact ih
    | some turn =>
      have hsplit := rest_of_turn hturn
      intro key e he
      rw [after_succ _ hturn] at he
      have hentry := get_one _ he
      rw [after_path] at hentry
      split at hentry
      · rw [hentry]
        apply next_eq_upcoming htimes
        rw [← hsplit]
        exact (List.take_append_drop n _).symm
      · rename_i hkey
        rw [ih key e hentry,hsplit,upcoming_cons,if_neg hkey]

end Simulator
end ContextResidency
