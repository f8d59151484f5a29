import ContextResidency.Departures
import ContextResidency.HostBookkeeping

/-! Blocks stored again after they had been evicted. The replay counts them as a mistake of
the policy; the count is exact, and under a policy whose entries do not expire it is the number
of stored blocks that the host tier had held before. -/
namespace ContextResidency

variable {F : Type} [Scalar F]

/-- The policies whose entries expire. The adaptive one sweeps too, but nothing it holds does. -/
def PolicyKind.lapses : PolicyKind F → Bool
  | .fixedTtl _ _ => true
  | .continuumTtl _ _ _ => true
  | _ => false

theorem TierPolicy.expiry_of_lasting {policy : TierPolicy F} (h : policy.kind.lapses = false)
    (key : BlockKey) (nbytes : ℤ) (now : F) (probe : Probe F) :
    policy.expiry key nbytes now probe = ⊤ := by
  unfold expiry
  cases hkind : policy.kind with
  | fixedTtl baseS perGibS =>
    rw [hkind] at h
    cases h
  | continuumTtl k minS maxS =>
    rw [hkind] at h
    cases h
  | lru => rfl
  | lfu => rfl
  | adaptiveValue horizonS priors => rfl
  | oracle => rfl

namespace Simulator

def acquired (sched : Schedule F) (visit : Simulator F × Turn F) : List BlockKey :=
  (one sched visit.1 visit.2).policy.entries.keys.filter (· ∉ visit.1.policy.entries)

section Step

variable (sched : Schedule F) {s : Simulator F} (turn : Turn F)

theorem insertFresh_reacquires (now : F) (s : Simulator F) (room : ℤ)
    (fresh : List (BlockKey × ℤ)) :
    (insertFresh now sched s room fresh).reacquires = s.reacquires+
      (((fitting room fresh).map Prod.fst).filter (· ∈ s.leftHostAt)).length := by
  induction fresh generalizing s room with
  | nil => rfl
  | cons p fresh ih =>
    rw [insertFresh,fitting]
    split
    · rfl
    · rw [ih]
      show s.reacquires+_+(((fitting (room-p.2) fresh).map Prod.fst).filter
        (· ∈ s.leftHostAt)).length = _
      by_cases hleft : p.1 ∈ s.leftHostAt <;>
        simp [hleft,Nat.add_assoc,Nat.add_comm 1]

theorem Landing.acquired_eq {t : Simulator F} {room : ℤ} {fresh : List (BlockKey × ℤ)}
    (h : @Landing _ _ sched s turn t room fresh) :
    acquired sched (s,turn) = (fitting room fresh).map Prod.fst := by
  have hmissing : ∀ p ∈ fresh, p.1 ∉ s.policy.entries := by
    intro p hp
    have hout := (mem_missing (h.missing.subset hp)).2.1
    rwa [filled_policy] at hout
  have hkept : ∀ key, key ∈ t.policy.entries → key ∈ s.policy.entries := by
    intro key hkey
    rcases h.entries with ⟨hsame,_⟩ | hswept
    · rwa [hsame] at hkey
    · rw [hswept,Dict.mem_eraseAll,Dict.mem_iff_exists] at hkey
      obtain ⟨e,he⟩ := hkey.1
      exact Dict.mem_of_item (s.policy.item_of_mem_swept he)
  have hsizes : sizes (one sched s turn).policy.entries =
      sizes t.policy.entries ++ fitting room fresh := by
    rw [sizes_one s turn sched,h.stored]
    refine sizes_insertFresh turn.t sched t room fresh ?_ fun p hp hmem => ?_
    · exact (h.missing.map Prod.fst).nodup (missing_nodup (path_nodup s turn))
    · exact hmissing p hp (hkept p.1 hmem)
  have hold : ∀ key ∈ t.policy.entries.keys, ¬ decide (key ∉ s.policy.entries) = true := by
    intro key hkey
    simpa using hkept key (Dict.mem_def.mpr hkey)
  have hnew : ∀ key ∈ (fitting room fresh).map Prod.fst,
      decide (key ∉ s.policy.entries) = true := by
    intro key hkey
    obtain ⟨p,hp,rfl⟩ := List.mem_map.mp hkey
    simpa using hmissing p ((fitting_initial room fresh).subset hp)
  rw [acquired,← sizes_keys,hsizes,List.map_append,sizes_keys,List.filter_append,
    List.filter_eq_nil_iff.mpr hold,List.filter_eq_self.mpr hnew,List.nil_append]

theorem one_reacquires : (one sched s turn).reacquires =
    s.reacquires+((acquired sched (s,turn)).filter (· ∈ s.leftHostAt)).length := by
  obtain ⟨t,room,fresh,hlanding⟩ := @exists_landing _ _ sched s turn
  have hacquired := hlanding.acquired_eq sched turn
  have hleft : ∀ key ∈ acquired sched (s,turn), key ∈ t.leftHostAt ↔ key ∈ s.leftHostAt := by
    intro key hkey
    have hout : key ∉ s.policy.entries := by simpa using (List.mem_filter.mp hkey).2
    rw [hlanding.leftHostAt,Dict.mem_foldl_set]
    exact or_iff_right fun hevicted => hout (mem_of_mem_evictedKeys turn hevicted)
  have hcount : (one sched s turn).reacquires =
      (insertFresh turn.t sched t room fresh).reacquires := by
    rw [one,settled_eq,refreshOracle,touchHost,hlanding.stored]
  rw [hcount,insertFresh_reacquires,hlanding.reacquires,← hacquired]
  exact congrArg (s.reacquires+·.length)
    (List.filter_congr fun key hkey => decide_eq_decide.mpr (hleft key hkey))

theorem acquired_nodup (visit : Simulator F × Turn F) : (acquired sched visit).Nodup :=
  (Dict.keys_nodup _).filter _

theorem mem_acquired {visit : Simulator F × Turn F} {key : BlockKey} :
    key ∈ acquired sched visit ↔
      key ∈ (one sched visit.1 visit.2).policy.entries ∧ key ∉ visit.1.policy.entries := by
  simp [acquired,Dict.mem_def]

end Step

def everHeld (sched : Schedule F) (past : List (Simulator F × Turn F)) : Finset BlockKey :=
  (past.flatMap (acquired sched)).toFinset

theorem everHeld_append (sched : Schedule F) (past : List (Simulator F × Turn F))
    (visit : Simulator F × Turn F) :
    everHeld sched (past ++ [visit]) = everHeld sched past ∪ (acquired sched visit).toFinset := by
  rw [everHeld,List.flatMap_append,List.toFinset_append,List.flatMap_singleton,everHeld]

structure Returning (sched : Schedule F) (past : List (Simulator F × Turn F)) (s : Simulator F) :
    Prop where
  left : ∀ key ∈ s.leftHostAt, key ∈ everHeld sched past
  held : ∀ key ∈ s.policy.entries, key ∈ everHeld sched past
  lasting : s.policy.kind.lapses = false →
    ∀ key e, s.policy.get key = some e → e.expiresAt = ⊤
  kept : s.policy.kind.lapses = false →
    ∀ key ∈ everHeld sched past, key ∈ s.policy.entries ∨ key ∈ s.leftHostAt
  count : s.reacquires+(everHeld sched past).card ≤
    (past.map fun visit => (acquired sched visit).length).sum
  exact : s.policy.kind.lapses = false → s.reacquires+(everHeld sched past).card =
    (past.map fun visit => (acquired sched visit).length).sum

theorem card_everHeld_append (sched : Schedule F) (past : List (Simulator F × Turn F))
    (visit : Simulator F × Turn F) :
    (everHeld sched (past ++ [visit])).card+
        ((acquired sched visit).filter (· ∈ everHeld sched past)).length =
      (everHeld sched past).card+(acquired sched visit).length := by
  have hn := acquired_nodup sched visit
  have hsplit := List.length_eq_length_filter_add (l := acquired sched visit)
    (fun key => decide (key ∈ everHeld sched past))
  have hnew : ((acquired sched visit).toFinset \ everHeld sched past).card =
      ((acquired sched visit).filter fun key => !decide (key ∈ everHeld sched past)).length := by
    rw [← List.toFinset_card_of_nodup (hn.filter _)]
    congr 1
    ext key
    simp
  have hunion := Finset.card_sdiff_add_card (acquired sched visit).toFinset (everHeld sched past)
  rw [everHeld_append,Finset.union_comm,← hunion,hnew]
  omega

theorem one_returning (sched : Schedule F) (past : List (Simulator F × Turn F)) (s : Simulator F)
    (turn : Turn F) (h : Returning sched past s) :
    Returning sched (past ++ [(s,turn)]) (one sched s turn) := by
  have hcount := one_reacquires sched (s := s) turn
  have hcard := card_everHeld_append sched past (s,turn)
  have hkind := one_kind s turn sched
  have hleft : ∀ key, key ∈ (one sched s turn).leftHostAt ↔
      key ∈ s.evictedKeys turn ∨ key ∈ s.leftHostAt := by
    intro key
    rw [one_leftHostAt,Dict.mem_foldl_set]
  have hever : ∀ key, key ∈ everHeld sched (past ++ [(s,turn)]) ↔
      key ∈ everHeld sched past ∨ key ∈ acquired sched (s,turn) := by
    intro key
    rw [everHeld_append,Finset.mem_union,List.mem_toFinset]
  have hknown : ((acquired sched (s,turn)).filter (· ∈ s.leftHostAt)).length ≤
      ((acquired sched (s,turn)).filter (· ∈ everHeld sched past)).length :=
    (List.monotone_filter_right _ fun key hkey => by
      simpa using h.left key (by simpa using hkey)).length_le
  have hstores : ((past ++ [(s,turn)]).map fun visit => (acquired sched visit).length).sum =
      (past.map fun visit => (acquired sched visit).length).sum+
        (acquired sched (s,turn)).length := by
    rw [List.map_append,List.sum_append,List.map_singleton,List.sum_singleton]
  constructor
  case left =>
    intro key hkey
    rw [hever]
    rcases (hleft key).mp hkey with hevicted | hold
    · exact Or.inl (h.held key (mem_of_mem_evictedKeys turn hevicted))
    · exact Or.inl (h.left key hold)
  case held =>
    intro key hkey
    rw [hever]
    by_cases hold : key ∈ s.policy.entries
    · exact Or.inl (h.held key hold)
    · exact Or.inr ((mem_acquired sched).mpr ⟨hkey,hold⟩)
  case lasting =>
    intro hlasting key e he
    rw [hkind] at hlasting
    have hentry := entry_one sched he
    by_cases hkey : key ∈ s.path turn
    · rw [if_pos hkey] at hentry
      rw [hentry.expiresAt,TierPolicy.expiry_of_lasting hlasting]
    · rw [if_neg hkey] at hentry
      exact h.lasting hlasting key e hentry
  case kept =>
    intro hlasting key hkey
    rw [hkind] at hlasting
    rw [hleft]
    rcases (hever key).mp hkey with hpast | hnew
    · rcases h.kept hlasting key hpast with hheld | hgone
      · obtain ⟨e,he⟩ := Dict.mem_iff_get.mp hheld
        rcases mem_one_of_mem sched turn he with hstays | ⟨_,hexpired⟩ | hevicted
        · exact Or.inl hstays
        · rw [h.lasting hlasting key e he,top_le_iff] at hexpired
          cases hexpired
        · exact Or.inr (Or.inl hevicted)
      · exact Or.inr (Or.inr hgone)
    · exact Or.inl ((mem_acquired sched).mp hnew).1
  case count =>
    have hold := h.count
    rw [hcount,hstores]
    omega
  case exact =>
    intro hlasting
    rw [hkind] at hlasting
    have hold := h.exact hlasting
    have hsame : (acquired sched (s,turn)).filter (· ∈ s.leftHostAt) =
        (acquired sched (s,turn)).filter (· ∈ everHeld sched past) := by
      refine List.filter_congr fun key hkey => decide_eq_decide.mpr ⟨h.left key,fun hpast => ?_⟩
      exact (h.kept hlasting key hpast).resolve_left ((mem_acquired sched).mp hkey).2
    rw [hcount,hsame,hstores]
    omega

theorem start_returning (cfg : SimConfig F) (kind : PolicyKind F) (ram : TierConfig F)
    (sched : Schedule F) : Returning sched [] (start cfg kind ram) where
  left _ h := by cases h
  held _ h := by cases h
  lasting _ _ _ h := by cases h
  kept _ _ h := by simp [everHeld] at h
  count := le_rfl
  exact _ := rfl

/-- What a run counts as reacquired is at most the number of stores into the host tier that
brought back a block it had held before, and under a policy whose entries do not expire it is
that number: the stores are the distinct blocks the tier has held and the blocks that came back. -/
theorem reacquires_add_everHeld (cfg : SimConfig F) (kind : PolicyKind F) (ram : TierConfig F)
    (turns : List (Turn F)) (n : ℕ) :
    let s := start cfg kind ram
    let sched := s.schedule turns
    let stores := ((s.visited turns n).map fun visit => (acquired sched visit).length).sum
    let reached := (s.after turns n).reacquires+(everHeld sched (s.visited turns n)).card
    reached ≤ stores ∧ (kind.lapses = false → reached = stores) := by
  intro s sched stores reached
  have h : Returning sched (s.visited turns n) (s.after turns n) :=
    run_history (fun past t turn h => one_returning sched past t turn h)
      (start_returning cfg kind ram sched) ((inOrder turns).take n)
  refine ⟨h.count,fun hlasting => h.exact ?_⟩
  rwa [after_kind]

end Simulator
end ContextResidency
