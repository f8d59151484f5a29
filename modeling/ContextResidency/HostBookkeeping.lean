import ContextResidency.Foresight
import ContextResidency.StoreStep

/-! The books of the host tier. What an entry says of its block (when it came, when it was
used last, how often, until when it is kept) is exact over a whole run, and a block that
leaves the tier before its time is a victim on record. -/
namespace ContextResidency

variable {F : Type} [Scalar F]

namespace Simulator

section Entries

variable {s : Simulator F} {turn : Turn F} {key : BlockKey} {e : Entry F} (sched : Schedule F)

/-- An entry as an insertion leaves it, until when it is kept aside. -/
structure Inserted (now : F) (nbytes : ℤ) (e : Entry F) : Prop where
  nbytes : e.nbytes = nbytes
  insertedAt : e.insertedAt = now
  uses : e.uses = 1

theorem get_inserted (now : F) {p : BlockKey × ℤ} (hnew : p.1 ∉ s.policy.entries)
    (h : (foresee sched p.1 now (s.policy.insert p.1 p.2 now s.probe)).get key = some e) :
    if key = p.1 then Inserted now p.2 e else s.policy.get key = some e := by
  have hnone : s.policy.get p.1 = none := Dict.get_eq_none.mpr hnew
  have hinsert : (s.policy.insert p.1 p.2 now s.probe).get key = if key = p.1 then
      some { nbytes := p.2, insertedAt := now, lastTouch := now
             expiresAt := s.policy.expiry p.1 p.2 now s.probe } else s.policy.get key := by
    unfold TierPolicy.insert
    rw [hnone]
    exact Dict.get_set _ _ _ _
  unfold foresee at h
  split at h
  · rw [TierPolicy.get,Dict.get_modify] at h
    by_cases hkey : key = p.1
    · subst hkey
      rw [if_pos rfl] at h ⊢
      obtain ⟨old,hold,rfl⟩ := Option.map_eq_some_iff.mp h
      obtain rfl := Option.some.inj ((hinsert.trans (if_pos rfl)).symm.trans hold)
      exact ⟨rfl,rfl,rfl⟩
    · rw [if_neg hkey] at h ⊢
      exact ((hinsert.trans (if_neg hkey)).symm.trans h)
  · rw [hinsert] at h
    by_cases hkey : key = p.1
    · rw [if_pos hkey] at h ⊢
      obtain rfl := Option.some.inj h
      exact ⟨rfl,rfl,rfl⟩
    · rwa [if_neg hkey] at h ⊢

theorem mem_inserted (now : F) {p : BlockKey × ℤ} (hnew : p.1 ∉ s.policy.entries) :
    key ∈ (foresee sched p.1 now (s.policy.insert p.1 p.2 now s.probe)).entries ↔
      key = p.1 ∨ key ∈ s.policy.entries := by
  have hinsert : key ∈ (s.policy.insert p.1 p.2 now s.probe).entries ↔
      key = p.1 ∨ key ∈ s.policy.entries := by
    have hnone : s.policy.get p.1 = none := Dict.get_eq_none.mpr hnew
    unfold TierPolicy.insert
    rw [hnone]
    exact Dict.mem_set
  unfold foresee
  split
  · exact Dict.mem_modify.trans hinsert
  · exact hinsert

theorem get_insertFresh_cases (now : F) {room : ℤ} {fresh : List (BlockKey × ℤ)}
    (hn : (fresh.map Prod.fst).Nodup) (hnew : ∀ p ∈ fresh, p.1 ∉ s.policy.entries)
    (h : (insertFresh now sched s room fresh).policy.get key = some e) :
    s.policy.get key = some e ∨ ∃ p ∈ fresh, p.1 = key ∧ Inserted now p.2 e := by
  induction fresh generalizing s room with
  | nil => exact Or.inl h
  | cons p fresh ih =>
    rw [List.map_cons,List.nodup_cons] at hn
    obtain ⟨hp,hfresh⟩ := List.forall_mem_cons.mp hnew
    rw [insertFresh] at h
    split at h
    · exact Or.inl h
    · have hlater := ih hn.2 (fun q hq => ?_) h
      · rcases hlater with hheld | ⟨q,hq,hkey,hentry⟩
        · have hfirst := get_inserted sched now hp hheld
          split at hfirst
          · rename_i hkey
            exact Or.inr ⟨p,by simp,hkey.symm,hfirst⟩
          · exact Or.inl hfirst
        · exact Or.inr ⟨q,by simp [hq],hkey,hentry⟩
      · rw [mem_inserted sched now hp,not_or]
        refine ⟨fun hsame => hn.1 ?_,hfresh q hq⟩
        exact hsame ▸ List.mem_map_of_mem hq

/-- After the store step an entry is one from before, or new for a missing block. -/
theorem get_store_cases {keys : List BlockKey} (hn : keys.Nodup) (now : F)
    (h : (s.storeBatchToHost keys now sched).policy.get key = some e) :
    s.policy.get key = some e ∨
      s.policy.get key = none ∧ Inserted now (s.index.nbytesOf key) e := by
  obtain ⟨t,room,fresh,hsub,hpolicy,hstore⟩ := s.store_cases keys now sched
  have hheld : ∀ k e, t.policy.get k = some e → s.policy.get k = some e := by
    intro k e hk
    rcases hpolicy with hsame | ⟨_,_,hevict⟩
    · rwa [hsame] at hk
    · rw [hevict] at hk
      exact s.policy.get_evict hk
  have hmissing : ∀ p ∈ fresh, s.policy.get p.1 = none ∧ p.2 = s.index.nbytesOf p.1 := by
    intro p hp
    obtain ⟨_,hout,hsize⟩ := mem_missing (hsub.subset hp)
    exact ⟨Dict.get_eq_none.mpr hout,hsize⟩
  have hnew : ∀ p ∈ fresh, p.1 ∉ t.policy.entries := by
    intro p hp hmem
    obtain ⟨old,hold⟩ := Dict.mem_iff_get.mp hmem
    have hsome := hheld p.1 old hold
    rw [(hmissing p hp).1] at hsome
    cases hsome
  rw [hstore] at h
  rcases get_insertFresh_cases sched now ((hsub.map Prod.fst).nodup (missing_nodup hn)) hnew h with
    hold | ⟨p,hp,rfl,hentry⟩
  · exact Or.inl (hheld key e hold)
  · exact Or.inr ⟨(hmissing p hp).1,(hmissing p hp).2 ▸ hentry⟩

theorem get_touch_of_mem (policy : TierPolicy F) {keys : List BlockKey} (hn : keys.Nodup)
    (now : F) (probe : Probe F) (hkey : key ∈ keys) :
    (policy.touch keys now probe).get key =
      (policy.get key).map fun e => policy.refresh key e.nbytes now probe e := by
  induction keys generalizing policy with
  | nil => simp at hkey
  | cons k keys ih =>
    rw [List.nodup_cons] at hn
    have hfirst : (policy.touch [k] now probe).get key = if key = k then
        (policy.get k).map fun e => policy.refresh k e.nbytes now probe e else policy.get key :=
      Dict.get_modify _ _ _ _
    by_cases hk : key = k
    · subst hk
      have hrest := get_touch (policy.touch [key] now probe) now probe hn.1
      exact hrest.trans (hfirst.trans (if_pos rfl))
    · have hrest := ih (policy.touch [k] now probe) hn.2 ((List.mem_cons.mp hkey).resolve_left hk)
      rw [hfirst,if_neg hk] at hrest
      exact hrest

/-- What an entry of the path says after a turn. -/
structure Used (s : Simulator F) (turn : Turn F) (key : BlockKey) (e : Entry F) : Prop where
  lastTouch : e.lastTouch = turn.t
  expiresAt : e.expiresAt = s.policy.expiry key e.nbytes turn.t (s.observe turn).1.probe
  carried : (∃ old, s.policy.get key = some old ∧ e.nbytes = old.nbytes ∧
      e.insertedAt = old.insertedAt ∧ e.uses = old.uses+1) ∨
    s.policy.get key = none ∧ e.nbytes = (s.seenIndex turn).nbytesOf key ∧
      e.insertedAt = turn.t ∧ e.uses = 2

/-- After a turn the entries of its path are used, or new; the others are as they were. -/
theorem entry_one (h : (one sched s turn).policy.get key = some e) :
    if key ∈ s.path turn then Used s turn key e else s.policy.get key = some e := by
  have hother := get_one sched h
  by_cases hkey : key ∈ s.path turn
  · rw [if_pos hkey]
    let stored := (s.filled turn).storeBatchToHost (s.path turn) turn.t sched
    have hone : (one sched s turn).policy.entries =
        (s.path turn).foldl (fun entries key => entries.modify key fun e =>
          { e with nextUse := sched.next key turn.t })
          (stored.touchHost (s.path turn) turn.t).policy.entries := rfl
    rw [TierPolicy.get,hone,get_refresh,if_pos hkey] at h
    obtain ⟨touched,htouched,rfl⟩ := Option.map_eq_some_iff.mp h
    have htouch := get_touch_of_mem stored.policy (path_nodup s turn) turn.t stored.probe hkey
    obtain ⟨old,hold,rfl⟩ := Option.map_eq_some_iff.mp (htouch.symm.trans htouched)
    have hprobe : stored.probe = (s.observe turn).1.probe :=
      (storeBatchToHost_probe _ _ _ _).trans (fillHbm_probe _ _)
    have hkind : stored.policy.kind = s.policy.kind := by
      rw [(storeBatchToHost_kind _ _ _ _).1,filled_policy]
    have hexpiry : ∀ nbytes, stored.policy.expiry key nbytes turn.t stored.probe =
        s.policy.expiry key nbytes turn.t (s.observe turn).1.probe := by
      intro nbytes
      unfold TierPolicy.expiry
      rw [hkind,hprobe]
    refine ⟨rfl,hexpiry _,?_⟩
    have hcases := get_store_cases sched (path_nodup s turn) turn.t hold
    rw [filled_policy,filled_index] at hcases
    rcases hcases with hheld | ⟨hnone,hentry⟩
    · exact Or.inl ⟨old,hheld,rfl,rfl,rfl⟩
    · exact Or.inr ⟨hnone,hentry.nbytes,hentry.insertedAt,congrArg (·+1) hentry.uses⟩
  · rw [if_neg hkey] at hother ⊢
    exact hother

end Entries

def evictedKeys (s : Simulator F) (turn : Turn F) : List BlockKey :=
  match (s.filled turn).evictRequest (s.path turn) with
  | none => []
  | some (fresh,needed) => ((s.policy.evict needed (fresh.map Prod.fst).toFinset turn.t
      (s.filled turn).probe).1).getD []

section Leaving

variable (sched : Schedule F) {s : Simulator F} (turn : Turn F)

theorem mem_insertFresh_of_mem (now : F) (room : ℤ) (fresh : List (BlockKey × ℤ)) {key : BlockKey}
    (h : key ∈ s.policy.entries) : key ∈ (insertFresh now sched s room fresh).policy.entries := by
  induction fresh generalizing s room with
  | nil => exact h
  | cons p fresh ih =>
    have hinsert : key ∈ (s.policy.insert p.1 p.2 now s.probe).entries := by
      unfold TierPolicy.insert
      cases s.policy.get p.1 with
      | none => exact Dict.mem_set.mpr (Or.inr h)
      | some old => exact Dict.mem_modify.mpr h
    rw [insertFresh]
    split
    · exact h
    · apply ih
      show key ∈ (foresee sched p.1 now (s.policy.insert p.1 p.2 now s.probe)).entries
      unfold foresee
      split
      · exact Dict.mem_modify.mpr hinsert
      · exact hinsert

theorem mem_of_mem_evictedKeys {key : BlockKey} (h : key ∈ s.evictedKeys turn) :
    key ∈ s.policy.entries := by
  unfold evictedKeys at h
  split at h
  · simp at h
  · rename_i fresh needed _
    obtain ⟨out,hvictims,hout⟩ := s.policy.evictEntries_eq_evicted needed
      (fresh.map Prod.fst).toFinset turn.t (s.filled turn).probe
    rw [TierPolicy.evict,hout,evicted_keys] at h
    obtain ⟨e,he⟩ := Dict.mem_iff_exists.mp (hvictims.resident key h)
    exact Dict.mem_of_item (s.policy.item_of_mem_swept he)

/-- The host step of a turn inserts missing blocks into what its eviction left of the tier. -/
structure Landing (t : Simulator F) (room : ℤ) (fresh : List (BlockKey × ℤ)) : Prop where
  stored : (s.filled turn).storeBatchToHost (s.path turn) turn.t sched =
    insertFresh turn.t sched t room fresh
  missing : fresh.Sublist ((s.filled turn).missing (s.path turn))
  reacquires : t.reacquires = s.reacquires
  leftHostAt : t.leftHostAt = (s.evictedKeys turn).foldl (fun d k => d.set k turn.t) s.leftHostAt
  entries : t.policy.entries = s.policy.entries ∧ s.evictedKeys turn = [] ∨
    t.policy.entries = (s.policy.swept turn.t).eraseAll (s.evictedKeys turn)

theorem exists_landing : ∃ (t : Simulator F) (room : ℤ) (fresh : List (BlockKey × ℤ)),
    @Landing _ _ sched s turn t room fresh := by
  have hleft : (s.filled turn).leftHostAt = s.leftHostAt := by
    rw [filled_eq]
    rfl
  have hcount : (s.filled turn).reacquires = s.reacquires := by
    rw [filled_eq]
    rfl
  cases hask : (s.filled turn).evictRequest (s.path turn) with
  | none =>
    have hnone : s.evictedKeys turn = [] := by rw [evictedKeys,hask]
    have hstore : (s.filled turn).storeBatchToHost (s.path turn) turn.t sched =
        insertFresh turn.t sched (s.filled turn) (s.filled turn).freeRoom
          ((s.filled turn).policy.admitChain ((s.filled turn).missing (s.path turn))
            (s.filled turn).probe) := by
      rw [storeBatchToHost,hask]
    refine ⟨s.filled turn,_,_,hstore,TierPolicy.admitChain_sublist _ _ _,hcount,?_,
      Or.inl ⟨?_,hnone⟩⟩
    · rw [hnone,hleft]
      rfl
    · rw [filled_policy]
  | some request =>
    obtain ⟨fresh,needed⟩ := request
    obtain ⟨out,_,hout⟩ := s.policy.evictEntries_eq_evicted needed (fresh.map Prod.fst).toFinset
      turn.t (s.filled turn).probe
    have hkeys : s.evictedKeys turn = out := by
      rw [evictedKeys,hask]
      show (s.policy.evictEntries _ _ _ _).1.getD [] = out
      rw [hout,evicted_keys]
    have hstore := store_of_evicted turn.t sched hask
      (by rw [filled_policy]; exact hout)
    rw [filled_policy] at hstore
    by_cases hnone : out = []
    · rw [if_pos hnone] at hstore
      refine ⟨{ s.filled turn with policy := { s.policy with entries := s.policy.swept turn.t } },
        0,[],hstore,List.nil_sublist _,hcount,?_,Or.inr ?_⟩
      · rw [hkeys,hnone]
        exact hleft
      · rw [hkeys,hnone,Dict.eraseAll_nil]
    · rw [if_neg hnone] at hstore
      refine ⟨_,_,fresh,hstore,(evictRequest_some hask).1,hcount,?_,Or.inr (by rw [hkeys])⟩
      rw [hkeys,← hleft]
      simp only [filled_now]

theorem insertFresh_leftHostAt (now : F) (t : Simulator F) (room : ℤ)
    (fresh : List (BlockKey × ℤ)) :
    (insertFresh now sched t room fresh).leftHostAt = t.leftHostAt := by
  obtain ⟨_,_,h⟩ := insertFresh_frame t now sched room fresh
  rw [h]

theorem one_leftHostAt : (one sched s turn).leftHostAt =
    (s.evictedKeys turn).foldl (fun d k => d.set k turn.t) s.leftHostAt := by
  obtain ⟨t,room,fresh,hlanding⟩ := @exists_landing _ _ sched s turn
  rw [one,settled_eq,refreshOracle,touchHost,hlanding.stored]
  exact (insertFresh_leftHostAt sched turn.t t room fresh).trans hlanding.leftHostAt

theorem mem_one_of_mem {key : BlockKey} {e : Entry F} (h : s.policy.get key = some e) :
    key ∈ (one sched s turn).policy.entries ∨
      s.policy.kind.sweeps = true ∧ e.expiresAt ≤ turn.t ∨ key ∈ s.evictedKeys turn := by
  obtain ⟨t,room,fresh,hlanding⟩ := @exists_landing _ _ sched s turn
  have hkept : key ∈ t.policy.entries → key ∈ (one sched s turn).policy.entries := by
    intro hkey
    have hinserted := mem_insertFresh_of_mem sched turn.t room fresh hkey
    rwa [← hlanding.stored,mem_iff_sizes,← sizes_one s turn sched,← mem_iff_sizes]
      at hinserted
  by_cases hevicted : key ∈ s.evictedKeys turn
  · exact Or.inr (Or.inr hevicted)
  · by_cases hexpired : s.policy.kind.sweeps = true ∧ e.expiresAt ≤ turn.t
    · exact Or.inr (Or.inl hexpired)
    · refine Or.inl (hkept ?_)
      have hmem : key ∈ s.policy.entries := Dict.mem_iff_get.mpr ⟨e,h⟩
      rcases hlanding.entries with ⟨hsame,_⟩ | hswept
      · rwa [hsame]
      · rw [hswept,Dict.mem_eraseAll]
        refine ⟨?_,hevicted⟩
        unfold TierPolicy.swept
        split
        · rename_i hsweeps
          refine Dict.mem_filter.mpr ⟨e,h,?_⟩
          simpa using fun hle => hexpired ⟨hsweeps,hle⟩
        · exact hmem

end Leaving

/-- The turns among these whose path a block is on. -/
def accesses (cfg : SimConfig F) (turns : List (Turn F)) (key : BlockKey) : List (Turn F) :=
  turns.filter fun turn => key ∈ pathOf cfg turn

/-- An entry says what the accesses since its insertion amount to: when the first and the last
of them were, and how many there were. The insertion and the touch of its turn count as two. -/
structure Booked (since : List (Turn F)) (e : Entry F) : Prop where
  insertedAt : since.head?.map (·.t) = some e.insertedAt
  lastTouch : since.getLast?.map (·.t) = some e.lastTouch
  uses : e.uses = since.length+1

def Announced (turns : List (Turn F)) (eta : F) : Prop :=
  eta = 0 ∨ ∃ turn ∈ turns, turn.toolEtaS = some eta

/-- Until when an entry is kept, from its last use. -/
def KeptUntil (kind : PolicyKind F) (past : List (Turn F)) (e : Entry F) : Prop :=
  match kind with
  | .fixedTtl baseS perGibS =>
    e.expiresAt = ((e.lastTouch+baseS+perGibS*(e.nbytes/1024^3) : F) : WithTop F)
  | .continuumTtl _ minS maxS => ∃ ttl eta, min maxS minS ≤ ttl ∧ ttl ≤ maxS ∧
      Announced past eta ∧ e.expiresAt = ((e.lastTouch+ttl+eta : F) : WithTop F)
  | _ => e.expiresAt = ⊤

theorem Announced.mono {past later : List (Turn F)} {eta : F} (h : Announced past eta)
    (hsub : past ⊆ later) : Announced later eta :=
  h.imp_right fun ⟨turn,hturn,heta⟩ => ⟨turn,hsub hturn,heta⟩

theorem KeptUntil.mono {kind : PolicyKind F} {past later : List (Turn F)} {e : Entry F}
    (h : KeptUntil kind past e) (hsub : past ⊆ later) : KeptUntil kind later e := by
  cases kind with
  | continuumTtl k minS maxS =>
    obtain ⟨ttl,eta,hlow,hhigh,heta,he⟩ := h
    exact ⟨ttl,eta,hlow,hhigh,heta.mono hsub,he⟩
  | lru => exact h
  | lfu => exact h
  | fixedTtl baseS perGibS => exact h
  | adaptiveValue horizonS priors => exact h
  | oracle => exact h

theorem announced_sessionEta {probe : Probe F} {past : List (Turn F)}
    (h : ∀ sid eta, probe.toolEta.get sid = some eta → Announced past eta) (key : BlockKey) :
    Announced past (probe.sessionEta key) := by
  have hone : ∀ sid, Announced past ((probe.toolEta.get sid).getD 0) := by
    intro sid
    cases hget : probe.toolEta.get sid with
    | none => exact Or.inl rfl
    | some eta => exact h sid eta hget
  unfold Probe.sessionEta
  cases hmax : ((probe.index.liveLeases key probe.now).image fun s =>
      (probe.toolEta.get s).getD 0).max with
  | bot => exact Or.inl rfl
  | coe eta =>
    obtain ⟨sid,_,rfl⟩ := Finset.mem_image.mp (Finset.mem_of_max hmax)
    exact hone sid

/-- A use grants the lifetime of the policy. -/
theorem keptUntil_of_used {s : Simulator F} {turn : Turn F} {key : BlockKey} {e : Entry F}
    {past : List (Turn F)} (h : Used s turn key e)
    (heta : ∀ sid eta, (s.observe turn).1.toolEta.get sid = some eta → Announced past eta) :
    KeptUntil s.policy.kind past e := by
  have hexpires := h.expiresAt
  rw [← h.lastTouch] at hexpires
  unfold TierPolicy.expiry at hexpires
  cases hkind : s.policy.kind with
  | continuumTtl k minS maxS =>
    rw [hkind] at hexpires
    refine ⟨_,_,?_,min_le_left _ _,announced_sessionEta heta key,hexpires⟩
    exact min_le_min_left _ (le_max_left _ _)
  | fixedTtl baseS perGibS =>
    rw [hkind] at hexpires
    exact hexpires
  | lru =>
    rw [hkind] at hexpires
    exact hexpires
  | lfu =>
    rw [hkind] at hexpires
    exact hexpires
  | adaptiveValue horizonS priors =>
    rw [hkind] at hexpires
    exact hexpires
  | oracle =>
    rw [hkind] at hexpires
    exact hexpires

/-- The books after some turns. -/
structure InBooks (cfg : SimConfig F) (past : List (Turn F)) (s : Simulator F) : Prop where
  announced : ∀ sid eta, s.toolEta.get sid = some eta → Announced past eta
  booked : ∀ key e, s.policy.get key = some e →
    ∃ since, since <:+ accesses cfg past key ∧ Booked since e
  kept : ∀ key e, s.policy.get key = some e → KeptUntil s.policy.kind past e

theorem one_toolEta (sched : Schedule F) (s : Simulator F) (turn : Turn F) :
    (one sched s turn).toolEta = (s.observe turn).1.toolEta :=
  congrArg Probe.toolEta (one_probe sched s turn)

theorem observe_announced {s : Simulator F} {past : List (Turn F)}
    (h : ∀ sid eta, s.toolEta.get sid = some eta → Announced past eta) (turn : Turn F) :
    ∀ sid eta, (s.observe turn).1.toolEta.get sid = some eta →
      Announced (past ++ [turn]) eta := by
  intro sid eta hget
  have hold : s.toolEta.get sid = some eta → Announced (past ++ [turn]) eta :=
    fun hget => (h sid eta hget).mono (List.subset_append_left _ _)
  unfold observe at hget
  cases hturn : turn.toolEtaS with
  | none => exact hold (by simpa [hturn] using hget)
  | some now =>
    simp only [hturn,Dict.get_set] at hget
    split at hget
    · exact Or.inr ⟨turn,by simp,hturn.trans hget⟩
    · exact hold hget

theorem one_inBooks {cfg : SimConfig F} {past : List (Turn F)} {s : Simulator F}
    (h : InBooks cfg past s) (sched : Schedule F) {turn : Turn F}
    (hpath : s.path turn = pathOf cfg turn) : InBooks cfg (past ++ [turn]) (one sched s turn) := by
  have hgrown : ∀ key, accesses cfg (past ++ [turn]) key =
      accesses cfg past key ++ if key ∈ s.path turn then [turn] else [] := by
    intro key
    rw [accesses,List.filter_append,hpath]
    by_cases hkey : key ∈ pathOf cfg turn <;> simp [accesses,hkey]
  constructor
  case announced =>
    rw [one_toolEta]
    exact observe_announced h.announced turn
  case booked =>
    intro key e he
    have hentry := entry_one sched he
    rw [hgrown]
    by_cases hkey : key ∈ s.path turn
    · rw [if_pos hkey] at hentry ⊢
      rcases hentry.carried with ⟨old,hold,_,hinserted,huses⟩ | ⟨_,_,hinserted,huses⟩
      · obtain ⟨since,hsince,hbooked⟩ := h.booked key old hold
        obtain ⟨before,hbefore⟩ := hsince
        refine ⟨since ++ [turn],⟨before,by rw [← List.append_assoc,hbefore]⟩,?_,?_,?_⟩
        · rw [hinserted,← hbooked.insertedAt]
          cases since with
          | nil => simpa using hbooked.insertedAt
          | cons first since => rfl
        · simp [hentry.lastTouch]
        · rw [huses,hbooked.uses,List.length_append,List.length_singleton]
      · exact ⟨[turn],⟨_,rfl⟩,by simp [hinserted],by simp [hentry.lastTouch],huses⟩
    · rw [if_neg hkey] at hentry ⊢
      rw [List.append_nil]
      exact h.booked key e hentry
  case kept =>
    intro key e he
    rw [one_kind s turn sched]
    have hentry := entry_one sched he
    by_cases hkey : key ∈ s.path turn
    · rw [if_pos hkey] at hentry
      exact keptUntil_of_used hentry (observe_announced h.announced turn)
    · rw [if_neg hkey] at hentry
      exact (h.kept key e hentry).mono (List.subset_append_left _ _)

section Runs

variable (cfg : SimConfig F) (kind : PolicyKind F) (ram : TierConfig F) (turns : List (Turn F))

theorem after_inBooks (n : ℕ) :
    InBooks cfg ((inOrder turns).take n) ((start cfg kind ram).after turns n) := by
  induction n with
  | zero => exact ⟨fun _ _ h => (by cases h),fun _ _ h => (by cases h),fun _ _ h => (by cases h)⟩
  | succ n ih =>
    cases hturn : (inOrder turns)[n]? with
    | none =>
      rw [after_of_done _ hturn,List.take_add_one,hturn]
      simpa using ih
    | some turn =>
      rw [after_succ _ hturn,List.take_add_one,hturn]
      exact one_inBooks ih _ (after_path cfg kind ram turns n turn)

/-- Turn `m` is the last one before turn `n` that has the block on its path, and the entry is
kept until when the policy said in that turn. -/
structure Granted (n : ℕ) (key : BlockKey) (e : Entry F) (m : ℕ) (turn : Turn F) : Prop where
  before : m < n
  number : (inOrder turns)[m]? = some turn
  path : key ∈ ((start cfg kind ram).after turns m).path turn
  last : ∀ j later, m < j → j < n → (inOrder turns)[j]? = some later →
    key ∉ ((start cfg kind ram).after turns j).path later
  expiresAt : e.expiresAt = ((start cfg kind ram).after turns m).policy.expiry key e.nbytes turn.t
    (((start cfg kind ram).after turns m).observe turn).1.probe

theorem exists_granted (n : ℕ) {key : BlockKey} {e : Entry F}
    (he : ((start cfg kind ram).after turns n).policy.get key = some e) :
    ∃ m turn, Granted cfg kind ram turns n key e m turn := by
  induction n with
  | zero => cases he
  | succ n ih =>
    -- An older grant stands as long as the turn in between leaves the block alone.
    have hstands : ∀ m turn, Granted cfg kind ram turns n key e m turn →
        (∀ later, (inOrder turns)[n]? = some later →
          key ∉ ((start cfg kind ram).after turns n).path later) →
        Granted cfg kind ram turns (n+1) key e m turn := by
      intro m turn hgranted hleft
      refine ⟨hgranted.before.trans n.lt_succ_self,hgranted.number,hgranted.path,
        fun j later hm hj hlater => ?_,hgranted.expiresAt⟩
      rcases Nat.lt_succ_iff_lt_or_eq.mp hj with hj | rfl
      · exact hgranted.last j later hm hj hlater
      · exact hleft later hlater
    cases hturn : (inOrder turns)[n]? with
    | none =>
      rw [after_of_done _ hturn] at he
      obtain ⟨m,turn,hgranted⟩ := ih he
      exact ⟨m,turn,hstands m turn hgranted fun later hlater => by simp [hturn] at hlater⟩
    | some turn =>
      rw [after_succ _ hturn] at he
      have hentry := entry_one _ he
      by_cases hkey : key ∈ ((start cfg kind ram).after turns n).path turn
      · rw [if_pos hkey] at hentry
        exact ⟨n,turn,n.lt_succ_self,hturn,hkey,fun j _ hm hj => by omega,hentry.expiresAt⟩
      · rw [if_neg hkey] at hentry
        obtain ⟨m,earlier,hgranted⟩ := ih hentry
        refine ⟨m,earlier,hstands m earlier hgranted fun later hlater => ?_⟩
        rw [hturn,Option.some.injEq] at hlater
        exact hlater ▸ hkey

/-- The books of the host tier are exact: in every run an entry was inserted at an access of
its block, has been used at every access since, and is kept from the last of them for the
lifetime that its policy granted then. -/
theorem host_bookkeeping (n : ℕ) {key : BlockKey} {e : Entry F}
    (he : ((start cfg kind ram).after turns n).policy.get key = some e) :
    (∃ since, since <:+ accesses cfg ((inOrder turns).take n) key ∧ Booked since e) ∧
      ∃ m turn, Granted cfg kind ram turns n key e m turn :=
  ⟨(after_inBooks cfg kind ram turns n).booked key e he,exists_granted cfg kind ram turns n he⟩

/-- The books of a run of two sessions under lifetimes by cost, with an announced absence. -/
theorem host_bookkeeping_small :
    let turns := [{ ask 1 "a" 900 with toolEtaS := some 30 },ask 2 "b" 900,ask 3 "a" 900,
      ask 4 "b" 900]
    let s := (start (smallConfig 1000 2000) (.continuumTtl 3 5 900) (smallRam 2000)).after turns 4
    ∃ e, s.policy.get (.priv "a" 0) = some e ∧
      (∃ since, since <:+ accesses (smallConfig 1000 2000) ((inOrder turns).take 4) (.priv "a" 0) ∧
        Booked since e) ∧
      ∃ m turn, Granted (smallConfig 1000 2000) (.continuumTtl 3 5 900) (smallRam 2000) turns 4
        (.priv "a" 0) e m turn := by
  intro turns s
  have hheld : (s.policy.get (.priv "a" 0)).isSome = true := by decide +kernel
  obtain ⟨e,he⟩ := Option.isSome_iff_exists.mp hheld
  exact ⟨e,he,host_bookkeeping (smallConfig 1000 2000) (.continuumTtl 3 5 900) (smallRam 2000)
    turns 4 he⟩

/-- Seconds that a policy keeps a block after a use, whatever its size. -/
def grace : PolicyKind F → WithTop F
  | .fixedTtl baseS _ => baseS
  | .continuumTtl _ minS maxS => ((min maxS minS : F) : WithTop F)
  | _ => ⊤

/-- The lifetime does not shrink with the size of the block. -/
def SizedUp : PolicyKind F → Prop
  | .fixedTtl _ perGibS => 0 ≤ perGibS
  | _ => True

theorem grace_le_expiresAt {kind : PolicyKind F} {past : List (Turn F)} {e : Entry F}
    (h : KeptUntil kind past e) (hkind : SizedUp kind) (hsize : 0 ≤ e.nbytes)
    (heta : ∀ turn ∈ past, ∀ eta, turn.toolEtaS = some eta → 0 ≤ eta) :
    (e.lastTouch : WithTop F)+grace kind ≤ e.expiresAt := by
  cases kind with
  | fixedTtl baseS perGibS =>
    have hbytes : (0 : F) ≤ e.nbytes := by exact_mod_cast hsize
    have hmore : 0 ≤ perGibS*(e.nbytes/1024^3) := mul_nonneg hkind (by positivity)
    rw [h]
    show ((e.lastTouch+baseS : F) : WithTop F) ≤ _
    exact WithTop.coe_le_coe.mpr (by linarith)
  | continuumTtl k minS maxS =>
    obtain ⟨ttl,eta,hlow,_,hannounced,hexpires⟩ := h
    have hnonneg : 0 ≤ eta := by
      rcases hannounced with rfl | ⟨turn,hturn,hsome⟩
      · exact le_rfl
      · exact heta turn hturn eta hsome
    rw [hexpires]
    show ((e.lastTouch+min maxS minS : F) : WithTop F) ≤ _
    exact WithTop.coe_le_coe.mpr (by linarith)
  | lru => exact h ▸ le_top
  | lfu => exact h ▸ le_top
  | adaptiveValue horizonS priors => exact h ▸ le_top
  | oracle => exact h ▸ le_top

/-- A block used within the grace of the policy is not swept: in every run it is still in the
host tier after the turn, or the eviction of the turn took it for space and its departure is
on record. Policies without lifetimes keep every block so. -/
theorem stays_in_grace (n : ℕ) {turn : Turn F} (hturn : (inOrder turns)[n]? = some turn)
    (hkind : SizedUp kind) (hkv : 0 ≤ cfg.cost.kvBytesPerToken)
    (heta : ∀ turn ∈ turns, ∀ eta, turn.toolEtaS = some eta → 0 ≤ eta) {key : BlockKey}
    {e : Entry F} (he : ((start cfg kind ram).after turns n).policy.get key = some e)
    (hgrace : (turn.t : WithTop F) < e.lastTouch+grace kind) :
    key ∈ ((start cfg kind ram).after turns (n+1)).policy.entries ∨
      key ∈ ((start cfg kind ram).after turns n).evictedKeys turn ∧
        ((start cfg kind ram).after turns (n+1)).leftHostAt.get key = some turn.t := by
  have hbooks := after_inBooks cfg kind ram turns n
  have hkept := hbooks.kept key e he
  rw [after_kind] at hkept
  have hcost : ((start cfg kind ram).after turns n).index.cost = cfg.cost :=
    List.foldlRecOn (motive := fun s : Simulator F => s.index.cost = cfg.cost) _ _ rfl
      fun s h turn _ => by rw [one_index,seenIndex_cost,h]
  have hsize : 0 ≤ e.nbytes := by
    refine ((after_weighed cfg kind ram turns n).nonneg (hcost ▸ hkv) (key,e.nbytes) ?_).1
    exact List.mem_map.mpr ⟨(key,e),Dict.get_eq_some.mp he,rfl⟩
  have hpast : ∀ turn ∈ (inOrder turns).take n, ∀ eta, turn.toolEtaS = some eta → 0 ≤ eta :=
    fun turn hturn => heta turn ((sortedBy_perm _ turns).mem_iff.mp (List.mem_of_mem_take hturn))
  have hlong := hgrace.trans_le (grace_le_expiresAt hkept hkind hsize hpast)
  rw [after_succ _ hturn]
  rcases mem_one_of_mem ((start cfg kind ram).schedule turns) turn he with
    hheld | ⟨_,hexpired⟩ | hevicted
  · exact Or.inl hheld
  · exact absurd hexpired (not_le.mpr hlong)
  · refine Or.inr ⟨hevicted,?_⟩
    rw [one_leftHostAt,Dict.get_foldl_set,if_pos hevicted]

/-- Two seconds after its use the block of the first session is evicted for the third. -/
theorem stays_in_grace_small :
    let turns := [ask 1 "a" 900,ask 2 "b" 900,ask 3 "c" 900]
    let s := start (smallConfig 1000 2000) (.fixedTtl 180 60) (smallRam 2000)
    (.priv "a" 0) ∈ (s.after turns 3).policy.entries ∨
      (.priv "a" 0) ∈ (s.after turns 2).evictedKeys (ask 3 "c" 900) ∧
        (s.after turns 3).leftHostAt.get (.priv "a" 0) = some 3 := by
  intro turns s
  have hturn : (inOrder turns)[2]? = some (ask 3 "c" 900) := rfl
  have hused : ((s.after turns 2).policy.get (.priv "a" 0)).map (·.lastTouch) = some 1 := by
    decide +kernel
  obtain ⟨e,he,hlast⟩ := Option.map_eq_some_iff.mp hused
  have hgrace : ((3 : ℚ) : WithTop ℚ) <
      ((e.lastTouch : ℚ) : WithTop ℚ)+grace (.fixedTtl (180 : ℚ) 60) := by
    rw [hlast]
    exact WithTop.coe_lt_coe.mpr (by norm_num : (3 : ℚ) < 1+180)
  have hrate : SizedUp (.fixedTtl (180 : ℚ) 60) := by
    show (0 : ℚ) ≤ 60
    norm_num
  have hnone : ∀ turn ∈ turns, turn.toolEtaS = none := by decide +kernel
  refine stays_in_grace (smallConfig 1000 2000) (.fixedTtl 180 60) (smallRam 2000) turns 2 hturn
    hrate (by decide +kernel) (fun turn hmem eta heta => ?_) he hgrace
  rw [hnone turn hmem] at heta
  cases heta

end Runs

end Simulator
end ContextResidency
