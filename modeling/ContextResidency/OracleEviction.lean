import ContextResidency.Oracle
import ContextResidency.StoreStep
import ContextResidency.GreedyEviction

/-! What the oracle evicts. Between turns every entry carries its next access, as the schedule
has it. While a turn is served the entries on its own path still carry the time of that turn:
they are noted again only after the eviction, and until then they count as the nearest. -/
namespace ContextResidency

variable {F : Type} [Scalar F]

namespace Simulator

section Schedule

variable (cfg : SimConfig F) (ram : TierConfig F) (turns : List (Turn F))

/-- The times of the turns that find a block on the path they register. -/
def accessTimes (key : BlockKey) : List F :=
  ((inOrder turns).zipIdx.filter fun p =>
    key ∈ (((start cfg .oracle ram).after turns p.2).observe p.1).2).map (·.1.t)

theorem accessTimes_eq (key : BlockKey) : accessTimes cfg ram turns key =
    ((inOrder turns).filter fun turn => key ∈ pathOf cfg turn).map (·.t) := by
  have hpath : ∀ (m : ℕ) (turn : Turn F),
      (((start cfg .oracle ram).after turns m).observe turn).2 = pathOf cfg turn :=
    fun m turn => after_path cfg .oracle ram turns m turn
  have hfirst : ((inOrder turns).zipIdx.filter fun p => key ∈ pathOf cfg p.1).map Prod.fst =
      (inOrder turns).filter fun turn => key ∈ pathOf cfg turn := by
    conv_rhs => rw [← List.zipIdx_map_fst 0 (inOrder turns),List.filter_map]
    rfl
  simp only [accessTimes,hpath]
  rw [← hfirst,List.map_map]
  rfl

omit [Scalar F] in
theorem grouped_parts (parts : List ChainPart) (now : F) {sched : Schedule F}
    (h : sched.Grouped) :
    (parts.foldl (fun sched part => sched.push part.key now) sched).Grouped :=
  List.foldlRecOn (motive := Dict.Grouped) _ _ h fun _ h part _ => h.push part.key now

theorem futureAccesses_grouped : (futureAccesses cfg turns).Grouped := by
  have hlists : ((inOrder turns).foldl (fun sched turn =>
      ((PrefixIndex.new cfg.blockTokens cfg.cost).chain turn.sessionId turn.promptTokens
        turn.sharedPrefixTokens s!"root:{turn.role}").foldl (fun sched part =>
          sched.push part.key turn.t) sched) (Dict.empty : Schedule F)).Grouped :=
    List.foldlRecOn (motive := Dict.Grouped) _ _ Dict.grouped_empty
      fun _ h turn _ => grouped_parts _ turn.t h
  intro key times h
  rw [futureAccesses,Dict.get_mapValues] at h
  obtain ⟨noted,hnoted,rfl⟩ := Option.map_eq_some_iff.mp h
  intro hnil
  have hlength := (sortedBy_perm id noted).length_eq
  rw [hnil,List.length_nil,eq_comm,List.length_eq_zero_iff] at hlength
  exact hlists key noted hnoted hlength

theorem futureAccesses_get_eq (key : BlockKey) : (futureAccesses cfg turns).get key =
    if accessTimes cfg ram turns key = [] then none else some (accessTimes cfg ram turns key) := by
  rw [(futureAccesses_grouped cfg turns).get_eq key,futureAccesses_get,accessTimes_eq]

def firstAfter (now : F) (times : List F) : WithTop F :=
  match times.find? (now < ·) with
  | none => ⊤
  | some t => t

/-- The schedule is the list of accesses, and after every turn each entry carries the first of
its accesses that is still to come. -/
theorem oracle_bookkeeping (htimes : (inOrder turns).Pairwise fun a b => a.t < b.t) :
    (∀ key, (futureAccesses cfg turns).get key = if accessTimes cfg ram turns key = [] then none
      else some (accessTimes cfg ram turns key)) ∧
    ∀ (n : ℕ) (turn : Turn F), (inOrder turns)[n]? = some turn → ∀ key e,
      ((start cfg .oracle ram).after turns (n+1)).policy.get key = some e →
      e.nextUse = firstAfter turn.t (accessTimes cfg ram turns key) := by
  refine ⟨futureAccesses_get_eq cfg ram turns,fun n turn hturn key e he => ?_⟩
  have hsplit : inOrder turns = (inOrder turns).take n ++ turn::(inOrder turns).drop (n+1) := by
    rw [← rest_of_turn hturn,List.take_append_drop]
  have hnext : (futureAccesses cfg turns).next key turn.t =
      upcoming cfg ((inOrder turns).drop (n+1)) key := next_eq_upcoming htimes hsplit
  rw [after_foreseen cfg ram turns htimes (n+1) key e he,← hnext,Schedule.next,futureAccesses_get,
    accessTimes_eq]
  rfl

end Schedule

theorem oracle_bookkeeping_alternating :
    (∀ key, (futureAccesses (smallConfig 1000 1000) alternating).get key =
      if accessTimes (smallConfig 1000 1000) (smallRam 1000) alternating key = [] then none
      else some (accessTimes (smallConfig 1000 1000) (smallRam 1000) alternating key)) ∧
    ∀ (n : ℕ) (turn : Turn ℚ), (inOrder alternating)[n]? = some turn →
      ∀ key e, ((start (smallConfig 1000 1000) .oracle (smallRam 1000)).after alternating
          (n+1)).policy.get key = some e →
        e.nextUse = firstAfter turn.t
          (accessTimes (smallConfig 1000 1000) (smallRam 1000) alternating key) :=
  oracle_bookkeeping (smallConfig 1000 1000) (smallRam 1000) alternating (by decide +kernel)

/-- No survivor of an eviction is accessed later than a victim. -/
def EvictsFarthest (nextAccess : BlockKey → WithTop F)
    (result : Option (List BlockKey) × TierPolicy F) : Prop :=
  ∀ v ∈ result.1.getD [], ∀ p ∈ result.2.entries, nextAccess p ≤ nextAccess v

/-- Where enough is ranked ahead of a resident block of the path, enough is ranked ahead of every
resident block that is accessed before it. -/
def PathSpared (nextAccess : BlockKey → WithTop F) (path : List BlockKey)
    (order : List (BlockKey × Entry F)) (entries : Entries F) (needed : ℤ) : Prop :=
  ∀ p ∈ entries, p ∈ path → ∀ v ∈ entries, nextAccess v < nextAccess p →
    needed ≤ ahead Prod.fst (·.2.nbytes) order p → needed ≤ ahead Prod.fst (·.2.nbytes) order v

theorem oracle_swept {s : Simulator F} (hkind : s.policy.kind = .oracle) (now : F) :
    s.policy.swept now = s.policy.entries :=
  TierPolicy.swept_eq_entries (by rw [hkind]; rfl) now

section Evict

variable {s : Simulator F} {keys : List BlockKey} {fresh : List (BlockKey × ℤ)} {needed : ℤ}
  (hask : s.evictRequest keys = some (fresh,needed))
include hask

theorem evictRequest_needed : fresh = s.policy.admitChain (s.missing keys) s.probe ∧
    needed = s.needed keys ∧ 0 < needed := by
  rw [evictRequest_eq] at hask
  split_ifs at hask with hneeded
  rw [Option.some.injEq,Prod.mk.injEq] at hask
  exact ⟨hask.1.symm,hask.2.symm,hask.2 ▸ hneeded.2⟩

/-- Nothing is swept and nothing resident is protected, so the oracle ranks every entry. -/
theorem oracle_order_perm (hkind : s.policy.kind = .oracle) (now : F) :
    (s.policy.order (fresh.map Prod.fst).toFinset now s.probe).Perm s.policy.entries.items := by
  rw [(evictRequest_needed hask).1,← oracle_swept hkind now]
  exact order_perm_swept keys now

theorem oracle_mem_victims_iff (h : Weighed s.index s.policy.entries)
    (hkind : s.policy.kind = .oracle) (now : F) {key : BlockKey} (hkey : key ∈ s.policy.entries) :
    key ∈ s.policy.victims (fresh.map Prod.fst).toFinset now s.probe needed ↔
      ahead Prod.fst (·.2.nbytes) (s.policy.order (fresh.map Prod.fst).toFinset now s.probe) key <
        needed := by
  obtain ⟨_,hneeded,hpos⟩ := evictRequest_needed hask
  have hperm := oracle_order_perm hask hkind now
  have hkv := kv_nonneg_of_needed h (hneeded ▸ hpos)
  have hlisted : key ∈ (s.policy.order (fresh.map Prod.fst).toFinset now s.probe).map Prod.fst :=
    ((hperm.map Prod.fst).mem_iff).mpr (Dict.mem_def.mp hkey)
  have hsign : ∀ p ∈ s.policy.order (fresh.map Prod.fst).toFinset now s.probe, 0 ≤ p.2.nbytes :=
    fun p hp => (h.nonneg hkv (p.1,p.2.nbytes)
      (List.mem_map.mpr ⟨p,hperm.mem_iff.mp hp,rfl⟩)).1
  rw [TierPolicy.victims,mem_takeUntil_iff hpos hlisted (Or.inl hsign),zero_add]

theorem oracle_survives_iff (h : Weighed s.index s.policy.entries)
    (hkind : s.policy.kind = .oracle) (now : F) (key : BlockKey) :
    key ∈ (s.policy.evict needed (fresh.map Prod.fst).toFinset now s.probe).2.entries ↔
      key ∈ s.policy.entries ∧ needed ≤ ahead Prod.fst (·.2.nbytes)
        (s.policy.order (fresh.map Prod.fst).toFinset now s.probe) key := by
  obtain ⟨_,_,hpos⟩ := evictRequest_needed hask
  have hentries := s.policy.evict_entries (fresh.map Prod.fst).toFinset now s.probe hpos
  rw [hentries,oracle_swept hkind,Dict.mem_eraseAll]
  refine and_congr_right fun hkey => ?_
  rw [oracle_mem_victims_iff hask h hkind now hkey,not_lt]

end Evict

section Ranked

variable {s : Simulator F} {keys : List BlockKey} {protectedKeys : Finset BlockKey} {now : F}
  {nextAccess : BlockKey → WithTop F}

/-- Off the path an entry carries its next access, on it the time of the turn. -/
def Noted (entries : Entries F) (path : List BlockKey) (now : F)
    (nextAccess : BlockKey → WithTop F) : Prop :=
  ∀ p ∈ entries.items, p.2.nextUse = if p.1 ∈ path then (now : WithTop F) else nextAccess p.1

/-- Less is ranked ahead of a block off the path than ahead of any block accessed before it. -/
theorem oracle_ahead_le (hkind : s.policy.kind = .oracle)
    (hperm : (s.policy.order protectedKeys now s.probe).Perm s.policy.entries.items)
    (hnoted : Noted s.policy.entries keys now nextAccess)
    (hlater : ∀ key, (now : WithTop F) < nextAccess key) {p v : BlockKey}
    (hp : p ∈ s.policy.entries) (hv : v ∈ s.policy.entries) (hpath : p ∉ keys)
    (hlt : nextAccess v < nextAccess p) :
    ahead Prod.fst (·.2.nbytes) (s.policy.order protectedKeys now s.probe) p ≤
      ahead Prod.fst (·.2.nbytes) (s.policy.order protectedKeys now s.probe) v := by
  obtain ⟨e,he⟩ := Dict.mem_iff_exists.mp hp
  obtain ⟨e',he'⟩ := Dict.mem_iff_exists.mp hv
  have hfar : e.nextUse = nextAccess p := (hnoted _ he).trans (if_neg hpath)
  have hnear : e'.nextUse < nextAccess p := by
    rw [hnoted _ he']
    split_ifs
    · exact hlater p
    · exact hlt
  have hn : ((s.policy.order protectedKeys now s.probe).map Prod.fst).Nodup :=
    (hperm.map Prod.fst).nodup_iff.mpr s.policy.entries.nodup
  have hranked : (s.policy.order protectedKeys now s.probe).Pairwise
      fun x y => y.2.nextUse ≤ x.2.nextUse := by
    rw [TierPolicy.order,hkind]
    have hsorted := sortedBy_pairwise
      (fun p : BlockKey × Entry F => toLex (OrderDual.toDual p.2.nextUse,p.2.lastTouch))
      (s.policy.candidates protectedKeys now)
    exact hsorted.imp fun {x y} hxy => OrderDual.toDual_le_toDual.mp (Prod.Lex.monotone_fst _ _ hxy)
  refine ahead_le_of_pairwise (x := (v,e')) (y := (p,e)) (·.2.nbytes) hn hranked
    (hperm.mem_iff.mpr he') (hperm.mem_iff.mpr he) fun hfirst => ?_
  exact absurd (hnear.trans_le hfar.ge) (not_lt.mpr hfirst)

end Ranked

theorem filled_noted {cfg : SimConfig F} {ram : TierConfig F} {turns : List (Turn F)}
    (htimes : (inOrder turns).Pairwise fun a b => a.t < b.t) {n : ℕ} {turn : Turn F}
    (hturn : (inOrder turns)[n]? = some turn) :
    Noted (((start cfg .oracle ram).after turns n).filled turn).policy.entries
      (((start cfg .oracle ram).after turns n).path turn) turn.t
      (upcoming cfg ((inOrder turns).drop (n+1))) := by
  intro p hp
  rw [filled_policy] at hp
  rw [after_foreseen cfg ram turns htimes n p.1 p.2 (Dict.get_eq_some.mpr hp),rest_of_turn hturn,
    upcoming_cons,after_path]

/-- At every eviction of an oracle run, no survivor is accessed later than a victim exactly when
the blocks of the turn's own path are not spared for others that are accessed before them. -/
theorem evictsFarthest_iff (cfg : SimConfig F) (ram : TierConfig F) (turns : List (Turn F))
    (htimes : (inOrder turns).Pairwise fun a b => a.t < b.t) {n : ℕ} {turn : Turn F}
    (hturn : (inOrder turns)[n]? = some turn) {fresh : List (BlockKey × ℤ)} {needed : ℤ}
    (hask : (((start cfg .oracle ram).after turns n).filled turn).evictRequest
      (((start cfg .oracle ram).after turns n).path turn) = some (fresh,needed)) :
    let s := ((start cfg .oracle ram).after turns n).filled turn
    EvictsFarthest (upcoming cfg ((inOrder turns).drop (n+1)))
        (s.policy.evict needed (fresh.map Prod.fst).toFinset turn.t s.probe) ↔
      PathSpared (upcoming cfg ((inOrder turns).drop (n+1)))
        (((start cfg .oracle ram).after turns n).path turn)
        (s.policy.order (fresh.map Prod.fst).toFinset turn.t s.probe) s.policy.entries needed := by
  intro s
  have hweighed : Weighed s.index s.policy.entries :=
    filled_weighed (after_weighed cfg .oracle ram turns n) turn
  have hkind : s.policy.kind = .oracle := by
    rw [filled_policy]
    exact after_kind cfg .oracle ram turns n
  have hpos := (evictRequest_needed hask).2.2
  have hperm := oracle_order_perm hask hkind turn.t
  have hkeys := s.policy.evict_keys (fresh.map Prod.fst).toFinset turn.t s.probe hpos
  have hvictim : ∀ key ∈ s.policy.entries,
      (key ∈ s.policy.victims (fresh.map Prod.fst).toFinset turn.t s.probe needed ↔
        ahead Prod.fst (·.2.nbytes)
          (s.policy.order (fresh.map Prod.fst).toFinset turn.t s.probe) key < needed) :=
    fun key hkey => oracle_mem_victims_iff hask hweighed hkind turn.t hkey
  have hsurvives := oracle_survives_iff hask hweighed hkind turn.t
  have hresident : ∀ key ∈ s.policy.victims (fresh.map Prod.fst).toFinset turn.t s.probe needed,
      key ∈ s.policy.entries := by
    intro key hkey
    obtain ⟨p,hp,rfl⟩ := List.mem_map.mp hkey
    exact Dict.mem_of_item (hperm.mem_iff.mp ((takeUntil_initial _ _ _ _).subset hp))
  rw [EvictsFarthest,hkeys]
  constructor
  · intro hfarthest p hp _ v hv hlt henough
    by_contra hgoes
    have hvmem := (hvictim v hv).mpr (not_le.mp hgoes)
    exact absurd (hfarthest v hvmem p ((hsurvives p).mpr ⟨hp,henough⟩)) (not_le.mpr hlt)
  · intro hspared v hvmem p hpkept
    have hv := hresident v hvmem
    have hgoes := (hvictim v hv).mp hvmem
    obtain ⟨hp,henough⟩ := (hsurvives p).mp hpkept
    by_contra hlt
    by_cases hpath : p ∈ ((start cfg .oracle ram).after turns n).path turn
    · exact absurd (hspared p hp hpath v hv (not_le.mp hlt) henough) (not_le.mpr hgoes)
    · have hahead := oracle_ahead_le hkind hperm (filled_noted htimes hturn)
        (lt_upcoming (later_of_turn htimes hturn)) hp hv hpath (not_le.mp hlt)
      exact absurd (henough.trans hahead) (not_le.mpr hgoes)

/-- Two sessions in turn, the first of which grows. -/
def growing : List (Turn ℚ) := [ask 0 "a" 1000,ask 1 "b" 1000,ask 2 "a" 2000,ask 3 "b" 1000]

theorem evictsFarthest_iff_growing :
    let s := ((start (smallConfig 1000 1000) .oracle (smallRam 2000)).after growing 2).filled
      (ask 2 "a" 2000)
    EvictsFarthest (upcoming (smallConfig 1000 1000) ((inOrder growing).drop 3))
        (s.policy.evict 1000 [.priv "a" 1].toFinset 2 s.probe) ↔
      PathSpared (upcoming (smallConfig 1000 1000) ((inOrder growing).drop 3))
        (((start (smallConfig 1000 1000) .oracle (smallRam 2000)).after growing 2).path
          (ask 2 "a" 2000))
        (s.policy.order [.priv "a" 1].toFinset 2 s.probe) s.policy.entries 1000 := by
  have htimes : (inOrder growing).Pairwise fun a b => a.t < b.t := by decide +kernel
  exact @evictsFarthest_iff ℚ _ (smallConfig 1000 1000) (smallRam 2000) growing htimes 2
    (ask 2 "a" 2000) rfl [(.priv "a" 1,1000)] 1000 (by decide +kernel)

/-- When the first session grows, the other one's block goes, which is accessed again; its own
first block stays, which is not. -/
theorem oracle_spares_path : ¬ ∀ (cfg : SimConfig ℚ) (ram : TierConfig ℚ) (turns : List (Turn ℚ)),
    cfg.tier "ram" = some ram → ((inOrder turns).Pairwise fun a b => a.t < b.t) →
    ∀ (n : ℕ) (turn : Turn ℚ), (inOrder turns)[n]? = some turn →
    ∀ (fresh : List (BlockKey × ℤ)) (needed : ℤ),
    (((start cfg .oracle ram).after turns n).filled turn).evictRequest
      (((start cfg .oracle ram).after turns n).path turn) = some (fresh,needed) →
    EvictsFarthest (upcoming cfg ((inOrder turns).drop (n+1)))
      ((((start cfg .oracle ram).after turns n).filled turn).policy.evict needed
        (fresh.map Prod.fst).toFinset turn.t
        (((start cfg .oracle ram).after turns n).filled turn).probe) := by
  intro h
  have hfarthest := h (smallConfig 1000 2000) (smallRam 2000) growing rfl (by decide +kernel) 2
    (ask 2 "a" 2000) rfl [(.priv "a" 1,1000)] 1000 (by decide +kernel)
  have hnear : ¬ upcoming (smallConfig 1000 2000) ((inOrder growing).drop 3) (.priv "a" 0) ≤
      upcoming (smallConfig 1000 2000) ((inOrder growing).drop 3) (.priv "b" 0) := by decide +kernel
  unfold EvictsFarthest at hfarthest
  exact hnear (hfarthest (.priv "b" 0) (by decide +kernel) (.priv "a" 0) (by decide +kernel))

end Simulator
end ContextResidency
