import ContextResidency.Residency
import ContextResidency.HbmFootprint

/-! Departures from HBM. The replay counts the blocks that HBM drops and notes when each was
dropped last. Over a run the count balances what was filled in against what is still there,
and the notes are exact: a block restored from the host left HBM at the time noted. -/
namespace ContextResidency

namespace HBMTier

theorem store_balance {hbm : HBMTier} (h : hbm.Counted) (items : List (BlockKey × ℤ))
    (protectedKeys : Finset BlockKey) (hn : (items.map Prod.fst).Nodup) :
    (hbm.store items protectedKeys).2.length +
        (hbm.store items protectedKeys).1.blocks.items.length =
      hbm.blocks.items.length+((items.map Prod.fst).filter (· ∉ hbm.blocks)).length := by
  have horderly : Orderly hbm.capacityBytes hbm.blocks.keys hbm := ⟨rfl,h,.refl _⟩
  have hstored := horderly.stored items protectedKeys
  have hdropped : (hbm.store items protectedKeys).2.Nodup :=
    (store_spec h items protectedKeys).1.sublist.nodup ((Dict.keys_nodup _).filter _)
  have hkept : ∀ blocks : Dict BlockKey ℤ, blocks.items.length = blocks.keys.toFinset.card := by
    intro blocks
    rw [List.toFinset_card_of_nodup blocks.keys_nodup,Dict.keys,List.length_map]
  have hparts : (hbm.store items protectedKeys).2.toFinset ∪
      (hbm.store items protectedKeys).1.blocks.keys.toFinset =
        hbm.blocks.keys.toFinset ∪ ((items.map Prod.fst).filter (· ∉ hbm.blocks)).toFinset := by
    ext key
    have hmem := @mem_store items protectedKeys hbm key
    simp only [Finset.mem_union,List.mem_toFinset,← Dict.mem_def,List.mem_filter,hstored.exact key,
      decide_eq_true_eq]
    tauto
  have hapart : Disjoint (hbm.store items protectedKeys).2.toFinset
      (hbm.store items protectedKeys).1.blocks.keys.toFinset := by
    refine Finset.disjoint_left.mpr fun key hkey hheld => ?_
    rw [List.mem_toFinset] at hkey hheld
    exact ((hstored.exact key).mp hkey).2 (Dict.mem_def.mpr hheld)
  have hnew : Disjoint hbm.blocks.keys.toFinset
      ((items.map Prod.fst).filter (· ∉ hbm.blocks)).toFinset := by
    refine Finset.disjoint_left.mpr fun key hheld hkey => ?_
    rw [List.mem_toFinset] at hheld hkey
    have hout := (List.mem_filter.mp hkey).2
    simp only [decide_eq_true_eq] at hout
    exact hout (Dict.mem_def.mpr hheld)
  rw [hkept,hkept,← List.toFinset_card_of_nodup hdropped,
    ← List.toFinset_card_of_nodup (hn.filter _),← Finset.card_union_of_disjoint hapart,← Finset.card_union_of_disjoint hnew,hparts]

end HBMTier

variable {F : Type} [Scalar F]

namespace Simulator

open HBMTier

def fills (s : Simulator F) (turn : Turn F) : List BlockKey :=
  (s.path turn).filter (· ∉ s.hbm.blocks)

/-- The serviceable blocks of the path of a turn that HBM does not hold. -/
def restored (s : Simulator F) (turn : Turn F) : List BlockKey :=
  ((s.path turn).take (s.found turn).cut).filter (· ∉ s.hbm.blocks)

def Departs (sched : Schedule F) (key : BlockKey) (visit : Simulator F × Turn F) : Prop :=
  key ∈ visit.1.hbm.blocks ∧ key ∉ (one sched visit.1 visit.2).hbm.blocks

instance (sched : Schedule F) (key : BlockKey) : DecidablePred (Departs sched key) :=
  fun _ => inferInstanceAs (Decidable (_ ∧ _))

/-- The time of the last visit after which a block was no longer in HBM. -/
def lastDeparture (sched : Schedule F) (key : BlockKey) (past : List (Simulator F × Turn F)) :
    Option F :=
  ((past.filter (Departs sched key)).getLast?).map fun visit => visit.2.t

/-- The turns that a run has served, with the states they met. -/
def visited (s : Simulator F) (turns : List (Turn F)) (n : ℕ) : List (Simulator F × Turn F) :=
  visits (one (s.schedule turns)) s ((inOrder turns).take n)

section Step

variable (sched : Schedule F) {s : Simulator F} (turn : Turn F)

theorem one_leftHbmAt : (one sched s turn).leftHbmAt =
    (s.hbm.store ((s.path turn).map fun k => (k,(s.seenIndex turn).nbytesOf k))
      (s.path turn).toFinset).2.foldl (fun d k => d.set k turn.t) s.leftHbmAt := by
  obtain ⟨_,_,_,h⟩ := settled_frame s turn sched
  rw [one,h,fillHbm_eq]
  rfl

theorem path_fst : ((s.path turn).map fun k => (k,(s.seenIndex turn).nbytesOf k)).map Prod.fst =
    s.path turn := pathBytes_keys

theorem mem_dropped (h : s.hbm.Counted) (key : BlockKey) :
    key ∈ (s.hbm.store ((s.path turn).map fun k => (k,(s.seenIndex turn).nbytesOf k))
      (s.path turn).toFinset).2 ↔ Departs sched key (s,turn) := by
  have horderly : Orderly s.hbm.capacityBytes s.hbm.blocks.keys s.hbm := ⟨rfl,h,.refl _⟩
  have hstored := horderly.stored ((s.path turn).map fun k => (k,(s.seenIndex turn).nbytesOf k))
    (s.path turn).toFinset
  have hexact := hstored.exact key
  have hfree := hstored.unprotected key
  rw [path_fst] at hexact
  rw [List.mem_toFinset] at hfree
  unfold Departs
  rw [one_hbm]
  tauto

theorem one_leftHbmAt_get (h : s.hbm.Counted) (key : BlockKey) :
    (one sched s turn).leftHbmAt.get key =
      if Departs sched key (s,turn) then some turn.t else s.leftHbmAt.get key := by
  rw [one_leftHbmAt,Dict.get_foldl_set]
  simp only [mem_dropped sched turn h]

theorem mem_hbm_or_departs {key : BlockKey} (h : key ∈ s.hbm.blocks ∨ key ∈ s.path turn)
    (hc : s.hbm.Counted) :
    key ∈ (one sched s turn).hbm.blocks ∨ Departs sched key (s,turn) := by
  have horderly : Orderly s.hbm.capacityBytes s.hbm.blocks.keys s.hbm := ⟨rfl,hc,.refl _⟩
  have hexact := (horderly.stored ((s.path turn).map fun k => (k,(s.seenIndex turn).nbytesOf k))
    (s.path turn).toFinset).exact key
  rw [path_fst,← one_hbm s turn sched] at hexact
  by_cases hheld : key ∈ (one sched s turn).hbm.blocks
  · exact Or.inl hheld
  · exact Or.inr ((mem_dropped sched turn hc key).mp (hexact.mpr ⟨h,hheld⟩))

end Step

structure Departed (sched : Schedule F) (past : List (Simulator F × Turn F)) (s : Simulator F) :
    Prop where
  counted : s.hbm.Counted
  registered : s.Registered
  recorded : ∀ key, s.leftHbmAt.get key = lastDeparture sched key past
  accounted : ∀ key ∈ s.index.blocks, key ∈ s.hbm.blocks ∨ ∃ visit ∈ past, Departs sched key visit
  balance : s.demotions+s.hbm.blocks.items.length =
    (past.map fun visit => (visit.1.fills visit.2).length).sum

theorem start_departed (sched : Schedule F) (cfg : SimConfig F) (kind : PolicyKind F)
    (ram : TierConfig F) : Departed sched [] (start cfg kind ram) where
  counted := rfl
  registered := start_registered cfg kind ram
  recorded := fun _ => rfl
  accounted := fun key hkey => absurd hkey (by simp [start,new,PrefixIndex.new])
  balance := rfl

theorem one_departed (sched : Schedule F) (past : List (Simulator F × Turn F)) (s : Simulator F)
    (turn : Turn F) (h : Departed sched past s) :
    Departed sched (past ++ [(s,turn)]) (one sched s turn) := by
  constructor
  case counted =>
    rw [one_hbm]
    exact store_counted h.counted _ _
  case registered => exact one_registered sched h.registered turn
  case recorded =>
    intro key
    rw [one_leftHbmAt_get sched turn h.counted,h.recorded,lastDeparture,lastDeparture,
      List.filter_append]
    by_cases hkey : Departs sched key (s,turn) <;> simp [hkey]
  case accounted =>
    intro key hkey
    rw [one_index,mem_seenIndex] at hkey
    have hlater : ∀ {visit}, visit ∈ past → visit ∈ past ++ [(s,turn)] :=
      fun hvisit => List.mem_append_left _ hvisit
    have hstep : key ∈ s.hbm.blocks ∨ key ∈ s.path turn →
        key ∈ (one sched s turn).hbm.blocks ∨ ∃ visit ∈ past ++ [(s,turn)],
          Departs sched key visit := by
      intro hheld
      refine (mem_hbm_or_departs sched turn hheld h.counted).imp_right fun hgone => ?_
      exact ⟨(s,turn),by simp,hgone⟩
    rcases hkey with hpath | hold
    · exact hstep (Or.inr hpath)
    · rcases h.accounted key hold with hheld | ⟨visit,hvisit,hgone⟩
      · exact hstep (Or.inl hheld)
      · exact Or.inr ⟨visit,hlater hvisit,hgone⟩
  case balance =>
    have hstep := store_balance h.counted ((s.path turn).map fun k =>
      (k,(s.seenIndex turn).nbytesOf k)) (s.path turn).toFinset
        (by rw [path_fst]; exact path_nodup s turn)
    have hbefore := h.balance
    rw [path_fst] at hstep
    rw [one_demotions,one_hbm,List.map_append,List.sum_append,List.map_singleton,List.sum_singleton]
    change _ = _+((s.path turn).filter (· ∉ s.hbm.blocks)).length
    omega

section Runs

variable (cfg : SimConfig F) (kind : PolicyKind F) (ram : TierConfig F) (turns : List (Turn F))
  (n : ℕ)

theorem after_departed : Departed ((start cfg kind ram).schedule turns)
    ((start cfg kind ram).visited turns n) ((start cfg kind ram).after turns n) :=
  run_history (one_departed _) (start_departed _ cfg kind ram) _

/-- Blocks enter HBM by being filled in and leave it by being dropped: in every run the drops
counted and the blocks still there add up to the blocks filled in. -/
theorem demotions_add_resident :
    ((start cfg kind ram).after turns n).demotions+
        ((start cfg kind ram).after turns n).hbm.blocks.items.length =
      (((start cfg kind ram).visited turns n).map fun visit =>
        (visit.1.fills visit.2).length).sum :=
  (after_departed cfg kind ram turns n).balance

end Runs

section Scanning

/-- A block that left HBM moments ago, as the scan asks for it. -/
def Recent (s : Simulator F) (key : BlockKey) : Prop :=
  0 ≤ s.now-(s.leftHbmAt.get key).getD (-10^18) ∧
    s.now-(s.leftHbmAt.get key).getD (-10^18) ≤ s.cfg.thrashWindowS

instance (s : Simulator F) : DecidablePred s.Recent := fun _ => inferInstanceAs (Decidable (_ ∧ _))

/-- The scan charges the serviceable blocks outside HBM and counts the recent ones of them. -/
theorem scan_eq (s : Simulator F) (keys : List BlockKey) :
    (∀ key ∈ (keys.take (s.scan keys).cut).filter (· ∉ s.hbm.blocks), key ∈ s.policy.entries) ∧
    (s.scan keys).restoreBytes = (((keys.take (s.scan keys).cut).filter (· ∉ s.hbm.blocks)).map
      fun key => ((s.policy.get key).map (·.nbytes)).getD 0).sum ∧
    (s.scan keys).thrash =
      (((keys.take (s.scan keys).cut).filter (· ∉ s.hbm.blocks)).filter s.Recent).length := by
  induction keys with
  | nil => exact ⟨by simp,rfl,rfl⟩
  | cons key keys ih =>
    obtain ⟨hhost,hbytes,hrecent⟩ := ih
    by_cases hheld : key ∈ s.hbm.blocks
    · have hscan : s.scan (key::keys) = { s.scan keys with cut := (s.scan keys).cut+1 } := by
        rw [scan,if_pos hheld]
      have hskip : ((key::keys).take ((s.scan keys).cut+1)).filter (· ∉ s.hbm.blocks) =
          (keys.take (s.scan keys).cut).filter (· ∉ s.hbm.blocks) := by simp [hheld]
      rw [hscan]
      exact ⟨hskip ▸ hhost,hskip ▸ hbytes,hskip ▸ hrecent⟩
    · cases hget : s.policy.get key with
      | none =>
        have hscan : s.scan (key::keys) = ⟨0,0,0⟩ := by rw [scan,if_neg hheld,hget]
        rw [hscan]
        exact ⟨by simp,rfl,rfl⟩
      | some entry =>
        have hscan : s.scan (key::keys) = ⟨(s.scan keys).cut+1,
            entry.nbytes+(s.scan keys).restoreBytes,
            (if s.Recent key then 1 else 0)+(s.scan keys).thrash⟩ := by
          rw [scan,if_neg hheld,hget]
          rfl
        have hentry : key ∈ s.policy.entries := Dict.mem_iff_get.mpr ⟨entry,hget⟩
        have htake : ((key::keys).take ((s.scan keys).cut+1)).filter (· ∉ s.hbm.blocks) =
            key::(keys.take (s.scan keys).cut).filter (· ∉ s.hbm.blocks) := by simp [hheld]
        rw [hscan]
        simp only [htake]
        refine ⟨List.forall_mem_cons.mpr ⟨hentry,hhost⟩,by simp [hget,hbytes],?_⟩
        · by_cases hnear : s.Recent key <;> simp [hnear,hrecent,Nat.add_comm]

theorem mem_restored {s : Simulator F} {turn : Turn F} {key : BlockKey}
    (h : key ∈ s.restored turn) : key ∈ s.policy.entries ∧ key ∉ s.hbm.blocks := by
  obtain ⟨hhost,_,_⟩ := scan_eq (s.observe turn).1 (s.path turn)
  exact ⟨hhost key h,of_decide_eq_true (List.mem_filter.mp h).2⟩

end Scanning

section Thrash

variable {sched : Schedule F} {past : List (Simulator F × Turn F)} {s : Simulator F}

theorem exists_departs_iff {key : BlockKey} {last : F} {P : F → Prop}
    (hsorted : past.Pairwise fun a b => a.2.t ≤ b.2.t)
    (hlast : lastDeparture sched key past = some last) (hP : ∀ ⦃a b⦄, a ≤ b → P a → P b) :
    P last ↔ ∃ visit ∈ past, Departs sched key visit ∧ P visit.2.t := by
  obtain ⟨visit,hvisit,rfl⟩ := Option.map_eq_some_iff.mp hlast
  obtain ⟨front,hfront⟩ := List.getLast?_eq_some_iff.mp hvisit
  have hmem : ∀ other, other ∈ past ∧ Departs sched key other ↔ other ∈ front ∨ other = visit := by
    intro other
    have hfilter : other ∈ past.filter (Departs sched key) ↔ _ := List.mem_filter
    rw [hfront] at hfilter
    simpa using hfilter.symm
  have hlatest := hsorted.filter (Departs sched key)
  rw [hfront,List.pairwise_append] at hlatest
  constructor
  · intro h
    obtain ⟨hpast,hgone⟩ := (hmem visit).mpr (Or.inr rfl)
    exact ⟨visit,hpast,hgone,h⟩
  · rintro ⟨other,hpast,hgone,h⟩
    rcases (hmem other).mp ⟨hpast,hgone⟩ with hbefore | rfl
    · exact hP (hlatest.2.2 other hbefore visit (by simp)) h
    · exact h

theorem Departed.exists_lastDeparture (h : Departed sched past s) {key : BlockKey}
    (hhost : key ∈ s.policy.entries) (hout : key ∉ s.hbm.blocks) :
    ∃ visit ∈ past, lastDeparture sched key past = some visit.2.t := by
  obtain ⟨visit,hvisit,hgone⟩ :=
    (h.accounted key (h.registered key (Or.inr hhost))).resolve_left hout
  have hsome : visit ∈ past.filter (Departs sched key) := by simpa using ⟨hvisit,hgone⟩
  cases hlast : (past.filter (Departs sched key)).getLast? with
  | none =>
    rw [List.getLast?_eq_none_iff.mp hlast] at hsome
    cases hsome
  | some last =>
    have hmem := List.mem_filter.mp (List.mem_of_getLast? hlast)
    exact ⟨last,hmem.1,by rw [lastDeparture,hlast,Option.map_some]⟩

theorem found_thrash (h : Departed sched past s) {turn : Turn F}
    (hsorted : past.Pairwise fun a b => a.2.t ≤ b.2.t)
    (hbefore : ∀ visit ∈ past, visit.2.t ≤ turn.t) :
    (s.found turn).thrash = ((s.restored turn).filter fun key =>
      ∃ visit ∈ past, Departs sched key visit ∧ turn.t-visit.2.t ≤ s.cfg.thrashWindowS).length := by
  have hcount : (s.found turn).thrash =
      ((s.restored turn).filter (s.observe turn).1.Recent).length :=
    (scan_eq (s.observe turn).1 (s.path turn)).2.2
  rw [hcount]
  refine congrArg List.length (List.filter_congr fun key hkey => ?_)
  obtain ⟨hhost,hout⟩ := mem_restored hkey
  obtain ⟨visit,hvisit,hlast⟩ := h.exists_lastDeparture hhost hout
  have hrecord : (s.observe turn).1.leftHbmAt.get key = some visit.2.t :=
    (h.recorded key).trans hlast
  have hmono : ∀ ⦃a b : F⦄, a ≤ b → turn.t-a ≤ s.cfg.thrashWindowS →
      turn.t-b ≤ s.cfg.thrashWindowS := fun a b hab ha => (sub_le_sub_left hab _).trans ha
  have hsince : 0 ≤ turn.t-visit.2.t := sub_nonneg.mpr (hbefore visit hvisit)
  refine decide_eq_decide.mpr ?_
  rw [← exists_departs_iff hsorted hlast hmono]
  have hrecent : (s.observe turn).1.Recent key ↔
      0 ≤ turn.t-visit.2.t ∧ turn.t-visit.2.t ≤ s.cfg.thrashWindowS := by
    rw [Recent,hrecord,Option.getD_some]
    exact Iff.rfl
  rw [hrecent,and_iff_right hsince]

end Thrash

theorem visited_sorted (s : Simulator F) (turns : List (Turn F)) (n : ℕ) :
    (s.visited turns n).Pairwise fun a b => a.2.t ≤ b.2.t := by
  have hturns : (inOrder turns).Pairwise fun a b => a.t ≤ b.t := sortedBy_pairwise _ _
  have htake := hturns.sublist (List.take_sublist n (inOrder turns))
  rw [← visits_inputs (one (s.schedule turns)) s ((inOrder turns).take n),
    List.pairwise_map] at htake
  exact htake

theorem visited_before {s : Simulator F} {turns : List (Turn F)} {n : ℕ} {turn : Turn F}
    (hturn : (inOrder turns)[n]? = some turn) :
    ∀ visit ∈ s.visited turns n, visit.2.t ≤ turn.t := by
  intro visit hvisit
  have hturns : (inOrder turns).Pairwise fun a b => a.t ≤ b.t := sortedBy_pairwise _ _
  have hmem : visit.2 ∈ (inOrder turns).take n := by
    rw [← visits_inputs (one (s.schedule turns)) s ((inOrder turns).take n)]
    exact List.mem_map_of_mem hvisit
  rw [← List.take_append_drop n (inOrder turns),rest_of_turn hturn,List.pairwise_append] at hturns
  exact hturns.2.2 visit.2 hmem turn (by simp)

/-- The notes of departures are exact, and so is the count of thrash: in every run, after any
number of turns, the last included, and a turn adds the blocks that it restores from the host
and that HBM dropped within the window before. Every block restored has been dropped, so
neither the default of the note nor a negative idle time is ever met. -/
theorem thrash_exact (cfg : SimConfig F) (kind : PolicyKind F) (ram : TierConfig F)
    (turns : List (Turn F)) (n : ℕ) :
    let s := (start cfg kind ram).after turns n
    let sched := (start cfg kind ram).schedule turns
    let past := (start cfg kind ram).visited turns n
    (∀ key, s.leftHbmAt.get key = lastDeparture sched key past) ∧
      ∀ turn, (inOrder turns)[n]? = some turn →
        (∀ key ∈ s.restored turn, ∃ since ≤ turn.t, s.leftHbmAt.get key = some since) ∧
        (one sched s turn).thrash = s.thrash+((s.restored turn).filter fun key =>
          ∃ visit ∈ past, Departs sched key visit ∧
            turn.t-visit.2.t ≤ cfg.thrashWindowS).length := by
  intro s sched past
  have h : Departed sched past s := after_departed cfg kind ram turns n
  have hcfg : s.cfg = cfg := after_cfg cfg kind ram turns n
  refine ⟨h.recorded,fun turn hturn => ⟨fun key hkey => ?_,?_⟩⟩
  · obtain ⟨hhost,hout⟩ := mem_restored hkey
    obtain ⟨visit,hvisit,hlast⟩ := h.exists_lastDeparture hhost hout
    exact ⟨visit.2.t,visited_before hturn visit hvisit,(h.recorded key).trans hlast⟩
  · have hcount := found_thrash h (visited_sorted _ turns n) (visited_before hturn)
    rw [hcfg] at hcount
    exact congrArg (s.thrash+·) hcount

/-- The second session displaces the block of the first, which is restored a second later and
displaces the other in its turn. -/
theorem thrash_exact_small :
    let turns := [ask 1 "a" 900,ask 2 "b" 900,ask 3 "a" 900]
    let s := (start (smallConfig 1000 2000) .lru (smallRam 2000)).after turns
    let past := (start (smallConfig 1000 2000) .lru (smallRam 2000)).visited turns
    (s 2).restored (ask 3 "a" 900) = [.priv "a" 0] ∧
      (∀ key, (s 3).leftHbmAt.get key = lastDeparture .empty key (past 3)) ∧
      (∀ key ∈ (s 2).restored (ask 3 "a" 900),
        ∃ since ≤ (3 : ℚ), (s 2).leftHbmAt.get key = some since) ∧
      (one .empty (s 2) (ask 3 "a" 900)).thrash = (s 2).thrash+
        (((s 2).restored (ask 3 "a" 900)).filter fun key =>
          ∃ visit ∈ past 2, Departs .empty key visit ∧ 3-visit.2.t ≤ 60).length := by
  have hexact := thrash_exact (smallConfig 1000 2000) .lru (smallRam 2000)
    [ask 1 "a" 900,ask 2 "b" 900,ask 3 "a" 900]
  have hturn : (inOrder [ask 1 "a" 900,ask 2 "b" 900,ask 3 "a" 900])[2]? =
      some (ask 3 "a" 900) := rfl
  obtain ⟨hsince,hthrash⟩ := (hexact 2).2 _ hturn
  exact ⟨by decide +kernel,(hexact 3).1,hsince,hthrash⟩

end Simulator
end ContextResidency
