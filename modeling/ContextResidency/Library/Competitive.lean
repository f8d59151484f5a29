import ContextResidency.Library.Lru
import ContextResidency.Library.Paging

/-! What recency can cost. A cache of the newest keys is compared with any paging of fewer
places. The keys that the rival lacks are weighed by their place in the recency order, so
that every miss of the cache makes them lighter and only a miss of the rival can make up
for it. -/
namespace ContextResidency

variable {K : Type} [DecidableEq K]

/-- How many of the keys a cache lacks. -/
def lacking (cache : Finset K) (keys : List K) : ℕ := (keys.filter (· ∉ cache)).length

/-- The keys that a cache lacks, weighed by their place: once for the least recent key. -/
def backlog (cache : Finset K) : List K → ℕ
  | [] => 0
  | key::keys => lacking cache (key::keys)+backlog cache keys

theorem lacking_sublist (cache : Finset K) {keys keys' : List K} (h : keys.Sublist keys') :
    lacking cache keys ≤ lacking cache keys' := (h.filter _).length_le

theorem lacking_append_of_mem {cache : Finset K} {x : K} (hx : x ∈ cache) (keys : List K) :
    lacking cache (keys ++ [x]) = lacking cache keys := by simp [lacking,hx]

theorem lacking_congr {cache cache' : Finset K} {keys : List K}
    (h : ∀ key ∈ keys, key ∈ cache ↔ key ∈ cache') : lacking cache keys = lacking cache' keys :=
  congrArg List.length (List.filter_congr fun key hkey => by simp [h key hkey])

theorem lacking_le (cache cache' : Finset K) {keys : List K} (hn : keys.Nodup) :
    lacking cache' keys ≤ lacking cache keys+(cache \ cache').card := by
  have hcount : ∀ c : Finset K, lacking c keys = (keys.toFinset \ c).card := by
    intro c
    have hset : keys.toFinset \ c = (keys.filter (· ∉ c)).toFinset := by
      ext key
      simp
    rw [hset,List.toFinset_card_of_nodup (hn.filter _),lacking]
  rw [hcount,hcount]
  refine (Finset.card_le_card fun key hkey => ?_).trans (Finset.card_union_le _ _)
  simp only [Finset.mem_sdiff,Finset.mem_union] at hkey ⊢
  by_cases hin : key ∈ cache
  · exact Or.inr ⟨hin,hkey.2⟩
  · exact Or.inl ⟨hkey.1,hin⟩

theorem length_le_lacking {keys : List K} (hn : keys.Nodup) (cache : Finset K) :
    keys.length ≤ lacking cache keys+cache.card := by
  have hsplit := List.length_eq_length_filter_add (l := keys) (fun key => decide (key ∉ cache))
  have hheld : (keys.filter fun key => !decide (key ∉ cache)).length ≤ cache.card := by
    rw [← List.toFinset_card_of_nodup (hn.filter _)]
    refine Finset.card_le_card fun key hkey => ?_
    simpa using (List.mem_filter.mp (List.mem_toFinset.mp hkey)).2
  rw [lacking]
  omega

theorem backlog_congr {cache cache' : Finset K} {keys : List K}
    (h : ∀ key ∈ keys, key ∈ cache ↔ key ∈ cache') : backlog cache keys = backlog cache' keys := by
  induction keys with
  | nil => rfl
  | cons key keys ih =>
    rw [backlog,backlog,lacking_congr h,ih fun k hk => h k (List.mem_cons_of_mem _ hk)]

theorem backlog_sublist (cache : Finset K) {keys keys' : List K} (h : keys.Sublist keys') :
    backlog cache keys ≤ backlog cache keys' := by
  induction h with
  | slnil => exact le_rfl
  | cons key h ih => exact ih.trans (Nat.le_add_left _ _)
  | cons_cons key h ih => exact Nat.add_le_add (lacking_sublist cache (h.cons_cons key)) ih

/-- A key that the cache holds has no weight, and as the most recent one changes no other. -/
theorem backlog_append_of_mem {cache : Finset K} {x : K} (hx : x ∈ cache) (keys : List K) :
    backlog cache (keys ++ [x]) = backlog cache keys := by
  induction keys with
  | nil => simp [backlog,lacking,hx]
  | cons key keys ih =>
    rw [List.cons_append,backlog,ih,← List.cons_append,lacking_append_of_mem hx,backlog]

/-- Each key given up weighs no more than the number of keys. -/
theorem backlog_le (cache cache' : Finset K) {keys : List K} (hn : keys.Nodup) :
    backlog cache' keys ≤ backlog cache keys+keys.length*(cache \ cache').card := by
  induction keys with
  | nil => exact Nat.zero_le _
  | cons key keys ih =>
    have hfirst := lacking_le cache cache' hn
    have hrest := ih (List.nodup_cons.mp hn).2
    rw [backlog,backlog,List.length_cons,Nat.succ_mul]
    omega

section Rival

variable {capacity : ℕ} {rival rival' : Finset K} {x : K}

theorem card_erase_add_one (rival : Finset K) (x : K) :
    (rival.erase x).card+1 = rival.card+missed rival x := by
  by_cases hx : x ∈ rival
  · rw [missed,if_pos hx,Finset.card_erase_add_one hx,Nat.add_zero]
  · rw [missed,if_neg hx,Finset.erase_eq_of_notMem hx]

/-- What a rival gives up is paid for by the places that become free. -/
theorem backlog_paged (bound : ℕ) (hpaged : Paged capacity rival x rival') {keys : List K}
    (hn : keys.Nodup) (hx : x ∉ keys) (hbound : keys.length ≤ bound) :
    backlog rival' (keys ++ [x])+bound*rival'.card ≤
      backlog rival keys+bound*(rival.card+missed rival x) := by
  have hless : rival'.erase x ⊆ rival.erase x := by
    intro p hp
    obtain ⟨hne,hmem⟩ := Finset.mem_erase.mp hp
    exact Finset.mem_erase.mpr ⟨hne,(Finset.mem_insert.mp (hpaged.subset hmem)).resolve_left hne⟩
  have haside : ∀ c : Finset K, backlog c keys = backlog (c.erase x) keys := by
    refine fun c => backlog_congr fun key hkey => ?_
    rw [Finset.mem_erase,and_iff_right fun e : key = x => hx (e ▸ hkey)]
  have hgiven := backlog_le (rival.erase x) (rival'.erase x) hn
  have hcard := Finset.card_sdiff_add_card_eq_card hless
  have hheld := Finset.card_erase_add_one hpaged.held
  have hweight : keys.length*(rival.erase x \ rival'.erase x).card+bound*(rival'.erase x).card ≤
      bound*(rival.erase x).card := by
    rw [← hcard,Nat.mul_add]
    exact Nat.add_le_add_right (Nat.mul_le_mul_right _ hbound) _
  rw [backlog_append_of_mem hpaged.held,haside rival',haside rival,← hheld,
    ← card_erase_add_one rival x,Nat.mul_succ,Nat.mul_succ]
  omega

end Rival

/-- A cache of the newest keys after `m` misses, and a rival with `spare` fewer places
after `n` misses. -/
structure Competing (capacity spare : ℕ) (recent : List K) (rival : Finset K) (m n : ℕ) :
    Prop where
  nodup : recent.Nodup
  seen : ∀ key ∈ rival, key ∈ recent
  card : rival.card ≤ capacity
  bill : (spare+1)*m+backlog rival (newest (capacity+spare) recent)+
      (capacity+spare-1)*rival.card ≤
    (capacity+spare)*n+spare*(newest (capacity+spare) recent).length

namespace Competing

variable {capacity spare m n : ℕ} {recent : List K} {rival rival' : Finset K} {x : K}

theorem start (capacity spare : ℕ) : Competing capacity spare ([] : List K) ∅ 0 0 where
  nodup := List.nodup_nil
  seen := by simp
  card := Nat.zero_le _
  bill := by simp [newest,backlog]

theorem total (h : Competing capacity spare recent rival m n) :
    (spare+1)*m ≤ (capacity+spare)*n+spare*(capacity+spare) := by
  have hbill := h.bill
  have hlength : (newest (capacity+spare) recent).length ≤ capacity+spare := by
    rw [newest_length]
    exact min_le_left _ _
  have hspare := Nat.mul_le_mul_left spare hlength
  omega

variable (h : Competing capacity spare recent rival m n) (hpaged : Paged capacity rival x rival')
include h hpaged

theorem bill_of_hit (hx : x ∈ newest (capacity+spare) recent) :
    (spare+1)*m+backlog rival' (newest (capacity+spare) (access recent x))+
        (capacity+spare-1)*rival'.card ≤
      (capacity+spare)*(n+missed rival x)+
        spare*(newest (capacity+spare) (access recent x)).length := by
  have hn : (newest (capacity+spare) recent).Nodup := (List.drop_sublist _ _).nodup h.nodup
  have hkeys : (access (newest (capacity+spare) recent) x).length =
      (newest (capacity+spare) recent).length := by
    have hperm : (access (newest (capacity+spare) recent) x).Perm (newest (capacity+spare) recent) :=
      (List.perm_ext_iff_of_nodup (access_nodup hn x) hn).mpr fun k => by
        rw [mem_access,or_iff_left_of_imp fun e => e ▸ hx]
    exact hperm.length_eq
  have hbound : ((newest (capacity+spare) recent).filter (· ≠ x)).length ≤ capacity+spare-1 := by
    have hlength := newest_length (capacity+spare) recent
    rw [access,List.length_append,List.length_singleton] at hkeys
    omega
  have hstep := backlog_paged _ hpaged (hn.filter _) (by simp) hbound
  have hless := backlog_sublist rival (List.filter_sublist (p := (· ≠ x))
    (l := newest (capacity+spare) recent))
  have hbill := h.bill
  rw [newest_access_of_mem h.nodup hx,hkeys,access]
  rw [Nat.mul_add] at hstep ⊢
  have hmissed := Nat.mul_le_mul_right (missed rival x) (Nat.sub_le (capacity+spare) 1)
  omega

theorem bill_of_room (hx : x ∉ newest (capacity+spare) recent)
    (hroom : (newest (capacity+spare) recent).length < capacity+spare) :
    (spare+1)*(m+1)+backlog rival' (newest (capacity+spare) (access recent x))+
        (capacity+spare-1)*rival'.card ≤
      (capacity+spare)*(n+missed rival x)+
        spare*(newest (capacity+spare) (access recent x)).length := by
  have hn : (newest (capacity+spare) recent).Nodup := (List.drop_sublist _ _).nodup h.nodup
  have hall : newest (capacity+spare) recent = recent := by
    rw [newest_length] at hroom
    rw [newest,Nat.sub_eq_zero_of_le (by omega),List.drop_zero]
  have hmissed : missed rival x = 1 := if_neg fun hmem => hx (by
    rw [hall]
    exact h.seen x hmem)
  have hstep := backlog_paged (capacity+spare-1) hpaged hn hx (by omega)
  have hbill := h.bill
  rw [newest_access_of_room hx hroom,List.length_append,List.length_singleton,hmissed]
  rw [hmissed] at hstep
  simp only [Nat.mul_add,Nat.mul_one] at hstep ⊢
  omega

theorem bill_of_full (hx : x ∉ newest (capacity+spare) recent)
    (hfull : (newest (capacity+spare) recent).length = capacity+spare) :
    (spare+1)*(m+1)+backlog rival' (newest (capacity+spare) (access recent x))+
        (capacity+spare-1)*rival'.card ≤
      (capacity+spare)*(n+missed rival x)+
        spare*(newest (capacity+spare) (access recent x)).length := by
  have hn : (newest (capacity+spare) recent).Nodup := (List.drop_sublist _ _).nodup h.nodup
  have hpos : 0 < capacity+spare := by
    have hheld := Finset.card_pos.mpr ⟨x,hpaged.held⟩
    have hcard := hpaged.card
    omega
  have hbill := h.bill
  rw [newest_access_of_full hx hfull hpos]
  obtain ⟨victim,kept,hkept⟩ := List.exists_cons_of_length_pos (hfull ▸ hpos)
  rw [hkept] at hn hx hfull hbill ⊢
  rw [List.length_cons] at hfull
  have hstep := backlog_paged (capacity+spare-1) hpaged (List.nodup_cons.mp hn).2
    (fun hmem => hx (List.mem_cons_of_mem _ hmem)) (by omega)
  -- The rival has at most its places, one of them for the key asked for, among these keys.
  have hlacking : spare+1 ≤ lacking rival (victim::kept)+missed rival x := by
    have haside : lacking rival (victim::kept) = lacking (rival.erase x) (victim::kept) := by
      refine lacking_congr fun key hkey => ?_
      rw [Finset.mem_erase,and_iff_right fun e : key = x => hx (e ▸ hkey)]
    have hall := length_le_lacking hn (rival.erase x)
    have herase := card_erase_add_one rival x
    have hcard := h.card
    rw [List.length_cons] at hall
    omega
  rw [List.tail_cons,List.length_append,List.length_singleton]
  rw [backlog,List.length_cons] at hbill
  have hpay : missed rival x+(capacity+spare-1)*missed rival x = (capacity+spare)*missed rival x := by
    rw [Nat.add_comm,← Nat.succ_mul]
    congr 1
    omega
  simp only [Nat.mul_add,Nat.mul_one] at hstep hbill ⊢
  omega

theorem step : Competing capacity spare (access recent x) rival'
    (m+missed (newest (capacity+spare) recent).toFinset x) (n+missed rival x) where
  nodup := access_nodup h.nodup x
  seen := by
    intro key hkey
    rw [mem_access]
    rcases Finset.mem_insert.mp (hpaged.subset hkey) with hnow | hold
    · exact Or.inr hnow
    · exact Or.inl (h.seen key hold)
  card := hpaged.card
  bill := by
    by_cases hx : x ∈ newest (capacity+spare) recent
    · rw [missed,if_pos (List.mem_toFinset.mpr hx)]
      exact h.bill_of_hit hpaged hx
    · rw [missed,if_neg fun hmem => hx (List.mem_toFinset.mp hmem)]
      by_cases hroom : (newest (capacity+spare) recent).length < capacity+spare
      · exact h.bill_of_room hpaged hx hroom
      · exact h.bill_of_full hpaged hx (newest_length_eq hroom)

end Competing
end ContextResidency
