import Mathlib.Data.List.Basic
import Mathlib.Data.List.Nodup
import Mathlib.Tactic

/-! Least recently used, in the abstract. The recency list holds each accessed key once,
the most recent one last, and a cache of `m` slots holds its newest `m` keys. A cache
with more slots holds no less. -/
namespace ContextResidency

variable {K : Type} [DecidableEq K]

/-- The recency list after one more access. -/
def access (recent : List K) (k : K) : List K := recent.filter (· ≠ k) ++ [k]

omit [DecidableEq K] in
/-- What a cache of `m` slots holds. -/
def newest (m : ℕ) (recent : List K) : List K := recent.drop (recent.length-m)

theorem access_nodup {recent : List K} (h : recent.Nodup) (k : K) : (access recent k).Nodup := by
  have hlast : k ∉ recent.filter (· ≠ k) := by simp
  rw [access,List.nodup_append]
  refine ⟨h.filter _,by simp,?_⟩
  rintro a ha b hb rfl
  rw [List.mem_singleton] at hb
  exact hlast (hb ▸ ha)

@[simp] theorem mem_access {recent : List K} {j k : K} :
    j ∈ access recent k ↔ j ∈ recent ∨ j = k := by
  by_cases h : j = k <;> simp [access,h]

theorem access_of_not_mem {recent : List K} {k : K} (h : k ∉ recent) :
    access recent k = recent ++ [k] := by
  have hkeep : ∀ j ∈ recent, decide (j ≠ k) = true := by
    intro j hj
    simpa using fun e : j = k => h (e ▸ hj)
  rw [access,List.filter_eq_self.mpr hkeep]

/-- What keeps the order of the recency list keeps it when a key of both moves to the end. -/
theorem access_sublist {held recent : List K} (h : held.Sublist recent) (k : K) :
    (access held k).Sublist (access recent k) := (h.filter _).append_right [k]

theorem foldl_access_sublist {held recent : List K} (h : held.Sublist recent) (ks : List K) :
    (ks.foldl access held).Sublist (ks.foldl access recent) := by
  induction ks generalizing held recent with
  | nil => exact h
  | cons k ks ih => exact ih (access_sublist h k)

theorem mem_foldl_access {recent : List K} {j : K} (ks : List K) :
    j ∈ ks.foldl access recent ↔ j ∈ recent ∨ j ∈ ks := by
  induction ks generalizing recent with
  | nil => simp
  | cons k ks ih => rw [List.foldl_cons,ih,mem_access,List.mem_cons,or_assoc]

theorem sublist_access {held recent : List K} (h : held.Sublist recent) {k : K} (hk : k ∉ held) :
    held.Sublist (access recent k) := by
  have hkeep : held.filter (· ≠ k) = held :=
    List.filter_eq_self.mpr fun j hj => by simpa using fun e : j = k => hk (e ▸ hj)
  have hfilter := h.filter (· ≠ k)
  rw [hkeep] at hfilter
  exact hfilter.trans (List.sublist_append_left _ _)

omit [DecidableEq K] in
theorem newest_length (m : ℕ) (recent : List K) :
    (newest m recent).length = min m recent.length := by
  rw [newest,List.length_drop]
  omega

omit [DecidableEq K] in
theorem newest_length_eq {m : ℕ} {recent : List K} (h : ¬ (newest m recent).length < m) :
    (newest m recent).length = m := by
  have hle := newest_length m recent
  omega

omit [DecidableEq K] in
theorem newest_append {older kept : List K} {m : ℕ}
    (h : kept.length = m ∨ older = [] ∧ kept.length ≤ m) : newest m (older ++ kept) = kept := by
  have hcut : (older ++ kept).length-m = older.length := by
    rw [List.length_append]
    rcases h with h | ⟨rfl,h⟩
    · omega
    · simp only [List.length_nil]
      omega
  rw [newest,hcut,List.drop_left]

omit [DecidableEq K] in
theorem exists_older (m : ℕ) (recent : List K) : ∃ older, recent = older ++ newest m recent ∧
    ((newest m recent).length = m ∨ older = [] ∧ (newest m recent).length ≤ m) := by
  refine ⟨recent.take (recent.length-m),(List.take_append_drop _ _).symm,?_⟩
  rw [newest_length]
  cases le_or_gt m recent.length with
  | inl h => exact Or.inl (min_eq_left h)
  | inr h =>
    refine Or.inr ⟨?_,min_le_left _ _⟩
    rw [Nat.sub_eq_zero_of_le h.le,List.take_zero]

theorem newest_access_of_mem {m : ℕ} {recent : List K} {k : K} (hn : recent.Nodup)
    (h : k ∈ newest m recent) : newest m (access recent k) = access (newest m recent) k := by
  obtain ⟨older,hsplit,hlength⟩ := exists_older m recent
  have hold : k ∉ older := by
    intro hk
    rw [hsplit,List.nodup_append] at hn
    exact hn.2.2 k hk k h rfl
  have haccess : access recent k = older ++ access (newest m recent) k := by
    have hkeep : older.filter (· ≠ k) = older :=
      List.filter_eq_self.mpr fun j hj => by simpa using fun e : j = k => hold (e ▸ hj)
    conv_lhs => rw [hsplit]
    rw [access,List.filter_append,hkeep,List.append_assoc,access]
  have hsame : (access (newest m recent) k).length = (newest m recent).length := by
    have hkept : (newest m recent).Nodup := (List.drop_sublist _ _).nodup hn
    have hfilter : (newest m recent).filter (· ≠ k) = (newest m recent).erase k := by
      rw [hkept.erase_eq_filter k]
      exact List.filter_congr fun j _ => Bool.eq_iff_iff.mpr (by simp)
    have hpos := List.length_pos_of_mem h
    rw [access,hfilter,List.length_append,List.length_erase_of_mem h,List.length_singleton]
    omega
  rw [haccess]
  exact newest_append (hsame ▸ hlength)

theorem newest_access_of_room {m : ℕ} {recent : List K} {k : K}
    (h : k ∉ newest m recent) (hroom : (newest m recent).length < m) :
    newest m (access recent k) = newest m recent ++ [k] := by
  obtain ⟨older,hsplit,hlength⟩ := exists_older m recent
  obtain ⟨rfl,_⟩ := hlength.resolve_left (by omega)
  have hall : newest m recent = recent := hsplit.symm
  rw [hall] at h hroom ⊢
  rw [access_of_not_mem h]
  have hlen : (recent ++ [k]).length ≤ m := by
    rw [List.length_append,List.length_singleton]
    omega
  exact @newest_append K [] (recent ++ [k]) m (Or.inr ⟨rfl,hlen⟩)

/-- A miss with all slots taken replaces the least recent key. -/
theorem newest_access_of_full {m : ℕ} {recent : List K} {k : K}
    (h : k ∉ newest m recent) (hfull : (newest m recent).length = m) (hm : 0 < m) :
    newest m (access recent k) = (newest m recent).tail ++ [k] := by
  obtain ⟨older,hsplit,_⟩ := exists_older m recent
  obtain ⟨victim,kept,hkept⟩ := List.exists_cons_of_length_pos (hfull ▸ hm)
  rw [hkept] at hsplit hfull h ⊢
  have hkeep : (victim::kept).filter (· ≠ k) = victim::kept :=
    List.filter_eq_self.mpr fun j hj => by simpa using fun e : j = k => h (e ▸ hj)
  have haccess : access recent k = (older.filter (· ≠ k) ++ [victim]) ++ (kept ++ [k]) := by
    rw [access,hsplit,List.filter_append,hkeep]
    simp
  rw [haccess,List.tail_cons]
  refine newest_append (Or.inl ?_)
  rw [List.length_append,List.length_singleton]
  exact hfull

theorem exists_newest_access {m : ℕ} (hm : 0 < m) (recent : List K) (k : K) :
    ∃ before, newest m (access recent k) = before ++ [k] := by
  have hcut : (access recent k).length-m ≤ (recent.filter (· ≠ k)).length := by
    rw [access,List.length_append,List.length_singleton]
    omega
  exact ⟨_,List.drop_append_of_le_length hcut⟩

end ContextResidency
