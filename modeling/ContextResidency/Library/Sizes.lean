import Mathlib.Algebra.BigOperators.Group.Finset.Basic
import Mathlib.Algebra.Order.BigOperators.Group.Finset
import Mathlib.Tactic

/-! Lists of sized items: their total size, and the longest prefix that fits a room
when items are stored one at a time. -/
namespace ContextResidency

variable {K : Type}

def weight (xs : List (K × ℤ)) : ℤ := (xs.map Prod.snd).sum

@[simp] theorem weight_nil : weight ([] : List (K × ℤ)) = 0 := rfl
@[simp] theorem weight_cons (p : K × ℤ) (ps : List (K × ℤ)) :
    weight (p::ps) = p.2+weight ps := by simp [weight]
@[simp] theorem weight_append (xs ys : List (K × ℤ)) :
    weight (xs ++ ys) = weight xs+weight ys := by simp [weight]

theorem weight_nonneg {xs : List (K × ℤ)} (h : ∀ p ∈ xs, 0 ≤ p.2) : 0 ≤ weight xs := by
  refine List.sum_nonneg fun n hn => ?_
  obtain ⟨p,hp,rfl⟩ := List.mem_map.mp hn
  exact h p hp

theorem weight_nonpos {xs : List (K × ℤ)} (h : ∀ p ∈ xs, p.2 ≤ 0) : weight xs ≤ 0 := by
  induction xs with
  | nil => exact le_rfl
  | cons p xs ih =>
    have hp := h p (by simp)
    have hxs := ih fun q hq => h q (by simp [hq])
    rw [weight_cons]
    omega

theorem weight_of_equal {xs : List (K × ℤ)} {size : ℤ} (h : ∀ p ∈ xs, p.2 = size) :
    weight xs = xs.length*size := by
  induction xs with
  | nil => simp
  | cons p xs ih =>
    rw [weight_cons,ih fun q hq => h q (by simp [hq]),h p (by simp),List.length_cons]
    push_cast
    ring

theorem weight_sublist_le {xs ys : List (K × ℤ)} (h : xs.Sublist ys)
    (hpos : ∀ p ∈ ys, 0 ≤ p.2) : weight xs ≤ weight ys := by
  refine (h.map Prod.snd).sum_le_sum fun n hn => ?_
  obtain ⟨p,hp,rfl⟩ := List.mem_map.mp hn
  exact hpos p hp

/-- Items of distinct keys weigh no more than a bound on each key allows. -/
theorem weight_le_sum [DecidableEq K] {xs : List (K × ℤ)} {S : Finset K} {f : K → ℤ}
    (hn : (xs.map Prod.fst).Nodup) (hxs : ∀ p ∈ xs, p.1 ∈ S ∧ p.2 ≤ f p.1)
    (hf : ∀ k, 0 ≤ f k) : weight xs ≤ ∑ k ∈ S, f k := by
  have hsum : weight xs ≤ ((xs.map Prod.fst).map f).sum := by
    rw [weight,List.map_map]
    exact List.sum_le_sum fun p hp => (hxs p hp).2
  have hfin : ((xs.map Prod.fst).map f).sum = ∑ k ∈ (xs.map Prod.fst).toFinset, f k :=
    (List.sum_toFinset f hn).symm
  rw [hfin] at hsum
  refine hsum.trans (Finset.sum_le_sum_of_subset_of_nonneg (fun k hk => ?_) fun k _ _ => hf k)
  obtain ⟨p,hp,rfl⟩ := List.mem_map.mp (List.mem_toFinset.mp hk)
  exact (hxs p hp).1

/-- Store items in order until one does not fit what is left of the room. -/
def fitting : ℤ → List (K × ℤ) → List (K × ℤ)
  | _, [] => []
  | room, p::ps => if room < p.2 then [] else p::fitting (room-p.2) ps

theorem fitting_initial (room : ℤ) (xs : List (K × ℤ)) : fitting room xs <+: xs := by
  induction xs generalizing room with
  | nil => exact List.prefix_refl _
  | cons p ps ih =>
    rw [fitting]
    split
    · exact List.nil_prefix
    · exact (List.prefix_cons_inj _).mpr (ih _)

theorem head_fitting_iff {room : ℤ} {p : K × ℤ} {ps : List (K × ℤ)} :
    p.1 ∈ (fitting room (p::ps)).map Prod.fst ↔ p.2 ≤ room := by
  rw [fitting]
  by_cases h : room < p.2
  · simp [h,not_le.mpr h]
  · simp [h,not_lt.mp h]

theorem weight_fitting_le (room : ℤ) (xs : List (K × ℤ)) :
    weight (fitting room xs) ≤ max 0 room := by
  induction xs generalizing room with
  | nil => exact le_max_left _ _
  | cons p ps ih =>
    rw [fitting]
    split
    · exact le_max_left _ _
    · have hrest := ih (room-p.2)
      rw [weight_cons]
      omega

theorem fitting_eq_self {room : ℤ} {xs : List (K × ℤ)} (hpos : ∀ p ∈ xs, 0 ≤ p.2)
    (h : weight xs ≤ room) : fitting room xs = xs := by
  induction xs generalizing room with
  | nil => rfl
  | cons p ps ih =>
    have hps : ∀ q ∈ ps, 0 ≤ q.2 := fun q hq => hpos q (by simp [hq])
    have hrest := weight_nonneg hps
    rw [weight_cons] at h
    rw [fitting,if_neg (by omega),ih hps (by omega)]

theorem fitting_of_nonpos {room : ℤ} {xs : List (K × ℤ)} (hneg : ∀ p ∈ xs, p.2 ≤ 0)
    (h : 0 ≤ room) : fitting room xs = xs := by
  induction xs generalizing room with
  | nil => rfl
  | cons p ps ih =>
    have hp := hneg p (by simp)
    rw [fitting,if_neg (by omega),ih (fun q hq => hneg q (by simp [hq])) (by omega)]

end ContextResidency
