import ContextResidency.Library.Sizes
import Mathlib.Data.List.Forall2

/-! Recency lists of sized items, oldest first, under LRU eviction with a byte budget.
One list covers another when it ends in the same keys with sizes that are no larger.
Covering survives accesses, and eviction with no smaller a budget: this is the LRU
inclusion property for items whose recorded sizes may differ. -/
namespace ContextResidency

variable {K : Type}

/-- Drop from the old end while `used` exceeds the budget. -/
def trim (cap : ℤ) : ℤ → List (K × ℤ) → List (K × ℤ)
  | _, [] => []
  | used, p::ps => if used ≤ cap then p::ps else trim cap (used-p.2) ps

theorem trim_suffix (cap used : ℤ) (xs : List (K × ℤ)) : trim cap used xs <:+ xs := by
  induction xs generalizing used with
  | nil => simp [trim]
  | cons p ps ih =>
    rw [trim]
    split
    · exact List.suffix_refl _
    · exact (ih _).trans (List.suffix_cons _ _)

theorem trim_of_le {cap used : ℤ} (xs : List (K × ℤ)) (h : used ≤ cap) :
    trim cap used xs = xs := by
  cases xs <;> simp [trim,h]

/-- Same keys in the same order, with sizes that are no larger. -/
def Lighter (ys xs : List (K × ℤ)) : Prop :=
  List.Forall₂ (fun y x : K × ℤ => y.1 = x.1 ∧ y.2 ≤ x.2) ys xs

theorem Lighter.keys_eq {ys xs : List (K × ℤ)} (h : Lighter ys xs) :
    ys.map Prod.fst = xs.map Prod.fst := by
  induction h with
  | nil => rfl
  | cons hyx _ ih => rw [List.map_cons,List.map_cons,hyx.1,ih]

theorem Lighter.weight_le {ys xs : List (K × ℤ)} (h : Lighter ys xs) :
    weight ys ≤ weight xs := by
  induction h with
  | nil => exact le_rfl
  | cons hyx _ ih =>
    rw [weight_cons,weight_cons]
    exact add_le_add hyx.2 ih

theorem Lighter.append {ys xs ys' xs' : List (K × ℤ)} (h : Lighter ys xs)
    (h' : Lighter ys' xs') : Lighter (ys ++ ys') (xs ++ xs') := List.rel_append h h'

theorem Lighter.filter {ys xs : List (K × ℤ)} (h : Lighter ys xs) (P : K → Bool) :
    Lighter (ys.filter fun p => P p.1) (xs.filter fun p => P p.1) := by
  induction h with
  | nil => exact .nil
  | @cons y x ys xs hyx _ ih =>
    cases hp : P x.1 with
    | true =>
      rw [List.filter_cons_of_pos (by simp [hyx.1,hp]),List.filter_cons_of_pos (by simp [hp])]
      exact .cons hyx ih
    | false =>
      rw [List.filter_cons_of_neg (by simp [hyx.1,hp]),List.filter_cons_of_neg (by simp [hp])]
      exact ih

/-- The longer list ends in the shorter one, up to sizes that are no larger. -/
def Covers (ys xs : List (K × ℤ)) : Prop := ∃ older ys', ys = older ++ ys' ∧ Lighter ys' xs

theorem Lighter.covers {ys xs : List (K × ℤ)} (h : Lighter ys xs) : Covers ys xs :=
  ⟨[],ys,rfl,h⟩

theorem covers_nil (ys : List (K × ℤ)) : Covers ys [] := ⟨ys,[],(List.append_nil _).symm,.nil⟩

theorem Covers.cons {ys xs : List (K × ℤ)} (h : Covers ys xs) (y : K × ℤ) :
    Covers (y::ys) xs := by
  obtain ⟨older,ys',rfl,hl⟩ := h
  exact ⟨y::older,ys',rfl,hl⟩

theorem Covers.mem_keys {ys xs : List (K × ℤ)} (h : Covers ys xs) {k : K}
    (hk : k ∈ xs.map Prod.fst) : k ∈ ys.map Prod.fst := by
  obtain ⟨older,ys',rfl,hl⟩ := h
  rw [← hl.keys_eq] at hk
  rw [List.map_append]
  exact List.mem_append_right _ hk

theorem Covers.size_le {ys xs : List (K × ℤ)} (h : Covers ys xs) {k : K} {n : ℤ}
    (hk : (k,n) ∈ xs) : ∃ m, (k,m) ∈ ys ∧ m ≤ n := by
  obtain ⟨older,ys',rfl,hl⟩ := h
  obtain ⟨y,hy,hkey,hsize⟩ : ∃ y ∈ ys', y.1 = k ∧ y.2 ≤ n := by
    induction hl with
    | nil => simp at hk
    | @cons y x ys xs hyx _ ih =>
      rcases List.mem_cons.mp hk with rfl | hk
      · exact ⟨y,by simp,hyx⟩
      · obtain ⟨z,hz,hzk⟩ := ih hk
        exact ⟨z,by simp [hz],hzk⟩
  exact ⟨y.2,List.mem_append_right _ (by rwa [← hkey]),hsize⟩

theorem Covers.filter {ys xs : List (K × ℤ)} (h : Covers ys xs) (P : K → Bool) :
    Covers (ys.filter fun p => P p.1) (xs.filter fun p => P p.1) := by
  obtain ⟨older,ys',rfl,hl⟩ := h
  rw [List.filter_append]
  exact ⟨_,_,rfl,hl.filter P⟩

theorem Covers.append {ys xs ys' xs' : List (K × ℤ)} (h : Covers ys xs) (h' : Lighter ys' xs') :
    Covers (ys ++ ys') (xs ++ xs') := by
  obtain ⟨older,zs,rfl,hl⟩ := h
  exact ⟨older,zs ++ ys',by rw [List.append_assoc],hl.append h'⟩

theorem Covers.of_suffix {ys xs xs' : List (K × ℤ)} (h : Covers ys xs) (hs : xs' <:+ xs) :
    Covers ys xs' := by
  obtain ⟨older,ys',rfl,hl⟩ := h
  obtain ⟨front,rfl⟩ := hs
  refine ⟨older ++ ys'.take front.length,ys'.drop front.length,?_,?_⟩
  · rw [List.append_assoc,List.take_append_drop]
  · exact List.forall₂_drop_append ys' front xs' hl

/-- Lists with the same keys: a list that is no heavier keeps at least as much. -/
theorem Lighter.trim {ys xs : List (K × ℤ)} (h : Lighter ys xs) {cap cap' kept kept' : ℤ}
    (hcap : cap ≤ cap') (hkept : kept' ≤ kept) :
    Covers (trim cap' (weight ys+kept') ys) (ContextResidency.trim cap (weight xs+kept) xs) := by
  induction h with
  | nil => exact Lighter.covers .nil
  | @cons y x ys xs hyx hl ih =>
    have hweight := Lighter.weight_le hl
    by_cases hfit : weight (y::ys)+kept' ≤ cap'
    · rw [trim_of_le _ hfit]
      exact (Lighter.covers (.cons hyx hl)).of_suffix (trim_suffix _ _ _)
    · rw [weight_cons] at hfit
      have hover : ¬ x.2+weight xs+kept ≤ cap := by
        have := hyx.2
        omega
      rw [weight_cons,weight_cons,ContextResidency.trim,if_neg hfit,ContextResidency.trim,
        if_neg hover]
      have hy : y.2+weight ys+kept'-y.2 = weight ys+kept' := by omega
      have hx : x.2+weight xs+kept-x.2 = weight xs+kept := by omega
      rw [hy,hx]
      exact ih

/-- Eviction with no smaller a budget, beside no heavier a rest, keeps the cover. -/
theorem Covers.trim {ys xs : List (K × ℤ)} (h : Covers ys xs) {cap cap' kept kept' : ℤ}
    (hcap : cap ≤ cap') (hkept : kept' ≤ kept) :
    Covers (trim cap' (weight ys+kept') ys) (ContextResidency.trim cap (weight xs+kept) xs) := by
  obtain ⟨older,ys',rfl,hl⟩ := h
  induction older with
  | nil => exact hl.trim hcap hkept
  | cons y older ih =>
    rw [List.cons_append,weight_cons]
    by_cases hfit : y.2+weight (older ++ ys')+kept' ≤ cap'
    · rw [trim_of_le _ hfit]
      have hcover : Covers (older ++ ys') xs := ⟨older,ys',rfl,hl⟩
      exact (hcover.cons y).of_suffix (trim_suffix _ _ _)
    · have hrest : y.2+weight (older ++ ys')+kept'-y.2 = weight (older ++ ys')+kept' := by omega
      rw [ContextResidency.trim,if_neg hfit,hrest]
      exact ih

end ContextResidency
