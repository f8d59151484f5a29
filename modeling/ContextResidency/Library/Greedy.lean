import Mathlib.Data.List.Sort
import Mathlib.Tactic

/-! Stable sorting by a key and greedy prefixes. A greedy prefix takes elements
in the given order until their sizes reach a demand, and takes at least one
element whenever there is one. A scan prefix stops at the first element that
fails a test, so a weaker test leaves a shorter rest. -/
namespace ContextResidency

variable {α κ : Type}

/-- Stable ascending sort: equal keys keep their relative order. -/
def sortedBy [LinearOrder κ] (key : α → κ) (xs : List α) : List α :=
  xs.insertionSort fun a b => key a ≤ key b

theorem sortedBy_perm [LinearOrder κ] (key : α → κ) (xs : List α) : (sortedBy key xs).Perm xs :=
  List.perm_insertionSort _ _

@[simp] theorem mem_sortedBy [LinearOrder κ] {key : α → κ} {xs : List α} {x : α} :
    x ∈ sortedBy key xs ↔ x ∈ xs := (sortedBy_perm key xs).mem_iff

theorem sortedBy_pairwise [LinearOrder κ] (key : α → κ) (xs : List α) :
    (sortedBy key xs).Pairwise fun a b => key a ≤ key b := by
  have htotal : Std.Total fun a b : α => key a ≤ key b := ⟨fun a b => le_total _ _⟩
  have htrans : IsTrans α fun a b => key a ≤ key b := ⟨fun _ _ _ => le_trans⟩
  exact List.pairwise_insertionSort _ xs

/-- Sorting sees of a key only how it orders the elements. -/
theorem sortedBy_congr {κ' : Type} [LinearOrder κ] [LinearOrder κ'] {key : α → κ} {key' : α → κ'}
    (h : ∀ a b, key a ≤ key b ↔ key' a ≤ key' b) (xs : List α) :
    sortedBy key xs = sortedBy key' xs := by
  have hle : (fun a b : α => key a ≤ key b) = fun a b => key' a ≤ key' b := by
    funext a b
    exact propext (h a b)
  unfold sortedBy
  congr!

theorem sortedBy_map_of_mem {β κ' : Type} [LinearOrder κ] [LinearOrder κ'] {key : α → κ}
    {key' : β → κ'} {f : α → β} {xs : List α}
    (h : ∀ a ∈ xs, ∀ b ∈ xs, key' (f a) ≤ key' (f b) ↔ key a ≤ key b) :
    sortedBy key' (xs.map f) = (sortedBy key xs).map f :=
  (List.map_insertionSort _ _ f xs fun a ha b hb => (h a ha b hb).symm).symm

theorem sortedBy_map {β κ' : Type} [LinearOrder κ] [LinearOrder κ'] {key : α → κ} {key' : β → κ'}
    {f : α → β} (h : ∀ a b, key' (f a) ≤ key' (f b) ↔ key a ≤ key b) (xs : List α) :
    sortedBy key' (xs.map f) = (sortedBy key xs).map f :=
  sortedBy_map_of_mem fun a _ b _ => h a b

theorem sortedBy_forall₂ {β : Type} [LinearOrder κ] {R : α → β → Prop} {key : α → κ} {key' : β → κ}
    (hkey : ∀ a b, R a b → key a = key' b) {xs : List α} {ys : List β} (h : List.Forall₂ R xs ys) :
    List.Forall₂ R (sortedBy key xs) (sortedBy key' ys) := by
  have hinsert : ∀ {a b xs ys}, R a b → List.Forall₂ R xs ys →
      List.Forall₂ R (xs.orderedInsert (fun a b => key a ≤ key b) a)
        (ys.orderedInsert (fun a b => key' a ≤ key' b) b) := by
    intro a b xs ys hab hrest
    induction hrest with
    | nil => exact .cons hab .nil
    | @cons x y xs ys hxy hrest ih =>
      rw [List.orderedInsert,List.orderedInsert,hkey a b hab,hkey x y hxy]
      split
      · exact .cons hab (.cons hxy hrest)
      · exact .cons hxy ih
  induction h with
  | nil => exact .nil
  | cons hab _ ih => exact hinsert hab ih

theorem min?_map [LinearOrder κ] {f : κ → κ} (hf : Monotone f) (xs : List κ) :
    (xs.map f).min? = xs.min?.map f := by
  induction xs with
  | nil => rfl
  | cons x xs ih =>
    rw [List.map_cons,List.min?_cons,List.min?_cons,ih]
    cases xs.min? with
    | none => rfl
    | some y => simp [hf.map_min]

theorem max?_map [LinearOrder κ] {f : κ → κ} (hf : Monotone f) (xs : List κ) :
    (xs.map f).max? = xs.max?.map f := by
  induction xs with
  | nil => rfl
  | cons x xs ih =>
    rw [List.map_cons,List.max?_cons,List.max?_cons,ih]
    cases xs.max? with
    | none => rfl
    | some y => simp [hf.map_max]

theorem min?_map_le_iff [LinearOrder κ] {f : α → κ} {xs : List α} (h : xs ≠ []) {default c : κ} :
    (xs.map f).min?.getD default ≤ c ↔ ∃ x ∈ xs, f x ≤ c := by
  cases hmin : (xs.map f).min? with
  | none => exact absurd (List.map_eq_nil_iff.mp (List.min?_eq_none_iff.mp hmin)) h
  | some m =>
    obtain ⟨hmem,hle⟩ := List.min?_eq_some_iff.mp hmin
    obtain ⟨x,hx,rfl⟩ := List.mem_map.mp hmem
    rw [Option.getD_some]
    constructor
    · exact fun hm => ⟨x,hx,hm⟩
    · rintro ⟨y,hy,hyc⟩
      exact (hle (f y) (List.mem_map_of_mem hy)).trans hyc

theorem sortedBy_eq_self [LinearOrder κ] {key : α → κ} {xs : List α}
    (h : xs.Pairwise fun a b => key a ≤ key b) : sortedBy key xs = xs :=
  h.insertionSort_eq

theorem sortedBy_id_of_perm [LinearOrder α] {xs ys : List α} (h : xs.Perm ys) :
    sortedBy id xs = sortedBy id ys :=
  ((sortedBy_perm id xs).trans (h.trans (sortedBy_perm id ys).symm)).eq_of_pairwise
    (fun _ _ _ _ => le_antisymm) (sortedBy_pairwise id xs) (sortedBy_pairwise id ys)

/-- Elements that are left out do not change the order of the others. -/
theorem sortedBy_filter [LinearOrder κ] (key : α → κ) (p : α → Bool) (xs : List α) :
    (sortedBy key xs).filter p = sortedBy key (xs.filter p) := by
  have hinsert : ∀ (x : α) (ys : List α), ys.Pairwise (fun a b => key a ≤ key b) →
      (ys.orderedInsert (fun a b => key a ≤ key b) x).filter p =
        if p x then (ys.filter p).orderedInsert (fun a b => key a ≤ key b) x
        else ys.filter p := by
    intro x ys hys
    induction ys with
    | nil => by_cases hx : p x <;> simp [hx]
    | cons y ys ih =>
      rw [List.pairwise_cons] at hys
      rw [List.orderedInsert]
      by_cases hle : key x ≤ key y
      · have hfirst : (ys.filter p).orderedInsert (fun a b => key a ≤ key b) x =
            x::ys.filter p := by
          cases hrest : ys.filter p with
          | nil => rfl
          | cons z zs =>
            have hz : z ∈ ys := List.mem_of_mem_filter (hrest ▸ List.mem_cons_self)
            exact List.orderedInsert_cons_of_le _ _ (hle.trans (hys.1 z hz))
        by_cases hx : p x <;> by_cases hy : p y <;> simp [hle,hx,hy,hfirst]
      · by_cases hx : p x <;> by_cases hy : p y <;> simp [hle,hx,hy,ih hys.2]
  induction xs with
  | nil => rfl
  | cons x xs ih =>
    have hsorted : sortedBy key (x::xs) =
        (sortedBy key xs).orderedInsert (fun a b => key a ≤ key b) x := rfl
    rw [hsorted,hinsert x _ (sortedBy_pairwise key xs),ih]
    by_cases hx : p x <;> simp [hx,sortedBy]

/-- Sorted lists are the same when they have the same elements of every key in the same order. -/
theorem eq_of_filter_eq [LinearOrder κ] {key : α → κ} {xs ys : List α}
    (hxs : xs.Pairwise fun a b => key a ≤ key b) (hys : ys.Pairwise fun a b => key a ≤ key b)
    (h : ∀ c, xs.filter (key · = c) = ys.filter (key · = c)) : xs = ys := by
  induction xs generalizing ys with
  | nil =>
    refine (List.eq_nil_iff_forall_not_mem.mpr fun y hy => ?_).symm
    have hmem : y ∈ ys.filter (key · = key y) := List.mem_filter.mpr ⟨hy,by simp⟩
    rw [← h] at hmem
    simp at hmem
  | cons x xs ih =>
    have hx : x ∈ ys.filter (key · = key x) := by
      rw [← h]
      simp
    cases ys with
    | nil => simp at hx
    | cons y ys =>
      have hy : y ∈ (x::xs).filter (key · = key y) := by
        rw [h]
        simp
      rw [List.pairwise_cons] at hxs hys
      have hfirst : ∀ {a b : α} {as : List α}, (∀ c ∈ as, key a ≤ key c) →
          b ∈ (a::as).filter (key · = key b) → key a ≤ key b := by
        intro a b as hle hb
        rcases List.mem_cons.mp (List.mem_of_mem_filter hb) with rfl | hb
        · exact le_rfl
        · exact hle b hb
      have hkey : key x = key y := le_antisymm (hfirst hxs.1 hy) (hfirst hys.1 hx)
      have hhead := h (key x)
      simp only [List.filter_cons,hkey,decide_true,if_true,List.cons.injEq] at hhead
      obtain ⟨rfl,_⟩ := hhead
      rw [ih hxs.2 hys.2 fun c => ?_]
      have hclass := h c
      by_cases hc : key x = c
      · simpa [hc] using hclass
      · simpa [hc] using hclass

/-- Sorting sees of a list only the elements of every key in their order. -/
theorem sortedBy_eq_of_filter [LinearOrder κ] {key : α → κ} {xs ys : List α}
    (h : ∀ c, xs.filter (key · = c) = ys.filter (key · = c)) :
    sortedBy key xs = sortedBy key ys :=
  eq_of_filter_eq (sortedBy_pairwise key xs) (sortedBy_pairwise key ys) fun c => by
    rw [sortedBy_filter,sortedBy_filter,h]

theorem filter_le_eq_take [LinearOrder κ] {key : α → κ} {xs : List α} (c : κ)
    (h : xs.Pairwise fun a b => key a ≤ key b) :
    xs.filter (key · ≤ c) = xs.take (xs.filter (key · ≤ c)).length := by
  induction xs with
  | nil => rfl
  | cons x xs ih =>
    rw [List.pairwise_cons] at h
    by_cases hx : key x ≤ c
    · simpa [hx] using ih h.2
    · have hnone : (x::xs).filter (key · ≤ c) = [] := by
        refine List.filter_eq_nil_iff.mpr fun y hy => ?_
        rcases List.mem_cons.mp hy with rfl | hy
        · simpa using hx
        · have hlt := (not_le.mp hx).trans_le (h.1 y hy)
          simpa using hlt
      rw [hnone]
      rfl

/-- Elements that are in order among themselves keep their places. -/
theorem filter_sortedBy [LinearOrder κ] {key : α → κ} {p : α → Bool} {xs : List α}
    (h : (xs.filter p).Pairwise fun a b => key a ≤ key b) :
    (sortedBy key xs).filter p = xs.filter p := by
  have htotal : Std.Total fun a b : α => key a ≤ key b := ⟨fun a b => le_total _ _⟩
  have htrans : IsTrans α fun a b => key a ≤ key b := ⟨fun _ _ _ => le_trans⟩
  have hsub : (xs.filter p).Sublist ((sortedBy key xs).filter p) := by
    have hkept := (List.sublist_insertionSort h List.filter_sublist).filter p
    simp only [List.filter_filter,Bool.and_self] at hkept
    exact hkept
  exact (hsub.eq_of_length ((sortedBy_perm key xs).filter p).length_eq.symm).symm

/-- An initial part of a sorted list takes what is smaller along with what it takes. -/
theorem mem_initial_of_lt [LinearOrder κ] {key : α → κ} {xs part : List α} {x y : α}
    (hpart : part <+: sortedBy key xs) (hx : x ∈ part) (hy : y ∈ xs) (hlt : key y < key x) :
    y ∈ part := by
  obtain ⟨rest,hrest⟩ := hpart
  have hsorted := sortedBy_pairwise key xs
  rw [← hrest,List.pairwise_append] at hsorted
  have hmem : y ∈ part ++ rest := hrest ▸ mem_sortedBy.mpr hy
  cases List.mem_append.mp hmem with
  | inl hy => exact hy
  | inr hy => exact absurd (hsorted.2.2 x hx y hy) (not_le.mpr hlt)

def takeUntil (size : α → ℤ) (needed : ℤ) : ℤ → List α → List α
  | _, [] => []
  | freed, x::xs =>
    x :: if needed ≤ freed+size x then [] else takeUntil size needed (freed+size x) xs

theorem takeUntil_initial (size : α → ℤ) (needed freed : ℤ) (xs : List α) :
    takeUntil size needed freed xs <+: xs := by
  induction xs generalizing freed with
  | nil => simp [takeUntil]
  | cons x xs ih =>
    rw [takeUntil,List.cons_prefix_cons]
    refine ⟨rfl,?_⟩
    split
    · exact List.nil_prefix
    · exact ih _

theorem takeUntil_map {β : Type} {size : α → ℤ} {size' : β → ℤ} {f : α → β}
    (h : ∀ x, size' (f x) = size x) (needed freed : ℤ) (xs : List α) :
    takeUntil size' needed freed (xs.map f) = (takeUntil size needed freed xs).map f := by
  induction xs generalizing freed with
  | nil => rfl
  | cons x xs ih =>
    rw [List.map_cons,takeUntil,takeUntil,h,ih,List.map_cons]
    split <;> rfl

theorem takeUntil_reaches (size : α → ℤ) (needed freed : ℤ) (xs : List α) :
    needed ≤ freed+((takeUntil size needed freed xs).map size).sum ∨
      takeUntil size needed freed xs = xs := by
  induction xs generalizing freed with
  | nil => exact Or.inr rfl
  | cons x xs ih =>
    rw [takeUntil]
    by_cases hx : needed ≤ freed+size x
    · simp [hx]
    · rw [if_neg hx,List.map_cons,List.sum_cons,← add_assoc]
      exact (ih _).imp_right fun h => by rw [h]

/-- Before its last element a greedy prefix does not meet the demand. -/
theorem takeUntil_take_lt {size : α → ℤ} {needed freed : ℤ} (hfreed : freed < needed) {xs : List α}
    {j : ℕ} (hj : j < (takeUntil size needed freed xs).length) :
    freed+((xs.take j).map size).sum < needed := by
  induction xs generalizing freed j with
  | nil => simp [takeUntil] at hj
  | cons x xs ih =>
    cases j with
    | zero => simpa using hfreed
    | succ j =>
      rw [takeUntil,List.length_cons,Nat.succ_lt_succ_iff] at hj
      split at hj
      case isTrue => simp at hj
      case isFalse hx =>
        have hrest := ih (not_le.mp hx) hj
        rwa [List.take_succ_cons,List.map_cons,List.sum_cons,← add_assoc]

theorem takeUntil_dropLast_lt {size : α → ℤ} {needed freed : ℤ} (hfreed : freed < needed)
    (xs : List α) : freed+((takeUntil size needed freed xs).dropLast.map size).sum < needed := by
  cases hlength : (takeUntil size needed freed xs).length with
  | zero => simpa [List.length_eq_zero_iff.mp hlength] using hfreed
  | succ n =>
    have hlast := takeUntil_take_lt hfreed (by omega : n < (takeUntil size needed freed xs).length)
    have hinitial := List.prefix_iff_eq_take.mp (takeUntil_initial size needed freed xs)
    have hdrop : (takeUntil size needed freed xs).dropLast = xs.take n := by
      rw [List.dropLast_eq_take,hlength,Nat.add_sub_cancel]
      conv_lhs => rw [hinitial]
      rw [List.take_take,hlength,min_eq_left (Nat.le_succ n)]
    rwa [hdrop]

theorem takeUntil_eq_nil {size : α → ℤ} {needed freed : ℤ} {xs : List α} :
    takeUntil size needed freed xs = [] ↔ xs = [] := by
  cases xs <;> simp [takeUntil]

theorem takeUntil_append {size : α → ℤ} {needed freed : ℤ} (hfreed : freed < needed)
    (xs ys : List α) : takeUntil size needed freed (xs ++ ys) = takeUntil size needed freed xs ++
      if needed ≤ freed+((takeUntil size needed freed xs).map size).sum then []
      else takeUntil size needed (freed+((takeUntil size needed freed xs).map size).sum) ys := by
  induction xs generalizing freed with
  | nil => simp [takeUntil,hfreed]
  | cons x xs ih =>
    rw [List.cons_append,takeUntil,takeUntil]
    by_cases hx : needed ≤ freed+size x
    · simp [hx]
    · rw [if_neg hx,if_neg hx,ih (not_le.mp hx)]
      simp only [List.cons_append,List.map_cons,List.sum_cons,add_assoc]

theorem takeUntil_of_nonpos {size : α → ℤ} {needed freed : ℤ} {xs : List α}
    (hfreed : freed < needed) (h : ∀ y ∈ xs, size y ≤ 0) :
    takeUntil size needed freed xs = xs := by
  induction xs generalizing freed with
  | nil => rfl
  | cons y ys ih =>
    have hy := h y (by simp)
    rw [takeUntil,if_neg (by omega),ih (by omega) fun z hz => h z (by simp [hz])]

/-- What is taken from lists in a row is all of some of them and a front part of the next. -/
theorem initial_flatMap {β : Type} {f : α → List β} {xs : List α} {taken : List β}
    (hxs : xs ≠ []) (h : taken <+: xs.flatMap f) : ∃ whole last rest part,
      xs = whole ++ last::rest ∧ taken = whole.flatMap f ++ part ∧ part <+: f last := by
  induction xs generalizing taken with
  | nil => exact absurd rfl hxs
  | cons x xs ih =>
    rw [List.flatMap_cons] at h
    cases List.prefix_or_prefix_of_prefix h (List.prefix_append (f x) _) with
    | inl hpart => exact ⟨[],x,xs,taken,rfl,rfl,hpart⟩
    | inr hall =>
      obtain ⟨more,rfl⟩ := hall
      have hmore := (List.prefix_append_right_inj (f x)).mp h
      by_cases hnil : xs = []
      · subst hnil
        rw [List.flatMap_nil,List.prefix_nil] at hmore
        subst hmore
        exact ⟨[],x,[],f x,rfl,by simp,List.prefix_refl _⟩
      · obtain ⟨whole,last,rest,part,rfl,rfl,hpart⟩ := ih hnil hmore
        exact ⟨x::whole,last,rest,part,rfl,by simp,hpart⟩

/-- Of groups laid out in a row, `taken` has all of some, the front of the next, and nothing of
the rest. -/
structure Cut (layout : List α → List α) (groups : List (List α)) (taken : List α)
    (whole : List (List α)) (last : List α) (rest : List (List α)) : Prop where
  groups_eq : groups = whole ++ last::rest
  whole : ∀ c ∈ whole, ∀ x ∈ c, x ∈ taken
  last : ∃ part, part <+: layout last ∧ ∀ x ∈ last, x ∈ taken ↔ x ∈ part
  rest : ∀ c ∈ rest, ∀ x ∈ c, x ∉ taken

theorem exists_cut {layout : List α → List α} (hlayout : ∀ c x, x ∈ layout c ↔ x ∈ c)
    {groups : List (List α)} {taken : List α} (hgroups : groups ≠ [])
    (hapart : groups.Pairwise fun c c' => ∀ x ∈ c, x ∉ c')
    (h : taken <+: groups.flatMap layout) :
    ∃ whole last rest, Cut layout groups taken whole last rest := by
  obtain ⟨whole,last,rest,part,rfl,rfl,hpart⟩ := initial_flatMap hgroups h
  obtain ⟨_,hright,hcross⟩ := List.pairwise_append.mp hapart
  have hrest := (List.pairwise_cons.mp hright).1
  have hfrom : ∀ x ∈ part, x ∈ last := fun x hx => (hlayout last x).mp (hpart.subset hx)
  refine ⟨whole,last,rest,rfl,fun c hc x hx => ?_,⟨part,hpart,fun x hx => ?_⟩,
    fun c hc x hx htaken => ?_⟩
  · exact List.mem_append_left _ (List.mem_flatMap.mpr ⟨c,hc,(hlayout c x).mpr hx⟩)
  · rw [List.mem_append]
    refine or_iff_right fun hmem => ?_
    obtain ⟨c,hc,hxc⟩ := List.mem_flatMap.mp hmem
    exact hcross c hc last (by simp) x ((hlayout c x).mp hxc) hx
  · cases List.mem_append.mp htaken with
    | inl hmem =>
      obtain ⟨c',hc',hxc⟩ := List.mem_flatMap.mp hmem
      exact hcross c' hc' c (by simp [hc]) x ((hlayout c' x).mp hxc) hx
    | inr hmem => exact hrest c hc x (hfrom x hmem) hx

section Cut

variable {layout : List α → List α} {groups : List (List α)} {taken : List α}
  {whole : List (List α)} {last : List α} {rest : List (List α)}
  (h : Cut layout groups taken whole last rest)
include h

theorem Cut.eq_last {c : List α} (hc : c ∈ groups) {x y : α} (hx : x ∈ c) (hin : x ∈ taken)
    (hy : y ∈ c) (hout : y ∉ taken) : c = last := by
  rw [h.groups_eq,List.mem_append,List.mem_cons] at hc
  rcases hc with hc | hc | hc
  · exact absurd (h.whole c hc y hy) hout
  · exact hc
  · exact absurd hin (h.rest c hc x hx)

theorem Cut.before {R : List α → List α → Prop} (hsorted : groups.Pairwise R) {c c' : List α}
    (hc : c ∈ groups) (hc' : c' ∈ groups) {x y : α} (hx : x ∈ c) (hin : x ∈ taken)
    (hy : y ∈ c') (hout : y ∉ taken) : c = c' ∨ R c c' := by
  rw [h.groups_eq,List.pairwise_append,List.pairwise_cons] at hsorted
  obtain ⟨_,⟨hlast,_⟩,hwhole⟩ := hsorted
  rw [h.groups_eq,List.mem_append] at hc hc'
  have hlate : c' ∈ last::rest := hc'.resolve_left fun hmem => hout (h.whole c' hmem y hy)
  cases hc with
  | inl hc => exact Or.inr (hwhole c hc c' hlate)
  | inr hc =>
    cases List.mem_cons.mp hc with
    | inl hc =>
      subst hc
      exact (List.mem_cons.mp hlate).imp Eq.symm (hlast c')
    | inr hc => exact absurd hin (h.rest c hc x hx)

end Cut

section Ahead

variable [DecidableEq κ] (key : α → κ) (size : α → ℤ)

/-- What lies before the first element with a key, counted as far as it frees anything. -/
def ahead (xs : List α) (k : κ) : ℤ :=
  ((xs.takeWhile fun x => key x ≠ k).map fun x => max 0 (size x)).sum

theorem ahead_nonneg (xs : List α) (k : κ) : 0 ≤ ahead key size xs k := by
  apply List.sum_nonneg
  intro n hn
  obtain ⟨x,_,rfl⟩ := List.mem_map.mp hn
  exact le_max_left _ _

theorem ahead_cons_of_ne {key : α → κ} {x : α} {k : κ} (h : key x ≠ k) (xs : List α) :
    ahead key size (x::xs) k = max 0 (size x)+ahead key size xs k := by
  simp [ahead,h]

/-- When no size counts against the others, the element with a key is taken exactly when
those before it do not meet the demand. -/
theorem mem_takeUntil_iff {key : α → κ} {size : α → ℤ} {needed freed : ℤ} {xs : List α} {k : κ}
    (hfreed : freed < needed) (hk : k ∈ xs.map key)
    (hsign : (∀ x ∈ xs, 0 ≤ size x) ∨ ∀ x ∈ xs, size x ≤ 0) :
    k ∈ (takeUntil size needed freed xs).map key ↔ freed+ahead key size xs k < needed := by
  cases hsign with
  | inl hpos =>
    induction xs generalizing freed with
    | nil => simp at hk
    | cons x xs ih =>
      rw [takeUntil,List.map_cons,List.mem_cons]
      by_cases hx : key x = k
      · simp [hx,hfreed,ahead]
      · have hxs : k ∈ xs.map key := (List.mem_cons.mp hk).resolve_left (Ne.symm hx)
        have hsize := hpos x (by simp)
        have hrest := ahead_nonneg key size xs k
        rw [ahead_cons_of_ne size hx,max_eq_right hsize,or_iff_right (Ne.symm hx)]
        by_cases hstop : needed ≤ freed+size x
        · simp only [hstop,if_true,List.map_nil,List.not_mem_nil,false_iff]
          omega
        · rw [if_neg hstop,ih (not_le.mp hstop) hxs fun z hz => hpos z (by simp [hz]),
            add_assoc]
  | inr hneg =>
    have hzero : ahead key size xs k = 0 := by
      apply List.sum_eq_zero
      intro n hn
      obtain ⟨x,hx,rfl⟩ := List.mem_map.mp hn
      exact max_eq_left (hneg x ((List.takeWhile_sublist _).subset hx))
    rw [takeUntil_of_nonpos hfreed hneg,hzero,add_zero]
    exact iff_of_true hk hfreed

theorem ahead_le_of_pairwise {key : α → κ} (size : α → ℤ) {R : α → α → Prop} {xs : List α}
    (hn : (xs.map key).Nodup) (hxs : xs.Pairwise R) {x y : α} (hx : x ∈ xs) (hy : y ∈ xs)
    (hR : ¬ R x y) :
    ahead key size xs (key y) ≤ ahead key size xs (key x) := by
  induction xs with
  | nil => simp at hx
  | cons z zs ih =>
    obtain ⟨hz,hzs⟩ := List.pairwise_cons.mp hxs
    rw [List.map_cons,List.nodup_cons] at hn
    by_cases hzy : key z = key y
    · have hzero : ahead key size (z::zs) (key y) = 0 := by simp [ahead,hzy]
      rw [hzero]
      exact ahead_nonneg _ _ _ _
    · have hy' : y ∈ zs := (List.mem_cons.mp hy).resolve_left fun e => hzy (e ▸ rfl)
      have hxz : x ≠ z := fun e => hR (e ▸ hz y hy')
      have hx' : x ∈ zs := (List.mem_cons.mp hx).resolve_left hxz
      have hzx : key z ≠ key x := fun e => hn.1 (e ▸ List.mem_map_of_mem hx')
      have hrest := ih hn.2 hzs hx' hy'
      rw [ahead_cons_of_ne size hzy,ahead_cons_of_ne size hzx]
      omega

end Ahead

theorem dropWhile_suffix_dropWhile {p q : α → Bool} {xs : List α}
    (h : ∀ x ∈ xs, p x = true → q x = true) : xs.dropWhile q <:+ xs.dropWhile p := by
  induction xs with
  | nil => simp
  | cons x xs ih =>
    have ih := ih fun y hy => h y (List.mem_cons_of_mem _ hy)
    cases hp : p x with
    | true => simpa [hp,h x (by simp) hp] using ih
    | false =>
      have hall : (x::xs).dropWhile p = x::xs := by simp [hp]
      rw [hall]
      exact List.dropWhile_suffix _

theorem sum_dropWhile_le {p q : α → Bool} {xs : List α} {f : α → ℤ}
    (h : ∀ x ∈ xs, p x = true → q x = true) (hf : ∀ x, 0 ≤ f x) :
    ((xs.dropWhile q).map f).sum ≤ ((xs.dropWhile p).map f).sum := by
  refine ((dropWhile_suffix_dropWhile h).sublist.map f).sum_le_sum ?_
  rintro _ hy
  obtain ⟨x,_,rfl⟩ := List.mem_map.mp hy
  exact hf x

theorem mem_dropWhile_iff [DecidableEq α] {p : α → Bool} {xs : List α} {x : α} (hn : xs.Nodup)
    (hx : x ∈ xs) : x ∈ xs.dropWhile p ↔ ∃ y ∈ xs.takeWhile (· ≠ x) ++ [x], p y = false := by
  induction xs with
  | nil => simp at hx
  | cons y ys ih =>
    rw [List.nodup_cons] at hn
    by_cases hyx : y = x
    · subst hyx
      cases hp : p y <;> simp [hp,hn.1]
      exact fun hmem => hn.1 ((List.dropWhile_suffix _).subset hmem)
    · have hys : x ∈ ys := (List.mem_cons.mp hx).resolve_left fun e => hyx e.symm
      cases hp : p y with
      | true => simpa [hp,hyx] using ih hn.2 hys
      | false => simp [hp,hyx,hys]

/-- A scan of a range takes a shorter range, up to the first failure. -/
theorem takeWhile_range (p : ℕ → Bool) (n : ℕ) :
    ∃ c ≤ n, (List.range n).takeWhile p = List.range c ∧ (∀ i < c, p i = true) ∧
      (c < n → p c = false) := by
  induction n with
  | zero => exact ⟨0,le_rfl,rfl,by simp,by simp⟩
  | succ n ih =>
    obtain ⟨c,hc,htake,hall,hstop⟩ := ih
    rw [List.range_succ,List.takeWhile_append,htake,List.length_range,List.length_range]
    by_cases hcn : c = n
    · subst hcn
      cases hp : p c with
      | true =>
        refine ⟨c+1,le_rfl,by simp [hp,List.range_succ],fun i hi => ?_,by omega⟩
        rcases Nat.lt_succ_iff_lt_or_eq.mp hi with hi | rfl
        · exact hall i hi
        · exact hp
      | false => exact ⟨c,by omega,by simp [hp],hall,fun _ => hp⟩
    · exact ⟨c,by omega,by rw [if_neg hcn],hall,fun _ => hstop (by omega)⟩

end ContextResidency
