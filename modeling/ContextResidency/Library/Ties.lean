import ContextResidency.Library.Greedy
import Mathlib.Data.Finset.Card
import Mathlib.Data.Finset.Powerset

/-! The first elements of a sorted list, when the list comes in an arbitrary order. Elements
of equal rank keep the order in which they came, so a set can have several choices of first
elements. It has one only, unless the elements of one rank lie on both sides of the cut. -/
namespace ContextResidency

variable {α κ : Type} [LinearOrder κ]

/-- A choice of `k` elements such that no element left out ranks before one of them. -/
structure FirstOf (rank : α → κ) (s : Finset α) (k : ℕ) (chosen : Finset α) : Prop where
  subset : chosen ⊆ s
  card : chosen.card = min k s.card
  le : ∀ x ∈ chosen, ∀ y ∈ s, y ∉ chosen → rank x ≤ rank y

/-- The elements of one rank lie on both sides of the cut. -/
structure Straddles (rank : α → κ) (s : Finset α) (k : ℕ) (r : κ) : Prop where
  below : (s.filter fun x => rank x < r).card < k
  above : k < (s.filter fun x => rank x ≤ r).card

namespace FirstOf

variable [DecidableEq α] {rank : α → κ} {s chosen other : Finset α} {k : ℕ}

theorem of_take {xs : List α} (hn : xs.Nodup) (hxs : ∀ x, x ∈ xs ↔ x ∈ s) :
    FirstOf rank s k ((sortedBy rank xs).take k).toFinset := by
  have hset : xs.toFinset = s := by
    ext x
    rw [List.mem_toFinset,hxs]
  have hperm := sortedBy_perm rank xs
  constructor
  case subset =>
    intro x hx
    exact (hxs x).mp (mem_sortedBy.mp (List.mem_of_mem_take (List.mem_toFinset.mp hx)))
  case card =>
    have hnodup : ((sortedBy rank xs).take k).Nodup :=
      (List.take_sublist _ _).nodup (hperm.nodup_iff.mpr hn)
    rw [List.toFinset_card_of_nodup hnodup,List.length_take,hperm.length_eq,← hset,
      List.toFinset_card_of_nodup hn]
  case le =>
    intro x hx y hy hleft
    rw [List.mem_toFinset] at hx hleft
    by_contra hlt
    exact hleft (mem_initial_of_lt (List.take_prefix _ _) hx ((hxs y).mpr hy) (not_le.mp hlt))

/-- Every choice comes from some listing: the chosen elements first. -/
theorem exists_listing (h : FirstOf rank s k chosen) : ∃ xs : List α, xs.Nodup ∧
    (∀ x, x ∈ xs ↔ x ∈ s) ∧ ((sortedBy rank xs).take k).toFinset = chosen := by
  set first := sortedBy rank chosen.toList
  set rest := sortedBy rank (s \ chosen).toList
  have hfirst : ∀ x, x ∈ first ↔ x ∈ chosen := by simp [first]
  have hrest : ∀ x, x ∈ rest ↔ x ∈ s ∧ x ∉ chosen := by simp [rest]
  have hlength : first.length = chosen.card := by simp [first,(sortedBy_perm _ _).length_eq]
  have hsorted : (first ++ rest).Pairwise fun a b => rank a ≤ rank b := by
    rw [List.pairwise_append]
    refine ⟨sortedBy_pairwise _ _,sortedBy_pairwise _ _,?_⟩
    intro x hx y hy
    rcases (hrest y).mp hy with ⟨hys,hleft⟩
    exact h.le x ((hfirst x).mp hx) y hys hleft
  refine ⟨first ++ rest,?_,?_,?_⟩
  · rw [List.nodup_append]
    refine ⟨(sortedBy_perm _ _).nodup_iff.mpr (Finset.nodup_toList _),
      (sortedBy_perm _ _).nodup_iff.mpr (Finset.nodup_toList _),?_⟩
    rintro x hx y hy rfl
    exact ((hrest x).mp hy).2 ((hfirst x).mp hx)
  · intro x
    rw [List.mem_append,hfirst,hrest]
    constructor
    · exact fun hx => hx.elim (fun hx => h.subset hx) And.left
    · intro hx
      by_cases hc : x ∈ chosen
      · exact Or.inl hc
      · exact Or.inr ⟨hx,hc⟩
  · have htake : (first ++ rest).take k = first := by
      have hcard := h.card
      rcases le_total k s.card with hk | hk
      · rw [List.take_left' (by omega)]
      · have hall : chosen = s := Finset.eq_of_subset_of_card_le h.subset (by omega)
        have hnil : rest = [] := List.eq_nil_iff_forall_not_mem.mpr fun x hx => by
          rcases (hrest x).mp hx with ⟨hxs,hleft⟩
          exact hleft (hall ▸ hxs)
        rw [hnil,List.append_nil,List.take_of_length_le (by omega)]
    rw [sortedBy_eq_self hsorted,htake]
    ext x
    rw [List.mem_toFinset,hfirst]

omit [LinearOrder κ] in
theorem exists_left_of_ne (hcard : other.card ≤ chosen.card) (hne : chosen ≠ other) :
    ∃ x ∈ chosen, x ∉ other := by
  by_contra hall
  push Not at hall
  exact hne (Finset.eq_of_subset_of_card_le hall hcard)

/-- Two choices differ only in elements of one rank, which lies on both sides of the cut. -/
theorem straddles (h : FirstOf rank s k chosen) (h' : FirstOf rank s k other)
    (hne : chosen ≠ other) : ∃ x ∈ s, Straddles rank s k (rank x) := by
  have hcard : chosen.card = other.card := h.card.trans h'.card.symm
  rcases exists_left_of_ne hcard.ge hne with ⟨x,hx,hxo⟩
  rcases exists_left_of_ne hcard.le hne.symm with ⟨y,hy,hyc⟩
  have hxy : rank x = rank y :=
    le_antisymm (h.le x hx y (h'.subset hy) hyc) (h'.le y hy x (h.subset hx) hxo)
  refine ⟨x,h.subset hx,?_,?_⟩
  · have hsub : (s.filter fun z => rank z < rank x) ⊆ chosen.erase x := by
      intro z hz
      rcases Finset.mem_filter.mp hz with ⟨hzs,hlt⟩
      have hzx : z ≠ x := by
        rintro rfl
        exact lt_irrefl _ hlt
      refine Finset.mem_erase.mpr ⟨hzx,?_⟩
      by_contra hzc
      exact absurd (h.le x hx z hzs hzc) (not_le.mpr hlt)
    have hlt := (Finset.card_le_card hsub).trans_lt (Finset.card_erase_lt_of_mem hx)
    have hchosen := h.card
    omega
  · have hsub : insert y chosen ⊆ s.filter fun z => rank z ≤ rank x := by
      intro z hz
      cases Finset.mem_insert.mp hz with
      | inl hzy => exact Finset.mem_filter.mpr ⟨hzy ▸ h'.subset hy,hzy ▸ hxy.ge⟩
      | inr hzc =>
        exact Finset.mem_filter.mpr ⟨h.subset hzc,hxy ▸ h.le z hzc y (h'.subset hy) hyc⟩
    have hle := Finset.card_le_card hsub
    rw [Finset.card_insert_of_notMem hyc] at hle
    have hmore : chosen.card < s.card :=
      Finset.card_lt_card ⟨h.subset,fun hsc => hyc (hsc (h'.subset hy))⟩
    have hchosen := h.card
    omega

section Straddle

variable {r : κ} (hcut : Straddles rank s k r)
include hcut

/-- Around a rank on both sides of the cut, the choices are the sets between. -/
theorem iff_between : FirstOf rank s k chosen ↔ (s.filter fun x => rank x < r) ⊆ chosen ∧
    chosen ⊆ (s.filter fun x => rank x ≤ r) ∧ chosen.card = k := by
  have hbelow := hcut.below
  have habove := hcut.above
  have hmin : min k s.card = k :=
    min_eq_left (habove.le.trans (Finset.card_le_card (Finset.filter_subset _ _)))
  constructor
  · intro h
    have hk : chosen.card = k := h.card.trans hmin
    refine ⟨?_,?_,hk⟩
    · intro x hx
      rcases Finset.mem_filter.mp hx with ⟨hxs,hlt⟩
      by_contra hxc
      -- everything chosen would rank below the cut
      have hsub : chosen ⊆ s.filter fun z => rank z < r := fun z hz =>
        Finset.mem_filter.mpr ⟨h.subset hz,(h.le z hz x hxs hxc).trans_lt hlt⟩
      have := Finset.card_le_card hsub
      omega
    · intro x hx
      refine Finset.mem_filter.mpr ⟨h.subset hx,?_⟩
      by_contra hgt
      -- everything up to the cut would be chosen
      have hsub : (s.filter fun z => rank z ≤ r) ⊆ chosen := by
        intro z hz
        rcases Finset.mem_filter.mp hz with ⟨hzs,hle⟩
        by_contra hzc
        exact hgt ((h.le x hx z hzs hzc).trans hle)
      have := Finset.card_le_card hsub
      omega
  · rintro ⟨hlow,hhigh,hk⟩
    constructor
    case subset => exact hhigh.trans (Finset.filter_subset _ _)
    case card => rw [hk,hmin]
    case le =>
      intro x hx y hy hyc
      have hyr : r ≤ rank y := not_lt.mp fun hlt => hyc (hlow (Finset.mem_filter.mpr ⟨hy,hlt⟩))
      exact (Finset.mem_filter.mp (hhigh hx)).2.trans hyr

theorem exists_other (h : FirstOf rank s k chosen) : ∃ other, FirstOf rank s k other ∧
    other ≠ chosen := by
  have hbelow := hcut.below
  have habove := hcut.above
  rcases (iff_between hcut).mp h with ⟨hlow,hhigh,hk⟩
  have hin : ∃ w ∈ chosen, w ∉ s.filter fun x => rank x < r :=
    Finset.exists_mem_notMem_of_card_lt_card (hbelow.trans_eq hk.symm)
  have hout : ∃ z ∈ s.filter fun x => rank x ≤ r, z ∉ chosen :=
    Finset.exists_mem_notMem_of_card_lt_card (hk.trans_lt habove)
  rcases hin with ⟨w,hw,hwlow⟩
  rcases hout with ⟨z,hz,hzc⟩
  have hzw : z ∉ chosen.erase w := fun hz => hzc (Finset.mem_of_mem_erase hz)
  refine ⟨insert z (chosen.erase w),(iff_between hcut).mpr ⟨?_,?_,?_⟩,?_⟩
  · intro x hx
    have hxw : x ≠ w := by
      rintro rfl
      exact hwlow hx
    exact Finset.mem_insert_of_mem (Finset.mem_erase.mpr ⟨hxw,hlow hx⟩)
  · intro x hx
    cases Finset.mem_insert.mp hx with
    | inl hxz => exact hxz ▸ hz
    | inr hxc => exact hhigh (Finset.mem_of_mem_erase hxc)
  · rw [Finset.card_insert_of_notMem hzw,Finset.card_erase_of_mem hw]
    omega
  · intro heq
    exact hzc (heq ▸ Finset.mem_insert_self z _)

end Straddle

end FirstOf

end ContextResidency
