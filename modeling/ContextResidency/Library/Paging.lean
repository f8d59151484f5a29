import Mathlib.Data.Finset.Card
import Mathlib.Tactic

/-! Unit-size demand paging, and why nothing beats evicting the item that is used
farthest in the future. A cache is compared with a rival by what each of them holds for
the uses up to a given time: the misses that the rival has saved so far never exceed
what the cache still holds beyond it. -/
namespace ContextResidency

variable {α τ : Type} [DecidableEq α] [LinearOrder τ]

/-- The cached items that are used again by time `u`. -/
def soon (next : α → τ) (cache : Finset α) (u : τ) : ℕ := (cache.filter fun p => next p ≤ u).card

/-- One step of any paging: the item asked for is in the cache after it. -/
structure Paged (capacity : ℕ) (cache : Finset α) (x : α) (cache' : Finset α) : Prop where
  held : x ∈ cache'
  subset : cache' ⊆ insert x cache
  card : cache'.card ≤ capacity

/-- A step that keeps everything, or gives up the item whose next use is farthest out. -/
inductive FarthestOut (capacity : ℕ) (next : α → τ) (cache : Finset α) (x : α) : Finset α → Prop
  | keep : FarthestOut capacity next cache x (insert x cache)
  | replace (victim : α) : x ∉ cache → victim ∈ cache → (∀ p ∈ cache, next p ≤ next victim) →
      capacity ≤ cache.card → FarthestOut capacity next cache x (insert x (cache.erase victim))

def missed (cache : Finset α) (x : α) : ℕ := if x ∈ cache then 0 else 1

/-- After `m` misses the cache is ahead of a rival after `n` misses, at every horizon. -/
structure Ahead (next : α → τ) (cache rival : Finset α) (m n : ℕ) : Prop where
  total : m ≤ n
  inTime : ∀ u, m+soon next rival u ≤ n+soon next cache u

theorem FarthestOut.held {capacity : ℕ} {next : α → τ} {cache cache' : Finset α} {x : α}
    (h : FarthestOut capacity next cache x cache') : x ∈ cache' := by
  cases h with
  | keep => exact Finset.mem_insert_self _ _
  | replace => exact Finset.mem_insert_self _ _

omit [DecidableEq α] in
theorem soon_mono (next : α → τ) {cache cache' : Finset α} (h : cache ⊆ cache') (u : τ) :
    soon next cache u ≤ soon next cache' u :=
  Finset.card_le_card (Finset.filter_subset_filter _ h)

omit [DecidableEq α] in
theorem soon_le_card (next : α → τ) (cache : Finset α) (u : τ) : soon next cache u ≤ cache.card :=
  Finset.card_filter_le _ _

omit [DecidableEq α] in
theorem soon_eq_card {next : α → τ} {cache : Finset α} {u : τ} (h : ∀ p ∈ cache, next p ≤ u) :
    soon next cache u = cache.card := by rw [soon,Finset.filter_true_of_mem h]

theorem soon_erase_of_far {next : α → τ} {cache : Finset α} {victim : α} {u : τ}
    (h : u < next victim) : soon next (cache.erase victim) u = soon next cache u := by
  unfold soon
  rw [Finset.filter_erase,Finset.erase_eq_of_notMem]
  simp [h]

/-- With the item asked for set aside, whose own next use moves. -/
theorem soon_insert {next next' : α → τ} {x : α} (hsame : ∀ p, p ≠ x → next' p = next p)
    {cache : Finset α} (hx : x ∈ cache) (u : τ) : soon next' cache u =
      soon next (cache.erase x) u+if next' x ≤ u then 1 else 0 := by
  have hrest : (cache.erase x).filter (fun p => next' p ≤ u) =
      (cache.erase x).filter fun p => next p ≤ u := by
    apply Finset.filter_congr
    intro p hp
    rw [hsame p (Finset.ne_of_mem_erase hp)]
  unfold soon
  rw [← hrest,← Finset.insert_erase hx,Finset.filter_insert,Finset.erase_insert_eq_erase,
    Finset.erase_idem]
  by_cases hu : next' x ≤ u
  · rw [if_pos hu,if_pos hu,Finset.card_insert_of_notMem (by simp)]
  · rw [if_neg hu,if_neg hu,add_zero]

section Step

variable {capacity m n : ℕ} {next next' : α → τ} {cache cache' rival rival' : Finset α} {x : α}

/-- Up to a time after the next access, it counts if it is a hit. -/
theorem soon_of_le {u : τ} (hu : next x ≤ u) (cache : Finset α) :
    soon next cache u+missed cache x = soon next (cache.erase x) u+1 := by
  by_cases hx : x ∈ cache
  · rw [soon_insert (fun _ _ => rfl) hx,if_pos hu,missed,if_pos hx]
  · rw [missed,if_neg hx,Finset.erase_eq_of_notMem hx]

theorem soon_of_le_next {u : τ} (hu : u ≤ next x) (hfirst : ∀ p ∈ cache, p ≠ x → next x < next p) :
    soon next (cache.erase x) u = 0 := by
  rw [soon,Finset.card_eq_zero,Finset.filter_eq_empty_iff]
  intro p hp
  exact not_le.mpr (hu.trans_lt (hfirst p (Finset.mem_of_mem_erase hp) (Finset.ne_of_mem_erase hp)))

variable (h : Ahead next cache rival m n) (hcache : ∀ p ∈ cache, p ≠ x → next x < next p)
  (hrival : ∀ p ∈ rival, p ≠ x → next x < next p)
include h hcache hrival

theorem Ahead.total_step : m+missed cache x ≤ n+missed rival x := by
  have hahead := h.inTime (next x)
  have hc := soon_of_le (le_refl (next x)) cache
  have hr := soon_of_le (le_refl (next x)) rival
  rw [soon_of_le_next le_rfl hcache] at hc
  rw [soon_of_le_next le_rfl hrival] at hr
  omega

/-- Nothing changes for the items that are not asked for. -/
theorem Ahead.inTime_erase (u : τ) : m+missed cache x+soon next (rival.erase x) u ≤
    n+missed rival x+soon next (cache.erase x) u := by
  cases le_or_gt (next x) u with
  | inl hu =>
    have hahead := h.inTime u
    have hc := soon_of_le hu cache
    have hr := soon_of_le hu rival
    omega
  | inr hu =>
    rw [soon_of_le_next hu.le hrival]
    have htotal := h.total_step hcache hrival
    omega

/-- A cache that gives up what is used farthest out stays ahead. -/
theorem Ahead.step (hsame : ∀ p, p ≠ x → next' p = next p)
    (hfar : FarthestOut capacity next cache x cache') (hpaged : Paged capacity rival x rival') :
    Ahead next' cache' rival' (m+missed cache x) (n+missed rival x) := by
  have htotal := h.total_step hcache hrival
  have hless : rival'.erase x ⊆ rival.erase x := by
    intro p hp
    have hp' := Finset.mem_erase.mp hp
    exact Finset.mem_erase.mpr
      ⟨hp'.1,(Finset.mem_insert.mp (hpaged.subset hp'.2)).resolve_left hp'.1⟩
  refine ⟨htotal,fun u => ?_⟩
  rw [soon_insert hsame hpaged.held,soon_insert hsame hfar.held]
  have herase := h.inTime_erase hcache hrival u
  have hmono := soon_mono next hless u
  cases hfar with
  | keep =>
    rw [Finset.erase_insert_eq_erase]
    omega
  | replace victim hx hvictim hfarthest hfull =>
    have hne : victim ≠ x := fun e => hx (e ▸ hvictim)
    have hkept : (insert x (cache.erase victim)).erase x = cache.erase victim :=
      Finset.erase_insert fun hmem => hx (Finset.mem_of_mem_erase hmem)
    rw [hkept]
    cases lt_or_ge u (next victim) with
    | inl hu =>
      rw [soon_erase_of_far hu]
      rw [Finset.erase_eq_of_notMem hx] at herase
      omega
    | inr hu =>
      -- All that is left is used in time, and the rival has no more places.
      have hall : soon next (cache.erase victim) u = (cache.erase victim).card :=
        soon_eq_card fun p hp => (hfarthest p (Finset.mem_of_mem_erase hp)).trans hu
      have hplaces := soon_le_card next (rival'.erase x) u
      have hcard := hpaged.card
      have hcard' := Finset.card_erase_of_mem hpaged.held
      have hcard'' := Finset.card_erase_of_mem hvictim
      omega

end Step
end ContextResidency
