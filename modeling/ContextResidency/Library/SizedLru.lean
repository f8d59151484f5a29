import ContextResidency.Library.Greedy
import ContextResidency.Library.Lru
import ContextResidency.Library.Recency

/-! LRU caches of items of different sizes. A miss evicts from the old end, no further than
the new item asks for, so a cache with no smaller a budget ends in what a smaller one holds.
Sizes may grow: an item is held with the size it had when it came, while the room that an
eviction makes is reckoned with the present sizes. -/
namespace ContextResidency

namespace SizedLru

variable {K : Type}

/-- What the items held leave of the budget. -/
def free (cap : ℤ) (held : List (K × ℤ)) : ℤ := max 0 (cap-weight held)

/-- What an item of `n` units drives out: nothing where it fits. -/
def displaced (cap n : ℤ) (held : List (K × ℤ)) : List (K × ℤ) :=
  if n ≤ free cap held then [] else takeUntil Prod.snd (n-free cap held) 0 held

def kept (cap n : ℤ) (held : List (K × ℤ)) : List (K × ℤ) :=
  held.drop (displaced cap n held).length

/-- The present sizes of some items. -/
def measured (bytes : K → ℤ) (held : List (K × ℤ)) : ℤ := (held.map fun p => bytes p.1).sum

@[simp] theorem measured_append (bytes : K → ℤ) (xs ys : List (K × ℤ)) :
    measured bytes (xs ++ ys) = measured bytes xs+measured bytes ys := by simp [measured]

theorem measured_nonneg {bytes : K → ℤ} {held : List (K × ℤ)} (h : ∀ p ∈ held, 0 ≤ bytes p.1) :
    0 ≤ measured bytes held := by
  refine List.sum_nonneg fun n hn => ?_
  obtain ⟨p,hp,rfl⟩ := List.mem_map.mp hn
  exact h p hp

theorem weight_le_measured {bytes : K → ℤ} {held : List (K × ℤ)} (h : ∀ p ∈ held, p.2 ≤ bytes p.1) :
    weight held ≤ measured bytes held := List.sum_le_sum h

def room (cap : ℤ) (bytes : K → ℤ) (n : ℤ) (held : List (K × ℤ)) : ℤ :=
  free cap held+measured bytes (displaced cap n held)

def enter (cap : ℤ) (bytes : K → ℤ) (held : List (K × ℤ)) (k : K) : List (K × ℤ) :=
  kept cap (bytes k) held ++ if bytes k ≤ room cap bytes (bytes k) held then [(k,bytes k)] else []

/-- One access: a hit makes the item the most recent, a miss lets it in. -/
def use [DecidableEq K] (cap : ℤ) (bytes : K → ℤ) (held : List (K × ℤ)) (k : K) : List (K × ℤ) :=
  if k ∈ held.map Prod.fst then held.filter (·.1 ≠ k) ++ held.filter (·.1 = k)
  else enter cap bytes held k

section Displaced

variable {cap n : ℤ} {held : List (K × ℤ)}

theorem displaced_append_kept (cap n : ℤ) (held : List (K × ℤ)) :
    displaced cap n held ++ kept cap n held = held := by
  have hinitial : displaced cap n held <+: held := by
    rw [displaced]
    split
    · exact List.nil_prefix
    · exact takeUntil_initial _ _ _ _
  exact (List.prefix_append_drop hinitial).symm

theorem kept_suffix : kept cap n held <:+ held := List.drop_suffix _ _

theorem enough_of_kept (h : kept cap n held ≠ []) :
    n ≤ free cap held+weight (displaced cap n held) := by
  rw [kept,displaced] at h
  rw [displaced]
  split
  case isTrue hfits => simpa using hfits
  case isFalse hfull =>
    rw [if_neg hfull] at h
    rcases takeUntil_reaches Prod.snd (n-free cap held) 0 held with hmet | hall
    · rw [weight]
      omega
    · exact absurd (by rw [hall,List.drop_length]) h

theorem short_of_displaced {j : ℕ} (h : j < (displaced cap n held).length) :
    free cap held+weight (held.take j) < n := by
  rw [displaced] at h
  split at h
  case isTrue => simp at h
  case isFalse hfull =>
    have hshort : 0+((held.take j).map Prod.snd).sum < n-free cap held :=
      takeUntil_take_lt (by omega) h
    rw [weight]
    omega

end Displaced

/-- No item is held with more than its present size, and at most a lone one is over budget. -/
structure Within (cap : ℤ) (bytes : K → ℤ) (held : List (K × ℤ)) : Prop where
  nodup : (held.map Prod.fst).Nodup
  sizes : ∀ p ∈ held, p.2 ≤ bytes p.1
  nonneg : ∀ p ∈ held, 0 ≤ bytes p.1
  budget : cap < weight held → held.length ≤ 1

section Within

variable {cap n : ℤ} {bytes : K → ℤ} {held : List (K × ℤ)}

theorem within_nil (cap : ℤ) (bytes : K → ℤ) : Within cap bytes [] where
  nodup := List.nodup_nil
  sizes := by simp
  nonneg := by simp
  budget := fun _ => Nat.zero_le _

theorem Within.grow (h : Within cap bytes held) {bytes' : K → ℤ} (hmono : ∀ k, bytes k ≤ bytes' k) :
    Within cap bytes' held where
  nodup := h.nodup
  sizes := fun p hp => (h.sizes p hp).trans (hmono _)
  nonneg := fun p hp => (h.nonneg p hp).trans (hmono _)
  budget := h.budget

theorem Within.fits (h : Within cap bytes held) (hn : 0 < n) (hkept : kept cap n held ≠ []) :
    weight (kept cap n held)+n ≤ cap := by
  have henough := enough_of_kept hkept
  have hsplit : weight held = weight (displaced cap n held)+weight (kept cap n held) := by
    rw [← weight_append,displaced_append_kept]
  by_cases hover : cap < weight held
  · -- A lone item over budget does not stay.
    have hlone := h.budget hover
    have hlength := congrArg List.length (displaced_append_kept cap n held)
    have hpos := List.length_pos_iff.mpr hkept
    rw [List.length_append] at hlength
    have hnone : displaced cap n held = [] := List.length_eq_zero_iff.mp (by omega)
    rw [hnone,weight_nil,free] at henough
    omega
  · rw [free] at henough
    omega

theorem Within.room_of_kept (h : Within cap bytes held) (hkept : kept cap n held ≠ []) :
    n ≤ room cap bytes n held := by
  have hsub : displaced cap n held ⊆ held := by
    intro p hp
    rw [← displaced_append_kept cap n held]
    exact List.mem_append_left _ hp
  have hmeasured := weight_le_measured fun p hp => h.sizes p (hsub hp)
  have henough := enough_of_kept hkept
  rw [room]
  omega

/-- An item that finds no room finds nothing left either. -/
theorem Within.enter_of_no_room (h : Within cap bytes held) {k : K}
    (hroom : ¬ bytes k ≤ room cap bytes (bytes k) held) : enter cap bytes held k = [] := by
  have hnil : kept cap (bytes k) held = [] := by
    by_contra hne
    exact hroom (h.room_of_kept hne)
  rw [enter,if_neg hroom,hnil,List.append_nil]

theorem Within.suffix (h : Within cap bytes held) {rest : List (K × ℤ)} (hrest : rest <:+ held)
    (hbudget : cap < weight rest → rest.length ≤ 1) : Within cap bytes rest where
  nodup := (hrest.sublist.map Prod.fst).nodup h.nodup
  sizes := fun p hp => h.sizes p (hrest.subset hp)
  nonneg := fun p hp => h.nonneg p (hrest.subset hp)
  budget := hbudget

theorem Within.enter (h : Within cap bytes held) {k : K} (hk : k ∉ held.map Prod.fst)
    (hpos : 0 < bytes k) : Within cap bytes (enter cap bytes held k) := by
  have hfits : kept cap (bytes k) held ≠ [] → weight (kept cap (bytes k) held)+bytes k ≤ cap :=
    h.fits hpos
  have hkept : Within cap bytes (kept cap (bytes k) held) := by
    refine h.suffix kept_suffix fun hover => ?_
    by_cases hnil : kept cap (bytes k) held = []
    · simp [hnil]
    · have hle := hfits hnil
      omega
  rw [SizedLru.enter]
  split
  case isFalse => simpa using hkept
  case isTrue =>
    have hnew : ∀ p ∈ kept cap (bytes k) held ++ [(k,bytes k)],
        p ∈ kept cap (bytes k) held ∨ p = (k,bytes k) := by simp
    constructor
    case nodup =>
      rw [List.map_append,List.nodup_append]
      refine ⟨hkept.nodup,by simp,?_⟩
      rintro a ha b hb rfl
      have hb : a = k := by simpa using hb
      exact hk (hb ▸ (kept_suffix.sublist.map Prod.fst).subset ha)
    case sizes =>
      intro p hp
      rcases hnew p hp with hold | rfl
      · exact hkept.sizes p hold
      · exact le_rfl
    case nonneg =>
      intro p hp
      rcases hnew p hp with hold | rfl
      · exact hkept.nonneg p hold
      · exact hpos.le
    case budget =>
      by_cases hnil : kept cap (bytes k) held = []
      · simp [hnil]
      · have hle := hfits hnil
        rw [weight_append,weight_cons,weight_nil]
        omega

variable [DecidableEq K]

theorem use_of_mem (hn : (held.map Prod.fst).Nodup) {k : K} {size : ℤ} (hk : (k,size) ∈ held) :
    use cap bytes held k = held.filter (·.1 ≠ k) ++ [(k,size)] := by
  have hlone : held.filter (·.1 = k) = [(k,size)] := by
    have hnodup := (List.Nodup.of_map _ hn).filter (·.1 = k)
    refine List.perm_singleton.mp ((List.perm_ext_iff_of_nodup hnodup (by simp)).mpr fun p => ?_)
    rw [List.mem_filter,List.mem_singleton]
    constructor
    · rintro ⟨hp,hpk⟩
      exact List.inj_on_of_nodup_map hn hp hk (by simpa using hpk)
    · rintro rfl
      exact ⟨hk,by simp⟩
  rw [use,if_pos (List.mem_map.mpr ⟨_,hk,rfl⟩),hlone]

theorem use_of_not_mem {k : K} (hk : k ∉ held.map Prod.fst) :
    use cap bytes held k = enter cap bytes held k := if_neg hk

theorem Within.use (h : Within cap bytes held) {k : K} (hpos : 0 < bytes k) :
    Within cap bytes (use cap bytes held k) := by
  by_cases hk : k ∈ held.map Prod.fst
  · have hperm : (SizedLru.use cap bytes held k).Perm held := by
      rw [SizedLru.use,if_pos hk]
      have hnot := List.filter_append_perm (fun p : K × ℤ => decide (p.1 = k)) held
      simpa using List.perm_append_comm.trans hnot
    constructor
    case nodup => exact (hperm.map Prod.fst).nodup_iff.mpr h.nodup
    case sizes => exact fun p hp => h.sizes p (hperm.mem_iff.mp hp)
    case nonneg => exact fun p hp => h.nonneg p (hperm.mem_iff.mp hp)
    case budget =>
      have hweight : weight (SizedLru.use cap bytes held k) = weight held :=
        (hperm.map Prod.snd).sum_eq
      rw [hweight,hperm.length_eq]
      exact h.budget
  · rw [use_of_not_mem hk]
    exact h.enter hk hpos

end Within

section Equal

variable {cap size : ℤ} {bytes : K → ℤ} {slots : ℕ} {recent : List K} {k : K}

theorem map_fst_pairs (keys : List K) : (keys.map fun k => (k,size)).map Prod.fst = keys := by
  simp [Function.comp_def]

theorem weight_pairs (keys : List K) : weight (keys.map fun k => (k,size)) = keys.length*size := by
  have hsize : ∀ p ∈ keys.map (fun k => (k,size)), p.2 = size := by simp
  rw [weight_of_equal hsize,List.length_map]

theorem enter_of_fits {held : List (K × ℤ)} (h : bytes k ≤ free cap held) :
    enter cap bytes held k = held ++ [(k,bytes k)] := by
  have hnone : displaced cap (bytes k) held = [] := if_pos h
  have hroom : bytes k ≤ room cap bytes (bytes k) held := by simpa [room,hnone,measured] using h
  rw [enter,if_pos hroom,kept,hnone,List.length_nil,List.drop_zero]

/-- The oldest item goes alone when it frees enough. -/
theorem enter_of_first {p : K × ℤ} {held : List (K × ℤ)} (hfull : free cap (p::held) < bytes k)
    (hfirst : bytes k ≤ free cap (p::held)+p.2) (hsize : p.2 ≤ bytes p.1) :
    enter cap bytes (p::held) k = held ++ [(k,bytes k)] := by
  have hone : displaced cap (bytes k) (p::held) = [p] := by
    rw [displaced,if_neg (not_le.mpr hfull),takeUntil,if_pos (by omega)]
  have hroom : bytes k ≤ room cap bytes (bytes k) (p::held) := by
    simp only [room,hone,measured,List.map_cons,List.map_nil,List.sum_cons,List.sum_nil]
    omega
  rw [enter,if_pos hroom,kept,hone,List.length_singleton,List.drop_one,List.tail_cons]

theorem enter_of_nothing (hfull : free cap ([] : List (K × ℤ)) < bytes k) :
    enter cap bytes [] k = [] := by
  have hnone : displaced cap (bytes k) ([] : List (K × ℤ)) = [] := by simp [displaced,takeUntil]
  have hroom : ¬ bytes k ≤ room cap bytes (bytes k) [] := by
    simpa [room,hnone,measured] using hfull
  rw [enter,if_neg hroom,kept,List.drop_nil,List.append_nil]

variable [DecidableEq K]

theorem use_of_equal_of_mem (hn : recent.Nodup) (hk : k ∈ newest slots recent) :
    use cap bytes ((newest slots recent).map fun k => (k,size)) k =
      (newest slots (access recent k)).map fun k => (k,size) := by
  have hnodup : (((newest slots recent).map fun k => (k,size)).map Prod.fst).Nodup := by
    rw [map_fst_pairs]
    exact (List.drop_sublist _ _).nodup hn
  have hmem : (k,size) ∈ (newest slots recent).map fun k => (k,size) :=
    List.mem_map_of_mem hk
  rw [use_of_mem hnodup hmem,newest_access_of_mem hn hk,access,List.map_append,List.filter_map]
  rfl

/-- On items of one size it is the cache of as many slots as the budget has room for. -/
theorem use_of_equal (hslots : ∀ n : ℕ, n < slots ↔ size ≤ max 0 (cap-n*size))
    (hn : recent.Nodup) (hbytes : ∀ j, j = k ∨ j ∈ newest slots recent → bytes j = size) :
    use cap bytes ((newest slots recent).map fun k => (k,size)) k =
      (newest slots (access recent k)).map fun k => (k,size) := by
  by_cases hk : k ∈ newest slots recent
  · exact use_of_equal_of_mem hn hk
  have hnew : k ∉ ((newest slots recent).map fun k => (k,size)).map Prod.fst := by
    rwa [map_fst_pairs]
  have hfree : free cap ((newest slots recent).map fun k => (k,size)) =
      max 0 (cap-(newest slots recent).length*size) := by rw [free,weight_pairs]
  have hbytesk : bytes k = size := hbytes k (Or.inl rfl)
  rw [use_of_not_mem hnew]
  by_cases hroom : (newest slots recent).length < slots
  · have hfits := (hslots _).mp hroom
    rw [enter_of_fits (by rwa [hfree,hbytesk]),newest_access_of_room hk hroom,List.map_append,
      hbytesk]
    rfl
  have hlength := newest_length_eq hroom
  have hfull : free cap ((newest slots recent).map fun k => (k,size)) < bytes k := by
    rw [hbytesk,hfree]
    exact not_le.mp fun hle => hroom ((hslots _).mpr hle)
  cases horder : newest slots recent with
  | nil =>
    have hzero : slots = 0 := by simpa [horder] using hlength.symm
    rw [horder] at hfull
    rw [List.map_nil,enter_of_nothing hfull,hzero,newest,Nat.sub_zero,List.drop_length,List.map_nil]
  | cons victim order =>
    have hvictim : bytes victim = size := hbytes victim (Or.inr (by simp [horder]))
    have hpos : 0 < slots := by
      rw [← hlength,horder]
      exact Nat.succ_pos _
    rw [newest_access_of_full hk hlength hpos]
    rw [horder,List.map_cons] at hfull
    have hfree0 : 0 ≤ free cap ((victim,size)::order.map fun k => (k,size)) := le_max_left _ _
    rw [horder,List.map_cons,enter_of_first hfull (by omega) hvictim.ge,List.tail_cons,
      List.map_append,hbytesk]
    rfl

end Equal

section Inclusion

variable {cap cap' n : ℤ} {bytes : K → ℤ} {held held' : List (K × ℤ)}
  (h : Within cap bytes held) (h' : Within cap' bytes held') (hcover : Covers held' held)
  (hcap : cap ≤ cap')

include hcover hcap in
theorem kept_covers (h : Within cap bytes held) (hn : 0 < n) :
    Covers (kept cap' n held') (kept cap n held) := by
  by_cases hnil : kept cap n held = []
  · rw [hnil]
    exact covers_nil _
  obtain ⟨older,rest,rfl,hlighter⟩ := hcover
  have hfits := h.fits hn hnil
  have htail : Lighter (rest.drop (displaced cap n held).length) (kept cap n held) :=
    List.forall₂_drop _ hlighter
  have hstop : (displaced cap' n (older ++ rest)).length ≤
      older.length+(displaced cap n held).length := by
    by_contra hfar
    have hshort := short_of_displaced (not_le.mp hfar)
    have hlight := htail.weight_le
    have hsplit : weight (older ++ rest) =
        weight ((older ++ rest).take (older.length+(displaced cap n held).length))+
          weight (rest.drop (displaced cap n held).length) := by
      conv_lhs =>
        rw [← List.take_append_drop (older.length+(displaced cap n held).length) (older ++ rest)]
      rw [weight_append,List.drop_length_add_append]
    rw [free] at hshort
    omega
  obtain ⟨front,hfront⟩ : rest.drop (displaced cap n held).length <:+
      kept cap' n (older ++ rest) := by
    have hdrop : rest.drop (displaced cap n held).length =
        (kept cap' n (older ++ rest)).drop (older.length+(displaced cap n held).length-
          (displaced cap' n (older ++ rest)).length) := by
      rw [kept,List.drop_drop,Nat.add_sub_cancel' hstop,List.drop_length_add_append]
    rw [hdrop]
    exact List.drop_suffix _ _
  exact ⟨front,_,hfront.symm,htail⟩

include h h' hcover hcap in
theorem room_le_room (hroom : n ≤ room cap bytes n held) : n ≤ room cap' bytes n held' := by
  by_cases hnil : kept cap' n held' = []
  case neg => exact h'.room_of_kept hnil
  have hall : displaced cap' n held' = held' := by
    have hsplit := displaced_append_kept cap' n held'
    rwa [hnil,List.append_nil] at hsplit
  obtain ⟨older,rest,rfl,hlighter⟩ := hcover
  have hrest : measured bytes rest = measured bytes held := by
    have hkeys := congrArg (fun keys : List K => (keys.map bytes).sum) hlighter.keys_eq
    simpa [measured,List.map_map,Function.comp_def] using hkeys
  have hsplit : measured bytes held =
      measured bytes (displaced cap n held)+measured bytes (kept cap n held) := by
    rw [← measured_append,displaced_append_kept]
  have holder : weight older ≤ measured bytes older :=
    weight_le_measured fun p hp => h'.sizes p (by simp [hp])
  have hlight := hlighter.weight_le
  have hstay : 0 ≤ measured bytes (kept cap n held) :=
    measured_nonneg fun p hp => h.nonneg p (kept_suffix.subset hp)
  have hmore : 0 ≤ measured bytes older := measured_nonneg fun p hp => h'.nonneg p (by simp [hp])
  rw [room] at hroom
  rw [room,hall,measured_append,hrest]
  rw [free] at hroom ⊢
  rw [weight_append]
  omega

include h h' hcover hcap

theorem enter_covers {k : K} (hpos : 0 < bytes k) :
    Covers (enter cap' bytes held' k) (enter cap bytes held k) := by
  have hkept : Covers (kept cap' (bytes k) held') (kept cap (bytes k) held) :=
    kept_covers hcover hcap h hpos
  by_cases hroom : bytes k ≤ room cap bytes (bytes k) held
  · rw [enter,enter,if_pos hroom,if_pos (room_le_room h h' hcover hcap hroom)]
    exact hkept.append (.cons ⟨rfl,le_rfl⟩ .nil)
  · rw [h.enter_of_no_room hroom]
    exact covers_nil _

variable [DecidableEq K]

omit hcap in
theorem use_covers_of_hit {k : K} (hpos : 0 < bytes k) (hk : k ∉ held.map Prod.fst)
    (hk' : k ∈ held'.map Prod.fst) : Covers (use cap' bytes held' k) (use cap bytes held k) := by
  obtain ⟨⟨k,size⟩,hmem,rfl⟩ := List.mem_map.mp hk'
  have hsame : held.filter (·.1 ≠ k) = held :=
    List.filter_eq_self.mpr fun p hp => by
      simpa using fun e : p.1 = k => hk (List.mem_map.mpr ⟨p,hp,e⟩)
  have hrest := hcover.filter fun j => j ≠ k
  rw [hsame] at hrest
  rw [use_of_mem h'.nodup hmem,use_of_not_mem hk]
  by_cases hroom : bytes k ≤ room cap bytes (bytes k) held
  · have hsize : size ≤ bytes k := h'.sizes _ hmem
    rw [enter,if_pos hroom]
    exact (hrest.of_suffix kept_suffix).append (.cons ⟨rfl,hsize⟩ .nil)
  · rw [h.enter_of_no_room hroom]
    exact covers_nil _

/-- LRU inclusion: after an access the larger cache still ends in what the smaller one holds. -/
theorem use_covers {k : K} (hpos : 0 < bytes k) :
    Covers (use cap' bytes held' k) (use cap bytes held k) := by
  by_cases hk : k ∈ held.map Prod.fst
  · obtain ⟨⟨k,size⟩,hmem,rfl⟩ := List.mem_map.mp hk
    obtain ⟨size',hmem',hle⟩ := hcover.size_le hmem
    rw [use_of_mem h.nodup hmem,use_of_mem h'.nodup hmem']
    exact (hcover.filter fun j => j ≠ k).append (.cons ⟨rfl,hle⟩ .nil)
  · by_cases hk' : k ∈ held'.map Prod.fst
    · exact use_covers_of_hit h h' hcover hpos hk hk'
    · rw [use_of_not_mem hk,use_of_not_mem hk']
      exact enter_covers h h' hcover hcap hpos

end Inclusion
end SizedLru
end ContextResidency
