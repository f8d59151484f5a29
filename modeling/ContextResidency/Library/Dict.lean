import Mathlib.Data.List.Nodup
import Mathlib.Data.List.Perm.Basic
import Mathlib.Algebra.BigOperators.Group.List.Basic
import Mathlib.Tactic

/-! Insertion-ordered dictionaries. A dictionary is the list of its items in
insertion order together with the proof that no key occurs twice, so every
operation below returns a well-formed dictionary by construction. -/
namespace ContextResidency

structure Dict (K V : Type) where
  items : List (K × V)
  nodup : (items.map Prod.fst).Nodup

namespace Dict

variable {K V W : Type}

@[ext] theorem ext {d e : Dict K V} (h : d.items = e.items) : d = e := by
  cases d; cases e; cases h; rfl

def empty : Dict K V := ⟨[],by simp⟩

def keys (d : Dict K V) : List K := d.items.map Prod.fst

def values (d : Dict K V) : List V := d.items.map Prod.snd

instance : Membership K (Dict K V) := ⟨fun d k => k ∈ d.keys⟩

theorem mem_def {d : Dict K V} {k : K} : k ∈ d ↔ k ∈ d.keys := Iff.rfl

theorem mem_iff_exists {d : Dict K V} {k : K} : k ∈ d ↔ ∃ v, (k,v) ∈ d.items := by
  simp [mem_def,keys]

@[simp] theorem items_empty : (empty : Dict K V).items = [] := rfl
@[simp] theorem keys_empty : (empty : Dict K V).keys = [] := rfl
@[simp] theorem not_mem_empty (k : K) : ¬ k ∈ (empty : Dict K V) := by simp [mem_def]

theorem keys_nodup (d : Dict K V) : d.keys.Nodup := d.nodup

theorem items_nodup (d : Dict K V) : d.items.Nodup := List.Nodup.of_map _ d.nodup

theorem mem_of_item {d : Dict K V} {p : K × V} (hp : p ∈ d.items) : p.1 ∈ d :=
  mem_iff_exists.mpr ⟨p.2,hp⟩

theorem item_unique {d : Dict K V} {k : K} {v w : V} (hv : (k,v) ∈ d.items)
    (hw : (k,w) ∈ d.items) : v = w :=
  congrArg Prod.snd (List.inj_on_of_nodup_map d.nodup hv hw rfl)

def filter (d : Dict K V) (P : K → V → Bool) : Dict K V :=
  ⟨d.items.filter fun p => P p.1 p.2,d.nodup.sublist (List.filter_sublist.map _)⟩

@[simp] theorem items_filter (d : Dict K V) (P : K → V → Bool) :
    (d.filter P).items = d.items.filter fun p => P p.1 p.2 := rfl

def mapValues (d : Dict K V) (f : K → V → W) : Dict K W :=
  ⟨d.items.map fun p => (p.1,f p.1 p.2),by simpa [List.map_map,Function.comp_def] using d.nodup⟩

@[simp] theorem items_mapValues (d : Dict K V) (f : K → V → W) :
    (d.mapValues f).items = d.items.map fun p => (p.1,f p.1 p.2) := rfl

@[simp] theorem keys_mapValues (d : Dict K V) (f : K → V → W) :
    (d.mapValues f).keys = d.keys := by
  simp [keys,List.map_map,Function.comp_def]

@[simp] theorem mem_mapValues {d : Dict K V} {f : K → V → W} {k : K} :
    k ∈ d.mapValues f ↔ k ∈ d := by simp [mem_def]

def sumBy (d : Dict K V) (f : K → V → ℤ) : ℤ := (d.items.map fun p => f p.1 p.2).sum

@[simp] theorem sumBy_empty (f : K → V → ℤ) : (empty : Dict K V).sumBy f = 0 := rfl

theorem sumBy_filter_add (d : Dict K V) (P : K → V → Bool) (f : K → V → ℤ) :
    (d.filter P).sumBy f + (d.filter fun k v => !P k v).sumBy f = d.sumBy f := by
  simp only [sumBy,items_filter]
  induction d.items with
  | nil => simp
  | cons p ps ih =>
    cases h : P p.1 p.2 <;> simp [h] <;> omega

variable [DecidableEq K]

instance (d : Dict K V) (k : K) : Decidable (k ∈ d) := inferInstanceAs (Decidable (k ∈ d.keys))

def get (d : Dict K V) (k : K) : Option V := (d.items.find? fun p => p.1 = k).map Prod.snd

theorem get_eq_some {d : Dict K V} {k : K} {v : V} : d.get k = some v ↔ (k,v) ∈ d.items := by
  constructor
  · intro h
    obtain ⟨p,hp,rfl⟩ := Option.map_eq_some_iff.mp h
    have hk : p.1 = k := by simpa using List.find?_some hp
    subst hk
    exact List.mem_of_find?_eq_some hp
  · intro h
    cases hf : d.items.find? fun p => p.1 = k with
    | none => simpa using List.find?_eq_none.mp hf _ h
    | some p =>
      have hk : p.1 = k := by simpa using List.find?_some hf
      have hp : (k,p.2) ∈ d.items := by simpa [← hk] using List.mem_of_find?_eq_some hf
      simp [get,hf,item_unique hp h]

theorem get_eq_none {d : Dict K V} {k : K} : d.get k = none ↔ ¬ k ∈ d := by
  rw [mem_iff_exists]
  constructor
  · rintro h ⟨v,hv⟩
    simp [get_eq_some.mpr hv] at h
  · intro h
    cases hg : d.get k with
    | none => rfl
    | some v => exact absurd ⟨v,get_eq_some.mp hg⟩ h

theorem mem_iff_get {d : Dict K V} {k : K} : k ∈ d ↔ ∃ v, d.get k = some v := by
  simp [mem_iff_exists,get_eq_some]

@[simp] theorem get_empty (k : K) : (empty : Dict K V).get k = none := rfl

theorem get_mapValues (d : Dict K V) (f : K → V → W) (k : K) :
    (d.mapValues f).get k = (d.get k).map (f k) := by
  cases h : d.get k with
  | none => simpa [get_eq_none] using h
  | some v =>
    rw [get_eq_some] at h
    exact get_eq_some.mpr (List.mem_map.mpr ⟨(k,v),h,rfl⟩)

/-- Mutate the value under one key in place; an absent key changes nothing. -/
def modify (d : Dict K V) (k : K) (f : V → V) : Dict K V :=
  d.mapValues fun k' v => if k' = k then f v else v

@[simp] theorem mem_modify {d : Dict K V} {k k' : K} {f : V → V} :
    k' ∈ d.modify k f ↔ k' ∈ d := mem_mapValues

theorem get_modify (d : Dict K V) (k k' : K) (f : V → V) :
    (d.modify k f).get k' = if k' = k then (d.get k).map f else d.get k' := by
  rw [modify,get_mapValues]
  split <;> simp_all

theorem modify_modify (d : Dict K V) (k : K) (f g : V → V) :
    (d.modify k f).modify k g = d.modify k fun v => g (f v) := by
  ext1
  simp only [modify,items_mapValues,List.map_map]
  refine List.map_congr_left fun p _ => ?_
  by_cases h : p.1 = k <;> simp [h]

/-- Mutation sees one value only, the one under the key. -/
theorem modify_of_get {d : Dict K V} {k : K} {v : V} (h : d.get k = some v) (f : V → V) :
    d.modify k f = d.modify k fun _ => f v := by
  ext1
  simp only [modify,items_mapValues]
  refine List.map_congr_left fun p hp => ?_
  by_cases hk : p.1 = k
  · have hv : p.2 = v := item_unique (k := k) (hk ▸ hp) (get_eq_some.mp h)
    simp [hk,hv]
  · simp [hk]

theorem modify_of_absent {d : Dict K V} {k : K} (h : d.get k = none) (f : V → V) :
    d.modify k f = d := by
  ext1
  simp only [modify,items_mapValues]
  refine (List.map_congr_left fun p hp => ?_).trans (List.map_id _)
  have hk : p.1 ≠ k := fun hk => get_eq_none.mp h (hk ▸ mem_of_item hp)
  simp [hk]

theorem mem_foldl_modify {ks : List K} {d : Dict K V} {f : K → V → V} {k : K} :
    k ∈ ks.foldl (fun d k => d.modify k (f k)) d ↔ k ∈ d := by
  induction ks generalizing d with
  | nil => rfl
  | cons k' ks ih => exact ih.trans mem_modify

/-- Mutations that do nothing a second time, under several keys. -/
theorem get_foldl_modify {f : K → V → V} (hf : ∀ k v, f k (f k v) = f k v) (ks : List K)
    (d : Dict K V) (k : K) : (ks.foldl (fun d k => d.modify k (f k)) d).get k =
      if k ∈ ks then (d.get k).map (f k) else d.get k := by
  induction ks generalizing d with
  | nil => rfl
  | cons k' ks ih =>
    rw [List.foldl_cons,ih,get_modify]
    by_cases hk : k = k'
    · subst hk
      cases d.get k <;> simp [hf]
    · simp [hk]

/-- Assignment: an existing key keeps its position, a new key goes last. -/
def set (d : Dict K V) (k : K) (v : V) : Dict K V :=
  if h : k ∈ d then d.modify k fun _ => v
  else ⟨d.items ++ [(k,v)],by
    have hk : k ∉ d.items.map Prod.fst := h
    simpa [List.nodup_append,d.nodup] using fun a b hab e => hk (by
      exact List.mem_map.mpr ⟨(a,b),hab,e⟩)⟩

theorem items_set_new {d : Dict K V} {k : K} (v : V) (h : ¬ k ∈ d) :
    (d.set k v).items = d.items ++ [(k,v)] := by simp [set,h]

theorem set_of_mem {d : Dict K V} {k : K} (v : V) (h : k ∈ d) :
    d.set k v = d.modify k fun _ => v := by simp [set,h]

theorem keys_set_new {d : Dict K V} {k : K} (v : V) (h : ¬ k ∈ d) :
    (d.set k v).keys = d.keys ++ [k] := by simp [keys,items_set_new v h]

@[simp] theorem mem_set {d : Dict K V} {k k' : K} {v : V} :
    k' ∈ d.set k v ↔ k' = k ∨ k' ∈ d := by
  by_cases h : k ∈ d
  · rw [set_of_mem v h,mem_modify]
    exact ⟨Or.inr,fun hk => hk.elim (fun e => e ▸ h) id⟩
  · simp [mem_def,keys_set_new v h,or_comm]

theorem get_set (d : Dict K V) (k k' : K) (v : V) :
    (d.set k v).get k' = if k' = k then some v else d.get k' := by
  by_cases h : k ∈ d
  · obtain ⟨w,hw⟩ := mem_iff_get.mp h
    rw [set_of_mem v h,get_modify,hw]
    rfl
  · by_cases hk : k' = k
    · subst hk
      simp [get_eq_some,items_set_new v h]
    · cases hg : d.get k' with
      | none =>
        rw [if_neg hk]
        rw [get_eq_none] at hg ⊢
        simp [hk,hg]
      | some w =>
        rw [get_eq_some] at hg
        simp [hk,get_eq_some,items_set_new v h,hg]

/-- One value under several keys. -/
theorem get_foldl_set (ks : List K) (d : Dict K V) (v : V) (k : K) :
    (ks.foldl (fun d k => d.set k v) d).get k = if k ∈ ks then some v else d.get k := by
  induction ks generalizing d with
  | nil => rfl
  | cons k' ks ih =>
    rw [List.foldl_cons,ih,get_set]
    by_cases hk : k = k' <;> simp [hk]

theorem mem_foldl_set {ks : List K} {d : Dict K V} {v : V} {k : K} :
    k ∈ ks.foldl (fun d k => d.set k v) d ↔ k ∈ ks ∨ k ∈ d := by
  rw [mem_iff_get,mem_iff_get,get_foldl_set]
  by_cases hk : k ∈ ks <;> simp [hk]

/-- Deletion of one key; an absent key changes nothing. -/
def erase (d : Dict K V) (k : K) : Dict K V := d.filter fun k' _ => k' ≠ k

def eraseAll (d : Dict K V) (ks : List K) : Dict K V := d.filter fun k _ => k ∉ ks

theorem mem_filter {d : Dict K V} {P : K → V → Bool} {k : K} :
    k ∈ d.filter P ↔ ∃ v, d.get k = some v ∧ P k v = true := by
  simp [mem_iff_exists,get_eq_some]

theorem get_filter (d : Dict K V) (P : K → V → Bool) (k : K) :
    (d.filter P).get k = (d.get k).filter (P k) := by
  cases h : d.get k with
  | none =>
    simp only [Option.filter_none,get_eq_none,mem_filter,h]
    simp
  | some v =>
    cases hp : P k v with
    | false => simp [Option.filter,hp,get_eq_none,mem_filter,h]
    | true => simpa [Option.filter,hp,get_eq_some] using get_eq_some.mp h

@[simp] theorem mem_eraseAll {d : Dict K V} {ks : List K} {k : K} :
    k ∈ d.eraseAll ks ↔ k ∈ d ∧ k ∉ ks := by
  rw [eraseAll,mem_filter,mem_iff_get]
  simp

@[simp] theorem mem_erase {d : Dict K V} {k k' : K} : k' ∈ d.erase k ↔ k' ∈ d ∧ k' ≠ k := by
  rw [erase,mem_filter,mem_iff_get]
  simp

@[simp] theorem eraseAll_nil (d : Dict K V) : d.eraseAll [] = d := by
  ext1
  simp [eraseAll]

theorem get_eraseAll (d : Dict K V) (ks : List K) (k : K) :
    (d.eraseAll ks).get k = if k ∈ ks then none else d.get k := by
  rw [eraseAll,get_filter]
  split <;> cases d.get k <;> simp_all [Option.filter]

theorem eraseAll_erase (d : Dict K V) (k : K) (ks : List K) :
    (d.erase k).eraseAll ks = d.eraseAll (k::ks) := by
  ext1
  simp only [erase,eraseAll,items_filter,List.filter_filter]
  apply List.filter_congr
  intro p _
  by_cases h : p.1 = k <;> simp [h]

theorem get_erase (d : Dict K V) (k k' : K) :
    (d.erase k).get k' = if k' = k then none else d.get k' := by
  rw [erase,get_filter]
  split <;> cases d.get k' <;> simp_all [Option.filter]

/-- `setdefault(k, []).append(v)`: append to the list under a key. -/
def push (d : Dict K (List V)) (k : K) (v : V) : Dict K (List V) :=
  d.set k ((d.get k).getD [] ++ [v])

theorem modify_append {d : Dict K V} {pre post : List (K × V)} {k : K} {v : V} (f : V → V)
    (h : d.items = pre ++ (k,v)::post) : (d.modify k f).items = pre ++ (k,f v)::post := by
  have hn := d.nodup
  rw [h,List.map_append,List.map_cons,List.nodup_append,List.nodup_cons] at hn
  have hpre : ∀ p ∈ pre, p.1 ≠ k := fun p hp e =>
    hn.2.2 p.1 (List.mem_map.mpr ⟨p,hp,rfl⟩) k (by simp) e
  have hpost : ∀ p ∈ post, p.1 ≠ k := fun p hp e =>
    hn.2.1.1 (List.mem_map.mpr ⟨p,hp,e⟩)
  simp only [modify,items_mapValues,h,List.map_append,List.map_cons,if_true]
  congr 1
  · refine (List.map_congr_left fun p hp => ?_).trans (List.map_id _)
    simp [hpre p hp]
  · congr 1
    refine (List.map_congr_left fun p hp => ?_).trans (List.map_id _)
    simp [hpost p hp]

theorem get_push (d : Dict K (List V)) (k k' : K) (v : V) :
    ((d.push k v).get k').getD [] = (d.get k').getD [] ++ if k' = k then [v] else [] := by
  rw [push,get_set]
  by_cases h : k' = k
  · simp [h]
  · simp [h]

/-- No group is empty. -/
def Grouped (d : Dict K (List V)) : Prop := ∀ k vs, d.get k = some vs → vs ≠ []

theorem grouped_empty : Grouped (Dict.empty : Dict K (List V)) := by
  intro k vs h
  simp at h

theorem Grouped.push {d : Dict K (List V)} (h : d.Grouped) (k : K) (v : V) :
    (d.push k v).Grouped := by
  intro k' vs hget
  rw [Dict.push,get_set] at hget
  by_cases hk : k' = k
  · rw [if_pos hk] at hget
    obtain rfl := Option.some.inj hget
    simp
  · rw [if_neg hk] at hget
    exact h k' vs hget

theorem Grouped.get_eq {d : Dict K (List V)} (h : d.Grouped) (k : K) :
    d.get k = if (d.get k).getD [] = [] then none else some ((d.get k).getD []) := by
  cases hget : d.get k with
  | none => simp
  | some vs => simp [h k vs hget]

/-- Grouping keeps every element exactly once. -/
theorem push_values_perm (d : Dict K (List V)) (k : K) (v : V) :
    (d.push k v).values.flatten.Perm (d.values.flatten ++ [v]) := by
  cases hg : d.get k with
  | none =>
    rw [push,hg,values,items_set_new _ (get_eq_none.mp hg)]
    simp [values]
  | some vs =>
    obtain ⟨pre,post,hd⟩ := List.append_of_mem (get_eq_some.mp hg)
    rw [push,hg,set_of_mem _ (mem_iff_get.mpr ⟨vs,hg⟩),values,modify_append _ hd,values,hd]
    simp only [Option.getD_some,List.map_append,List.map_cons,List.flatten_append,
      List.flatten_cons,List.append_assoc]
    refine List.Perm.append_left _ (List.Perm.append_left _ ?_)
    exact List.perm_append_comm

theorem foldl_push_values_perm {A : Type} (key : A → K) (value : A → V) (xs : List A)
    (d : Dict K (List V)) :
    (xs.foldl (fun d x => d.push (key x) (value x)) d).values.flatten.Perm
      (d.values.flatten ++ xs.map value) := by
  induction xs generalizing d with
  | nil => simp
  | cons x xs ih =>
    have hstep := (push_values_perm d (key x) (value x)).append_right (xs.map value)
    simpa using (ih _).trans hstep

theorem mem_push {d : Dict K (List V)} {k k' : K} {v : V} {vs : List V}
    (h : (d.push k v).get k' = some vs) :
    ∀ v' ∈ vs, (k' = k ∧ v' = v) ∨ ∃ old, d.get k' = some old ∧ v' ∈ old := by
  intro v' hv'
  rw [push,get_set] at h
  by_cases hk : k' = k
  · subst hk
    rw [if_pos rfl] at h
    obtain rfl := Option.some.inj h
    cases List.mem_append.mp hv' with
    | inl hold => cases hg : d.get k' <;> simp_all
    | inr hnew => exact Or.inl ⟨rfl,List.mem_singleton.mp hnew⟩
  · rw [if_neg hk] at h
    exact Or.inr ⟨vs,h,hv'⟩

theorem get_foldl_push {A : Type} (key : A → K) (value : A → V) (xs : List A)
    (d : Dict K (List V)) (k : K) :
    ((xs.foldl (fun d x => d.push (key x) (value x)) d).get k).getD [] =
      (d.get k).getD [] ++ (xs.filter fun x => key x = k).map value := by
  induction xs generalizing d with
  | nil => simp
  | cons x xs ih =>
    rw [List.foldl_cons,ih,get_push]
    by_cases h : key x = k
    · simp [h]
    · simp [h,Ne.symm h]

theorem mem_foldl_push {A : Type} (key : A → K) (value : A → V) {P : K → V → Prop}
    (hP : ∀ x, P (key x) (value x)) {xs : List A} {d : Dict K (List V)}
    (hd : ∀ k vs, d.get k = some vs → ∀ v ∈ vs, P k v) {k : K} {vs : List V}
    (h : (xs.foldl (fun d x => d.push (key x) (value x)) d).get k = some vs) : ∀ v ∈ vs, P k v := by
  induction xs generalizing d with
  | nil => exact hd k vs h
  | cons x xs ih =>
    refine ih (fun k vs hk v hv => ?_) h
    cases mem_push hk v hv with
    | inl hnew => exact hnew.1 ▸ hnew.2 ▸ hP x
    | inr hold =>
      obtain ⟨old,hget,hmem⟩ := hold
      exact hd k old hget v hmem

/-- When every group holds elements of its own key, a group is what all of them hold of it. -/
theorem filter_flatten_values {key : V → K} {d : Dict K (List V)}
    (h : ∀ k vs, d.get k = some vs → ∀ v ∈ vs, key v = k) (k : K) :
    d.values.flatten.filter (fun v => key v = k) = (d.get k).getD [] := by
  have hother : ∀ items : List (K × List V), (∀ p ∈ items, p ∈ d.items ∧ p.1 ≠ k) →
      (items.map Prod.snd).flatten.filter (fun v => key v = k) = [] := by
    intro items hitems
    refine List.filter_eq_nil_iff.mpr fun v hv => ?_
    obtain ⟨vs,hvs,hmem⟩ := List.mem_flatten.mp hv
    obtain ⟨p,hp,rfl⟩ := List.mem_map.mp hvs
    have hkey := h p.1 p.2 (get_eq_some.mpr (hitems p hp).1) v hmem
    simp [hkey,(hitems p hp).2]
  cases hget : d.get k with
  | none =>
    refine hother d.items fun p hp => ⟨hp,fun hk => ?_⟩
    exact get_eq_none.mp hget (hk ▸ mem_of_item hp)
  | some vs =>
    obtain ⟨pre,post,hitems⟩ := List.append_of_mem (get_eq_some.mp hget)
    have hn := d.nodup
    rw [hitems,List.map_append,List.map_cons,List.nodup_append,List.nodup_cons] at hn
    have hpre := hother pre fun p hp => ⟨hitems ▸ List.mem_append_left _ hp,fun hk =>
      hn.2.2 p.1 (List.mem_map_of_mem hp) k (by simp) hk⟩
    have hpost := hother post fun p hp => ⟨hitems ▸ List.mem_append_right _
      (List.mem_cons_of_mem _ hp),fun hk => hn.2.1.1 (List.mem_map.mpr ⟨p,hp,hk⟩)⟩
    have hown : vs.filter (fun v => key v = k) = vs :=
      List.filter_eq_self.mpr fun v hv => by simpa using h k vs hget v hv
    rw [values,hitems,List.map_append,List.map_cons,List.flatten_append,List.flatten_cons,
      List.filter_append,List.filter_append,hpre,hpost,hown]
    simp

theorem sumBy_eraseAll (d : Dict K V) (f : K → V → ℤ) (ks : List K) (hn : ks.Nodup)
    (hks : ∀ k ∈ ks, k ∈ d) :
    (d.eraseAll ks).sumBy f + (ks.map fun k => ((d.get k).map (f k)).getD 0).sum = d.sumBy f := by
  have hsplit := sumBy_filter_add d (fun k _ => k ∉ ks) f
  have hperm : (d.items.filter fun p => p.1 ∈ ks).Perm
      (ks.filterMap fun k => (d.get k).map fun v => (k,v)) := by
    refine (List.perm_ext_iff_of_nodup (d.items_nodup.filter _) ?_).mpr ?_
    · refine hn.filterMap ?_
      intro k k' p hk hk'
      obtain ⟨v,_,rfl⟩ := Option.map_eq_some_iff.mp hk
      obtain ⟨w,_,hw⟩ := Option.map_eq_some_iff.mp hk'
      exact (congrArg Prod.fst hw).symm
    · rintro ⟨k,v⟩
      simp only [List.mem_filter,decide_eq_true_eq,List.mem_filterMap,Option.map_eq_some_iff,
        Prod.mk.injEq]
      constructor
      · rintro ⟨hp,hk⟩
        exact ⟨k,hk,v,get_eq_some.mpr hp,rfl,rfl⟩
      · rintro ⟨k',hk',v',hv',rfl,rfl⟩
        exact ⟨get_eq_some.mp hv',hk'⟩
  have hsum : (d.filter fun k _ => !decide (k ∉ ks)).sumBy f =
      (ks.map fun k => ((d.get k).map (f k)).getD 0).sum := by
    have hfilter : (d.filter fun k _ => !decide (k ∉ ks)).items =
        d.items.filter fun p => p.1 ∈ ks := by simp
    rw [sumBy,hfilter,(hperm.map fun p => f p.1 p.2).sum_eq]
    clear hperm hfilter hsplit hn
    induction ks with
    | nil => rfl
    | cons k ks ih =>
      obtain ⟨v,hv⟩ := mem_iff_get.mp (hks k (by simp))
      simpa [hv] using ih fun k' hk' => hks k' (by simp [hk'])
  rw [← hsum]
  exact hsplit

/-- `(k, d[k])`, or the error for a key that is not there. -/
def fetch {E : Type} (error : K → E) (d : Dict K V) (k : K) : Except E (K × V) :=
  match d.get k with
  | none => .error (error k)
  | some v => .ok (k,v)

theorem fetch_eq_ok {E : Type} {error : K → E} {d : Dict K V} {k : K} {p : K × V} :
    d.fetch error k = .ok p ↔ p.1 = k ∧ p ∈ d.items := by
  unfold fetch
  cases hk : d.get k with
  | none =>
    constructor
    · intro h
      cases h
    · rintro ⟨rfl,hp⟩
      rw [get_eq_some.mpr hp] at hk
      cases hk
  | some v =>
    have hitem := get_eq_some.mp hk
    constructor
    · intro h
      cases h
      exact ⟨rfl,hitem⟩
    · rintro ⟨rfl,hp⟩
      rw [item_unique hitem hp]

theorem bind_eq_ok {E α β : Type} {x : Except E α} {f : α → Except E β} {b : β} :
    x >>= f = .ok b ↔ ∃ a, x = .ok a ∧ f a = .ok b := by
  cases x <;> simp [bind,Except.bind]

theorem mapM_eq_ok {E α β : Type} {f : α → Except E β} {xs : List α} {ys : List β} :
    xs.mapM f = .ok ys ↔ List.Forall₂ (fun x y => f x = .ok y) xs ys := by
  induction xs generalizing ys with
  | nil => cases ys <;> simp [pure,Except.pure]
  | cons x xs ih =>
    simp only [List.mapM_cons,bind_eq_ok,ih]
    constructor
    · rintro ⟨y,hy,rest,hrest,hout⟩
      obtain rfl : y::rest = ys := Except.ok.inj hout
      exact .cons hy hrest
    · intro h
      cases h with
      | @cons x y xs ys hy hrest => exact ⟨y,hy,ys,hrest,rfl⟩

theorem mapM_fetch_eq_ok {E : Type} {error : K → E} {d : Dict K V} {ks : List K}
    {out : List (K × V)} : ks.mapM (d.fetch error) = .ok out ↔
      out.map Prod.fst = ks ∧ ∀ p ∈ out, p ∈ d.items := by
  induction ks generalizing out with
  | nil => cases out <;> simp [pure,Except.pure]
  | cons k ks ih =>
    simp only [List.mapM_cons,bind_eq_ok,fetch_eq_ok,ih]
    constructor
    · rintro ⟨p,⟨rfl,hp⟩,rest,⟨rfl,hrest⟩,hout⟩
      obtain rfl : p::rest = out := Except.ok.inj hout
      exact ⟨rfl,List.forall_mem_cons.mpr ⟨hp,hrest⟩⟩
    · rintro ⟨hkeys,hall⟩
      cases out with
      | nil => cases hkeys
      | cons p rest =>
        obtain ⟨hp,hrest⟩ := List.forall_mem_cons.mp hall
        obtain ⟨hk,hks⟩ := List.cons.inj hkeys
        exact ⟨p,⟨hk,hp⟩,rest,⟨hks,hrest⟩,rfl⟩

theorem exists_mapM_fetch {E : Type} (error : K → E) {d : Dict K V} {ks : List K}
    (h : ∀ k ∈ ks, k ∈ d) : ∃ out, ks.mapM (d.fetch error) = .ok out := by
  have hvalue : ∀ k ∈ ks, ∃ v, (k,v) ∈ d.items := fun k hk => mem_iff_exists.mp (h k hk)
  induction ks with
  | nil => exact ⟨[],rfl⟩
  | cons k ks ih =>
    obtain ⟨v,hv⟩ := hvalue k (by simp)
    obtain ⟨out,hout⟩ := ih (fun k hk => h k (by simp [hk])) fun k hk => hvalue k (by simp [hk])
    have hrest := mapM_fetch_eq_ok.mp hout
    refine ⟨(k,v)::out,mapM_fetch_eq_ok.mpr ⟨by simp [hrest.1],?_⟩⟩
    intro p hp
    cases List.mem_cons.mp hp with
    | inl hp => exact hp ▸ hv
    | inr hp => exact hrest.2 p hp

/-- A literal dictionary, assigned from left to right. -/
def ofList (items : List (K × V)) : Dict K V := items.foldl (fun d p => d.set p.1 p.2) empty

theorem items_foldl_set {d : Dict K V} {items : List (K × V)}
    (h : (d.keys ++ items.map Prod.fst).Nodup) :
    (items.foldl (fun d p => d.set p.1 p.2) d).items = d.items ++ items := by
  induction items generalizing d with
  | nil => simp
  | cons p items ih =>
    have hnew : p.1 ∉ d := fun hmem =>
      (List.nodup_append.mp h).2.2 p.1 hmem p.1 List.mem_cons_self rfl
    have hkeys : ((d.set p.1 p.2).keys ++ items.map Prod.fst).Nodup := by
      rw [keys_set_new p.2 hnew,List.append_assoc]
      exact h
    rw [List.foldl_cons,ih hkeys,items_set_new p.2 hnew,List.append_assoc]
    rfl

/-- Move one key to the end; an absent key changes nothing. -/
def moveToEnd (d : Dict K V) (k : K) : Dict K V :=
  match d.get k with
  | none => d
  | some v => (d.erase k).set k v

/-- Moving a key to the end of a dictionary, with a default value when it is new. -/
theorem items_moveToEnd {d : Dict K V} {k : K} {v : V} (h : d.get k = some v) :
    (d.moveToEnd k).items = d.items.filter (fun p => p.1 ≠ k) ++ [(k,v)] := by
  have hnew : ¬ k ∈ d.erase k := by simp
  simp only [moveToEnd,h,items_set_new v hnew]
  rfl

/-! Rewriting every value commutes with the other operations. -/
section MapValues

variable (f : K → V → W)

omit [DecidableEq K] in
theorem mapValues_mapValues {X : Type} (d : Dict K V) (g : K → W → X) :
    (d.mapValues f).mapValues g = d.mapValues fun k v => g k (f k v) := by
  ext1
  simp [Function.comp_def]

theorem mapValues_modify (d : Dict K V) (k : K) {g : V → V} {g' : W → W}
    (h : ∀ v, f k (g v) = g' (f k v)) : (d.modify k g).mapValues f = (d.mapValues f).modify k g' := by
  rw [modify,modify,mapValues_mapValues,mapValues_mapValues]
  congr 1
  funext k' v
  by_cases hk : k' = k
  · subst hk
    simp [h]
  · simp [hk]

theorem mapValues_set (d : Dict K V) (k : K) (v : V) :
    (d.set k v).mapValues f = (d.mapValues f).set k (f k v) := by
  by_cases hk : k ∈ d
  · rw [set_of_mem v hk,set_of_mem _ (mem_mapValues.mpr hk)]
    exact mapValues_modify f d k fun _ => rfl
  · ext1
    rw [items_set_new _ (mt mem_mapValues.mp hk)]
    simp [items_set_new v hk]

theorem mapValues_foldl_set (ks : List K) (d : Dict K V) (v : V) (g : V → W) :
    (ks.foldl (fun d k => d.set k v) d).mapValues (fun _ => g) =
      ks.foldl (fun d k => d.set k (g v)) (d.mapValues fun _ => g) := by
  induction ks generalizing d with
  | nil => rfl
  | cons k ks ih => rw [List.foldl_cons,List.foldl_cons,ih,mapValues_set]

omit [DecidableEq K] in
theorem mapValues_filter (d : Dict K V) {P : K → V → Bool} {Q : K → W → Bool}
    (h : ∀ k v, Q k (f k v) = P k v) : (d.filter P).mapValues f = (d.mapValues f).filter Q := by
  ext1
  simp [List.filter_map,Function.comp_def,h]

theorem mapValues_eraseAll (d : Dict K V) (ks : List K) :
    (d.eraseAll ks).mapValues f = (d.mapValues f).eraseAll ks :=
  mapValues_filter f d fun _ _ => rfl

theorem mapValues_erase (d : Dict K V) (k : K) :
    (d.erase k).mapValues f = (d.mapValues f).erase k :=
  mapValues_filter f d fun _ _ => rfl

theorem mapValues_push (d : Dict K (List V)) (g : V → W) (k : K) (v : V) :
    (d.push k v).mapValues (fun _ => List.map g) =
      (d.mapValues fun _ => List.map g).push k (g v) := by
  rw [push,push,mapValues_set,get_mapValues]
  cases d.get k <;> simp

/-- The values grouped by key, rewritten before or after. -/
theorem mapValues_foldl_push {A : Type} (key : A → K) (value : A → V) (g : V → W) (xs : List A)
    (d : Dict K (List V)) :
    (xs.foldl (fun d x => d.push (key x) (value x)) d).mapValues (fun _ => List.map g) =
      xs.foldl (fun d x => d.push (key x) (g (value x))) (d.mapValues fun _ => List.map g) := by
  induction xs generalizing d with
  | nil => rfl
  | cons x xs ih => rw [List.foldl_cons,List.foldl_cons,ih,mapValues_push]

omit [DecidableEq K] in
theorem sumBy_mapValues (d : Dict K V) (g : K → W → ℤ) :
    (d.mapValues f).sumBy g = d.sumBy fun k v => g k (f k v) := by
  simp [sumBy,Function.comp_def]

end MapValues

end Dict
end ContextResidency
