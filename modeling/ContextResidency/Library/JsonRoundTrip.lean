import ContextResidency.Library.JsonTokens

/-! What `json.dumps` writes, `json.loads` reads back: every value but for the surrogates that
meet in its strings, which come back joined. The text is printable ASCII. -/
namespace ContextResidency

namespace JsonText

variable {F : Type} {floats : FloatText F}

theorem skipSpace_cons {c : Char} (hc : c ∉ [' ','\t','\n','\r']) (cs : List Char) :
    skipSpace (c::cs) = c::cs := by
  rw [skipSpace,List.dropWhile_cons_of_neg]
  simpa using hc

theorem scanOnce_list {n : ℕ} {c : Char} (hc : c ∉ [' ','\t','\n','\r',']']) (cs : List Char) :
    scanOnce floats (n+1) ('['::c::cs) =
      (scanSeries (scanOnce floats n) ']' n (c::cs)).map fun p => (.arr p.1,p.2) := by
  have hspace : skipSpace (c::cs) = c::cs :=
    skipSpace_cons (fun hmem => hc (List.mem_append_left [']'] hmem)) cs
  have hclose : c ≠ ']' := fun h => hc (by simp [h])
  rw [scanOnce,hspace]
  split
  · rename_i rest hrest
    exact absurd (List.cons.inj hrest).1 hclose
  · rfl

theorem scanOnce_other {n : ℕ} {c : Char} (hc : c ∉ ['"','[','\x7b']) (cs : List Char) :
    scanOnce floats (n+1) (c::cs) = (scanConstant (c::cs)).or (scanNumber floats (c::cs)) := by
  refine scanOnce.eq_5 _ _ _ (fun rest hrest => ?_) (fun rest hrest => ?_) fun rest hrest => ?_ <;>
  · rw [(List.cons.inj hrest).1] at hc
    exact hc (by simp)

theorem scanOnce_object {n : ℕ} (cs : List Char) :
    scanOnce floats (n+1) ('\x7b' :: '"' :: cs) =
      (scanSeries (scanField (scanOnce floats n)) '\x7d' n ('"'::cs)).map
        fun p => (.obj p.1,p.2) := by
  rw [scanOnce,skipSpace_cons (by decide)]
  rfl

theorem scanField_quote {scan : List Char → Option (JsonValue F × List Char)} {name : PyText}
    {v : JsonValue F} {cs rest : List Char} (hcs : skipSpace cs = cs)
    (h : scan cs = some (v,rest)) :
    scanField scan (quote name ++ ':' :: ' ' :: cs) = some ((name.joinSurrogates,v),rest) := by
  have hcolon : skipSpace (':' :: ' ' :: cs) = ':' :: ' ' :: cs := skipSpace_cons (by decide) _
  have hspace : skipSpace (' '::cs) = cs := hcs
  rw [quote,List.cons_append,List.append_assoc,List.singleton_append,scanField,scanString_quote]
  simp only [hcolon,hspace,h,Option.map_some]

theorem scanSeries_append {α β : Type} {scan : List Char → Option (β × List Char)}
    {text : α → List Char} {f : α → β} {close : Char} (hclose : close ∈ [']','\x7d']) {a : α}
    {as : List α} (hscan : ∀ x ∈ a::as, ∀ rest, Delimited rest →
      scan (text x ++ rest) = some (f x,rest))
    (hskip : ∀ x ∈ as, ∀ rest, skipSpace (text x ++ rest) = text x ++ rest) {n : ℕ}
    (hn : as.length < n) (rest : List Char) : scanSeries scan close n
      (text a ++ (as.flatMap (fun x => ',' :: ' ' :: text x) ++ close::rest)) =
        some ((a::as).map f,rest) := by
  have hend : close ∉ [' ','\t','\n','\r'] ∧ close ≠ ',' := by
    rcases List.mem_pair.mp hclose with rfl | rfl <;> simp
  induction as generalizing a n with
  | nil =>
    obtain ⟨n,rfl⟩ := Nat.exists_eq_succ_of_ne_zero hn.ne'
    rw [scanSeries,List.flatMap_nil,List.nil_append,hscan a List.mem_cons_self _ ?_]
    · dsimp only
      rw [skipSpace_cons hend.1]
      exact if_pos rfl
    · rintro c ⟨⟩
      exact List.mem_cons_of_mem _ hclose
  | cons b as ih =>
    obtain ⟨n,rfl⟩ := Nat.exists_eq_succ_of_ne_zero (Nat.ne_zero_of_lt hn)
    rw [scanSeries,List.flatMap_cons,List.append_assoc,hscan a List.mem_cons_self _ ?_]
    · have hrest := ih (fun x hx => hscan x (List.mem_cons_of_mem _ hx))
        (fun x hx => hskip x (List.mem_cons_of_mem _ hx)) (Nat.lt_of_succ_lt_succ hn)
      have hspace : skipSpace (' '::(text b ++ (as.flatMap (fun x => ',' :: ' ' :: text x) ++
          close::rest))) = text b ++ (as.flatMap (fun x => ',' :: ' ' :: text x) ++ close::rest) :=
        hskip b List.mem_cons_self _
      dsimp only [List.cons_append]
      rw [skipSpace_cons (by decide)]
      dsimp only
      rw [if_neg hend.2.symm,if_pos rfl,hspace,hrest]
      rfl
    · rintro c ⟨⟩
      exact List.mem_cons_self

/-- What a program may rely on: a finite float prints as a numeral that reads as a float, and as
the same one. -/
structure Exact (floats : FloatText F) : Prop where
  numeral : ∀ x, FloatNumeral (floats.repr x)
  parse_repr : ∀ x, floats.parse (floats.repr x) = .inl x

mutual

/-- The value with the surrogates that meet in its strings joined. -/
def joined : JsonValue F → JsonValue F
  | .str s => .str s.joinSurrogates
  | .arr items => .arr (joinedItems items)
  | .obj fields => .obj (joinedFields fields)
  | v => v

def joinedItems : List (JsonValue F) → List (JsonValue F)
  | [] => []
  | v::items => joined v::joinedItems items

def joinedFields : List (PyText × JsonValue F) → List (PyText × JsonValue F)
  | [] => []
  | (name,v)::fields => (name.joinSurrogates,joined v)::joinedFields fields

end

def joinedField (p : PyText × JsonValue F) : PyText × JsonValue F :=
  (p.1.joinSurrogates,joined p.2)

def fieldText (floats : FloatText F) (p : PyText × JsonValue F) : List Char :=
  quote p.1 ++ ':' :: ' ' :: dumps floats p.2

theorem joinedItems_eq (items : List (JsonValue F)) : joinedItems items = items.map joined := by
  induction items with
  | nil => rw [joinedItems,List.map_nil]
  | cons v items ih => rw [joinedItems,ih,List.map_cons]

theorem joinedFields_eq (fields : List (PyText × JsonValue F)) :
    joinedFields fields = fields.map joinedField := by
  induction fields with
  | nil => rw [joinedFields,List.map_nil]
  | cons p fields ih =>
    rw [joinedFields,ih,List.map_cons]
    rfl

theorem dumpsItems_eq (items : List (JsonValue F)) : dumpsItems floats items =
    items.flatMap (fun v => ',' :: ' ' :: dumps floats v) ++ [']'] := by
  induction items with
  | nil => rw [dumpsItems,List.flatMap_nil,List.nil_append]
  | cons v items ih => rw [dumpsItems,ih,List.flatMap_cons,List.append_assoc,List.cons_append,
      List.cons_append]

theorem dumpsFields_eq (fields : List (PyText × JsonValue F)) : dumpsFields floats fields =
    fields.flatMap (fun p => ',' :: ' ' :: fieldText floats p) ++ ['\x7d'] := by
  induction fields with
  | nil => rw [dumpsFields,List.flatMap_nil,List.nil_append]
  | cons p fields ih =>
    rw [dumpsFields,ih,List.flatMap_cons,fieldText]
    simp

theorem dumps_arr (v : JsonValue F) (items : List (JsonValue F)) (cs : List Char) :
    dumps floats (.arr (v::items)) ++ cs = '['::(dumps floats v ++
      (items.flatMap (fun v => ',' :: ' ' :: dumps floats v) ++ ']'::cs)) := by
  rw [dumps,dumpsItems_eq]
  simp

theorem dumps_obj (p : PyText × JsonValue F) (fields : List (PyText × JsonValue F))
    (cs : List Char) : dumps floats (.obj (p::fields)) ++ cs = '\x7b'::(fieldText floats p ++
      (fields.flatMap (fun p => ',' :: ' ' :: fieldText floats p) ++ '\x7d'::cs)) := by
  rw [dumps,dumpsFields_eq,fieldText]
  simp

theorem dumps_eq_cons (h : Exact floats) (v : JsonValue F) :
    ∃ c cs, dumps floats v = c::cs ∧ c ∉ [' ','\t','\n','\r',']'] := by
  have hnumber : ∀ cs, StartsNumber cs → ∃ c ds, cs = c::ds ∧ c ∉ [' ','\t','\n','\r',']'] := by
    intro cs hcs
    cases cs with
    | nil => exact hcs.elim
    | cons c cs =>
      refine ⟨c,cs,rfl,?_⟩
      cases hcs.head with
      | inl hdigit =>
        intro hmem
        have hother : ∀ c ∈ [' ','\t','\n','\r',']'], c.isDigit = false := by simp
        rw [hother c hmem] at hdigit
        cases hdigit
      | inr hminus =>
        rw [hminus]
        simp
  cases v with
  | null => exact ⟨_,_,rfl,by simp⟩
  | bool b => cases b <;> exact ⟨_,_,rfl,by simp⟩
  | int n =>
    have hstart := (integer_toString n).startsNumber []
    rw [List.append_nil] at hstart
    exact hnumber _ hstart
  | float x =>
    have hstart := (h.numeral x).startsNumber []
    rw [List.append_nil] at hstart
    exact hnumber _ hstart
  | nonFinite x => cases x <;> exact ⟨_,_,rfl,by simp⟩
  | str s => exact ⟨_,_,rfl,by simp⟩
  | arr items => cases items <;> exact ⟨_,_,rfl,by simp⟩
  | obj fields => cases fields <;> exact ⟨_,_,rfl,by simp⟩

theorem skipSpace_dumps (h : Exact floats) (v : JsonValue F) (cs : List Char) :
    skipSpace (dumps floats v ++ cs) = dumps floats v ++ cs := by
  rcases dumps_eq_cons h v with ⟨c,ds,hds,hc⟩
  rw [hds]
  exact skipSpace_cons (fun hmem => hc (List.mem_append_left [']'] hmem)) _

theorem scanOnce_constant {p : List Char × JsonValue F} (hp : p ∈ constants) (n : ℕ)
    (cs : List Char) : scanOnce floats (n+1) (p.1 ++ cs) = some (p.2,cs) := by
  simp only [constants,List.mem_cons,List.not_mem_nil,or_false] at hp
  rcases hp with rfl | rfl | rfl | rfl | rfl | rfl <;>
    simp [scanOnce,scanConstant,constants,nonFiniteText,List.isPrefixOf?]

theorem scanOnce_number {n : ℕ} {cs : List Char} (h : StartsNumber cs) :
    scanOnce floats (n+1) cs = scanNumber floats cs := by
  cases cs with
  | nil => exact h.elim
  | cons c cs =>
    rw [scanOnce_other,scanConstant_eq_none h,Option.none_or]
    intro hmem
    have hother : ∀ c ∈ ['"','[','\x7b'], c.isDigit = false ∧ c ≠ '-' := by simp
    rcases hother c hmem with ⟨hdigit,hminus⟩
    cases h.head with
    | inl h =>
      rw [hdigit] at h
      cases h
    | inr h => exact hminus h

/-- The text of a series is longer than the text of each element, and than their number. -/
theorem length_series {α : Type} (text : α → List Char) (a : α) (as : List α) :
    as.length ≤ (as.flatMap fun x => ',' :: ' ' :: text x).length ∧ ∀ x ∈ a::as, (text x).length ≤
      (text a).length+(as.flatMap fun x => ',' :: ' ' :: text x).length := by
  induction as with
  | nil => simp
  | cons b as ih =>
    rcases ih with ⟨hlength,hle⟩
    simp only [List.flatMap_cons,List.length_append,List.length_cons]
    refine ⟨by omega,fun x hx => ?_⟩
    rcases List.mem_cons.mp hx with rfl | hx
    · omega
    · rcases List.mem_cons.mp hx with rfl | hx
      · omega
      · have hx := hle x (List.mem_cons_of_mem _ hx)
        omega

section Series

variable {n : ℕ} {cs : List Char}

theorem scanOnce_arr (h : Exact floats) {v : JsonValue F} {items : List (JsonValue F)}
    (hn : (dumps floats (.arr (v::items))).length < n+1)
    (hscan : ∀ x : JsonValue F, (dumps floats x).length < n → ∀ {rest}, Delimited rest →
      scanOnce floats n (dumps floats x ++ rest) = some (joined x,rest)) :
    scanOnce floats (n+1) (dumps floats (.arr (v::items)) ++ cs) =
      some (joined (.arr (v::items)),cs) := by
  rcases length_series (dumps floats) v items with ⟨hlength,hle⟩
  have hn' := congrArg List.length (@dumps_arr _ floats v items [])
  simp only [List.append_nil,List.length_cons,List.length_append,List.length_nil] at hn'
  have hseries := @scanSeries_append _ _ (scanOnce floats n) (dumps floats) joined ']' (by simp) v
    items (fun x hx rest hrest => hscan x ((hle x hx).trans_lt (by omega)) hrest)
    (fun x _ => skipSpace_dumps h x) n (by omega) cs
  rcases dumps_eq_cons h v with ⟨c,ds,hds,hc⟩
  rw [dumps_arr,joined,joinedItems_eq]
  rw [hds] at hseries ⊢
  rw [List.cons_append] at hseries ⊢
  rw [scanOnce_list hc,hseries]
  rfl

theorem length_dumps_lt_fieldText (p : PyText × JsonValue F) :
    (dumps floats p.2).length < (fieldText floats p).length := by
  simp only [fieldText,List.length_append,List.length_cons]
  omega

theorem scanOnce_obj (h : Exact floats) {p : PyText × JsonValue F}
    {fields : List (PyText × JsonValue F)} (hn : (dumps floats (.obj (p::fields))).length < n+1)
    (hscan : ∀ x : JsonValue F, (dumps floats x).length < n → ∀ {rest}, Delimited rest →
      scanOnce floats n (dumps floats x ++ rest) = some (joined x,rest)) :
    scanOnce floats (n+1) (dumps floats (.obj (p::fields)) ++ cs) =
      some (joined (.obj (p::fields)),cs) := by
  rcases length_series (fieldText floats) p fields with ⟨hlength,hle⟩
  have hn' := congrArg List.length (@dumps_obj _ floats p fields [])
  simp only [List.append_nil,List.length_cons,List.length_append,List.length_nil] at hn'
  have hfield : ∀ x ∈ p::fields, (dumps floats x.2).length < n := fun x hx =>
    ((length_dumps_lt_fieldText x).trans_le (hle x hx)).trans (by omega)
  have hseries := @scanSeries_append _ _ (scanField (scanOnce floats n)) (fieldText floats)
    joinedField '\x7d' (by simp) p fields (fun x hx rest hrest => by
      rw [fieldText,List.append_assoc]
      exact scanField_quote (skipSpace_dumps h x.2 rest) (hscan x.2 (hfield x hx) hrest))
    (fun x _ cs => skipSpace_cons (by simp) _) n (by omega) cs
  have hquote : ∀ back, fieldText floats p ++ back =
      '"'::(p.1.flatMap escapeChar ++ '"' :: ':' :: ' ' :: (dumps floats p.2 ++ back)) := by
    intro back
    simp [fieldText,quote]
  rw [dumps_obj,joined,joinedFields_eq]
  rw [hquote] at hseries ⊢
  rw [scanOnce_object,hseries]
  rfl

end Series

/-- In front of what may follow a value, a value is read as it was written. -/
theorem scanOnce_dumps (h : Exact floats) : ∀ (v : JsonValue F) {n : ℕ} {cs : List Char},
    (dumps floats v).length < n → Delimited cs →
      scanOnce floats n (dumps floats v ++ cs) = some (joined v,cs)
  | v, 0, cs, hn, _ => absurd hn (Nat.not_lt_zero _)
  | .null, n+1, cs, _, _ => @scanOnce_constant _ _ (_,.null) (by simp [constants]) n cs
  | .bool b, n+1, cs, _, _ => by
    cases b
    · exact @scanOnce_constant _ _ (_,.bool false) (by simp [constants]) n cs
    · exact @scanOnce_constant _ _ (_,.bool true) (by simp [constants]) n cs
  | .int m, n+1, cs, _, hcs => by
    have hinteger := integer_toString m
    rw [dumps,scanOnce_number (hinteger.startsNumber cs),scanNumber_integer hinteger hcs,
      parseInt_toString]
    rfl
  | .float x, n+1, cs, _, hcs => by
    have hnumeral := h.numeral x
    rw [dumps,scanOnce_number (hnumeral.startsNumber cs),scanNumber_float hnumeral hcs,
      h.parse_repr]
    rfl
  | .nonFinite x, n+1, cs, _, _ =>
    @scanOnce_constant _ _ (nonFiniteText x,.nonFinite x) (by cases x <;> simp [constants]) n cs
  | .str s, n+1, cs, _, _ => by
    rw [dumps,quote,List.cons_append,List.append_assoc,scanOnce,List.singleton_append,
      scanString_quote]
    rfl
  | .arr [], n+1, cs, _, _ => by
    rw [dumps,joined,joinedItems]
    rfl
  | .obj [], n+1, cs, _, _ => by
    rw [dumps,joined,joinedFields]
    rfl
  | .arr (v::items), n+1, cs, hn, _ =>
    scanOnce_arr h hn fun x hx _ hrest => scanOnce_dumps h x hx hrest
  | .obj (p::fields), n+1, cs, hn, _ =>
    scanOnce_obj h hn fun x hx _ hrest => scanOnce_dumps h x hx hrest

/-- What is written is read back, with the surrogates that meet in strings joined. -/
theorem loads_dumps (h : Exact floats) (v : JsonValue F) :
    loads floats (dumps floats v) = some (joined v) := by
  have hskip := skipSpace_dumps h v []
  have hscan := @scanOnce_dumps _ _ h v _ [] (Nat.lt_succ_self _) fun c hc => by cases hc
  rw [List.append_nil] at hskip hscan
  rw [loads,hskip,hscan]
  rfl

theorem printable_series {α : Type} {text : α → List Char} {opening close : Char}
    (hopen : Printable opening) (hclose : Printable close) {a : α} {as : List α}
    (h : ∀ x ∈ a::as, ∀ c ∈ text x, Printable c) : ∀ c ∈ opening::(text a ++
      (as.flatMap (fun x => ',' :: ' ' :: text x) ++ [close])), Printable c := by
  have hcomma : Printable ',' := by decide
  have hspace : Printable ' ' := by decide
  rcases List.forall_mem_cons.mp h with ⟨ha,has⟩
  refine List.forall_mem_cons.mpr ⟨hopen,List.forall_mem_append.mpr ⟨ha,?_⟩⟩
  refine List.forall_mem_append.mpr ⟨fun c hc => ?_,List.forall_mem_singleton.mpr hclose⟩
  rcases List.mem_flatMap.mp hc with ⟨x,hx,hc⟩
  have hx := has x hx
  exact List.forall_mem_cons.mpr ⟨hcomma,List.forall_mem_cons.mpr ⟨hspace,hx⟩⟩ c hc

theorem printable_fieldText (p : PyText × JsonValue F)
    (h : ∀ c ∈ dumps floats p.2, Printable c) : ∀ c ∈ fieldText floats p, Printable c := by
  have hcolon : Printable ':' := by decide
  have hspace : Printable ' ' := by decide
  refine List.forall_mem_append.mpr ⟨printable_quote p.1,?_⟩
  exact List.forall_mem_cons.mpr ⟨hcolon,List.forall_mem_cons.mpr ⟨hspace,h⟩⟩

/-- Every value is written in printable ASCII. -/
theorem printable_dumps (h : Exact floats) : ∀ v : JsonValue F, ∀ c ∈ dumps floats v, Printable c
  | .null => by simp [dumps,Printable]
  | .bool false => by simp [dumps,Printable]
  | .bool true => by simp [dumps,Printable]
  | .int n => (integer_toString n).printable
  | .float x => (h.numeral x).printable
  | .nonFinite x => by cases x <;> simp [dumps,nonFiniteText,Printable]
  | .str s => printable_quote s
  | .arr [] => by simp [dumps,Printable]
  | .obj [] => by simp [dumps,Printable]
  | .arr (v::items) => by
    rw [← List.append_nil (dumps floats _),dumps_arr]
    exact printable_series (by decide) (by decide) fun v hv => printable_dumps h v
  | .obj (p::fields) => by
    rw [← List.append_nil (dumps floats _),dumps_obj]
    exact printable_series (by decide) (by decide) fun x hx =>
      printable_fieldText x (printable_dumps h x.2)
termination_by v => sizeOf v
decreasing_by
  · have hlt := List.sizeOf_lt_of_mem hv
    simp only [JsonValue.arr.sizeOf_spec]
    omega
  · have hlt := List.sizeOf_lt_of_mem hx
    rcases x with ⟨name,v⟩
    simp only [JsonValue.obj.sizeOf_spec,Prod.mk.sizeOf_spec] at hlt ⊢
    omega

end JsonText

end ContextResidency
