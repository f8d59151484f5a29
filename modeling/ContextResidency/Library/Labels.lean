import Mathlib

/-! Labels that join a name, a colon, a tag and a decimal number into one string. The
name may hold anything, colons included. Tag and number hold no colon, so the last colon
ends the name, and equal labels have equal parts. -/
namespace ContextResidency

/-- The last occurrence of a separator splits a list in one way. -/
theorem append_cons_inj_last {α : Type} [DecidableEq α] {c : α} {xs ys as bs : List α}
    (ha : c ∉ as) (hb : c ∉ bs) : xs ++ c::as = ys ++ c::bs ↔ xs = ys ∧ as = bs := by
  constructor
  · intro h
    have hback : as.reverse ++ c::xs.reverse = bs.reverse ++ c::ys.reverse := by
      simpa using congrArg List.reverse h
    have hstop : ∀ (zs front : List α), c ∉ front →
        (front.reverse ++ c::zs).takeWhile (· ≠ c) = front.reverse := by
      intro zs front hfront
      rw [List.takeWhile_append_of_pos]
      · simp
      · intro x hx
        have hne : x ≠ c := fun e => hfront (e ▸ List.mem_reverse.mp hx)
        simpa using hne
    have hlast : as = bs := by
      have hcut := congrArg (List.takeWhile (· ≠ c)) hback
      rw [hstop _ as ha,hstop _ bs hb] at hcut
      exact List.reverse_injective hcut
    subst hlast
    exact ⟨List.append_cancel_right h,rfl⟩
  · rintro ⟨rfl,rfl⟩
    rfl

theorem colon_notMem_toString (i : ℤ) : ':' ∉ (toString i).toList := by
  have hdigits : ∀ n : ℕ, ':' ∉ n.repr.toList := by
    intro n hmem
    rw [Nat.toList_repr] at hmem
    have hdigit := Nat.isDigit_of_mem_toDigits (by decide) (by decide) hmem
    exact absurd hdigit (by decide)
  cases i with
  | ofNat n => exact hdigits n
  | negSucc n =>
    show ':' ∉ ("-" ++ (n+1).repr).toList
    simpa [String.toList_append] using hdigits (n+1)

def label (name : String) (tag : Char) (i : ℤ) : String :=
  name ++ ":" ++ tag.toString ++ toString i

theorem toList_label (name : String) (tag : Char) (i : ℤ) :
    (label name tag i).toList = name.toList ++ ':'::tag::(toString i).toList := by
  simp [label,String.toList_append]

/-- A name in front of a label lengthens the name of the label. -/
theorem append_label (front name : String) (tag : Char) (i : ℤ) :
    front ++ label name tag i = label (front ++ name) tag i := by
  simp only [label,String.append_assoc]

theorem label_inj {name name' : String} {tag tag' : Char} {i i' : ℤ} (htag : tag ≠ ':')
    (htag' : tag' ≠ ':') :
    label name tag i = label name' tag' i' ↔ name = name' ∧ tag = tag' ∧ i = i' := by
  constructor
  · intro h
    have hlist := congrArg String.toList h
    have htail : ∀ {tag : Char} {i : ℤ}, tag ≠ ':' → ':' ∉ tag::(toString i).toList := by
      intro tag i htag hmem
      cases List.mem_cons.mp hmem with
      | inl hcolon => exact htag hcolon.symm
      | inr hcolon => exact colon_notMem_toString i hcolon
    rw [toList_label,toList_label,append_cons_inj_last (htail htag) (htail htag'),
      List.cons.injEq] at hlist
    obtain ⟨hname,rfl,hnumber⟩ := hlist
    exact ⟨String.toList_injective hname,rfl,Int.repr_injective (String.toList_injective hnumber)⟩
  · rintro ⟨rfl,rfl,rfl⟩
    rfl

theorem append_ne_append {front front' : String} {c c' : Char} (hc : front.toList.head? = some c)
    (hc' : front'.toList.head? = some c') (hne : c ≠ c') (back back' : String) :
    front ++ back ≠ front' ++ back' := by
  intro h
  have hhead := congrArg (fun s : String => s.toList.head?) h
  simp only [String.toList_append,List.head?_append,hc,hc',Option.some_or,Option.some.injEq] at hhead
  exact hne hhead

end ContextResidency
