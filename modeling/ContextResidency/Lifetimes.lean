import ContextResidency.TtlEviction

/-! The lifetimes that the session-TTL policy declares. Each touch of a block promises a
time until which it lives, but the policy stores the last promise alone, so a session with
a shorter lifetime takes back what an earlier one was promised. -/
namespace ContextResidency

variable {F K B : Type} [Scalar F] [DecidableEq K]

/-- The lifetime that a touch declares. -/
def TtlParams.lifetime (params : TtlParams F) (hints : Option (Hints F)) : F :=
  (params.ttl.get ((hints.bind (·.role)).getD "")).getD params.defaultTtl

namespace SessionTtlPolicy

/-- What one more call makes of the promises to a block: an insertion starts anew, and a
touch adds a promise. -/
def promise (params : TtlParams F) (key : K) (promises : List F) : EngineCall F K B → List F
  | .insert k _ _ => if k = key then [] else promises
  | .touch keys hints now =>
    if key ∈ keys then promises ++ [now+params.lifetime hints] else promises
  | _ => promises

def promised (params : TtlParams F) (calls : List (EngineCall F K B)) (key : K) : List F :=
  calls.foldl (promise params key) []

/-- No resident block expires before a time that it was promised. -/
def KeepsPromises (cacheCapacity : ℤ) (params : TtlParams F) (calls : List (EngineCall F K B)) :
    Prop :=
  ∀ key ∈ (called cacheCapacity params calls).blocks, ∀ p ∈ promised params calls key,
    p ≤ (called cacheCapacity params calls).expiry key

/-- Of the promises to a resident block the last one reaches furthest. -/
def LastLongest (cacheCapacity : ℤ) (params : TtlParams F) (calls : List (EngineCall F K B)) :
    Prop :=
  ∀ key ∈ (called cacheCapacity params calls).blocks, ∀ last ∈ (promised params calls key).getLast?,
    ∀ p ∈ promised params calls key, p ≤ last

/-- The lifetime on record is the last promise. -/
def LastKept (policy : SessionTtlPolicy F K B) (promises : K → List F) : Prop :=
  ∀ key ∈ policy.blocks, ∀ last ∈ (promises key).getLast?, policy.expires.get key = some last

section Step

variable {policy : SessionTtlPolicy F K B} {promises : K → List F} (h : LastKept policy promises)
include h

theorem LastKept.insert (key : K) (block : B) (now : F) :
    LastKept (policy.insert key block now) fun k => if key = k then [] else promises k := by
  intro k hk last hlast
  by_cases hkey : key = k
  · simp [hkey] at hlast
  · simp only [if_neg hkey] at hlast
    have hold : k ∈ policy.blocks := (Dict.mem_set.mp hk).resolve_left (Ne.symm hkey)
    have hget := h k hold last hlast
    simp only [SessionTtlPolicy.insert]
    cases policy.expires.get key with
    | none => rw [Dict.get_set,if_neg (Ne.symm hkey),hget]
    | some t => exact hget

theorem LastKept.touch (keys : List K) (hints : Option (Hints F)) (now : F) :
    LastKept (policy.touch keys hints now) fun k =>
      if k ∈ keys then promises k ++ [now+policy.params.lifetime hints] else promises k := by
  intro k hk last hlast
  have hres : k ∈ policy.blocks := hk
  show Dict.get (List.foldl _ _ _) k = _
  rw [Dict.get_foldl_set]
  by_cases hkey : k ∈ keys
  · simp only [if_pos hkey,List.getLast?_append,List.getLast?_singleton] at hlast
    rw [if_pos (List.mem_filter.mpr ⟨hkey,decide_eq_true hres⟩)]
    exact hlast
  · simp only [if_neg hkey] at hlast
    rw [if_neg fun hmem => hkey (List.mem_filter.mp hmem).1]
    exact h k hres last hlast

theorem LastKept.without (out : List K) : LastKept (policy.without out) promises := by
  intro k hk last hlast
  rcases Dict.mem_eraseAll.mp hk with ⟨hres,hout⟩
  show (policy.expires.eraseAll out).get k = some last
  rw [Dict.get_eraseAll,if_neg hout]
  exact h k hres last hlast

theorem LastKept.answer (call : EngineCall F K B) :
    LastKept (policy.answer call) fun k => promise policy.params k (promises k) call := by
  cases call with
  | get key => exact h
  | insert key block now => exact h.insert key block now
  | remove key =>
    show LastKept (policy.remove key) _
    rw [remove_eq]
    exact h.without [key]
  | touch keys hints now => exact h.touch keys hints now
  | markEvictable key => exact h
  | markNonEvictable key => exact h
  | evict order n protectedKeys now =>
    rcases exists_outcome policy n protectedKeys now with ⟨out,hout⟩
    show LastKept (outcome policy _) _
    rw [hout]
    exact h.without out
  | clear =>
    intro k hk
    cases hk

end Step

theorem answer_params (policy : SessionTtlPolicy F K B) (call : EngineCall F K B) :
    (policy.answer call).params = policy.params := by
  cases call with
  | evict order n protectedKeys now =>
    rcases exists_outcome policy n protectedKeys now with ⟨out,hout⟩
    show (outcome policy _).params = _
    rw [hout]
    rfl
  | _ => rfl

theorem called_lastKept (cacheCapacity : ℤ) (params : TtlParams F)
    (calls : List (EngineCall F K B)) :
    (called cacheCapacity params calls).params = params ∧
      LastKept (called cacheCapacity params calls) (promised params calls) := by
  induction calls using List.reverseRecOn with
  | nil =>
    refine ⟨rfl,fun key hkey => ?_⟩
    cases hkey
  | append_singleton calls call ih =>
    have hstep := ih.2.answer call
    rw [ih.1] at hstep
    unfold called promised
    simp only [List.foldl_append,List.foldl_cons,List.foldl_nil]
    exact ⟨(answer_params _ call).trans ih.1,hstep⟩

/-- The promises to the resident blocks are kept exactly when the last one to each of them
reaches furthest. -/
theorem keepsPromises_iff (cacheCapacity : ℤ) (params : TtlParams F)
    (calls : List (EngineCall F K B)) :
    KeepsPromises cacheCapacity params calls ↔ LastLongest cacheCapacity params calls := by
  have hlast := (called_lastKept (B := B) cacheCapacity params calls).2
  refine forall₂_congr fun key hkey => ?_
  cases hpromises : (promised params calls key).getLast? with
  | none =>
    have hnil : promised params calls key = [] := List.getLast?_eq_none_iff.mp hpromises
    simp [hnil]
  | some last =>
    have hget := hlast key hkey last hpromises
    have hexpiry : (called cacheCapacity params calls).expiry key = last := by
      rw [expiry,hget,Option.getD_some]
    rw [hexpiry]
    simp

def sharedBlock : List (EngineCall ℚ ℕ ℕ) :=
  [.insert 0 0 0,.touch [0] (some { role := some "coding" }) 0,
    .touch [0] (some { role := some "patient" }) 10]

/-- The block was promised an hour and expires after seventy seconds. -/
theorem sharedBlock_shortened : ¬ ∀ (cacheCapacity : ℤ) (params : TtlParams ℚ)
    (calls : List (EngineCall ℚ ℕ ℕ)), (calls.filterMap (·.reading)).Pairwise (· ≤ ·) →
    KeepsPromises cacheCapacity params calls := by
  intro h
  have hkept := h 2 {} sharedBlock (by decide +kernel) 0 (by decide +kernel) 3600
    (by decide +kernel)
  exact absurd hkept (by decide +kernel)

end SessionTtlPolicy

end ContextResidency
