import ContextResidency.EnginePolicy
import ContextResidency.Library.Json

/-! The stamp of a request as the engine hands it over: any JSON value under the key of
the gateway. The touch converts its fields block by block, in the middle of the update of
each block, so a field that does not convert leaves the first resident block half updated. -/
namespace ContextResidency

variable {F K B : Type} [Scalar F]

/-- `_hints(params)`: the fields of the blob; none when it is absent or no object. -/
def hintsOf (params : Option (Fields F)) : Fields F :=
  match (params.getD []).field "acr" with
  | some (.obj fields) => fields
  | _ => []

/-- The weight of the stamped role. A role that is no string but can be a key has none. -/
def weightOf (params : PolicyParams F) (hints : Fields F) : Except UseError F :=
  match hints.field "role" with
  | none => .ok ((params.roleWeight.get "").getD 1)
  | some (.str role) => .ok ((params.roleWeight.get role).getD 1)
  | some role => if role.hashable then .ok 1 else .error .typeError

def etaOf (reading : Reading F) (hints : Fields F) : Except UseError (Option F) :=
  match hints.field "tool_eta_s" with
  | none => .ok none
  | some .null => .ok none
  | some eta => (eta.toFloat reading).map some

/-- The stamped number of leases, under either of its two names. A null is not skipped. -/
def leasesOf (reading : Reading F) (hints : Fields F) : Except UseError (Option F) :=
  match (hints.field "session_lease_count").or (hints.field "leases") with
  | none => .ok none
  | some leases => (leases.toFloat reading).map some

/-- What a stamp says once all of its fields are converted. -/
structure Stamp (F : Type) where
  weight : F
  eta : Option F
  leases : Option F

/-- The stamp of hints that are converted already. -/
def Hints.stamp (params : PolicyParams F) (hints : Hints F) : Stamp F :=
  ⟨(params.roleWeight.get (hints.role.getD "")).getD 1,hints.toolEtaS,
    hints.sessionLeaseCount.or hints.leases⟩

/-- The conversions of one touch in their order; an empty stamp is no stamp. -/
def stampOf (reading : Reading F) (params : PolicyParams F) (hints : Fields F) :
    Except UseError (Option (Stamp F)) :=
  match hints with
  | [] => .ok none
  | _::_ =>
    match weightOf params hints with
    | .error e => .error e
    | .ok weight =>
      match etaOf reading hints with
      | .error e => .error e
      | .ok eta =>
        match leasesOf reading hints with
        | .error e => .error e
        | .ok leases => .ok (some ⟨weight,eta,leases⟩)

namespace Meta

/-- The part of a touch that reads no hint. -/
def used (m : Meta F) (now : F) : Meta F :=
  let gap := max 0 (now-m.lastUse)
  { m with
    iat := if m.iat ≤ 0 then gap else 7/10*m.iat+3/10*gap
    lastUse := now
    uses := m.uses+1 }

/-- A whole touch with converted hints. -/
def stamped (m : Meta F) (stamp : Option (Stamp F)) (now : F) : Meta F :=
  match stamp with
  | none => m.used now
  | some s =>
    { m.used now with
      weight := s.weight
      lastUse := match s.eta with
        | none => now
        | some eta => min (now+eta) now
      leases := s.leases.getD m.leases }

end Meta

/-- The update of one block, statement by statement: what is left of the record, and the
error if a conversion fails on the way. -/
def touchedRaw (reading : Reading F) (params : PolicyParams F) (hints : Fields F) (now : F)
    (m : Meta F) : Meta F × Option UseError :=
  let used := m.used now
  match hints with
  | [] => (used,none)
  | _::_ =>
    match weightOf params hints with
    | .error e => (used,some e)
    | .ok weight =>
      let weighed := { used with weight := weight }
      match etaOf reading hints with
      | .error e => (weighed,some e)
      | .ok eta =>
        let shifted := { weighed with lastUse := match eta with
          | none => weighed.lastUse
          | some eta => min (weighed.lastUse+eta) now }
        match leasesOf reading hints with
        | .error e => (shifted,some e)
        | .ok leases => ({ shifted with leases := leases.getD m.leases },none)

variable [DecidableEq K]

/-- The loop over the keys of a touch; an error ends it. -/
def touchKeys (reading : Reading F) (params : PolicyParams F) (hints : Fields F) (now : F) :
    List K → Dict K (Meta F) → Dict K (Meta F) × Option UseError
  | [], stats => (stats,none)
  | key::keys, stats =>
    match stats.get key with
    | none => touchKeys reading params hints now keys stats
    | some m =>
      let r := touchedRaw reading params hints now m
      match r.2 with
      | none => touchKeys reading params hints now keys (stats.modify key fun _ => r.1)
      | some e => (stats.modify key fun _ => r.1,some e)

namespace AcrValuePolicy

/-- `touch` on the parameters of a request, as they come in. -/
def touchRaw (reading : Reading F) (policy : AcrValuePolicy F K B) (keys : List K)
    (params : Option (Fields F)) (now : F) : AcrValuePolicy F K B × Option UseError :=
  let r := touchKeys reading policy.params (hintsOf params) now keys policy.blockMeta
  ({ policy with blockMeta := r.1 },r.2)

def stampAll (policy : AcrValuePolicy F K B) (keys : List K) (stamp : Option (Stamp F)) (now : F) :
    AcrValuePolicy F K B :=
  let use := fun m : Meta F => m.stamped stamp now
  { policy with blockMeta := keys.foldl (fun stats k => stats.modify k use) policy.blockMeta }

end AcrValuePolicy

/-! One block. -/
section Block

variable {reading : Reading F} {params : PolicyParams F} {hints : Fields F}

/-- The update of a block is a whole touch when every field converts. Otherwise it raises, and
by then the use is counted. -/
theorem touchedRaw_stampOf (reading : Reading F) (params : PolicyParams F) (hints : Fields F)
    (now : F) (m : Meta F) :
    match stampOf reading params hints with
    | .ok stamp => touchedRaw reading params hints now m = (m.stamped stamp now,none)
    | .error e => ∃ half, touchedRaw reading params hints now m = (half,some e) ∧
        half.uses = m.uses+1 := by
  cases hints with
  | nil => rfl
  | cons field hints =>
    unfold stampOf touchedRaw
    cases weightOf params (field::hints) with
    | error e => exact ⟨_,rfl,rfl⟩
    | ok weight =>
      cases etaOf reading (field::hints) with
      | error e => exact ⟨_,rfl,rfl⟩
      | ok eta =>
        cases leasesOf reading (field::hints) with
        | error e => exact ⟨_,rfl,rfl⟩
        | ok leases => rfl

theorem touchedRaw_of_stamp {stamp : Option (Stamp F)}
    (h : stampOf reading params hints = .ok stamp) (now : F) (m : Meta F) :
    touchedRaw reading params hints now m = (m.stamped stamp now,none) := by
  have hraw := touchedRaw_stampOf reading params hints now m
  rwa [h] at hraw

theorem touchedRaw_of_error {e : UseError} (h : stampOf reading params hints = .error e) (now : F)
    (m : Meta F) : ∃ half, touchedRaw reading params hints now m = (half,some e) ∧
      half.uses = m.uses+1 := by
  have hraw := touchedRaw_stampOf reading params hints now m
  rwa [h] at hraw

/-- The stamps whose fields all convert. -/
structure Convertible (reading : Reading F) (hints : Fields F) : Prop where
  role : ∀ v, hints.field "role" = some v → v.hashable
  eta : ∀ v, hints.field "tool_eta_s" = some v → v = .null ∨ v.Numeric reading
  leases : ∀ v, (hints.field "session_lease_count").or (hints.field "leases") = some v →
    v.Numeric reading

theorem exists_weightOf : (∃ weight, weightOf params hints = .ok weight) ↔
    ∀ v, hints.field "role" = some v → v.hashable := by
  unfold weightOf
  cases hints.field "role" with
  | none => simp
  | some role => cases role <;> simp [Json.hashable]

theorem exists_etaOf : (∃ eta, etaOf reading hints = .ok eta) ↔
    ∀ v, hints.field "tool_eta_s" = some v → v = .null ∨ v.Numeric reading := by
  unfold etaOf
  cases hints.field "tool_eta_s" with
  | none => simp
  | some eta =>
    have hmap : (∃ x, (eta.toFloat reading).map some = .ok x) ↔ eta.Numeric reading := by
      unfold Json.Numeric
      cases eta.toFloat reading <;> simp [Except.map]
    by_cases hnull : eta = .null
    · simp [hnull]
    · simpa [hnull] using hmap

theorem exists_leasesOf : (∃ leases, leasesOf reading hints = .ok leases) ↔
    ∀ v, (hints.field "session_lease_count").or (hints.field "leases") = some v →
      v.Numeric reading := by
  unfold leasesOf
  cases (hints.field "session_lease_count").or (hints.field "leases") with
  | none => simp
  | some leases =>
    unfold Json.Numeric
    cases hf : leases.toFloat reading <;> simp [Except.map,hf]

theorem exists_stampOf : (∃ stamp, stampOf reading params hints = .ok stamp) ↔
    Convertible reading hints := by
  have hparts : Convertible reading hints ↔ (∃ weight, weightOf params hints = .ok weight) ∧
      (∃ eta, etaOf reading hints = .ok eta) ∧ ∃ leases, leasesOf reading hints = .ok leases := by
    rw [exists_weightOf,exists_etaOf,exists_leasesOf]
    exact ⟨fun h => ⟨h.role,h.eta,h.leases⟩,fun h => ⟨h.1,h.2.1,h.2.2⟩⟩
  rw [hparts]
  unfold stampOf
  cases hints with
  | nil => simp [weightOf,etaOf,leasesOf,Fields.field]
  | cons field hints =>
    cases weightOf params (field::hints) with
    | error e => simp
    | ok weight =>
      cases etaOf reading (field::hints) with
      | error e => simp
      | ok eta => cases leasesOf reading (field::hints) <;> simp

end Block

/-! The loop over the keys. -/
section Loop

variable {reading : Reading F} {params : PolicyParams F} {hints : Fields F} {now : F}

section Cons

variable {key : K} {stats : Dict K (Meta F)} {m m' : Meta F} {e : UseError} (keys : List K)

theorem touchKeys_skip (hm : stats.get key = none) :
    touchKeys reading params hints now (key::keys) stats =
      touchKeys reading params hints now keys stats := by
  rw [touchKeys,hm]

theorem touchKeys_next (hm : stats.get key = some m)
    (hraw : touchedRaw reading params hints now m = (m',none)) :
    touchKeys reading params hints now (key::keys) stats =
      touchKeys reading params hints now keys (stats.modify key fun _ => m') := by
  rw [touchKeys,hm]
  simp only [hraw]

theorem touchKeys_raise (hm : stats.get key = some m)
    (hraw : touchedRaw reading params hints now m = (m',some e)) :
    touchKeys reading params hints now (key::keys) stats =
      (stats.modify key fun _ => m',some e) := by
  rw [touchKeys,hm]
  simp only [hraw]

end Cons

theorem touchKeys_of_stamp {stamp : Option (Stamp F)}
    (h : stampOf reading params hints = .ok stamp) (keys : List K) (stats : Dict K (Meta F)) :
    touchKeys reading params hints now keys stats =
      (keys.foldl (fun stats k => stats.modify k fun m => m.stamped stamp now) stats,none) := by
  induction keys generalizing stats with
  | nil => rfl
  | cons key keys ih =>
    cases hm : stats.get key with
    | none => rw [touchKeys_skip keys hm,ih,List.foldl_cons,Dict.modify_of_absent hm]
    | some m =>
      rw [touchKeys_next keys hm (touchedRaw_of_stamp h now m),ih,List.foldl_cons,
        Dict.modify_of_get hm fun m => m.stamped stamp now]

theorem touchKeys_of_absent {keys : List K} {stats : Dict K (Meta F)}
    (h : ∀ key ∈ keys, key ∉ stats) :
    touchKeys reading params hints now keys stats = (stats,none) := by
  induction keys with
  | nil => rfl
  | cons key keys ih =>
    rcases List.forall_mem_cons.mp h with ⟨hkey,hkeys⟩
    rw [touchKeys_skip keys (Dict.get_eq_none.mpr hkey)]
    exact ih hkeys

/-- The first resident block of the list keeps the use that was counted before the error. -/
theorem touchKeys_of_error {e : UseError} (h : stampOf reading params hints = .error e)
    {keys : List K} {stats : Dict K (Meta F)} (hres : ∃ key ∈ keys, key ∈ stats) :
    ∃ half, touchKeys reading params hints now keys stats = (half,some e) ∧ half ≠ stats := by
  induction keys with
  | nil => simp at hres
  | cons key keys ih =>
    cases hm : stats.get key with
    | none =>
      rw [touchKeys_skip keys hm]
      apply ih
      rcases hres with ⟨k,hk,hks⟩
      cases List.mem_cons.mp hk with
      | inl heq => exact absurd (heq ▸ hks) (Dict.get_eq_none.mp hm)
      | inr hk => exact ⟨k,hk,hks⟩
    | some m =>
      rcases touchedRaw_of_error h now m with ⟨half,hraw,huses⟩
      refine ⟨_,touchKeys_raise keys hm hraw,fun hsame => ?_⟩
      have hget := congrArg (fun d => Dict.get d key) hsame
      simp only [Dict.get_modify,if_true,hm,Option.map_some] at hget
      have := congrArg Meta.uses (Option.some.inj hget)
      omega

end Loop

namespace AcrValuePolicy

/-- A touch updates every resident block of its list, all with the same converted hints, or
it raises and leaves the statistics as they were. -/
def AllOrNothing (reading : Reading F) (policy : AcrValuePolicy F K B) (keys : List K)
    (params : Option (Fields F)) (now : F) : Prop :=
  match policy.touchRaw reading keys params now with
  | (after,none) => ∃ stamp, after = policy.stampAll keys stamp now
  | (after,some _) => after.blockMeta = policy.blockMeta

/-- With hints that convert to the ones that the policy works with, the raw touch is the
touch. -/
theorem touchRaw_eq_touch {reading : Reading F} (policy : AcrValuePolicy F K B) (keys : List K)
    {params : Option (Fields F)} {hints : Option (Hints F)} (now : F)
    (h : stampOf reading policy.params (hintsOf params) =
      .ok (hints.map (Hints.stamp policy.params))) :
    policy.touchRaw reading keys params now = (policy.touch keys hints now,none) := by
  unfold touchRaw
  rw [touchKeys_of_stamp h]
  have huse : touched policy.params hints now =
      fun m => m.stamped (hints.map (Hints.stamp policy.params)) now := by
    funext m
    cases hints with
    | none => rfl
    | some given =>
      have hleases : given.sessionLeaseCount.getD (given.leases.getD m.leases) =
          (given.sessionLeaseCount.or given.leases).getD m.leases := by
        cases given.sessionLeaseCount <;> rfl
      cases heta : given.toolEtaS with
      | none => simp only [touched,Meta.stamped,Meta.used,Hints.stamp,Option.map_some,hleases,heta]
      | some eta =>
        simp only [touched,Meta.stamped,Meta.used,Hints.stamp,Option.map_some,hleases,heta]
  rw [touch,huse]

/-- Touches of this policy are all or nothing exactly when every field of the stamp converts
or no block of the list is resident. -/
theorem allOrNothing_iff (reading : Reading F) (policy : AcrValuePolicy F K B) (keys : List K)
    (params : Option (Fields F)) (now : F) : policy.AllOrNothing reading keys params now ↔
      Convertible reading (hintsOf params) ∨ ∀ key ∈ keys, key ∉ policy.blockMeta := by
  unfold AllOrNothing touchRaw
  rw [← @exists_stampOf F _ reading policy.params (hintsOf params)]
  cases hstamp : stampOf reading policy.params (hintsOf params) with
  | ok stamp =>
    rw [touchKeys_of_stamp hstamp]
    exact iff_of_true ⟨stamp,rfl⟩ (Or.inl ⟨stamp,rfl⟩)
  | error e =>
    by_cases hres : ∀ key ∈ keys, key ∉ policy.blockMeta
    · rw [touchKeys_of_absent hres]
      refine iff_of_true ⟨none,?_⟩ (Or.inr hres)
      have hnone : stampOf reading policy.params [] = .ok none := rfl
      have hsame := @touchKeys_of_stamp F K _ _ _ _ _ now _ hnone keys policy.blockMeta
      rw [touchKeys_of_absent hres] at hsame
      rw [stampAll,← (Prod.mk.inj hsame).1]
    · have hsome : ∃ key ∈ keys, key ∈ policy.blockMeta := by
        push Not at hres
        exact hres
      rcases touchKeys_of_error hstamp hsome with ⟨half,hhalf,hne⟩
      rw [hhalf]
      refine iff_of_false hne ?_
      rintro (⟨stamp,hok⟩ | hnone)
      · cases hok
      · exact hres hnone

def oneBlock : AcrValuePolicy ℚ ℕ ℕ := (new 2 {}).insert (fun _ => 0) 0 0 1

def wordyEta : Fields ℚ := [("acr",.obj [("role",.str "patient"),("tool_eta_s",.str "soon")])]

theorem wordyEta_half : ¬ ∀ (reading : Reading ℚ) (policy : AcrValuePolicy ℚ ℕ ℕ) (keys : List ℕ)
    (params : Option (Fields ℚ)) (now : ℚ), policy.AllOrNothing reading keys params now := by
  intro h
  have hhalf := h ⟨fun _ => none,fun _ => 0⟩ oneBlock [0] (some wordyEta) 3
  have herror : stampOf ⟨fun _ => none,fun _ => 0⟩ (oneBlock.params) (hintsOf (some wordyEta)) =
      .error .valueError := rfl
  have hres : ∃ key ∈ [0], key ∈ oneBlock.blockMeta := ⟨0,by simp,by decide +kernel⟩
  rcases @touchKeys_of_error ℚ ℕ _ _ _ _ _ 3 _ herror [0] oneBlock.blockMeta hres
    with ⟨half,hkeys,hne⟩
  rw [AllOrNothing,touchRaw,hkeys] at hhalf
  exact hne hhalf

end AcrValuePolicy

end ContextResidency
