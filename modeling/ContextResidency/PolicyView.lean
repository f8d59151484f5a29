import ContextResidency.Policies

/-! What a policy reads of the probe. A probe that shows a policy the same admissions,
expiries and victims cannot steer it elsewhere. -/
namespace ContextResidency

variable {F : Type} [Scalar F]

/-- Policies of this kind decide the same with both probes. -/
structure PolicyKind.SameView (kind : PolicyKind F) (p q : Probe F) : Prop where
  admission : ∀ policy : TierPolicy F, policy.kind = kind → ∀ items,
    policy.admitChain items p = policy.admitChain items q
  expiry : ∀ policy : TierPolicy F, policy.kind = kind → ∀ key nbytes now,
    policy.expiry key nbytes now p = policy.expiry key nbytes now q
  evict : ∀ policy : TierPolicy F, policy.kind = kind → ∀ neededBytes protectedKeys now,
    policy.evict neededBytes protectedKeys now p = policy.evict neededBytes protectedKeys now q

namespace PolicyKind.SameView

theorem refl (kind : PolicyKind F) (p : Probe F) : kind.SameView p p :=
  ⟨fun _ _ _ => rfl,fun _ _ _ _ _ => rfl,fun _ _ _ _ _ => rfl⟩

variable {kind : PolicyKind F} {p q : Probe F} (h : kind.SameView p q) (policy : TierPolicy F)
  (hkind : policy.kind = kind)
include h hkind

theorem refresh (key : BlockKey) (nbytes : ℤ) (now : F) :
    policy.refresh key nbytes now p = policy.refresh key nbytes now q := by
  funext e
  unfold TierPolicy.refresh
  rw [h.expiry policy hkind]

theorem insert (key : BlockKey) (nbytes : ℤ) (now : F) :
    policy.insert key nbytes now p = policy.insert key nbytes now q := by
  unfold TierPolicy.insert
  rw [h.expiry policy hkind,h.refresh policy hkind]

theorem touch (keys : List BlockKey) (now : F) :
    policy.touch keys now p = policy.touch keys now q := by
  unfold TierPolicy.touch
  induction keys generalizing policy with
  | nil => simp only [List.foldl_nil]
  | cons key keys ih =>
    simp only [List.foldl_cons,h.refresh policy hkind]
    exact ih _ hkind

end PolicyKind.SameView
end ContextResidency
