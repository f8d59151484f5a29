import ContextResidency.EnginePolicy

/-! An announced return in the engine's policy. The touch moves the clock of a block to
the present, adds the announced absence and caps the sum at the present again, so an
announcement that is not negative changes nothing. -/
namespace ContextResidency

variable {F K B : Type} [Scalar F]

/-- The idle time of a block, as its reuse estimate reads it. -/
def Meta.idle (m : Meta F) (t : F) : F := max 0 (t-m.lastUse)

/-- The stamp of a request that announces an absence. -/
def Hints.announcing (hints : Hints F) (eta : F) : Hints F := { hints with toolEtaS := some eta }

namespace AcrValuePolicy

/-- The estimate reads the clock through the idle time alone. -/
theorem reuseProb_idle (policy : AcrValuePolicy F K B) {m m' : Meta F} {t t' : F}
    (hiat : m.iat = m'.iat) (hleases : m.leases = m'.leases) (hidle : m.idle t = m'.idle t') :
    policy.reuseProb m t = policy.reuseProb m' t' := by
  unfold Meta.idle at hidle
  unfold reuseProb
  rw [hiat,hleases,hidle]

/-- The clock caps the announced return. -/
theorem touched_announcing (params : PolicyParams F) (hints : Hints F) {eta : F} (heta : 0 ≤ eta)
    (now : F) : touched params (some (hints.announcing eta)) now =
      touched params (some { hints with toolEtaS := none }) now := by
  funext m
  have hcap : min (now+eta) now = now := min_eq_right (le_add_of_nonneg_right heta)
  simp only [touched,Hints.announcing,hcap]

variable [DecidableEq K]

/-- A touch with an announcement that is not negative is a touch without one. -/
theorem touch_announcing (policy : AcrValuePolicy F K B) (keys : List K) (hints : Hints F) {eta : F}
    (heta : 0 ≤ eta) (now : F) : policy.touch keys (some (hints.announcing eta)) now =
      policy.touch keys (some { hints with toolEtaS := none }) now := by
  unfold touch
  rw [touched_announcing policy.params hints heta]

theorem foldl_touched_lastUse {params : PolicyParams F} {hints : Hints F}
    (hnone : hints.toolEtaS = none) (now : F) {key : K} (keys : List K) {stats : Dict K (Meta F)}
    (hkey : key ∈ keys ∨ ∃ m, stats.get key = some m ∧ m.lastUse = now) (hres : key ∈ stats) :
    ∃ m, (keys.foldl (fun stats k => stats.modify k (touched params (some hints) now))
      stats).get key = some m ∧ m.lastUse = now := by
  induction keys generalizing stats with
  | nil => exact hkey.resolve_left List.not_mem_nil
  | cons k keys ih =>
    apply ih _ (Dict.mem_modify.mpr hres)
    by_cases hk : key = k
    · right
      rcases Dict.mem_iff_get.mp hres with ⟨m,hm⟩
      refine ⟨touched params (some hints) now m,?_,?_⟩
      · rw [Dict.get_modify,if_pos hk,← hk,hm]
        rfl
      · simp only [touched,hnone]
    · refine hkey.imp (fun h => (List.mem_cons.mp h).resolve_left hk) ?_
      intro h
      rw [Dict.get_modify,if_neg hk]
      exact h

theorem get_touch_announcing (policy : AcrValuePolicy F K B) {keys : List K} {key : K}
    (hkey : key ∈ keys) (hres : key ∈ policy.blockMeta) (hints : Hints F) {eta : F}
    (heta : 0 ≤ eta) (now : F) : ∃ m,
      (policy.touch keys (some (hints.announcing eta)) now).blockMeta.get key = some m ∧
      m.lastUse = now := by
  rw [touch_announcing policy keys hints heta]
  exact foldl_touched_lastUse rfl now keys (Or.inl hkey) hres

/-- What an announced absence would do to the clock of a block that the touch leaves with a
record: no idle time until the return, idle time from the return on, and a clock that
follows the announcement. -/
structure ClockShifted (policy : AcrValuePolicy F K B) (keys : List K) (key : K) (hints : Hints F)
    (eta now : F) (m : Meta F) : Prop where
  away : ∀ t, now ≤ t → t ≤ now+eta → m.idle t = 0
  back : ∀ t, now+eta < t → m.idle t = t-(now+eta)
  shift : ∀ eta' m', 0 < eta' →
    (policy.touch keys (some (hints.announcing eta')) now).blockMeta.get key = some m' →
    m'.lastUse-m.lastUse = eta'-eta

/-- An announcement never shifts the clock: the block counts as idle from the touch on,
whatever its session announced. -/
theorem not_clockShifted (policy : AcrValuePolicy F K B) (keys : List K) (key : K)
    (hints : Hints F) (eta now : F) (hkey : key ∈ keys) (hres : key ∈ policy.blockMeta)
    (heta : 0 < eta) : ∃ m,
      (policy.touch keys (some (hints.announcing eta)) now).blockMeta.get key = some m ∧
      ¬ policy.ClockShifted keys key hints eta now m := by
  rcases policy.get_touch_announcing hkey hres hints heta.le now with ⟨m,hm,hlast⟩
  refine ⟨m,hm,fun h => ?_⟩
  have hidle := h.away (now+eta) (le_add_of_nonneg_right heta.le) le_rfl
  rw [Meta.idle,hlast,add_sub_cancel_left,max_eq_right heta.le] at hidle
  exact heta.ne' hidle

def oneSeen : AcrValuePolicy ℚ ℕ ℕ := (new 2 {}).insert (fun _ => 0) 0 0 1

theorem not_clockShifted_oneSeen : ∃ m,
    (oneSeen.touch [0] (some (({} : Hints ℚ).announcing 20)) 3).blockMeta.get 0 = some m ∧
    ¬ oneSeen.ClockShifted [0] 0 {} 20 3 m :=
  not_clockShifted oneSeen [0] 0 {} 20 3 (by decide) (by decide +kernel) (by decide)

/-- Announced for twenty seconds, and idle for all of them at their end. -/
theorem announced_idle : ¬ ∀ (policy : AcrValuePolicy ℚ ℕ ℕ) (keys : List ℕ) (key : ℕ)
    (hints : Hints ℚ) (eta now : ℚ), key ∈ keys → key ∈ policy.blockMeta → 0 < eta → ∃ m,
      (policy.touch keys (some (hints.announcing eta)) now).blockMeta.get key = some m ∧
      policy.ClockShifted keys key hints eta now m := by
  intro h
  have hres : 0 ∈ oneSeen.blockMeta := by decide +kernel
  rcases h oneSeen [0] 0 {} 20 3 (by decide) hres (by norm_num) with ⟨m,hm,hshifted⟩
  rcases oneSeen.get_touch_announcing (List.mem_singleton_self 0) hres {}
    (by norm_num : (0 : ℚ) ≤ 20) 3 with ⟨m',hm',hlast⟩
  obtain rfl := Option.some.inj (hm.symm.trans hm')
  have hidle := hshifted.away 23 (by norm_num) (by norm_num)
  rw [Meta.idle,hlast] at hidle
  norm_num at hidle

end AcrValuePolicy

end ContextResidency
