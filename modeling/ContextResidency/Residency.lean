import ContextResidency.HostFacts
import ContextResidency.Decoupling

/-! Only registered blocks are resident: a block enters either tier on the path of a
turn, and the index never forgets a block. -/
namespace ContextResidency

namespace HBMTier

theorem mem_fill {hbm : HBMTier} {item : BlockKey × ℤ} {key : BlockKey}
    (h : key ∈ (hbm.fill item).blocks) : key ∈ hbm.blocks ∨ key = item.1 := by
  unfold fill at h
  split at h
  · rename_i hitem
    obtain ⟨n,hn⟩ := Dict.mem_iff_get.mp hitem
    simp only [Dict.moveToEnd,hn,Dict.mem_set,Dict.mem_erase] at h
    tauto
  · simp only [Dict.mem_set] at h
    tauto

theorem mem_drop {hbm : HBMTier} {victims : List BlockKey} {key : BlockKey}
    (h : key ∈ (hbm.drop victims).1.blocks) : key ∈ hbm.blocks := by
  induction victims generalizing hbm with
  | nil => exact h
  | cons victim victims ih =>
    rw [drop] at h
    split at h
    · exact (Dict.mem_erase.mp h).1
    · exact (Dict.mem_erase.mp (ih h)).1

theorem mem_foldl_fill {items : List (BlockKey × ℤ)} {hbm : HBMTier} {key : BlockKey}
    (h : key ∈ (items.foldl fill hbm).blocks) : key ∈ hbm.blocks ∨ key ∈ items.map Prod.fst := by
  induction items generalizing hbm with
  | nil => exact Or.inl h
  | cons item items ih =>
    rw [List.map_cons,List.mem_cons]
    cases ih h with
    | inl hold => exact (mem_fill hold).imp_right Or.inl
    | inr hnew => exact Or.inr (Or.inr hnew)

theorem mem_store {items : List (BlockKey × ℤ)} {protectedKeys : Finset BlockKey}
    {hbm : HBMTier} {key : BlockKey} (h : key ∈ (hbm.store items protectedKeys).1.blocks) :
    key ∈ hbm.blocks ∨ key ∈ items.map Prod.fst := by
  rw [store] at h
  split at h
  · exact mem_foldl_fill h
  · exact mem_foldl_fill (mem_drop h)

end HBMTier

variable {F : Type} [Scalar F]

namespace Simulator

/-- A block that is resident after a turn was resident before it, or is on its path. -/
theorem resident_one {sched : Schedule F} {s : Simulator F} {turn : Turn F} {key : BlockKey}
    (h : (one sched s turn).Resident key) : s.Resident key ∨ key ∈ s.path turn := by
  cases h with
  | inl h =>
    rw [one_hbm] at h
    rcases HBMTier.mem_store h with hold | hnew
    · exact Or.inl (Or.inl hold)
    · refine Or.inr ?_
      simpa [Function.comp_def] using hnew
  | inr h =>
    obtain ⟨p,hp,rfl⟩ := List.mem_map.mp (mem_iff_sizes.mp h)
    rcases mem_sizes_one s turn sched hp with hold | ⟨hnew,_⟩
    · exact Or.inl (Or.inr (mem_of_sizes hold))
    · exact Or.inr hnew

theorem mem_seenIndex {s : Simulator F} {turn : Turn F} {key : BlockKey} :
    key ∈ (s.seenIndex turn).blocks ↔ key ∈ s.path turn ∨ key ∈ s.index.blocks :=
  PrefixIndex.mem_blocks_touchPath _ _ _ _ _ _ _ _

/-- Every resident block has a record. -/
def Registered (s : Simulator F) : Prop := ∀ key, s.Resident key → key ∈ s.index.blocks

theorem one_registered (sched : Schedule F) {s : Simulator F} (h : s.Registered)
    (turn : Turn F) : (one sched s turn).Registered := by
  intro key hkey
  rw [one_index,mem_seenIndex]
  cases resident_one hkey with
  | inl hold => exact Or.inr (h key hold)
  | inr hnew => exact Or.inl hnew

theorem start_registered (cfg : SimConfig F) (kind : PolicyKind F) (ram : TierConfig F) :
    (start cfg kind ram).Registered := by
  rintro key (h | h)
  · exact absurd h (by simp [start,new,HBMTier.new])
  · exact absurd h (by simp [start,new,TierPolicy.new])

theorem exec_registered (sched : Schedule F) {s : Simulator F} (h : s.Registered)
    (turns : List (Turn F)) : (exec sched s turns).Registered :=
  List.foldlRecOn (motive := Registered) turns (one sched) h fun _ h turn _ =>
    one_registered sched h turn

end Simulator
end ContextResidency
