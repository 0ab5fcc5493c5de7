import Mathlib.Tactic

set_option autoImplicit false

/-! # Exclusive ownership of allocated resources

Owners are keys of type `κ`, and each owns at most one resource. `Owned own used` says that no
resource has two owners and that what is owned is marked as used; more may be marked. A
resource that is not used can be given to an owner (`Owned.alloc`), and an owner can give up
what it has, which is then free (`Owned.free`).
-/

namespace Ownership

open Function

variable {κ ρ : Type*} {own : κ → Option ρ} {used used' : Set ρ}

structure Owned (own : κ → Option ρ) (used : Set ρ) : Prop where
  excl : ∀ k k' r, own k = some r → own k' = some r → k = k'
  marked : ∀ k r, own k = some r → r ∈ used

theorem Owned.not_owned (h : Owned own used) {r : ρ} (hr : r ∉ used) (k : κ) : own k ≠ some r :=
  fun hk => hr (h.marked k r hk)

theorem Owned.mono (h : Owned own used) (hu : used ⊆ used') : Owned own used' :=
  ⟨h.excl, fun k r hk => hu (h.marked k r hk)⟩

variable [DecidableEq κ]

theorem Owned.alloc (h : Owned own used) (k : κ) {r : ρ} (hr : ∀ k', own k' ≠ some r)
    (hu : r ∈ used) : Owned (Function.update own k (some r)) used := by
  refine ⟨fun k₁ k₂ r' h₁ h₂ => ?_, fun k₁ r' h₁ => ?_⟩
  · rw [update_apply] at h₁ h₂
    split at h₁ <;> split at h₂
    · simp_all
    · obtain rfl := Option.some.inj h₁
      exact absurd h₂ (hr k₂)
    · obtain rfl := Option.some.inj h₂
      exact absurd h₁ (hr k₁)
    · exact h.excl k₁ k₂ r' h₁ h₂
  · rw [update_apply] at h₁
    split at h₁
    · obtain rfl := Option.some.inj h₁
      exact hu
    · exact h.marked k₁ r' h₁

theorem Owned.free (h : Owned own used) {k : κ} {r : ρ} (hk : own k = some r) :
    Owned (Function.update own k none) (used \ {r}) := by
  have hne : ∀ k₁ r', Function.update own k none k₁ = some r' → k₁ ≠ k ∧ own k₁ = some r' := by
    intro k₁ r' h₁
    rw [update_apply] at h₁
    split at h₁
    · simp at h₁
    · exact ⟨‹_›, h₁⟩
  refine ⟨fun k₁ k₂ r' h₁ h₂ => h.excl k₁ k₂ r' (hne _ _ h₁).2 (hne _ _ h₂).2, fun k₁ r' h₁ => ?_⟩
  obtain ⟨hk₁, h₁⟩ := hne _ _ h₁
  refine ⟨h.marked k₁ r' h₁, ?_⟩
  rintro rfl
  exact hk₁ (h.excl k₁ k _ h₁ hk)

end Ownership
