import Mathlib.Tactic

set_option autoImplicit false

/-! # Chains of pointers

`Leads next l y` says that each of the nodes `l` points to the next one, and the last one to `y`. If
`y` is the first of them the nodes are a ring: from each of them one gets to every other before one
is back (`Leads.reach`).
-/

variable {ν : Type*}

def Leads (next : ν → ν) : List ν → ν → Prop
  | [], _ => True
  | x :: l, y => next x = l.headD y ∧ Leads next l y

namespace Leads

open Function

variable {next next' : ν → ν} {x y z b : ν} {l l₁ l₂ : List ν}

theorem append_iff : Leads next (l₁ ++ l₂) y ↔ Leads next l₁ (l₂.headD y) ∧ Leads next l₂ y := by
  induction l₁ with
  | nil => exact (iff_of_eq (true_and _)).symm
  | cons x l ih =>
    have hhead : (l ++ l₂).headD y = l.headD (l₂.headD y) := by cases l <;> rfl
    rw [List.cons_append, Leads, Leads, ih, hhead, and_assoc]

/-- Only the pointers of the nodes matter. -/
theorem congr (h : Leads next l y) (hsame : ∀ z ∈ l, next' z = next z) : Leads next' l y := by
  induction l with
  | nil => trivial
  | cons x l ih =>
    refine ⟨(hsame x List.mem_cons_self).trans h.1, ih h.2 fun z hz => ?_⟩
    exact hsame z (List.mem_cons_of_mem _ hz)

/-- The node `x` is taken out: the one before it is led to where it leads. -/
theorem skip [DecidableEq ν] (h : Leads next (l₁ ++ z :: x :: l₂) y)
    (hnd : (l₁ ++ z :: x :: l₂).Nodup) :
    Leads (Function.update next z (next x)) (l₁ ++ z :: l₂) y := by
  obtain ⟨-, hzx, hdisj⟩ := List.nodup_append.mp hnd
  rw [append_iff] at h ⊢
  obtain ⟨hfront, -, hx, hback⟩ := h
  refine ⟨hfront.congr fun w hw => update_of_ne ?_ .., (update_self ..).trans hx,
    hback.congr fun w hw => update_of_ne ?_ ..⟩
  · exact hdisj w hw z List.mem_cons_self
  · rintro rfl
    exact (List.nodup_cons.mp hzx).1 (List.mem_cons_of_mem _ hw)

theorem next_of_mem (h : Leads next l y) (hz : z ∈ l) :
    ∃ l₁ l₂, l = l₁ ++ z :: l₂ ∧ next z = l₂.headD y := by
  obtain ⟨l₁, l₂, rfl⟩ := List.append_of_mem hz
  exact ⟨l₁, l₂, rfl, (append_iff.mp h).2.1⟩

/-- The end is reached from each of the nodes. -/
theorem exists_iterate_end (h : Leads next l y) (hz : z ∈ l) : ∃ k, next^[k + 1] z = y := by
  induction l generalizing z with
  | nil => cases hz
  | cons x l ih =>
    rcases List.mem_cons.mp hz with rfl | hz
    · cases l with
      | nil => exact ⟨0, h.1⟩
      | cons w l =>
        obtain ⟨k, hk⟩ := ih h.2 List.mem_cons_self
        exact ⟨k + 1, by rw [iterate_succ_apply, h.1]; exact hk⟩
    · exact ih h.2 hz

/-- Each node is reached from the first one. -/
theorem exists_iterate (h : Leads next (x :: l) y) (hz : z ∈ x :: l) : ∃ k, next^[k] x = z := by
  induction l generalizing x with
  | nil => exact ⟨0, (List.mem_singleton.mp hz).symm⟩
  | cons w l ih =>
    rcases List.mem_cons.mp hz with rfl | hz
    · exact ⟨0, rfl⟩
    · obtain ⟨k, hk⟩ := ih h.2 hz
      exact ⟨k + 1, by rw [iterate_succ_apply, h.1]; exact hk⟩

theorem mem_iterate (h : Leads next (b :: l) b) (hz : z ∈ b :: l) (k : Nat) :
    next^[k] z ∈ b :: l := by
  induction k generalizing z with
  | zero => exact hz
  | succ k ih =>
    refine ih ?_
    obtain ⟨l₁, l₂, heq, hnext⟩ := h.next_of_mem hz
    rw [hnext]
    cases l₂ with
    | nil => exact List.mem_cons_self
    | cons w l₂ =>
      rw [heq]
      exact List.mem_append_right _ (List.mem_cons_of_mem _ List.mem_cons_self)

/-- **Going round.** On a ring, `next` leads from each node to each, and not back to the first one
before. -/
theorem reach (h : Leads next (b :: l) b) (hx : x ∈ b :: l) (hy : y ∈ b :: l) :
    ∃ k, next^[k + 1] x = y ∧ ∀ j < k, next^[j + 1] x ≠ x := by
  classical
  have hex : ∃ k, next^[k + 1] x = y := by
    obtain ⟨k₁, h₁⟩ := h.exists_iterate_end hx
    obtain ⟨k₂, h₂⟩ := h.exists_iterate hy
    exact ⟨k₂ + k₁, by rw [Nat.add_assoc, iterate_add_apply, h₁, h₂]⟩
  refine ⟨Nat.find hex, Nat.find_spec hex, fun j hj hback => ?_⟩
  -- Going round once more than needed would be a longer way.
  have hshort : next^[Nat.find hex - (j + 1) + 1] x = y := by
    have hfind := Nat.find_spec hex
    rw [show Nat.find hex + 1 = Nat.find hex - (j + 1) + 1 + (j + 1) by omega,
      iterate_add_apply, hback] at hfind
    exact hfind
  exact Nat.find_min hex (by omega) hshort

end Leads
