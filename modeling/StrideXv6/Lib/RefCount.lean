import Mathlib.Data.Set.Card
import Mathlib.Tactic

set_option autoImplicit false

/-! # Counting references

Keys of type `κ` refer to objects of type `ρ`, each to at most one. `count f r` is the number of
keys that refer to `r`. A counter kept beside the references stays exact if it moves by one with
every reference set (`count_set`) or cleared (`count_clear`), and an object whose counter is zero
is one that nothing refers to (`count_eq_zero`).
-/

namespace RefCount

open Function

variable {κ ρ : Type*} {f g : κ → Option ρ}

/-- Only finitely many keys refer to something. -/
def FinRefs (f : κ → Option ρ) : Prop := {k | f k ≠ none}.Finite

noncomputable def count (f : κ → Option ρ) (r : ρ) : Nat := {k | f k = some r}.ncard

theorem FinRefs.subset (hf : FinRefs f) (r : ρ) : {k | f k = some r}.Finite :=
  Set.Finite.subset hf fun k hk => by
    rw [Set.mem_ofPred_eq] at *
    simp [hk]

theorem count_eq_zero (hf : FinRefs f) {r : ρ} : count f r = 0 ↔ ∀ k, f k ≠ some r := by
  rw [count, Set.ncard_eq_zero (hf.subset r), Set.eq_empty_iff_forall_notMem]
  rfl

theorem count_pos (hf : FinRefs f) {r : ρ} : 0 < count f r ↔ ∃ k, f k = some r := by
  rw [Nat.pos_iff_ne_zero, Ne, count_eq_zero hf]
  push Not
  rfl

section Update

variable [DecidableEq κ]

theorem FinRefs.update (hf : FinRefs f) (k : κ) (o : Option ρ) : FinRefs (Function.update f k o) := by
  refine (Set.Finite.insert k hf).subset fun k' hk' => ?_
  by_cases hkk : k' = k
  · exact Or.inl hkk
  · right
    rw [Set.mem_ofPred_eq] at *
    rwa [update_of_ne hkk] at hk'

open Classical in
/-- A key that refers to nothing is made to refer to `r`. -/
theorem count_set (hf : FinRefs f) {k : κ} (hk : f k = none) (r r' : ρ) :
    count (Function.update f k (some r)) r' = count f r' + if r' = r then 1 else 0 := by
  unfold count
  by_cases hr : r' = r
  · subst hr
    have : {k' | Function.update f k (some r') k' = some r'}
        = insert k {k' | f k' = some r'} := by
      ext k'
      by_cases hkk : k' = k
      · subst hkk
        simp
      · simp [hkk]
    rw [this, Set.ncard_insert_of_notMem (by simp [hk]) (hf.subset r'), if_pos rfl]
  · have : {k' | Function.update f k (some r) k' = some r'} = {k' | f k' = some r'} := by
      ext k'
      by_cases hkk : k' = k
      · subst hkk
        simp [hk, Ne.symm hr]
      · simp [hkk]
    rw [this, if_neg hr, Nat.add_zero]

open Classical in
/-- A key that refers to `r` is cleared. -/
theorem count_clear (hf : FinRefs f) {k : κ} {r : ρ} (hk : f k = some r) (r' : ρ) :
    count (Function.update f k none) r' + (if r' = r then 1 else 0) = count f r' := by
  have h := count_set (hf.update k none) (update_self ..) r r'
  rw [update_idem, ← hk, update_eq_self] at h
  exact h.symm

end Update

/-! ## Exact counters -/

def Counts (n : ρ → Nat) (f : κ → Option ρ) : Prop := ∀ r, n r = count f r

variable [Finite κ] {n : ρ → Nat} {k k' : κ} {r : ρ}

theorem Counts.pos (h : Counts n f) (hk : f k = some r) : 0 < n r := by
  rw [h r]
  exact (count_pos (Set.toFinite _)).mpr ⟨k, hk⟩

variable [DecidableEq κ]

/-- A reference goes from one key to another. -/
theorem Counts.move (h : Counts n f) (hk : f k = some r) (hk' : f k' = none) :
    Counts n (update (update f k none) k' (some r)) := by
  intro r'
  rw [count_set (Set.toFinite _) (by rw [update_apply, hk', ite_self]),
    count_clear (Set.toFinite _) hk, h r']

variable [DecidableEq ρ]

theorem Counts.set (h : Counts n f) (hk : f k = none) (r : ρ) :
    Counts (update n r (n r + 1)) (update f k (some r)) := by
  intro r'
  rw [count_set (Set.toFinite _) hk, update_apply, ← h r']
  split <;> simp_all

theorem Counts.clear (h : Counts n f) (hk : f k = some r) :
    Counts (update n r (n r - 1)) (update f k none) := by
  intro r'
  have hc := count_clear (Set.toFinite _) hk r'
  rw [← h r'] at hc
  rw [update_apply]
  split <;> simp_all
  omega

end RefCount
