import Mathlib.Tactic

set_option autoImplicit false

/-! # Proofs about a lock

Processes `ι` with program counters `P` in a system with states `σ`, and a lock that is taken
for a part of each program: `holds` says for which program counters. An invariant of such a
system is given by what holds while the lock is free (`J`) and by what holds while its holder is
at a program counter (`A`). The four rules are for the four things a step can do: happen outside
of the lock (`Inv.outside`), take it (`Inv.take`), run under it (`Inv.inside`) and give it back
(`Inv.drop`).
-/

namespace Monitor

/-- Where a system keeps its lock and its program counters. -/
structure View (σ ι P : Type*) where
  lock : σ → Option ι
  pc : σ → ι → P
  holds : P → Bool

variable {σ ι P : Type*} {M : View σ ι P}

/-- The invariant: only the holder is in its critical section, with `A` there, and `J` holds
while the lock is free. -/
structure Inv (M : View σ ι P) (A : P → σ → Prop) (J : σ → Prop) (s : σ) : Prop where
  excl : ∀ i, M.holds (M.pc s i) = true ↔ M.lock s = some i
  free : M.lock s = none → J s
  held : ∀ i, M.lock s = some i → A (M.pc s i) s

variable {A : P → σ → Prop} {J : σ → Prop} {s t : σ} {me : ι} {p : P}

/-- Nothing in the critical section changes. -/
theorem Inv.outside (h : Inv M A J s) (hlock : M.lock t = M.lock s)
    (hpc : ∀ i, M.holds (M.pc t i) = M.holds (M.pc s i))
    (hsame : ∀ i, M.holds (M.pc s i) = true → M.pc t i = M.pc s i)
    (hJ : J s → J t) (hA : ∀ i, M.lock s = some i → A (M.pc s i) s → A (M.pc s i) t) :
    Inv M A J t := by
  refine ⟨fun i => ?_, fun hl => hJ (h.free (hlock ▸ hl)), fun i hl => ?_⟩
  · rw [hpc, hlock]
    exact h.excl i
  · rw [hlock] at hl
    rw [hsame i ((h.excl i).mpr hl)]
    exact hA i hl (h.held i hl)

/-- `me` takes the lock, and is at `p` then. -/
theorem Inv.take (h : Inv M A J s) (hs : M.lock s = none) (ht : M.lock t = some me)
    (hpc : ∀ i, i ≠ me → M.holds (M.pc t i) = M.holds (M.pc s i))
    (hp : M.pc t me = p) (hme : M.holds p = true) (hA : J s → A p t) : Inv M A J t := by
  refine ⟨fun i => ?_, fun hl => ?_, fun i hl => ?_⟩
  · by_cases hi : i = me
    · subst hi
      simp [hp, hme, ht]
    · rw [hpc i hi, h.excl, hs, ht]
      simp [Ne.symm hi]
  · simp [ht] at hl
  · rw [ht, Option.some.injEq] at hl
    subst hl
    rw [hp]
    exact hA (h.free hs)

/-- The holder `me` runs on. -/
theorem Inv.inside (h : Inv M A J s) (hs : M.lock s = some me) (ht : M.lock t = some me)
    (hpc : ∀ i, i ≠ me → M.holds (M.pc t i) = M.holds (M.pc s i))
    (hp : M.pc t me = p) (hme : M.holds p = true) (hA : A (M.pc s me) s → A p t) :
    Inv M A J t := by
  refine ⟨fun i => ?_, fun hl => ?_, fun i hl => ?_⟩
  · by_cases hi : i = me
    · subst hi
      simp [hp, hme, ht]
    · rw [hpc i hi, h.excl, hs, ht]
  · simp [ht] at hl
  · rw [ht, Option.some.injEq] at hl
    subst hl
    rw [hp]
    exact hA (h.held _ hs)

/-- The holder `me` releases the lock. -/
theorem Inv.drop (h : Inv M A J s) (hs : M.lock s = some me) (ht : M.lock t = none)
    (hpc : ∀ i, i ≠ me → M.holds (M.pc t i) = M.holds (M.pc s i))
    (hp : M.pc t me = p) (hme : M.holds p = false) (hA : A (M.pc s me) s → J t) :
    Inv M A J t := by
  refine ⟨fun i => ?_, fun _ => hA (h.held me hs), fun i hl => ?_⟩
  · by_cases hi : i = me
    · subst hi
      simp [hp, hme, ht]
    · rw [hpc i hi, h.excl, hs, ht]
      simp [Ne.symm hi]
  · simp [ht] at hl

end Monitor
