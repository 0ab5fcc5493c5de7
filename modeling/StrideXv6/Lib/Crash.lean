import Mathlib.Tactic

set_option autoImplicit false

/-! # Disk programs and crashes

A `Prog` reads and writes the blocks of a disk. Single-block writes are atomic and reach the
disk in the order in which they are issued, so a crash leaves the disk as it was after some
number of them: `crashAfter i p d`.

`Spec P p Q C` is a triple with a crash condition: from a disk with `P` the program ends with
`Q`, and wherever it is interrupted the disk has `C`. Its rules follow the program
(`spec_bind`, `spec_write`, `spec_forEach`). `recovered` is the rule for a recovery program,
which may itself be interrupted any number of times before it gets through.
-/

namespace Crash

variable {β α γ : Type}

inductive Prog (β α : Type) where
  | ret (a : α)
  | read (b : Nat) (k : β → Prog β α)
  | write (b : Nat) (v : β) (k : Prog β α)

def Prog.bind : Prog β α → (α → Prog β γ) → Prog β γ
  | .ret a, f => f a
  | .read b k, f => .read b fun v => (k v).bind f
  | .write b v k, f => .write b v (k.bind f)

instance : Monad (Prog β) where
  pure := .ret
  bind := Prog.bind

def bread (b : Nat) : Prog β β := .read b .ret

def bwrite (b : Nat) (v : β) : Prog β Unit := .write b v (.ret ())

/-- Run the body for each element of the list, with its position counted from `i`. -/
def forEach (f : Nat → α → Prog β Unit) : Nat → List α → Prog β Unit
  | _, [] => pure ()
  | i, a :: as => do
    f i a
    forEach f (i + 1) as

/-- The result of an uninterrupted run, and the disk it leaves. -/
def run : Prog β α → (Nat → β) → α × (Nat → β)
  | .ret a, d => (a, d)
  | .read b k, d => run (k (d b)) d
  | .write b v k, d => run k (Function.update d b v)

/-- The disk after a crash that lets `i` of the program's writes through. -/
def crashAfter : Nat → Prog β α → (Nat → β) → (Nat → β)
  | _, .ret _, d => d
  | i, .read b k, d => crashAfter i (k (d b)) d
  | 0, .write _ _ _, d => d
  | i + 1, .write b v k, d => crashAfter i k (Function.update d b v)

/-! ## Triples with a crash condition -/

def Spec (P : (Nat → β) → Prop) (p : Prog β α) (Q : α → (Nat → β) → Prop)
    (C : (Nat → β) → Prop) : Prop :=
  ∀ d, P d → Q (run p d).1 (run p d).2 ∧ ∀ i, C (crashAfter i p d)

variable {P P' R : (Nat → β) → Prop} {Q : α → (Nat → β) → Prop} {C C' : (Nat → β) → Prop}

theorem spec_conseq {p : Prog β α} {Q' : α → (Nat → β) → Prop} (h : Spec P p Q C)
    (hP : ∀ d, P' d → P d) (hQ : ∀ a d, Q a d → Q' a d) (hC : ∀ d, C d → C' d) :
    Spec P' p Q' C' :=
  fun d hd => ⟨hQ _ _ (h d (hP d hd)).1, fun i => hC _ ((h d (hP d hd)).2 i)⟩

theorem spec_or {p : Prog β α} (h : Spec P p Q C) (h' : Spec P' p Q C) :
    Spec (fun d => P d ∨ P' d) p Q C := by
  rintro d (hd | hd)
  · exact h d hd
  · exact h' d hd

theorem spec_pure {a : α} (hQ : ∀ d, P d → Q a d) (hC : ∀ d, P d → C d) :
    Spec P (pure a) Q C :=
  fun d hd => ⟨hQ d hd, fun i => by cases i <;> exact hC d hd⟩

theorem run_bind (p : Prog β α) (f : α → Prog β γ) (d : Nat → β) :
    run (p >>= f) d = run (f (run p d).1) (run p d).2 := by
  induction p generalizing d with
  | ret a => rfl
  | read b k ih => exact ih (d b) d
  | write b v k ih => exact ih (Function.update d b v)

/-- A crash in `p >>= f` is a crash in `p`, or one in `f` after all of `p`. -/
theorem crashAfter_bind (p : Prog β α) (f : α → Prog β γ) (i : Nat) (d : Nat → β) :
    (∃ j, crashAfter i (p >>= f) d = crashAfter j p d) ∨
      ∃ j, crashAfter i (p >>= f) d = crashAfter j (f (run p d).1) (run p d).2 := by
  induction p generalizing i d with
  | ret a => exact Or.inr ⟨i, rfl⟩
  | read b k ih =>
    rcases ih (d b) i d with ⟨j, hj⟩ | h
    · exact Or.inl ⟨j, by cases i <;> exact hj⟩
    · exact Or.inr h
  | write b v k ih =>
    cases i with
    | zero => exact Or.inl ⟨0, rfl⟩
    | succ i =>
      rcases ih i (Function.update d b v) with ⟨j, hj⟩ | h
      · exact Or.inl ⟨j + 1, hj⟩
      · exact Or.inr h

theorem spec_bind {p : Prog β α} {f : α → Prog β γ} {S : γ → (Nat → β) → Prop}
    (hp : Spec P p Q C) (hf : ∀ a, Spec (Q a) (f a) S C) : Spec P (p >>= f) S C := by
  intro d hd
  obtain ⟨h1, h2⟩ := hp d hd
  obtain ⟨h3, h4⟩ := hf _ _ h1
  refine ⟨by rwa [run_bind], fun i => ?_⟩
  rcases crashAfter_bind p f i d with ⟨j, hj⟩ | ⟨j, hj⟩
  · rw [hj]; exact h2 j
  · rw [hj]; exact h4 j

theorem spec_bread {b : Nat} (hC : ∀ d, P d → C d) :
    Spec P (bread b) (fun v d => P d ∧ v = d b) C :=
  fun d hd => ⟨⟨hd, rfl⟩, fun i => by cases i <;> exact hC d hd⟩

/-- A write is atomic: a crash finds the disk as before it or as after it. -/
theorem spec_bwrite {b : Nat} {v : β} (hR : ∀ d, P d → R (Function.update d b v))
    (hC : ∀ d, P d → C d) (hC' : ∀ d, R d → C d) :
    Spec P (bwrite b v) (fun _ d => R d) C := by
  intro d hd
  refine ⟨hR d hd, fun i => ?_⟩
  match i with
  | 0 => exact hC d hd
  | i + 1 => cases i <;> exact hC' _ (hR d hd)

/-- A loop over a list: `I` is indexed by the number of elements already treated. -/
theorem spec_forEach {f : Nat → γ → Prog β Unit} {I : Nat → (Nat → β) → Prop} (l : List γ)
    (i : Nat) (h : ∀ j (hj : j < l.length), Spec (I (i + j)) (f (i + j) l[j])
      (fun _ => I (i + j + 1)) C)
    (hC : ∀ d, I (i + l.length) d → C d) :
    Spec (I i) (forEach f i l) (fun _ => I (i + l.length)) C := by
  induction l generalizing i with
  | nil => exact spec_pure (fun _ hd => hd) hC
  | cons a l ih =>
    refine spec_bind (h 0 (by simp)) fun _ => ?_
    have hlen : i + (a :: l).length = i + 1 + l.length := by simp; omega
    rw [hlen] at hC ⊢
    refine ih (i + 1) (fun j hj => ?_) hC
    have := h (j + 1) (by simpa using hj)
    rwa [show i + (j + 1) = i + 1 + j by omega] at this

/-! ## Recovery -/

/-- The disk after recovery has been interrupted after `rs` writes, one attempt each, and
then run to its end. -/
def recoverAfter (rec : Prog β α) (rs : List Nat) (d : Nat → β) : Nat → β :=
  (run rec (rs.foldl (fun d r => crashAfter r rec d) d)).2

/-- **Recovery.** If an interrupted recovery leaves the disk in a state it can start from
again, then any number of interruptions do. -/
theorem recovered {rec : Prog β α} {R : (Nat → β) → Prop} (h : Spec C rec (fun _ => R) C)
    (rs : List Nat) {d : Nat → β} (hd : C d) : R (recoverAfter rec rs d) := by
  have hcrash : C (rs.foldl (fun d r => crashAfter r rec d) d) := by
    induction rs generalizing d with
    | nil => exact hd
    | cons r rs ih => exact ih ((h d hd).2 r)
  exact (h _ hcrash).1

end Crash
