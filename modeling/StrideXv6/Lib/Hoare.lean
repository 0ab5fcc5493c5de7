import Mathlib.Tactic

set_option autoImplicit false

/-! # Triples for programs with state and errors

`Triple P m Q E` for a program `m` in `StateT σ (Except ε)`: started in a state with `P`, it
ends with a result and a state in `Q`, or it fails with an error that `E` allows. A program
that can fail in a way that has to be excluded gets an `E` without that error.

The rules follow the program text. A proof fixes the state it starts in (`triple_of_forall`),
runs single operations on it (`triple_step`), and takes a call of another program by its
specification (`Triple.next`, or `triple_call` if less can go wrong in the call).
-/

namespace Hoare

variable {σ ε α β γ : Type}
variable {f : α → StateT σ (Except ε) β}

def Triple (P : σ → Prop) (m : StateT σ (Except ε) α) (Q : α → σ → Prop) (E : ε → Prop) : Prop :=
  ∀ s, P s →
    match m s with
    | .ok (a, t) => Q a t
    | .error e => E e

variable {P P' : σ → Prop} {m : StateT σ (Except ε) α} {Q Q' : α → σ → Prop} {E E' : ε → Prop}

theorem Triple.ok (h : Triple P m Q E) {s t : σ} {a : α} (hs : P s) (hm : m s = .ok (a, t)) :
    Q a t := by
  have := h s hs
  rwa [hm] at this

theorem Triple.error (h : Triple P m Q E) {s : σ} {e : ε} (hs : P s) (hm : m s = .error e) :
    E e := by
  have := h s hs
  rwa [hm] at this

/-- A program that cannot fail has an outcome. -/
theorem Triple.exists_ok (h : Triple P m Q fun _ => False) {s : σ} (hs : P s) :
    ∃ a t, m s = .ok (a, t) ∧ Q a t := by
  have := h s hs
  cases hm : m s with
  | ok r => rw [hm] at this; exact ⟨r.1, r.2, rfl, this⟩
  | error e => rw [hm] at this; exact this.elim

theorem triple_conseq (h : Triple P m Q E) (hP : ∀ s, P' s → P s) (hQ : ∀ a s, Q a s → Q' a s)
    (hE : ∀ e, E e → E' e) : Triple P' m Q' E' := by
  intro s hs
  have := h s (hP s hs)
  cases hm : m s with
  | ok r => rw [hm] at this; exact hQ _ _ this
  | error e => rw [hm] at this; exact hE _ this

theorem Triple.post (h : Triple P m Q E) (hQ : ∀ a s, Q a s → Q' a s) : Triple P m Q' E :=
  triple_conseq h (fun _ hs => hs) hQ fun _ he => he

/-- A program that cannot fail, where others can. -/
theorem Triple.safe (h : Triple P m Q fun _ => False) : Triple P m Q E :=
  triple_conseq h (fun _ hs => hs) (fun _ _ hq => hq) fun _ he => he.elim

/-- Two specifications of one program hold together. -/
theorem triple_and (h : Triple P m Q E) (h' : Triple P m Q' E') :
    Triple P m (fun a s => Q a s ∧ Q' a s) fun e => E e ∧ E' e := by
  intro s hs
  have h1 := h s hs
  have h2 := h' s hs
  cases hm : m s with
  | ok r => rw [hm] at h1 h2; exact ⟨h1, h2⟩
  | error e => rw [hm] at h1 h2; exact ⟨h1, h2⟩

/-- A specification may be proved for each initial state by itself. -/
theorem triple_of_forall (h : ∀ s, P s → Triple (fun t => t = s) m Q E) : Triple P m Q E :=
  fun s hs => h s hs s rfl

theorem triple_bind {R : β → σ → Prop} (hm : Triple P m Q E)
    (hf : ∀ a, Triple (Q a) (f a) R E) : Triple P (m >>= f) R E := by
  intro s hs
  have h := hm s hs
  show match (m >>= f) s with | .ok (a, t) => R a t | .error e => E e
  simp only [bind, StateT.bind]
  cases hms : m s with
  | error e => rw [hms] at h; exact h
  | ok r => rw [hms] at h; exact hf _ _ h

/-- Running a program whose first operation has a known outcome. -/
theorem run_bind {s t : σ} {a : α} (h : m s = .ok (a, t)) :
    (m >>= f) s = f a t := by
  simp only [bind, StateT.bind, h, Except.bind]

theorem run_get {f : σ → StateT σ (Except ε) β} {s : σ} : (get >>= f) s = f s s := rfl

theorem run_bind_error {s : σ} {e : ε} (h : m s = .error e) :
    (m >>= f) s = .error e := by
  simp only [bind, StateT.bind, h, Except.bind]

/-- If a program ends well, so do its parts. -/
theorem exists_of_bind_ok {s u : σ} {b : β}
    (h : (m >>= f) s = .ok (b, u)) : ∃ a t, m s = .ok (a, t) ∧ f a t = .ok (b, u) := by
  cases hm : m s with
  | error e => simp only [bind, StateT.bind, hm, Except.bind, reduceCtorEq] at h
  | ok r => exact ⟨r.1, r.2, rfl, by rwa [run_bind hm] at h⟩

section FromState

variable {s t : σ} {a : α} {f : α → StateT σ (Except ε) β} {R : β → σ → Prop}

theorem triple_exact (hm : m s = .ok (a, t)) (h : Q a t) : Triple (· = s) m Q E := by
  intro x hx
  rw [hx, hm]
  exact h

theorem triple_fail {e : ε} (hm : m s = .error e) (h : E e) : Triple (· = s) m Q E := by
  intro x hx
  rw [hx, hm]
  exact h

/-- An operation whose outcome is known. -/
theorem triple_step (hm : m s = .ok (a, t)) (h : Triple (· = t) (f a) R E) :
    Triple (· = s) (m >>= f) R E :=
  triple_bind (Q := fun a' t' => a' = a ∧ t' = t) (triple_exact hm ⟨rfl, rfl⟩)
    fun a' x hx => by obtain ⟨rfl, hx⟩ := hx; exact h x hx

/-- A call of a program with a specification. -/
theorem triple_call {E₀ : ε → Prop} (hm : Triple P m Q E₀) (hs : P s) (hE : ∀ e, E₀ e → E e)
    (h : ∀ a t, Q a t → Triple (· = t) (f a) R E) :
    Triple (· = s) (m >>= f) R E :=
  triple_bind (triple_conseq hm (fun _ hx => hx ▸ hs) (fun _ _ hq => hq) hE)
    fun a => triple_of_forall (h a)

theorem Triple.next (hm : Triple (· = s) m Q E) (h : ∀ a t, Q a t → Triple (· = t) (f a) R E) :
    Triple (· = s) (m >>= f) R E := triple_call hm rfl (fun _ he => he) h

end FromState

/-- A loop over a list: `I` is indexed by the part already treated. -/
theorem triple_forM {f : γ → StateT σ (Except ε) PUnit} {I : List γ → σ → Prop} (l : List γ)
    (h : ∀ l₁ a l₂, l = l₁ ++ a :: l₂ → Triple (I l₁) (f a) (fun _ => I (l₁ ++ [a])) E) :
    Triple (I []) (forM l f) (fun _ => I l) E := by
  have key : ∀ l₁ l₂ : List γ, l = l₁ ++ l₂ → Triple (I l₁) (forM l₂ f) (fun _ => I l) E := by
    intro l₁ l₂ hl
    induction l₂ generalizing l₁ with
    | nil =>
      rw [List.append_nil] at hl
      exact fun s hs => hl ▸ hs
    | cons a l₂ ih =>
      rw [List.forM_cons]
      exact triple_bind (h l₁ a l₂ hl) fun _ => ih (l₁ ++ [a]) (by simp [hl])
  exact key [] l rfl

/-- A counting loop: `I` is indexed by the counter. -/
theorem triple_forM_range' {f : Nat → StateT σ (Except ε) PUnit} {I : Nat → σ → Prop} (a n : Nat)
    (h : ∀ i, a ≤ i → i < a + n → Triple (I i) (f i) (fun _ => I (i + 1)) E) :
    Triple (I a) (forM (List.range' a n) f) (fun _ => I (a + n)) E := by
  induction n generalizing a with
  | zero => exact fun s hs => hs
  | succ n ih =>
    rw [List.range'_succ, List.forM_cons]
    refine triple_bind (h a (le_refl a) (by omega)) fun _ => ?_
    rw [show a + (n + 1) = a + 1 + n by omega]
    exact ih (a + 1) fun i hi hn => h i (by omega) (by omega)

-- the rules above are all there is to know; otherwise whnf runs the program
attribute [irreducible] Triple

end Hoare
