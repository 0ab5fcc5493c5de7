import StrideXv6.Lib.Hoare

set_option autoImplicit false

/-! # Programs that record what they do

A program in `StateT σ (Except ε)` does not say which operations it performed. Its copy over
`σ × List ι` also keeps a list of records. `Records m' m` says that `m'` is such a copy of `m`:
without the list, the two have the same outcome. Copies are made along the program text
(`records_quiet`, `records_record`, `Records.bind`), and what is known of `m` holds of `m'`
(`Records.triple`).
-/

namespace Recording

open Hoare

variable {σ ε ι α β : Type}

/-- An operation that leaves no record. -/
def quiet (m : StateT σ (Except ε) α) : StateT (σ × List ι) (Except ε) α := fun x =>
  (m x.1).map fun r => (r.1, r.2, x.2)

/-- Add a record. -/
def record (i : ι) : StateT (σ × List ι) (Except ε) Unit := fun x => .ok ((), x.1, x.2 ++ [i])

/-- Make one record of all that `m` records. -/
def collect (m : StateT (σ × List ι) (Except ε) α) :
    StateT (σ × List (List ι)) (Except ε) α := fun x =>
  (m (x.1, [])).map fun r => (r.1, r.2.1, x.2 ++ [r.2.2])

def Records (m' : StateT (σ × List ι) (Except ε) α) (m : StateT σ (Except ε) α) : Prop :=
  ∀ x, (m' x).map (fun r => (r.1, r.2.1)) = m x.1

variable {m : StateT σ (Except ε) α} {m' : StateT (σ × List ι) (Except ε) α}

theorem quiet_ok {s t : σ} {a : α} (l : List ι) (h : m s = .ok (a, t)) :
    quiet m (s, l) = .ok (a, t, l) := by
  rw [quiet, h]
  rfl

theorem records_quiet (m : StateT σ (Except ε) α) :
    Records (quiet m : StateT (σ × List ι) (Except ε) α) m := by
  intro x
  rw [quiet]
  cases m x.1 <;> rfl

theorem records_pure (a : α) :
    Records (pure a : StateT (σ × List ι) (Except ε) α) (pure a) := fun _ => rfl

theorem records_throw (e : ε) :
    Records (throw e : StateT (σ × List ι) (Except ε) α) (throw e) := fun _ => rfl

theorem Records.bind {f' : α → StateT (σ × List ι) (Except ε) β}
    {f : α → StateT σ (Except ε) β} (h : Records m' m) (hf : ∀ a, Records (f' a) (f a)) :
    Records (m' >>= f') (m >>= f) := by
  intro x
  have hx := h x
  simp only [Bind.bind, StateT.bind]
  cases hm : m' x with
  | error e => rw [hm] at hx; rw [← hx]; rfl
  | ok r => rw [hm] at hx; rw [← hx]; exact hf r.1 r.2

theorem records_record (i : ι) (h : Records m' m) :
    Records (record i >>= fun _ => m') m := fun x => h (x.1, x.2 ++ [i])

theorem Records.ite {p : Prop} [Decidable p] {n : StateT σ (Except ε) α}
    {n' : StateT (σ × List ι) (Except ε) α} (h : Records m' m) (hn : Records n' n) :
    Records (if p then m' else n') (if p then m else n) := by
  split
  · exact h
  · exact hn

/-- An outcome of the copy is an outcome of the program. -/
theorem Records.ok (h : Records m' m) {x y : σ × List ι} {a : α} (hm : m' x = .ok (a, y)) :
    m x.1 = .ok (a, y.1) := by
  rw [← h x, hm]
  rfl

/-- An outcome of the program is an outcome of the copy, with some records. -/
theorem Records.exists_ok (h : Records m' m) {s t : σ} {a : α} (hm : m s = .ok (a, t))
    (l : List ι) : ∃ l', m' (s, l) = .ok (a, t, l') := by
  have hx := h (s, l)
  rw [hm] at hx
  cases hm' : m' (s, l) with
  | error e => rw [hm'] at hx; cases hx
  | ok r =>
    rw [hm'] at hx
    obtain ⟨a', t', l'⟩ := r
    cases hx
    exact ⟨l', rfl⟩

/-- What is known of the program holds of the copy. -/
theorem Records.triple {P : σ → Prop} {Q : α → σ → Prop} {E : ε → Prop} (h : Records m' m)
    (hm : Triple P m Q E) :
    Triple (fun x => P x.1) m' (fun a x => Q a x.1) E := by
  refine triple_of_forall fun x hx => ?_
  cases hm' : m' x with
  | ok r => exact triple_exact hm' (hm.ok hx (h.ok hm'))
  | error e =>
    refine triple_fail hm' (hm.error hx ?_)
    rw [← h x, hm']
    rfl

end Recording
