import Mathlib.Tactic

set_option autoImplicit false

/-! # Programs that take spin locks

The code a CPU has still to run is a `Code`: take a lock, give a lock back, or work on the
data all CPUs share and go on with code that depends on what was found there. A `State` has
such code for every CPU, and `advance` lets one CPU make one action; a CPU in front of a lock
somebody holds cannot move.

* `Always ok P` is a property of code and of the locks held with it: `P` holds at every point
  the code can get to, as long as its work on the data meets `ok`. The rules `Always` unfolds
  to are those of a sequential program; `Always.advance` says that they are enough for any
  interleaving.
* `not_deadlocked`: when every CPU that waits for a lock holds only locks of lower rank, no
  set of CPUs is waiting for one another.
-/

namespace Locks

variable {ι lk σ α : Type*}

/-- What a CPU has still to execute. -/
inductive Code (lk σ α : Type*) where
  | done
  | acquire (l : lk) (k : Code lk σ α)
  | release (l : lk) (k : Code lk σ α)
  | act (a : α) (upd : σ → σ) (next : σ → Code lk σ α)

structure State (ι lk σ α : Type*) where
  data : σ
  holder : lk → Option ι
  code : ι → Code lk σ α

/-- The locks CPU `c` holds. -/
def State.held (s : State ι lk σ α) (c : ι) : Set lk := {l | s.holder l = some c}

/-- CPU `c` is in front of an `acquire` of `l`. -/
def State.Waits (s : State ι lk σ α) (c : ι) (l : lk) : Prop := ∃ k, s.code c = .acquire l k

/-- The lock CPU `c` is in front of. -/
def State.waitsFor (s : State ι lk σ α) (c : ι) : Option lk :=
  match s.code c with
  | .acquire l _ => some l
  | _ => none

theorem waits_of_waitsFor {s : State ι lk σ α} {c : ι} {l : lk} (h : s.waitsFor c = some l) :
    s.Waits c l := by
  unfold State.waitsFor at h
  split at h
  · rename_i l' k hk
    obtain rfl := Option.some.inj h
    exact ⟨k, hk⟩
  · simp at h

section
variable [DecidableEq ι] [DecidableEq lk]

/-- Give CPU `c` other code to run. -/
def State.setCode (s : State ι lk σ α) (c : ι) (k : Code lk σ α) : State ι lk σ α :=
  { s with code := Function.update s.code c k }

/-- One action of CPU `c`, unless it spins on a lock or has nothing to do. -/
def State.advance (s : State ι lk σ α) (c : ι) : Option (State ι lk σ α) :=
  match s.code c with
  | .done => none
  | .acquire l k =>
    if s.holder l = none then
      some { s.setCode c k with holder := Function.update s.holder l (some c) }
    else none
  | .release l k =>
    if s.holder l = some c then
      some { s.setCode c k with holder := Function.update s.holder l none }
    else none
  | .act _ upd next => some { s.setCode c (next s.data) with data := upd s.data }

end

/-! ## Properties of every point of a program -/

/-- `P` holds wherever the code can get to from here, with the locks held there, as long as
each of its actions meets `ok`; it gives back only what it holds and ends holding nothing. -/
def Always (ok : α → σ → Prop) (P : Set lk → Code lk σ α → Prop) :
    Set lk → Code lk σ α → Prop
  | H, .done => P H .done ∧ H = ∅
  | H, .acquire l k => P H (.acquire l k) ∧ Always ok P (insert l H) k
  | H, .release l k => P H (.release l k) ∧ l ∈ H ∧ Always ok P (H \ {l}) k
  | H, .act a upd next => P H (.act a upd next) ∧ ∀ d, ok a d → Always ok P H (next d)

variable {ok : α → σ → Prop} {P : Set lk → Code lk σ α → Prop} {s t : State ι lk σ α}

theorem Always.here {H : Set lk} {k : Code lk σ α} (h : Always ok P H k) : P H k := by
  cases k with
  | done => exact h.1
  | acquire l k => exact h.1
  | release l k => exact h.1
  | act a upd next => exact h.1

/-- Every CPU is at a point from which `P` holds throughout. -/
def AlwaysAll (ok : α → σ → Prop) (P : Set lk → Code lk σ α → Prop) (s : State ι lk σ α) : Prop :=
  ∀ c, Always ok P (s.held c) (s.code c)

/-- The action CPU `c` is about to perform, if it is one on the data, meets `ok`. -/
def State.OkAt (ok : α → σ → Prop) (s : State ι lk σ α) (c : ι) : Prop :=
  ∀ a upd next, s.code c = .act a upd next → ok a s.data

variable [DecidableEq ι]

theorem AlwaysAll.setCode (h : AlwaysAll ok P s) {c : ι} {k : Code lk σ α}
    (hk : Always ok P (s.held c) k) : AlwaysAll ok P (s.setCode c k) := by
  intro d
  by_cases hd : d = c
  · subst hd
    simpa [State.setCode, State.held] using hk
  · simpa [State.setCode, State.held, hd] using h d

variable [DecidableEq lk]

/-- The locks a CPU holds after somebody has taken or given back the lock `l`. -/
theorem held_update {o : Option ι} {l : lk} {d : ι} :
    {l' | Function.update s.holder l o l' = some d}
      = if o = some d then insert l (s.held d) else s.held d \ {l} := by
  ext l'
  by_cases hl : l' = l
  · subst hl
    by_cases ho : o = some d <;> simp [ho]
  · by_cases ho : o = some d <;> simp [ho, hl, State.held]

/-- **The rules of a single program are enough for any interleaving.** -/
theorem AlwaysAll.advance (h : AlwaysAll ok P s) {c : ι} (hst : s.advance c = some t)
    (hok : s.OkAt ok c) : AlwaysAll ok P t := by
  have hc := h c
  unfold State.advance at hst
  cases hk : s.code c with
  | done => simp [hk] at hst
  | act a upd next =>
    rw [hk] at hc hst
    obtain rfl := Option.some.inj hst
    exact h.setCode (hc.2 s.data (hok a upd next hk))
  | acquire l k =>
    rw [hk] at hc hst
    simp only [Option.ite_none_right_eq_some, Option.some.injEq] at hst
    obtain ⟨hfree, rfl⟩ := hst
    intro d
    show Always ok P {l' | Function.update s.holder l (some c) l' = some d} _
    rw [held_update]
    by_cases hd : d = c
    · subst hd
      simpa [State.setCode] using hc.2
    · -- a free lock is not among those `d` holds
      have hl : s.held d \ {l} = s.held d := Set.sdiff_singleton_eq_self (by simp [State.held, hfree])
      simpa [State.setCode, hd, Ne.symm hd, hl] using h d
  | release l k =>
    rw [hk] at hc hst
    simp only [Option.ite_none_right_eq_some, Option.some.injEq] at hst
    obtain ⟨hmine, rfl⟩ := hst
    intro d
    show Always ok P {l' | Function.update s.holder l none l' = some d} _
    rw [held_update]
    by_cases hd : d = c
    · subst hd
      simpa [State.setCode] using hc.2.2
    · have hl : s.held d \ {l} = s.held d :=
        Set.sdiff_singleton_eq_self (by simp [State.held, hmine, Ne.symm hd])
      simpa [State.setCode, hd, hl] using h d

/-! ## Lock order -/

/-- A set of CPUs each of which waits for a lock held by another one of the set. -/
def Deadlocked (s : State ι lk σ α) (S : Set ι) : Prop :=
  S.Nonempty ∧ ∀ c ∈ S, ∃ l, s.Waits c l ∧ ∃ d ∈ S, d ≠ c ∧ s.holder l = some d

/-- An `acquire` at this point asks for a lock of higher rank than all locks held. -/
def Upward {ρ : Type*} [LT ρ] (rank : lk → ρ) (H : Set lk) : Code lk σ α → Prop
  | .acquire l _ => ∀ l' ∈ H, rank l' < rank l
  | _ => True

omit [DecidableEq ι] [DecidableEq lk] in
/-- **Locks taken upwards cannot deadlock.** Following the CPUs of the set from lock to
holder, the rank of the lock waited for would rise for ever. -/
theorem not_deadlocked {ρ : Type*} [Preorder ρ] [WellFoundedGT ρ] {rank : lk → ρ}
    (h : ∀ c, Upward rank (s.held c) (s.code c)) (S : Set ι) : ¬ Deadlocked s S := by
  rintro ⟨⟨c, hc⟩, hS⟩
  -- induction on the rank of the lock `c` waits for, downwards from the top
  have key : ∀ r : ρ, ∀ c ∈ S, ∀ l, s.Waits c l → rank l = r → False := by
    intro r
    induction r using WellFoundedGT.induction with
    | ind r ih =>
      rintro c hc l ⟨k, hk⟩ rfl
      obtain ⟨l₁, ⟨k₁, hk₁⟩, d, hd, -, hheld⟩ := hS c hc
      obtain rfl : l = l₁ := by
        rw [hk] at hk₁
        exact (Code.acquire.inj hk₁).1
      obtain ⟨l₂, ⟨k₂, hk₂⟩, -⟩ := hS d hd
      have hup := h d
      rw [hk₂] at hup
      exact ih _ (hup l hheld) d hd l₂ ⟨k₂, hk₂⟩ rfl
  obtain ⟨l, hl, -⟩ := hS c hc
  exact key _ c hc l hl rfl

end Locks
