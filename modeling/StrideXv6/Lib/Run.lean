import Mathlib.Tactic

set_option autoImplicit false

/-! # Runs of a partial step function

A system is given by a function `step : σ → ε → Option σ`: the event `e` is enabled in the
state `s` when `step s e` is `some t`, and then leads to `t`. A run is the list of its
transitions, so that a property of "every step" or "every state" of a run is a property of
the members of a list.

* `IsRun.invariant`: a property that holds at the start and is preserved by every transition
  meeting a side condition `C` holds throughout every run all of whose transitions meet `C`.
* `IsRun.past`: the same for a property of a state together with the run that led to it.
* `IsRun.forall_iff`: a property holds in every state if and only if every transition meets `C`.
* `exec` computes the end of a run from its events; `isRun_of_exec` turns such a computation
  into a run.
-/

namespace Runs

variable {σ ε : Type*}
variable {es : List ε}

/-- One transition of a run: the state before, the event, the state after. -/
structure Trans (σ ε : Type*) where
  pre : σ
  ev : ε
  post : σ

/-- `IsRun step s tr`: the transitions `tr` follow one another, starting in `s`. -/
inductive IsRun (step : σ → ε → Option σ) : σ → List (Trans σ ε) → Prop
  | nil (s : σ) : IsRun step s []
  | cons {s t : σ} {e : ε} {tr : List (Trans σ ε)} (h : step s e = some t)
      (hr : IsRun step t tr) : IsRun step s (⟨s, e, t⟩ :: tr)

/-- The state in which a run started in `s` ends. -/
def last (s : σ) : List (Trans σ ε) → σ
  | [] => s
  | x :: tr => last x.post tr

/-- The transitions of the run with the given events, up to the first that is not enabled. -/
def trace (step : σ → ε → Option σ) (s : σ) : List ε → List (Trans σ ε)
  | [] => []
  | e :: es =>
    match step s e with
    | none => []
    | some t => ⟨s, e, t⟩ :: trace step t es

/-- The end of the run with the given events, if each of them is enabled in its turn. -/
def exec (step : σ → ε → Option σ) (s : σ) : List ε → Option σ
  | [] => some s
  | e :: es => (step s e).bind fun t => exec step t es

/-- A step that has a guard is enabled if the guard holds. -/
theorem guard_some {p : Prop} [Decidable p] {s t : σ} (h : (if p then some s else none) = some t) :
    p ∧ s = t := by
  rwa [Option.ite_none_right_eq_some, Option.some.injEq] at h

variable {step : σ → ε → Option σ} {s t : σ} {tr : List (Trans σ ε)}
variable {pre post : List (Trans σ ε)} {x : Trans σ ε}

theorem IsRun.step_of_mem (h : IsRun step s tr) (hx : x ∈ tr) :
    step x.pre x.ev = some x.post := by
  induction h with
  | nil s => simp at hx
  | cons hst _ ih =>
    rcases List.mem_cons.mp hx with rfl | hx
    · exact hst
    · exact ih hx

/-- **The invariant rule.** `I` holds at the start and every transition that meets `C` keeps
it; then it holds before and after every transition of a run that meets `C` throughout. -/
theorem IsRun.invariant {I : σ → Prop} {C : Trans σ ε → Prop} (h : IsRun step s tr) (h0 : I s)
    (hstep : ∀ x : Trans σ ε, step x.pre x.ev = some x.post → C x → I x.pre → I x.post)
    (hC : ∀ x ∈ tr, C x) : ∀ x ∈ tr, I x.pre ∧ I x.post := by
  induction h with
  | nil s => simp
  | @cons s t e tr hst _ ih =>
    have ht : I t := hstep ⟨s, e, t⟩ hst (hC _ (by simp)) h0
    intro x hx
    rcases List.mem_cons.mp hx with rfl | hx
    · exact ⟨h0, ht⟩
    · exact ih ht (fun y hy => hC y (by simp [hy])) x hx

/-- The invariant rule at the end of the run. -/
theorem IsRun.invariant_last {I : σ → Prop} {C : Trans σ ε → Prop} (h : IsRun step s tr) (h0 : I s)
    (hstep : ∀ x : Trans σ ε, step x.pre x.ev = some x.post → C x → I x.pre → I x.post)
    (hC : ∀ x ∈ tr, C x) : I (last s tr) := by
  induction h with
  | nil s => exact h0
  | @cons s t e tr hst _ ih =>
    exact ih (hstep ⟨s, e, t⟩ hst (hC _ (by simp)) h0) (fun y hy => hC y (by simp [hy]))

/-- The exact condition for a property of every state: under the invariant `I` a transition that
meets `C` keeps `I` and leads to `Q`, and one that does not meet `C` leads out of `Q`. -/
theorem IsRun.forall_iff {I Q : σ → Prop} {C : Trans σ ε → Prop} (h : IsRun step s tr) (h0 : I s)
    (hpos : ∀ x : Trans σ ε, step x.pre x.ev = some x.post → I x.pre → C x → I x.post ∧ Q x.post)
    (hneg : ∀ x : Trans σ ε, step x.pre x.ev = some x.post → I x.pre → ¬ C x → ¬ Q x.post) :
    (∀ x ∈ tr, Q x.post) ↔ ∀ x ∈ tr, C x := by
  induction h with
  | nil s => simp
  | @cons s t e tr hst _ ih =>
    rw [List.forall_mem_cons, List.forall_mem_cons]
    by_cases hC : C ⟨s, e, t⟩
    · obtain ⟨hI, hQ⟩ := hpos ⟨s, e, t⟩ hst h0 hC
      simp only [hC, hQ, true_and]
      exact ih hI
    · have hQ := hneg ⟨s, e, t⟩ hst h0 hC
      simp only [hC, hQ, false_and]

/-- The part of a run before one of its transitions is a run up to that transition. -/
theorem IsRun.split (h : IsRun step s (pre ++ x :: post)) :
    IsRun step s pre ∧ x.pre = last s pre ∧ step x.pre x.ev = some x.post := by
  induction pre generalizing s with
  | nil =>
    cases h with
    | cons hst _ => exact ⟨.nil s, rfl, hst⟩
  | cons y pre ih =>
    cases h with
    | cons hst hr =>
      obtain ⟨h1, h2, h3⟩ := ih hr
      exact ⟨.cons hst h1, h2, h3⟩

/-- The part of a run after one of its transitions. -/
theorem IsRun.rest (h : IsRun step s (pre ++ x :: post)) : IsRun step x.post post := by
  induction pre generalizing s with
  | nil =>
    cases h with
    | cons _ hr => exact hr
  | cons y pre ih =>
    cases h with
    | cons _ hr => exact ih hr

/-- The invariant rule for a property `J` of a state and the transitions that led to it. -/
theorem IsRun.past {J : List (Trans σ ε) → σ → Prop} (h : IsRun step s tr) (h0 : J [] s)
    (hstep : ∀ tr (x : Trans σ ε), step x.pre x.ev = some x.post → J tr x.pre →
      J (tr ++ [x]) x.post) : J tr (last s tr) := by
  have key : ∀ {s : σ} {tr : List (Trans σ ε)}, IsRun step s tr → ∀ tr₀, J tr₀ s →
      J (tr₀ ++ tr) (last s tr) := by
    intro s tr h
    induction h with
    | nil s => exact fun tr₀ h₀ => by simpa [last] using h₀
    | @cons s t e tr hst _ ih =>
      intro tr₀ h₀
      have := ih _ (hstep tr₀ ⟨s, e, t⟩ hst h₀)
      rwa [List.append_assoc] at this
  simpa using key h [] h0

/-- The same with the events only. -/
theorem IsRun.history {J : List ε → σ → Prop} (h : IsRun step s tr) (h0 : J [] s)
    (hstep : ∀ es u e v, step u e = some v → J es u → J (es ++ [e]) v) :
    J (tr.map Trans.ev) (last s tr) := by
  refine h.past (J := fun tr s => J (tr.map Trans.ev) s) h0 fun tr x hx hJ => ?_
  rw [List.map_append]
  exact hstep _ _ _ _ hx hJ

/-- A run that is not empty ends with the last of its transitions. -/
theorem exists_post_eq_last {tr : List (Trans σ ε)} (s : σ) (h : tr ≠ []) :
    ∃ x ∈ tr, x.post = last s tr := by
  induction tr generalizing s with
  | nil => exact absurd rfl h
  | cons x tr ih =>
    by_cases htr : tr = []
    · subst htr
      exact ⟨x, by simp, rfl⟩
    · obtain ⟨y, hy, hpost⟩ := ih x.post htr
      exact ⟨y, by simp [hy], hpost⟩

theorem IsRun.append {tr' : List (Trans σ ε)} (h : IsRun step s tr)
    (h' : IsRun step (last s tr) tr') : IsRun step s (tr ++ tr') := by
  induction h with
  | nil s => exact h'
  | cons hst _ ih => exact .cons hst (ih h')

/-- The part of a run up to one of its transitions, that transition included. -/
theorem IsRun.upTo (h : IsRun step s (pre ++ x :: post)) :
    IsRun step s (pre ++ [x]) ∧ last s (pre ++ [x]) = x.post := by
  obtain ⟨hpre, hx, hst⟩ := h.split
  constructor
  · refine hpre.append ?_
    rw [← hx]
    exact .cons hst (.nil _)
  · induction pre generalizing s with
    | nil => rfl
    | cons y pre ih =>
      cases h with
      | cons _ hr =>
        cases hpre with
        | cons _ hpre => exact ih hr hpre hx

theorem last_append (s : σ) (tr tr' : List (Trans σ ε)) :
    last s (tr ++ tr') = last (last s tr) tr' := by
  induction tr generalizing s with
  | nil => rfl
  | cons x tr ih => exact ih x.post

theorem exec_append (s : σ) (es fs : List ε) :
    exec step s (es ++ fs) = (exec step s es).bind fun t => exec step t fs := by
  induction es generalizing s with
  | nil => rfl
  | cons e es ih =>
    simp only [List.cons_append, exec]
    cases step s e with
    | none => rfl
    | some t => simpa using ih t

theorem isRun_trace (step : σ → ε → Option σ) (s : σ) (es : List ε) :
    IsRun step s (trace step s es) := by
  induction es generalizing s with
  | nil => exact .nil s
  | cons e es ih =>
    rw [trace]
    split
    · exact .nil s
    · exact .cons ‹_› (ih _)

/-- A computed run is a run: its events and its end are those computed with. -/
theorem isRun_of_exec (h : exec step s es = some t) :
    ∃ tr, IsRun step s tr ∧ last s tr = t ∧ tr.map Trans.ev = es := by
  induction es generalizing s with
  | nil => exact ⟨[], .nil s, Option.some.inj h, rfl⟩
  | cons e es ih =>
    simp only [exec, Option.bind_eq_some_iff] at h
    obtain ⟨u, hu, ht⟩ := h
    obtain ⟨tr, hrun, hlast, hev⟩ := ih ht
    exact ⟨⟨s, e, u⟩ :: tr, .cons hu hrun, hlast, by simp [hev]⟩

/-- The end of a computed run is a state of a run. -/
theorem exists_post_of_exec (h : exec step s es = some t) (hne : es ≠ []) :
    ∃ tr, IsRun step s tr ∧ ∃ x ∈ tr, x.post = t := by
  obtain ⟨tr, hrun, hlast, hev⟩ := isRun_of_exec h
  have htr : tr ≠ [] := by
    rintro rfl
    exact hne hev.symm
  obtain ⟨x, hx, hpost⟩ := exists_post_eq_last s htr
  exact ⟨tr, hrun, x, hx, hpost.trans hlast⟩

/-- A computed run, with the transition of its last event singled out. -/
theorem isRun_of_exec_snoc {e : ε} {u : σ} (h : exec step s es = some t)
    (hu : step t e = some u) : ∃ tr, IsRun step s tr ∧ ⟨t, e, u⟩ ∈ tr ∧ last s tr = u := by
  obtain ⟨tr, hrun, hlast, -⟩ := isRun_of_exec h
  have hone : IsRun step (last s tr) [⟨t, e, u⟩] := by
    rw [hlast]; exact .cons hu (.nil u)
  exact ⟨tr ++ [⟨t, e, u⟩], hrun.append hone, by simp, by rw [last_append]; rfl⟩

end Runs
