import StrideXv6.Sched.Steps

set_option autoImplicit false

/-! # When the pass accounting is exact

Every dispatch adds `passo` to the `int` `passada`, and nothing ever subtracts from it.
`accounting_iff` says for which runs `passada` is the exact product of `passo` and the number
of dispatches in every state: those in which no dispatch pushes the exact sum past the
largest `int`. (A dispatch through a `min_proc` that was never assigned could also charge a
slot no `allocproc` has filled in; the condition excludes it by asking for a non-zero
`passo`.) The bounds on `passo` hold whatever was passed to `fork`.
-/

namespace StrideXv6.Sched

open Runs Function

variable {ι : Type} {k k' : Kernel ι}
variable {r : Proc} {e : Op ι}

def INT_MAX : Int := 2 ^ 31 - 1

/-! ## Statement -/

/-- The stride fields of a slot are as they should be: `passo` in its range and `passada` the
exact cost of the dispatches so far. -/
structure Proc.Charged (r : Proc) : Prop where
  five_le : 5 ≤ r.passo
  le_400 : r.passo ≤ 400
  exact : r.passada = r.passo * r.despachos
  nonneg : 0 ≤ r.passada

/-- Every slot in use is charged exactly. -/
def Accounting (k : Kernel ι) : Prop :=
  ∀ p, (k.ptable p).state ≠ .unused → (k.ptable p).Charged

/-- If the transition is an iteration of `scheduler()` that dispatches `p`, then `p` has been
filled in by `allocproc` and the charge does not overflow. -/
def NoWrap (x : Trans (Kernel ι) (Op ι)) : Prop :=
  ∀ c p, x.ev = .scheduler c → chosen x.pre c = some p →
    (x.pre.ptable p).passo ≠ 0 ∧
      (x.pre.ptable p).passada + (x.pre.ptable p).passo ≤ INT_MAX

/-! ## The charge -/

theorem int32_eq {x : Int} (h0 : 0 ≤ x) (h1 : x ≤ INT_MAX) : int32 x = x := by
  unfold int32 INT_MAX at *
  exact Int.bmod_eq_of_le (by omega) (by omega)

theorem int32_le (x : Int) : int32 x ≤ INT_MAX := by
  have h := Int.bmod_lt (x := x) (m := 2 ^ 32) (by decide)
  unfold int32 INT_MAX
  omega

theorem Proc.Fresh.charged (h : r.Fresh) : r.Charged :=
  ⟨h.five_le, h.le_400, by simp [h.passada, h.despachos], by simp [h.passada]⟩

/-- A charge that does not overflow is exact. -/
theorem Proc.Charged.dispatch (h : r.Charged) (hle : r.passada + r.passo ≤ INT_MAX) :
    r.dispatch.Charged := by
  have h5 := h.five_le
  have h0 := h.nonneg
  have hsum : r.dispatch.passada = r.passada + r.passo := int32_eq (by omega) hle
  refine ⟨h.five_le, h.le_400, ?_, by rw [hsum]; omega⟩
  rw [hsum, h.exact]
  show r.passo * (r.despachos : Int) + r.passo = r.passo * ((r.despachos + 1 : Nat) : Int)
  push_cast
  ring

/-- An exact charge cannot have overflowed. -/
theorem Proc.Charged.of_dispatch (h : r.Charged) (h' : r.dispatch.Charged) :
    r.passada + r.passo ≤ INT_MAX := by
  have hexact : r.dispatch.passada = r.passada + r.passo := by
    rw [h'.exact, h.exact]
    show r.passo * ((r.despachos + 1 : Nat) : Int) = _
    push_cast
    ring
  rw [← hexact]
  exact int32_le _

/-! ## The invariant

It also covers slots that are `UNUSED` again, since a stale `min_proc` can bring one back to
life: a slot either still holds the zeros of the boot image or is charged exactly, and every
slot somebody can reach has been filled in. -/

/-- Every slot somebody can reach has been filled in by `allocproc`. -/
structure Filled (k : Kernel ι) : Prop where
  range : ∀ p, (k.ptable p).passo = 0 ∨ (5 ≤ (k.ptable p).passo ∧ (k.ptable p).passo ≤ 400)
  live : ∀ p, (k.ptable p).state ≠ .unused → (k.ptable p).passo ≠ 0
  cur : ∀ c p, (k.cpu c).proc = some p → (k.ptable p).passo ≠ 0
  np : ∀ q p, (k.ptable q).np = some p → (k.ptable p).passo ≠ 0

/-- Every slot that has been filled in is charged exactly. -/
structure Ledger (k : Kernel ι) : Prop extends Filled k where
  charged : ∀ p, (k.ptable p).passo ≠ 0 → (k.ptable p).Charged

theorem Ledger.accounting (h : Ledger k) : Accounting k :=
  fun p hp => h.charged p (h.live p hp)

theorem boot_ptable (minProc : ι → Option Slot) {p : Slot} (hp : p ≠ firstSlot) :
    (boot minProc).ptable p = Proc.zero := by
  simp [boot, hp]

theorem fresh_boot (minProc : ι → Option Slot) : ((boot minProc).ptable firstSlot).Fresh := by
  have h : ((boot minProc).ptable firstSlot).passo = 200 := by simp [boot, DEFAULT_TICKETS]
  exact ⟨by omega, by omega, by simp [boot, Proc.zero], by simp [boot, Proc.zero]⟩

theorem ledger_boot (minProc : ι → Option Slot) : Ledger (boot minProc) := by
  have hinit := (fresh_boot minProc).charged
  have hne : ((boot minProc).ptable firstSlot).passo ≠ 0 := by
    have := hinit.five_le
    omega
  have hnp : ∀ q, ((boot minProc).ptable q).np = none := by
    intro q
    simp only [boot, update_apply]
    split <;> rfl
  refine ⟨⟨fun p => ?_, fun p hp => ?_, fun c p hc => ?_, fun q p hq => ?_⟩, fun p hp => ?_⟩
  · by_cases h1 : p = firstSlot
    · subst h1; exact Or.inr ⟨hinit.five_le, hinit.le_400⟩
    · exact Or.inl (by rw [boot_ptable minProc h1]; rfl)
  · by_cases h1 : p = firstSlot
    · subst h1; exact hne
    · rw [boot_ptable minProc h1] at hp; exact absurd rfl hp
  · simp [boot] at hc
  · simp [hnp] at hq
  · by_cases h1 : p = firstSlot
    · subst h1; exact hinit
    · rw [boot_ptable minProc h1] at hp; exact absurd rfl hp

theorem Proc.Fresh.passo_ne (h : r.Fresh) : r.passo ≠ 0 := by
  have := h.five_le
  omega

variable [DecidableEq ι]

/-- A slot once filled in stays so. -/
theorem Steps.passo_ne (hs : Steps k e k') {p : Slot} (hp : (k.ptable p).passo ≠ 0) :
    (k'.ptable p).passo ≠ 0 := by
  cases hs.stride p with
  | same h => rw [h.passo]; exact hp
  | fresh _ h => exact h.passo_ne
  | charged c _ _ h => rw [h]; exact hp

/-- `Filled` is kept as long as only slots that have been filled in are dispatched. -/
theorem Filled.step (h : Filled k) (hs : Steps k e k')
    (hch : ∀ c p, e = .scheduler c → chosen k c = some p → (k.ptable p).passo ≠ 0) :
    Filled k' := by
  refine ⟨fun p => ?_, fun p hp => ?_, fun c p hc => ?_, fun q p hq => ?_⟩
  · cases hs.stride p with
    | same h' => rw [h'.passo]; exact h.range p
    | fresh _ h' => exact Or.inr ⟨h'.five_le, h'.le_400⟩
    | charged c _ _ h' => rw [h']; exact h.range p
  · cases hs.used hp with
    | used h' => exact hs.passo_ne (h.live p h')
    | cur c h' => exact hs.passo_ne (h.cur c p h')
    | np q h' => exact hs.passo_ne (h.np q p h')
    | chosen c he h' => exact hs.passo_ne (hch c p he h')
    | fresh h' => exact h'.passo_ne
  · rcases hs.cur hc with h' | ⟨he, h'⟩
    · exact hs.passo_ne (h.cur c p h')
    · exact hs.passo_ne (hch c p he h')
  · rcases hs.np hq with h' | h'
    · exact hs.passo_ne (h.np q p h')
    · exact h'.passo_ne

/-! ## The step and the run -/

theorem Ledger.step (h : Ledger k) (hs : Steps k e k') (hw : NoWrap ⟨k, e, k'⟩) :
    Ledger k' := by
  refine ⟨h.toFilled.step hs (fun c p he hch => (hw c p he hch).1), fun p hp => ?_⟩
  cases hs.stride p with
  | same h' =>
    have hc := h.charged p (by rwa [h'.passo] at hp)
    exact ⟨h'.passo ▸ hc.five_le, h'.passo ▸ hc.le_400,
      by rw [h'.passada, h'.passo, h'.despachos]; exact hc.exact, h'.passada ▸ hc.nonneg⟩
  | fresh _ h' => exact h'.charged
  | charged c he hch h' =>
    obtain ⟨h0, hle⟩ := hw c p he hch
    rw [h']
    exact (h.charged p h0).dispatch hle

/-- A step after which the accounting is right did not overflow. -/
theorem Ledger.noWrap (h : Ledger k) (hs : Steps k e k') (ha : Accounting k') :
    NoWrap ⟨k, e, k'⟩ := by
  rintro c p rfl hch
  cases hs with
  | idle hc hch' => simp [hch'] at hch
  | @dispatch _ q hc hch' =>
    obtain rfl : p = q := Option.some.inj (hch.symm.trans hch')
    have hpost := ha p (by simp [Proc.dispatch])
    simp only [setCpu_ptable, setProc_ptable, update_self] at hpost
    have h0 : (k.ptable p).passo ≠ 0 := by
      have : 5 ≤ (k.ptable p).passo := hpost.five_le
      omega
    exact ⟨h0, (h.charged p h0).of_dispatch hpost⟩

/-- **When the pass accounting is exact.** In every run, on any number of CPUs: each slot in
use has `5 ≤ passo ≤ 400` and a non-negative `passada` equal to `passo` times its dispatches
since `allocproc`, in every state, if and only if every dispatch of the run is of a slot
`allocproc` has filled in and keeps the exact sum `passada + passo` within an `int`. -/
theorem accounting_iff (minProc : ι → Option Slot) (tr : List (Trans (Kernel ι) (Op ι)))
    (hrun : IsRun step (boot minProc) tr) :
    (∀ x ∈ tr, Accounting x.post) ↔ ∀ x ∈ tr, NoWrap x := by
  constructor
  · intro h x hx
    have hinv := hrun.invariant (I := Ledger) (C := fun x => Accounting x.post)
      (ledger_boot minProc)
      (fun y hy hC hI => hI.step (steps_of_step hy) (hI.noWrap (steps_of_step hy) hC)) h x hx
    exact hinv.1.noWrap (steps_of_step (hrun.step_of_mem hx)) (h x hx)
  · intro h x hx
    have hinv := hrun.invariant (I := Ledger) (C := NoWrap) (ledger_boot minProc)
      (fun y hy hC hI => hI.step (steps_of_step hy) hC) h x hx
    exact hinv.2.accounting

/-- `init` is dispatched, gives the CPU up and is dispatched again. -/
theorem accounting_iff_init :
    (trace step (boot fun _ : Unit => none) [.scheduler (), .yield (), .scheduler ()]).length = 3 ∧
      ((∀ x ∈ trace step (boot fun _ : Unit => none) [.scheduler (), .yield (), .scheduler ()],
          Accounting x.post) ↔
        ∀ x ∈ trace step (boot fun _ : Unit => none) [.scheduler (), .yield (), .scheduler ()],
          NoWrap x) :=
  ⟨by decide, accounting_iff _ _ (isRun_trace _ _ _)⟩

/-! ## The overflow is reached -/

/-- One CPU and one process: `init`, in slot `0`, `RUNNABLE` with the given `passada`. -/
def alone (passada : Int) (despachos : Nat) (minProc : Option Slot) : Kernel Unit :=
  { ptable := Function.update (fun _ => Proc.zero) firstSlot
      { Proc.zero with
        state := .runnable, pid := 1, passo := 200, passada := passada, despachos := despachos },
    nextpid := 2, initproc := firstSlot, cpu := fun _ => ⟨none, minProc⟩ }

theorem chosen_alone (a : Int) (n : Nat) (m : Option Slot) :
    chosen (alone a n m) () = some firstSlot := by
  have hone : ∀ q, ((alone a n m).ptable q).state = .runnable → q = firstSlot := by
    intro q hq
    by_contra hne
    simp [alone, hne, Proc.zero] at hq
  obtain ⟨q, hq, hscan⟩ := scan_runnable m
    (show ((alone a n m).ptable firstSlot).state = .runnable by simp [alone])
  rw [← hone q hq]
  exact hscan

/-- A dispatch of `init` followed by a timer interrupt. -/
theorem alone_round (a : Int) (n : Nat) (m : Option Slot) :
    exec step (alone a n m) [.scheduler (), .yield ()]
      = some (alone (int32 (a + 200)) (n + 1) (some firstSlot)) := by
  have hs : scheduler (alone a n m) ()
      = ((alone a n m).setProc firstSlot ((alone a n m).ptable firstSlot).dispatch).setCpu ()
          { proc := some firstSlot, minProc := some firstSlot } := by
    rw [scheduler, chosen_alone]
  simp only [exec, step, hs]
  have hunit : ∀ f : Unit → Cpu, f = fun _ => f () := fun f => rfl
  simp [alone, yield, sched, Kernel.setProc, Kernel.setCpu, Proc.dispatch, Proc.zero,
    update_idem]
  exact hunit _

/-- `n` rounds bring `init` to `200 * n`, as long as that is an `int`. -/
theorem alone_rounds (n : Nat) (h : 200 * (n : Int) ≤ INT_MAX) :
    ∃ tr m, IsRun step (boot fun _ : Unit => none) tr ∧
      last (boot fun _ => none) tr = alone (200 * n) n m := by
  induction n with
  | zero => exact ⟨[], none, .nil _, rfl⟩
  | succ n ih =>
    push_cast at h
    obtain ⟨tr, m, hrun, hlast⟩ := ih (by omega)
    obtain ⟨tr', hrun', hlast', -⟩ := isRun_of_exec (alone_round (200 * n) n m)
    have hsum : int32 (200 * (n : Int) + 200) = 200 * ((n + 1 : Nat) : Int) := by
      rw [int32_eq (by omega) (by omega)]
      push_cast
      ring
    refine ⟨tr ++ tr', some firstSlot, hrun.append (by rw [hlast]; exact hrun'), ?_⟩
    rw [last_append, hlast, hlast', hsum]

/-- `init` alone on the machine: its dispatch number 10737419 makes `passada` negative. -/
theorem passada_overflows :
    ¬ ∀ tr : List (Trans (Kernel Unit) (Op Unit)), IsRun step (boot fun _ => none) tr →
      ∀ x ∈ tr, Accounting x.post := by
  intro h
  obtain ⟨tr, m, hrun, hlast⟩ := alone_rounds 10737418 (by decide)
  set k := alone (200 * (10737418 : Nat)) 10737418 m with hk
  have hsched : scheduler k () = (k.setProc firstSlot (k.ptable firstSlot).dispatch).setCpu ()
      { proc := some firstSlot, minProc := some firstSlot } := by
    rw [scheduler, chosen_alone]
  have hone : IsRun step (last (boot fun _ => none) tr) [⟨k, .scheduler (), scheduler k ()⟩] := by
    rw [hlast]; exact .cons rfl (.nil _)
  have hall := hrun.append hone
  have hpost := h _ hall ⟨k, .scheduler (), scheduler k ()⟩ (by simp) firstSlot
    (by simp [hsched, Proc.dispatch])
  have hneg : ((scheduler k ()).ptable firstSlot).passada = -2147483496 := by
    rw [hsched]
    simp only [setCpu_ptable, setProc_ptable, update_self, Proc.dispatch, hk, alone]
    decide
  have h0 := hpost.nonneg
  rw [hneg] at h0
  exact absurd h0 (by decide)

end StrideXv6.Sched
