import StrideXv6.Sched.Steps

set_option autoImplicit false

/-! # When a dispatch is safe

`scheduler()` dispatches whatever `min_proc` points to after the scan. The scan assigns
`min_proc` only when it meets a `RUNNABLE` process, and the variable outlives the iteration:
an iteration that finds nothing `RUNNABLE` dispatches the process of an earlier one, whatever
has become of it since. `dispatchSafe_iff` says that this is the only way to go wrong, for
every run on any number of CPUs: all dispatches of the run are of `RUNNABLE` processes, and
no process is current on two CPUs, exactly when every iteration of the run finds a `RUNNABLE`
process or has a null `min_proc`.
-/

namespace StrideXv6.Sched

open Runs

variable {ι : Type} {k k' : Kernel ι}
variable {c : ι} {p : Slot} {r : Proc}

/-! ## Statement -/

/-- The transition switches CPU `c` to the process `p`. -/
def Dispatches (x : Trans (Kernel ι) (Op ι)) (c : ι) (p : Slot) : Prop :=
  x.ev = .scheduler c ∧ (x.post.cpu c).proc = some p

/-- Whatever the transition switches to was `RUNNABLE`. -/
def DispatchSafe (x : Trans (Kernel ι) (Op ι)) : Prop :=
  ∀ c p, Dispatches x c p → (x.pre.ptable p).state = .runnable

/-- No process is the current process of two CPUs. -/
def NoSharing (k : Kernel ι) : Prop :=
  ∀ c d p, (k.cpu c).proc = some p → (k.cpu d).proc = some p → c = d

/-- If the transition is an iteration of `scheduler()`, there is a `RUNNABLE` process for the
scan to find, or `min_proc` is null. -/
def ScanFinds (x : Trans (Kernel ι) (Op ι)) : Prop :=
  ∀ c, x.ev = .scheduler c →
    (∃ p, (x.pre.ptable p).state = .runnable) ∨ (x.pre.cpu c).minProc = none

/-- What the scan of CPU `c` ends on, if it finds something to end on, is `RUNNABLE`. -/
theorem chosen_runnable (hch : chosen k c = some p)
    (hf : (∃ q, (k.ptable q).state = .runnable) ∨ (k.cpu c).minProc = none) :
    (k.ptable p).state = .runnable := by
  rcases scan_cases hch with h | ⟨hm, hn⟩
  · exact h
  · rcases hf with ⟨q, hq⟩ | hf
    · exact absurd hq (hn q)
    · simp [hm] at hf

/-! ## The invariant

A current process is `RUNNING` and current on one CPU only. A slot taken by an unfinished
`fork` is `EMBRYO` and belongs to one `fork` only, so that nothing but the end of that `fork`
makes it `RUNNABLE`. -/

structure Inv (k : Kernel ι) : Prop where
  cur : ∀ c p, (k.cpu c).proc = some p → (k.ptable p).state = .running
  uniq : NoSharing k
  np : ∀ p j, (k.ptable p).np = some j → (k.ptable j).state = .embryo
  npInj : ∀ p q j, (k.ptable p).np = some j → (k.ptable q).np = some j → p = q

theorem inv_boot (minProc : ι → Option Slot) : Inv (boot minProc) := by
  have hnp : ∀ p, ((boot minProc).ptable p).np = none := by
    intro p
    simp only [boot, Function.update_apply]
    split <;> rfl
  refine ⟨fun c p h => ?_, fun c d p h => ?_, fun p j h => ?_, fun p q j h => ?_⟩
  · simp [boot] at h
  · simp [boot] at h
  · simp [hnp] at h
  · simp [hnp] at h

theorem Inv.touch (h : Inv k) (ht : Touch k k') : Inv k' := by
  have hst : ∀ p, (k.ptable p).state ≠ .sleeping → (k'.ptable p).state = (k.ptable p).state := by
    intro p hp
    rcases (ht.slot p).state with h1 | ⟨h1, -⟩
    · exact h1
    · exact absurd h1 hp
  refine ⟨fun c p hc => ?_, fun c d p hc hd => ?_, fun p j hp => ?_, fun p q j hp hq => ?_⟩
  · rw [ht.cpu] at hc
    have hr := h.cur c p hc
    rw [hst p (by simp [hr]), hr]
  · rw [ht.cpu] at hc hd
    exact h.uniq c d p hc hd
  · rw [(ht.slot p).np] at hp
    have hr := h.np p j hp
    rw [hst j (by simp [hr]), hr]
  · rw [(ht.slot p).np] at hp
    rw [(ht.slot q).np] at hq
    exact h.npInj p q j hp hq

/-- A slot that is neither `RUNNING` nor `EMBRYO` can be rewritten, as long as `np` stays. -/
theorem Inv.setProc (h : Inv k) (h1 : (k.ptable p).state ≠ .running)
    (h2 : (k.ptable p).state ≠ .embryo) (hr : r.np = (k.ptable p).np) :
    Inv (k.setProc p r) := by
  have hnp : ∀ q, ((k.setProc p r).ptable q).np = (k.ptable q).np := by
    intro q
    by_cases hq : q = p
    · subst hq; simpa using hr
    · simp [hq]
  refine ⟨fun c q hc => ?_, h.uniq, fun q j hq => ?_, fun q q' j hq hq' => ?_⟩
  · have hq := h.cur c q hc
    have hne : q ≠ p := by rintro rfl; exact h1 hq
    simpa [hne] using hq
  · rw [hnp] at hq
    have hj := h.np q j hq
    have hne : j ≠ p := by rintro rfl; exact h2 hj
    simpa [hne] using hj
  · rw [hnp] at hq hq'
    exact h.npInj q q' j hq hq'

/-- `fork` takes an `UNUSED` slot. -/
theorem Inv.fork (h : Inv k) {me j : Slot} (hc : (k.cpu c).proc = some me)
    (hj : (k.ptable j).state = .unused) (hr : r.state = .embryo) (hrn : r.np = none)
    {k₁ : Kernel ι} (hp : k₁.ptable = Function.update k.ptable j r) (hcpu : k₁.cpu = k.cpu) :
    Inv (k₁.setProc me { k₁.ptable me with np := some j }) := by
  have hrun := h.cur c me hc
  have hme : me ≠ j := by rintro rfl; simp [hrun] at hj
  have hnj : ∀ q, (k.ptable q).np ≠ some j := by
    intro q hq
    have := h.np q j hq
    simp [hj] at this
  -- slots other than `me` and `j` are as before
  have hother : ∀ q, q ≠ me → q ≠ j →
      ((k₁.setProc me { k₁.ptable me with np := some j }).ptable q) = k.ptable q := by
    intro q h1 h2; simp [hp, h1, h2]
  have hstj : ((k₁.setProc me { k₁.ptable me with np := some j }).ptable j).state = .embryo := by
    simp [hp, Ne.symm hme, hr]
  have hstate : ∀ q, q ≠ j →
      ((k₁.setProc me { k₁.ptable me with np := some j }).ptable q).state
        = (k.ptable q).state := by
    intro q h2
    by_cases h1 : q = me
    · subst h1; simp [hp, h2]
    · rw [hother q h1 h2]
  have hnpEq : ∀ q i, ((k₁.setProc me { k₁.ptable me with np := some j }).ptable q).np = some i →
      (q = me ∧ i = j) ∨ (q ≠ me ∧ (k.ptable q).np = some i) := by
    intro q i hq
    by_cases h1 : q = me
    · subst h1
      refine Or.inl ⟨rfl, ?_⟩
      simpa using hq.symm
    · by_cases h2 : q = j
      · subst h2; simp [hp, h1, hrn] at hq
      · rw [hother q h1 h2] at hq; exact Or.inr ⟨h1, hq⟩
  refine ⟨fun d q hd => ?_, fun d e q hd he => ?_, fun q i hq => ?_, fun q q' i hq hq' => ?_⟩
  · have hd' : (k.cpu d).proc = some q := by simpa [hcpu] using hd
    have hq := h.cur d q hd'
    have hne : q ≠ j := by rintro rfl; simp [hj] at hq
    rw [hstate q hne, hq]
  · exact h.uniq d e q (by simpa [hcpu] using hd) (by simpa [hcpu] using he)
  · rcases hnpEq q i hq with ⟨-, rfl⟩ | ⟨-, hq1⟩
    · exact hstj
    · have hne : i ≠ j := by rintro rfl; exact hnj q hq1
      rw [hstate i hne, h.np q i hq1]
  · rcases hnpEq q i hq with ⟨rfl, rfl⟩ | ⟨-, hq1⟩
    · rcases hnpEq q' i hq' with ⟨rfl, -⟩ | ⟨-, hq2⟩
      · rfl
      · exact absurd hq2 (hnj q')
    · rcases hnpEq q' i hq' with ⟨rfl, rfl⟩ | ⟨-, hq2⟩
      · exact absurd hq1 (hnj q)
      · exact h.npInj q q' i hq1 hq2

/-- Either end of a `fork`: the slot leaves `EMBRYO` and the forker forgets it. -/
theorem Inv.forkEnd (h : Inv k) {me j : Slot} (hc : (k.cpu c).proc = some me)
    (hnp : (k.ptable me).np = some j) (hr : r.np = (k.ptable j).np) :
    Inv ((k.setProc j r).setProc me { (k.setProc j r).ptable me with np := none }) := by
  have hrun := h.cur c me hc
  have hemb := h.np me j hnp
  have hme : me ≠ j := by rintro rfl; simp [hrun] at hemb
  set k₁ := (k.setProc j r).setProc me { (k.setProc j r).ptable me with np := none } with hk₁
  have hstate : ∀ q, q ≠ j → (k₁.ptable q).state = (k.ptable q).state := by
    intro q hq
    by_cases h1 : q = me
    · subst h1; simp [hk₁, hq]
    · simp [hk₁, h1, hq]
  have hnpEq : ∀ q i, (k₁.ptable q).np = some i → q ≠ me ∧ (k.ptable q).np = some i := by
    intro q i hq
    by_cases h1 : q = me
    · subst h1; simp [hk₁] at hq
    · refine ⟨h1, ?_⟩
      by_cases h2 : q = j
      · subst h2; simpa [hk₁, h1, hr] using hq
      · simpa [hk₁, h1, h2] using hq
  refine ⟨fun d q hd => ?_, h.uniq, fun q i hq => ?_, fun q q' i hq hq' => ?_⟩
  · have hq := h.cur d q hd
    have hne : q ≠ j := by rintro rfl; simp [hemb] at hq
    rw [hstate q hne, hq]
  · obtain ⟨hqm, hq1⟩ := hnpEq q i hq
    have hne : i ≠ j := by rintro rfl; exact hqm (h.npInj q me i hq1 hnp)
    rw [hstate i hne, h.np q i hq1]
  · exact h.npInj q q' i (hnpEq q i hq).2 (hnpEq q' i hq').2

variable [DecidableEq ι]

/-- The current process of `c` leaves the CPU, whatever state it leaves in. -/
theorem Inv.giveUp (h : Inv k) {me : Slot} (hc : (k.cpu c).proc = some me)
    (hr : r.np = (k.ptable me).np) : Inv (sched (k.setProc me r) c) := by
  have hrun := h.cur c me hc
  have hcpu : ∀ d p, ((sched (k.setProc me r) c).cpu d).proc = some p →
      (k.cpu d).proc = some p ∧ p ≠ me := by
    intro d p hd
    rw [sched_cpu_proc] at hd
    split at hd
    · simp at hd
    · rename_i hdc
      refine ⟨hd, ?_⟩
      rintro rfl
      exact hdc (h.uniq d c p hd hc)
  have hnp : ∀ p, ((sched (k.setProc me r) c).ptable p).np = (k.ptable p).np := by
    intro p
    by_cases hp : p = me
    · subst hp; simpa using hr
    · simp [hp]
  refine ⟨fun d p hd => ?_, fun d e p hd he => ?_, fun p j hp => ?_, fun p q j hp hq => ?_⟩
  · obtain ⟨hd, hne⟩ := hcpu d p hd
    simpa [hne] using h.cur d p hd
  · exact h.uniq d e p (hcpu d p hd).1 (hcpu e p he).1
  · rw [hnp] at hp
    have hj := h.np p j hp
    have hne : j ≠ me := by rintro rfl; simp [hrun] at hj
    simpa [hne] using hj
  · rw [hnp] at hp hq
    exact h.npInj p q j hp hq

/-- A dispatch of a `RUNNABLE` process. -/
theorem Inv.dispatch (h : Inv k) (hp : (k.ptable p).state = .runnable) :
    Inv ((k.setProc p (k.ptable p).dispatch).setCpu c { proc := some p, minProc := some p }) := by
  set k₁ := (k.setProc p (k.ptable p).dispatch).setCpu c { proc := some p, minProc := some p }
    with hk₁
  have hcpu : ∀ d q, (k₁.cpu d).proc = some q →
      (d = c ∧ q = p) ∨ (d ≠ c ∧ q ≠ p ∧ (k.cpu d).proc = some q) := by
    intro d q hd
    by_cases hdc : d = c
    · subst hdc
      refine Or.inl ⟨rfl, ?_⟩
      simpa [hk₁] using hd.symm
    · have hd' : (k.cpu d).proc = some q := by simpa [hk₁, hdc] using hd
      refine Or.inr ⟨hdc, ?_, hd'⟩
      rintro rfl
      have := h.cur d q hd'
      simp [hp] at this
  have hnp : ∀ q, (k₁.ptable q).np = (k.ptable q).np := by
    intro q
    by_cases hq : q = p
    · subst hq; simp [hk₁, Proc.dispatch]
    · simp [hk₁, hq]
  refine ⟨fun d q hd => ?_, fun d e q hd he => ?_, fun q j hq => ?_, fun q q' j hq hq' => ?_⟩
  · rcases hcpu d q hd with ⟨-, rfl⟩ | ⟨-, hne, hd'⟩
    · simp [hk₁, Proc.dispatch]
    · simpa [hk₁, hne] using h.cur d q hd'
  · rcases hcpu d q hd with ⟨rfl, rfl⟩ | ⟨-, hne, hd'⟩
    · rcases hcpu e q he with ⟨rfl, -⟩ | ⟨-, hne, -⟩
      · rfl
      · exact absurd rfl hne
    · rcases hcpu e q he with ⟨-, rfl⟩ | ⟨-, -, he'⟩
      · exact absurd rfl hne
      · exact h.uniq d e q hd' he'
  · rw [hnp] at hq
    have hj := h.np q j hq
    have hne : j ≠ p := by rintro rfl; simp [hp] at hj
    simpa [hk₁, hne] using hj
  · rw [hnp] at hq hq'
    exact h.npInj q q' j hq hq'

/-! ## The step -/

theorem Inv.step {e : Op ι} (h : Inv k) (hs : Steps k e k')
    (hf : ScanFinds ⟨k, e, k'⟩) : Inv k' := by
  cases hs with
  | idle hc hch => exact h
  | dispatch hc hch => exact h.dispatch (chosen_runnable hch (hf _ rfl))
  | forkFull hc => exact h
  | fork hc hnp hj => exact h.fork hc hj rfl rfl rfl rfl
  | forkFail hc hnp => exact h.forkEnd hc hnp rfl
  | forkRunnable hc hnp => exact h.forkEnd hc hnp rfl
  | exit hc hnp hk₁ => exact (h.touch hk₁).giveUp (by rw [hk₁.cpu]; exact hc) rfl
  | waitReap hc hp => exact h.setProc (by simp [hp]) (by simp [hp]) rfl
  | waitReturn hc => exact h
  | waitSleep hc hnp => exact h.giveUp hc rfl
  | sleep hc hnp => exact h.giveUp hc rfl
  | yield hc => exact h.giveUp hc rfl
  | kill hk₁ => exact h.touch hk₁
  | wakeup => exact h.touch (touch_wakeup1 k _)

/-- A dispatch switches to what the scan chose. -/
theorem scheduler_proc (h : step k (.scheduler c) = some k') :
    (k'.cpu c).proc = some p ↔ chosen k c = some p := by
  have hs := steps_of_step h
  cases hs with
  | idle hc hch => simp [hc, hch]
  | dispatch hc hch => simp [hch]

/-! ## The run -/

/-- **When every dispatch is safe.** In any interleaving of any number of CPUs, whatever the
uninitialised `min_proc`s hold at the start: every dispatched process was `RUNNABLE` and no
process is ever current on two CPUs, if and only if every iteration of `scheduler()` in the
run has a `RUNNABLE` process to find or a null `min_proc`. -/
theorem dispatchSafe_iff (minProc : ι → Option Slot) (tr : List (Trans (Kernel ι) (Op ι)))
    (hrun : IsRun step (boot minProc) tr) :
    (∀ x ∈ tr, DispatchSafe x ∧ NoSharing x.post) ↔ ∀ x ∈ tr, ScanFinds x := by
  constructor
  · intro h x hx c he
    by_contra hcon
    rw [not_or, not_exists] at hcon
    obtain ⟨hn, hm⟩ := hcon
    -- nothing is `RUNNABLE`, so the old `min_proc` is dispatched
    obtain ⟨p, hp⟩ := Option.ne_none_iff_exists'.mp hm
    have hch : chosen x.pre c = some p := (scan_of_none_runnable hn).trans hp
    have hst : step x.pre (.scheduler c) = some x.post := he ▸ hrun.step_of_mem hx
    exact hn p ((h x hx).1 c p ⟨he, (scheduler_proc hst).mpr hch⟩)
  · intro h x hx
    have hinv := hrun.invariant (I := Inv) (C := ScanFinds) (inv_boot minProc)
      (fun y hy hC hI => hI.step (steps_of_step hy) hC) h x hx
    refine ⟨fun c p hd => ?_, hinv.2.uniq⟩
    have hst : step x.pre (.scheduler c) = some x.post := hd.1 ▸ hrun.step_of_mem hx
    exact chosen_runnable ((scheduler_proc hst).mp hd.2) (h x hx c hd.1)

/-- `init` is dispatched, gives the CPU up and is dispatched again. -/
theorem dispatchSafe_iff_init :
    (trace step (boot fun _ : Unit => none) [.scheduler (), .yield (), .scheduler ()]).length = 3 ∧
      ((∀ x ∈ trace step (boot fun _ : Unit => none) [.scheduler (), .yield (), .scheduler ()],
          DispatchSafe x ∧ NoSharing x.post) ↔
        ∀ x ∈ trace step (boot fun _ : Unit => none) [.scheduler (), .yield (), .scheduler ()],
          ScanFinds x) :=
  ⟨by decide, dispatchSafe_iff _ _ (isRun_trace _ _ _)⟩

/-- One CPU, `min_proc` null at the start: `init` is dispatched and goes to sleep, as it does
in `iinit` waiting for the disk. -/
def asleep : Kernel Unit := sleep (scheduler (boot fun _ => none) ()) () firstSlot (some (.addr 0))

/-- The next iteration finds nothing `RUNNABLE` and switches to the sleeping `init`. -/
theorem dispatch_sleeping :
    ¬ ∀ tr : List (Trans (Kernel Unit) (Op Unit)), IsRun step (boot fun _ => none) tr →
      ∀ x ∈ tr, DispatchSafe x ∧ NoSharing x.post := by
  intro h
  have hexec : exec step (boot fun _ => none) [.scheduler (), .sleep () (.addr 0)]
      = some asleep := rfl
  have hstep : step asleep (.scheduler ()) = some (scheduler asleep ()) := rfl
  obtain ⟨tr, hrun, hx, -⟩ := isRun_of_exec_snoc hexec hstep
  have hch : chosen asleep () = some firstSlot := by decide
  have hsafe := (h tr hrun _ hx).1 () firstSlot ⟨rfl, (scheduler_proc hstep).mpr hch⟩
  have hasleep : (asleep.ptable firstSlot).state = .sleeping := by decide
  simp [hasleep] at hsafe

end StrideXv6.Sched
