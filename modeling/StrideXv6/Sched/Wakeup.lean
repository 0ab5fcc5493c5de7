import StrideXv6.Sched.Sleep

set_option autoImplicit false

/-! # No wakeup is lost

`Pc.holds` says which locks a process has at each point of its program, and `Ok` that the locks
are where they should be; under it a step is one of the `Acts`. A process that has found the
condition false and is on its way to sleep, or asleep, is `Committed`. If the condition holds,
some waker has not come to it yet (`Covers`): whoever sets the condition still has its scan to
do, and a scan does not pass a process on its way to sleep, because that has a lock the scan
needs.

`no_lost_wakeup` is this for every run.
-/

namespace StrideXv6.Sleep

open Runs Function

variable {ι χ : Type} [DecidableEq ι] [DecidableEq χ]

/-! ## Locks -/

section

omit [DecidableEq ι] [DecidableEq χ]

/-- The process is between its `acquire(lk)` and its `release(lk)`. -/
def Pc.usesLk : Pc ι → Bool
  | .test | .use | .releaseWait | .sleepAcquire | .sleepRelease | .setCond _ | .wakeupAcquire
  | .scan _ | .wakeupRelease | .releaseWake | .panicked => true
  | _ => false

/-- The process has `ptable.lock` from `sleep`, from the scheduler or from `wakeup`. -/
def Pc.usesPtable : Pc ι → Bool
  | .sleepRelease | .setChan | .setState | .sched | .clearChan | .resumeRelease | .scan _
  | .wakeupRelease => true
  | _ => false

def Pc.holds (same : Bool) (pc : Pc ι) : Lock → Bool
  | .lk => pc.usesLk && !same
  | .ptable => pc.usesPtable || (same && pc.usesLk)

/-- Parts of the programs that are skipped if `lk` is `ptable.lock`, or run only then. -/
def Pc.fits (same : Bool) : Pc ι → Bool
  | .sleepAcquire | .sleepRelease | .resumeRelease | .resumeAcquire | .wakeupRelease => !same
  | .acquireWake direct | .setCond direct => !direct || same
  | .panicked => same
  | _ => true

/-! ## The invariant -/

/-- A waiter that has found the condition false and is on its way to sleep. -/
def Pc.commits : Pc ι → Bool
  | .sleepAcquire | .sleepRelease | .setChan | .setState => true
  | _ => false

def State.Committed (s : State ι χ) (p : ι) : Prop :=
  (s.pc p).commits = true ∨ s.state p = .sleeping

/-- A waker that has set the condition and whose scan has not come to `p`. -/
def Pc.Pending (p : ι) : Pc ι → Prop
  | .wakeupAcquire | .panicked => True
  | .scan l => p ∈ l
  | _ => False

attribute [simp] State.goto State.give Pc.fits Pc.Pending

structure Ok (same : Bool) (ch : χ) (s : State ι χ) : Prop where
  excl : ∀ l p, (s.pc p).holds same l = true ↔ s.holder l = some (.proc p)
  fits : ∀ p, (s.pc p).fits same = true
  sleeping : ∀ p, s.state p = .sleeping →
    (s.pc p = .sched ∨ s.pc p = .asleep) ∧ s.chan p = some ch
  runnable : ∀ p, s.state p = .runnable → s.pc p = .asleep
  sched : ∀ p, s.pc p = .sched → s.state p = .sleeping
  chan : ∀ p, s.pc p = .setState → s.chan p = some ch

/-- If the condition holds, a waker is on its way to every process that sleeps, or is about to. -/
def Covers (s : State ι χ) : Prop :=
  ∀ p, s.Committed p → s.cond = true → ∃ q, (s.pc q).Pending p

variable {same : Bool} {ch : χ} {s t : State ι χ} {p q : ι} {pc : Pc ι}

/-- A step of `p` to `pc` passes the locks as the program counters say. -/
def Passes (same : Bool) (s t : State ι χ) (p : ι) (pc : Pc ι) : Prop :=
  ∀ l, (pc.holds same l = true ↔ t.holder l = some (.proc p)) ∧
    ∀ q, q ≠ p → (t.holder l = some (.proc q) ↔ s.holder l = some (.proc q))

theorem Ok.holder_unique (h : Ok same ch s) {l : Lock} (hp : (s.pc p).holds same l = true)
    (hq : (s.pc q).holds same l = true) : p = q := by
  have := (h.excl l p).mp hp
  rw [(h.excl l q).mp hq, Option.some.injEq] at this
  exact (Party.proc.inj this).symm

end

omit [DecidableEq χ]

section

variable {same : Bool} {ch : χ} {s t : State ι χ} {p q : ι} {pc : Pc ι}

/-- What a step of `p` to `pc` has to keep. -/
theorem Ok.move (h : Ok same ch s) (hpc : t.pc = Function.update s.pc p pc)
    (hstate : ∀ q, q ≠ p → t.state q = s.state q) (hchan : ∀ q, q ≠ p → t.chan q = s.chan q)
    (hexcl : Passes same s t p pc) (hfits : pc.fits same = true)
    (hsleep : t.state p = .sleeping → (pc = .sched ∨ pc = .asleep) ∧ t.chan p = some ch)
    (hrun : t.state p = .runnable → pc = .asleep)
    (hsched : pc = .sched → t.state p = .sleeping)
    (hset : pc = .setState → t.chan p = some ch) : Ok same ch t := by
  have hme : t.pc p = pc := by simp [hpc]
  have hne : ∀ q, q ≠ p → t.pc q = s.pc q := fun q hq => by simp [hpc, hq]
  refine ⟨fun l q => ?_, fun q => ?_, fun q hq => ?_, fun q hq => ?_, fun q hq => ?_,
    fun q hq => ?_⟩ <;> by_cases hqp : q = p
  · subst hqp
    rw [hme]
    exact (hexcl l).1
  · rw [hne q hqp, (hexcl l).2 q hqp]
    exact h.excl l q
  · subst hqp
    rwa [hme]
  · rw [hne q hqp]
    exact h.fits q
  · subst hqp
    rw [hme]
    exact hsleep hq
  · rw [hne q hqp, hchan q hqp]
    exact h.sleeping q (hstate q hqp ▸ hq)
  · subst hqp
    rw [hme]
    exact hrun hq
  · rw [hne q hqp]
    exact h.runnable q (hstate q hqp ▸ hq)
  · subst hqp
    exact hsched (hme ▸ hq)
  · rw [hstate q hqp]
    exact h.sched q (hne q hqp ▸ hq)
  · subst hqp
    exact hset (hme ▸ hq)
  · rw [hchan q hqp]
    exact h.chan q (hne q hqp ▸ hq)

omit [DecidableEq ι] in
/-- A process that is neither going to sleep nor asleep is `RUNNING`. -/
theorem Ok.running (h : Ok same ch s) (h₁ : s.pc p ≠ .sched) (h₂ : s.pc p ≠ .asleep) :
    s.state p = .running := by
  cases hs : s.state p with
  | running => rfl
  | runnable => exact absurd (h.runnable p hs) h₂
  | sleeping => exact absurd (h.sleeping p hs).1 (by simp [h₁, h₂])

/-- A step that leaves the states and channels alone. -/
theorem Ok.plain (h : Ok same ch s) (hrun : s.state p = .running)
    (hpc : t.pc = Function.update s.pc p pc) (hstate : t.state = s.state) (hchan : t.chan = s.chan)
    (hexcl : Passes same s t p pc) (hfits : pc.fits same = true) (h₁ : pc ≠ .sched)
    (h₂ : pc ≠ .setState) : Ok same ch t :=
  h.move hpc (fun _ _ => by rw [hstate]) (fun _ _ => by rw [hchan]) hexcl hfits
    (by simp [hstate, hrun]) (by simp [hstate, hrun]) (fun h' => absurd h' h₁)
    fun h' => absurd h' h₂

/-! The two ways in which the locks change. -/

omit [DecidableEq ι] in
theorem Ok.locks_keep (h : Ok same ch s) (hh : t.holder = s.holder)
    (hpc : ∀ l, pc.holds same l = (s.pc p).holds same l) : Passes same s t p pc := by
  intro l
  rw [hh, hpc]
  exact ⟨h.excl l p, fun q _ => Iff.rfl⟩

omit [DecidableEq ι] in
/-- A lock is taken or given back. -/
theorem Ok.locks_set (h : Ok same ch s) {l₀ : Lock} {o : Option (Party ι)} {b : Bool}
    (hold : ∀ q ≠ p, s.holder l₀ ≠ some (.proc q)) (hnew : ∀ q ≠ p, o ≠ some (.proc q))
    (hb : b = true ↔ o = some (.proc p)) (hh : t.holder = Function.update s.holder l₀ o)
    (hpc : ∀ l, pc.holds same l = if l = l₀ then b else (s.pc p).holds same l) :
    Passes same s t p pc := by
  intro l
  rw [hh, hpc]
  by_cases hl : l = l₀
  · subst hl
    exact ⟨by simpa using hb, fun q hq => by simp [hold q hq, hnew q hq]⟩
  · rw [update_of_ne hl, if_neg hl]
    exact ⟨h.excl l p, fun q _ => Iff.rfl⟩

omit [DecidableEq ι] in
theorem Ok.locks_take (h : Ok same ch s) {l₀ : Lock} (hfree : ∀ q, s.holder l₀ ≠ some (.proc q))
    (hh : t.holder = Function.update s.holder l₀ (some (.proc p)))
    (hpc : ∀ l, pc.holds same l = if l = l₀ then true else (s.pc p).holds same l) :
    Passes same s t p pc :=
  h.locks_set (fun q _ => hfree q) (fun q hq => by simp [Ne.symm hq]) (by simp) hh hpc

omit [DecidableEq ι] in
theorem Ok.locks_give (h : Ok same ch s) {l₀ : Lock} {o : Option (Party ι)}
    (hmine : s.holder l₀ = some (.proc p)) (ho : ∀ q, o ≠ some (.proc q))
    (hh : t.holder = Function.update s.holder l₀ o)
    (hpc : ∀ l, pc.holds same l = if l = l₀ then false else (s.pc p).holds same l) :
    Passes same s t p pc :=
  h.locks_set (fun q hq => by simp [hmine, Ne.symm hq]) (fun q _ => ho q) (by simp [ho]) hh hpc

/-- A step of `p` after which it is still to wake whom it was to wake. -/
theorem Covers.move (h : Covers s) (hpc : t.pc = Function.update s.pc p pc)
    (hpend : ∀ q, (s.pc p).Pending q → pc.Pending q) (hcond : t.cond = true → s.cond = true)
    (hcommit : t.Committed p → s.Committed p)
    (hstate : ∀ q, q ≠ p → t.state q = s.state q) : Covers t := by
  intro q hq hc
  have hq' : s.Committed q := by
    by_cases hqp : q = p
    · subst hqp
      exact hcommit hq
    · rw [State.Committed, hpc, update_of_ne hqp, hstate q hqp] at hq
      exact hq
  obtain ⟨r, hr⟩ := h q hq' (hcond hc)
  refine ⟨r, ?_⟩
  rw [hpc]
  by_cases hrp : r = p
  · subst hrp
    rw [update_self]
    exact hpend q hr
  · rwa [update_of_ne hrp]

end

/-! ## What a step does

Under the invariant nothing panics but a `wakeup` made with `ptable.lock` held. -/

/-- The places where a process takes a lock. -/
inductive AcquireEdge (same : Bool) (procs : List ι) : Pc ι → Lock → Pc ι → Prop
  | wait : AcquireEdge same procs .acquireWait (lkOf same) .test
  | sleep (hs : same = false) : AcquireEdge same procs .sleepAcquire .ptable .sleepRelease
  | resume (hs : same = false) : AcquireEdge same procs .resumeAcquire .lk .test
  | wake {direct : Bool} (hd : direct = true → same = true) :
      AcquireEdge same procs (.acquireWake direct) (lkOf same) (.setCond direct)
  | wakeup (hs : same = false) : AcquireEdge same procs .wakeupAcquire .ptable (.scan procs)

/-- The places where a process gives a lock back. -/
inductive ReleaseEdge (same : Bool) : Pc ι → Lock → Pc ι → Prop
  | wait : ReleaseEdge same .releaseWait (lkOf same) .idle
  | sleep (hs : same = false) : ReleaseEdge same .sleepRelease .lk .setChan
  | resume (hs : same = false) : ReleaseEdge same .resumeRelease .ptable .resumeAcquire
  | wakeup (hs : same = false) : ReleaseEdge same .wakeupRelease .ptable .releaseWake
  | wake : ReleaseEdge same .releaseWake (lkOf same) .idle

/-- The places where a process only goes on. -/
inductive LocalEdge (same : Bool) : Pc ι → Pc ι → Prop
  | found : LocalEdge same .test .use
  | scanned : LocalEdge same (.scan []) (if same then .releaseWake else .wakeupRelease)

variable {same : Bool} {procs : List ι} {ch : χ} {s t : State ι χ} {p q : ι} {keep : Bool}

inductive Acts [DecidableEq χ] (same : Bool) (procs : List ι) (ch : χ) (s : State ι χ) (p : ι) :
    State ι χ → Prop
  | acquire {l : Lock} {next : Pc ι} (he : AcquireEdge same procs (s.pc p) l next)
      (hfree : ∀ q, s.holder l ≠ some (.proc q)) :
      Acts same procs ch s p ((s.give l (some (.proc p))).goto p next)
  | release {l : Lock} {next : Pc ι} (he : ReleaseEdge same (s.pc p) l next)
      (hmine : s.holder l = some (.proc p)) :
      Acts same procs ch s p ((s.give l none).goto p next)
  | goto {next : Pc ι} (he : LocalEdge same (s.pc p) next) : Acts same procs ch s p (s.goto p next)
  | commit (hp : s.pc p = .test) (hc : s.cond = false) :
      Acts same procs ch s p (s.goto p (if same then .setChan else .sleepAcquire))
  | use {keep : Bool} (hp : s.pc p = .use) :
      Acts same procs ch s p ({ s with cond := s.cond && keep }.goto p .releaseWait)
  | setChan (hp : s.pc p = .setChan) :
      Acts same procs ch s p
        ({ s with chan := Function.update s.chan p (some ch) }.goto p .setState)
  | setState (hp : s.pc p = .setState) :
      Acts same procs ch s p
        ({ s with state := Function.update s.state p .sleeping }.goto p .sched)
  | sched (hp : s.pc p = .sched) (hmine : s.holder .ptable = some (.proc p)) :
      Acts same procs ch s p ((s.give .ptable (some .scheduler)).goto p .asleep)
  | clearChan (hp : s.pc p = .clearChan) :
      Acts same procs ch s p ({ s with chan := Function.update s.chan p none }.goto p
        (if same then .test else .resumeRelease))
  | setCond {direct : Bool} (hp : s.pc p = .setCond direct) (hd : direct = true → same = true) :
      Acts same procs ch s p ({ s with cond := true }.goto p
        (if direct then .scan procs else .wakeupAcquire))
  | panic (hp : s.pc p = .wakeupAcquire) (hs : same = true) :
      Acts same procs ch s p (s.goto p .panicked)
  | scan {q : ι} {l : List ι} (hp : s.pc p = .scan (q :: l)) :
      Acts same procs ch s p ((s.wake ch q).goto p (.scan l))

/-- `acquire` of a process that does not hold the lock. -/
theorem acquire_eq_some {l : Lock} {next : Pc ι} (hno : s.holder l ≠ some (.proc p))
    (h : acquire s p l next = some t) :
    (∀ q, s.holder l ≠ some (.proc q)) ∧ t = (s.give l (some (.proc p))).goto p next := by
  rw [acquire, if_neg hno] at h
  split at h
  · rename_i hfree
    exact ⟨by simp [hfree], (Option.some.inj h).symm⟩
  · simp at h

theorem release_eq_some {l : Lock} {next : Pc ι} (hmine : s.holder l = some (.proc p))
    (h : release s p l next = some t) : t = (s.give l none).goto p next := by
  rw [release, if_pos hmine] at h
  exact (Option.some.inj h).symm

/-- **Inversion of `advance`.** -/
theorem acts_of_advance [DecidableEq χ] (h : Ok same ch s)
    (hst : advance same procs ch s p keep = some t) : Acts same procs ch s p t := by
  have hexcl := fun l => h.excl l p
  have hfit := h.fits p
  -- the lock a process takes or gives back at its program counter
  have htake : ∀ {l : Lock} {next : Pc ι}, AcquireEdge same procs (s.pc p) l next →
      (s.pc p).holds same l = false → acquire s p l next = some t → Acts same procs ch s p t := by
    intro l next he hno hacq
    obtain ⟨hfree, rfl⟩ := acquire_eq_some (fun hh => by simp [(hexcl l).mpr hh] at hno) hacq
    exact .acquire he hfree
  have hgive : ∀ {l : Lock} {next : Pc ι}, ReleaseEdge same (s.pc p) l next →
      (s.pc p).holds same l = true → release s p l next = some t → Acts same procs ch s p t := by
    intro l next he hyes hrel
    obtain rfl := release_eq_some ((hexcl l).mp hyes) hrel
    exact .release he ((hexcl l).mp hyes)
  have hmove : ∀ {t'}, Acts same procs ch s p t' → some t' = some t → Acts same procs ch s p t :=
    fun ha ht => Option.some.inj ht ▸ ha
  unfold advance at hst
  cases hp : s.pc p with
  | idle => simp [hp] at hst
  | acquireWait =>
    rw [hp] at hst htake
    exact htake .wait (by cases same <;> rfl) hst
  | test =>
    simp only [hp] at hst
    by_cases hc : s.cond = true
    · rw [if_pos hc] at hst
      exact hmove (.goto (hp ▸ .found)) hst
    · rw [if_neg hc] at hst
      exact hmove (.commit hp (by simpa using hc)) hst
  | use =>
    rw [hp] at hst
    exact hmove (.use hp) hst
  | releaseWait =>
    rw [hp] at hst hgive
    exact hgive .wait (by cases same <;> rfl) hst
  | sleepAcquire =>
    rw [hp] at hst htake hfit
    obtain rfl : same = false := by simpa using hfit
    exact htake (.sleep rfl) rfl hst
  | sleepRelease =>
    rw [hp] at hst hgive hfit
    obtain rfl : same = false := by simpa using hfit
    exact hgive (.sleep rfl) rfl hst
  | setChan =>
    rw [hp] at hst
    exact hmove (.setChan hp) hst
  | setState =>
    rw [hp] at hst
    exact hmove (.setState hp) hst
  | sched =>
    rw [hp] at hexcl
    have hmine : s.holder .ptable = some (.proc p) := (hexcl .ptable).mp rfl
    have hlk : s.holder .lk ≠ some (.proc p) := fun hh => by
      simpa [Pc.holds, Pc.usesLk] using (hexcl .lk).mpr hh
    simp only [hp] at hst
    rw [if_pos ⟨hmine, hlk, by simp [h.sched p hp]⟩] at hst
    exact hmove (.sched hp hmine) hst
  | asleep => simp [hp] at hst
  | clearChan =>
    rw [hp] at hst
    exact hmove (.clearChan hp) hst
  | resumeRelease =>
    rw [hp] at hst hgive hfit
    obtain rfl : same = false := by simpa using hfit
    exact hgive (.resume rfl) rfl hst
  | resumeAcquire =>
    rw [hp] at hst htake hfit
    obtain rfl : same = false := by simpa using hfit
    exact htake (.resume rfl) rfl hst
  | acquireWake direct =>
    rw [hp] at hst htake hfit
    refine htake (.wake ?_) (by cases same <;> rfl) hst
    rintro rfl
    simpa using hfit
  | setCond direct =>
    rw [hp] at hst
    refine hmove (.setCond hp ?_) hst
    rintro rfl
    simpa [hp] using hfit
  | wakeupAcquire =>
    cases same with
    | false =>
      rw [hp] at hst htake
      exact htake (.wakeup rfl) rfl hst
    | true =>
      rw [hp] at hexcl
      simp only [hp, acquire, (hexcl .ptable).mp rfl, if_true] at hst
      exact hmove (.panic hp rfl) hst
  | scan l =>
    cases l with
    | nil =>
      rw [hp] at hst
      exact hmove (.goto (hp ▸ .scanned)) hst
    | cons q l =>
      rw [hp] at hst
      exact hmove (.scan hp) hst
  | wakeupRelease =>
    rw [hp] at hst hgive hfit
    obtain rfl : same = false := by simpa using hfit
    exact hgive (.wakeup rfl) rfl hst
  | releaseWake =>
    rw [hp] at hst hgive
    exact hgive .wake (by cases same <;> rfl) hst
  | panicked => simp [hp] at hst

/-! ## The invariant is kept -/

section Edges

omit [DecidableEq ι]

variable {l : Lock} {old next : Pc ι}

/-- A program counter at which a process is `RUNNING`, and sets nothing. -/
def Pc.Calm (pc : Pc ι) : Prop := pc ≠ .sched ∧ pc ≠ .asleep ∧ pc ≠ .setState

theorem AcquireEdge.calm (h : AcquireEdge same procs old l next) : old.Calm ∧ next.Calm := by
  cases h <;> simp [Pc.Calm]

theorem AcquireEdge.fits (h : AcquireEdge same procs old l next) : next.fits same = true := by
  cases h with
  | wait | resume | wakeup => rfl
  | sleep hs => simp [hs]
  | @wake direct hd => cases direct <;> simp_all

theorem AcquireEdge.holds (h : AcquireEdge same procs old l next) (l' : Lock) :
    next.holds same l' = if l' = l then true else old.holds same l' := by
  cases h with
  | wait | wake => cases l' <;> cases same <;> rfl
  | sleep hs | resume hs | wakeup hs => subst hs; cases l' <;> rfl

theorem AcquireEdge.commits (h : AcquireEdge same procs old l next) (hn : next.commits = true) :
    old.commits = true := by
  cases h <;> first | rfl | simp [Pc.commits] at hn

theorem AcquireEdge.pending (h : AcquireEdge same procs old l next) (hprocs : ∀ p, p ∈ procs)
    (ho : old.Pending p) : next.Pending p := by
  cases h with
  | wakeup hs => exact hprocs p
  | wait | sleep | resume | wake => exact ho.elim

theorem ReleaseEdge.calm (h : ReleaseEdge same old l next) : old.Calm ∧ next.Calm := by
  cases h <;> simp [Pc.Calm]

theorem ReleaseEdge.fits (h : ReleaseEdge same old l next) : next.fits same = true := by
  cases h with
  | wait | sleep | wakeup | wake => rfl
  | resume hs => simp [hs]

theorem ReleaseEdge.holds (h : ReleaseEdge same old l next) (l' : Lock) :
    next.holds same l' = if l' = l then false else old.holds same l' := by
  cases h with
  | wait | wake => cases l' <;> cases same <;> rfl
  | sleep hs | resume hs | wakeup hs => subst hs; cases l' <;> rfl

theorem ReleaseEdge.commits (h : ReleaseEdge same old l next) (hn : next.commits = true) :
    old.commits = true := by
  cases h <;> first | rfl | simp [Pc.commits] at hn

theorem ReleaseEdge.not_pending (h : ReleaseEdge same old l next) : ¬ old.Pending p := by
  cases h <;> exact id

theorem LocalEdge.calm (h : LocalEdge same old next) : old.Calm ∧ next.Calm := by
  cases h <;> cases same <;> simp [Pc.Calm]

theorem LocalEdge.fits (h : LocalEdge same old next) : next.fits same = true := by
  cases h <;> cases same <;> rfl

theorem LocalEdge.holds (h : LocalEdge same old next) (l : Lock) :
    next.holds same l = old.holds same l := by
  cases h <;> cases same <;> cases l <;> rfl

theorem LocalEdge.not_commits (h : LocalEdge same old next) : next.commits = false := by
  cases h <;> cases same <;> rfl

theorem LocalEdge.not_pending (h : LocalEdge same old next) : ¬ old.Pending p := by
  cases h with
  | found => exact id
  | scanned => simp

end Edges

/-- `wakeup1` on a slot, by a process that holds `ptable.lock`. -/
theorem Ok.wake [DecidableEq χ] (h : Ok same ch s) (hp : (s.pc p).holds same .ptable = true)
    (hpq : (s.pc p) ≠ .sched) (q : ι) : Ok same ch (s.wake ch q) := by
  unfold State.wake
  split
  · rename_i hq
    -- a process about to switch has the lock itself
    have hasleep : s.pc q = .asleep := by
      refine (h.sleeping q hq.1).1.resolve_left fun hs => hpq ?_
      rwa [h.holder_unique hp (q := q) (by rw [hs]; rfl)]
    refine ⟨h.excl, h.fits, fun r hr => ?_, fun r hr => ?_, fun r hr => ?_, h.chan⟩ <;>
      by_cases hrq : r = q
    · subst hrq; simp at hr
    · exact h.sleeping r (by simpa [hrq] using hr)
    · rw [hrq, hasleep]
    · exact h.runnable r (by simpa [hrq] using hr)
    · subst hrq; simp [hasleep] at hr
    · simpa [hrq] using h.sched r hr
  · exact h

omit [DecidableEq ι] in
theorem Ok.running_of_calm (h : Ok same ch s) (hp : (s.pc p).Calm) : s.state p = .running :=
  h.running hp.1 hp.2.1

theorem Ok.acts [DecidableEq χ] (h : Ok same ch s) (ha : Acts same procs ch s p t) :
    Ok same ch t := by
  cases ha with
  | acquire he hfree =>
    exact h.plain (h.running_of_calm he.calm.1) rfl rfl rfl (h.locks_take hfree rfl he.holds)
      he.fits he.calm.2.1 he.calm.2.2.2
  | release he hmine =>
    exact h.plain (h.running_of_calm he.calm.1) rfl rfl rfl
      (h.locks_give hmine (by simp) rfl he.holds) he.fits he.calm.2.1 he.calm.2.2.2
  | goto he =>
    exact h.plain (h.running_of_calm he.calm.1) rfl rfl rfl (h.locks_keep rfl he.holds)
      he.fits he.calm.2.1 he.calm.2.2.2
  | commit hp hc =>
    refine h.plain (h.running (by simp [hp]) (by simp [hp])) rfl rfl rfl
      (h.locks_keep rfl fun l => ?_) ?_ ?_ ?_
    · rw [hp]; cases same <;> cases l <;> rfl
    · cases same <;> rfl
    · cases same <;> simp
    · cases same <;> simp
  | use hp =>
    refine h.plain (h.running (by simp [hp]) (by simp [hp])) rfl rfl rfl
      (h.locks_keep rfl fun l => ?_) rfl (by simp) (by simp)
    rw [hp]; cases same <;> cases l <;> rfl
  | setChan hp =>
    have hrun := h.running (p := p) (by simp [hp]) (by simp [hp])
    refine h.move rfl (fun _ _ => rfl) (fun q hq => by simp [hq])
      (h.locks_keep rfl fun l => ?_) rfl (by simp [hrun]) (by simp [hrun])
      (by simp) (by simp)
    rw [hp]; cases same <;> cases l <;> rfl
  | setState hp =>
    refine h.move rfl (fun q hq => by simp [hq]) (fun _ _ => rfl)
      (h.locks_keep rfl fun l => ?_) rfl (fun _ => ⟨Or.inl rfl, h.chan p hp⟩)
      (by simp) (by simp) (by simp)
    rw [hp]; cases same <;> cases l <;> rfl
  | sched hp hmine =>
    have hsl := h.sched p hp
    refine h.move rfl (fun _ _ => rfl) (fun _ _ => rfl)
      (h.locks_give hmine (by simp) rfl fun l => ?_) rfl
      (fun _ => ⟨Or.inr rfl, (h.sleeping p hsl).2⟩) (fun _ => rfl) (by simp) (by simp)
    rw [hp]; cases same <;> cases l <;> rfl
  | clearChan hp =>
    have hrun := h.running (p := p) (by simp [hp]) (by simp [hp])
    refine h.move rfl (fun _ _ => rfl) (fun q hq => by simp [hq])
      (h.locks_keep rfl fun l => ?_) ?_ (by simp [hrun]) (by simp [hrun])
      ?_ ?_
    · rw [hp]; cases same <;> cases l <;> rfl
    · cases same <;> rfl
    · cases same <;> simp
    · cases same <;> simp
  | @setCond direct hp hd =>
    refine h.plain (h.running (by simp [hp]) (by simp [hp])) rfl rfl rfl
      (h.locks_keep rfl fun l => ?_) ?_ ?_ ?_
    · rw [hp]
      cases direct with
      | false => cases same <;> cases l <;> rfl
      | true => rw [hd rfl]; cases l <;> rfl
    · cases direct <;> rfl
    · cases direct <;> simp
    · cases direct <;> simp
  | panic hp hs =>
    refine h.plain (h.running (by simp [hp]) (by simp [hp])) rfl rfl rfl
      (h.locks_keep rfl fun l => ?_) hs (by simp) (by simp)
    rw [hp]; cases same <;> cases l <;> rfl
  | @scan q l hp =>
    have hw : Ok same ch (s.wake ch q) := h.wake (p := p) (by rw [hp]; rfl) (by simp [hp]) q
    have hpc : (s.wake ch q).pc = s.pc := by unfold State.wake; split <;> rfl
    refine hw.plain (hw.running (by simp [hpc, hp]) (by simp [hpc, hp])) rfl rfl rfl
      (hw.locks_keep rfl fun l => ?_) rfl (by simp) (by simp)
    rw [hpc, hp]; cases same <;> cases l <;> rfl

omit [DecidableEq ι] in
/-- A process on its way to sleep has one of the locks that a scan needs. -/
theorem Ok.not_commits_of_scan (h : Ok same ch s) {l : List ι} (hp : s.pc p = .scan l)
    (hqp : q ≠ p) : (s.pc q).commits = false := by
  have hlocks : ∀ l', (s.pc q).holds same l' = true → (s.pc p).holds same l' = true → False :=
    fun l' hq hp => hqp (h.holder_unique hq hp)
  cases hq : s.pc q with
  | sleepAcquire | sleepRelease =>
    exfalso
    have hfit := h.fits q
    rw [hq] at hfit
    obtain rfl : same = false := by simpa using hfit
    exact hlocks .lk (by rw [hq]; rfl) (by rw [hp]; rfl)
  | setChan | setState =>
    exact (hlocks .ptable (by rw [hq]; rfl) (by rw [hp]; rfl)).elim
  | _ => rfl

theorem Covers.acts [DecidableEq χ] (hc : Covers s) (h : Ok same ch s) (hprocs : ∀ p, p ∈ procs)
    (ha : Acts same procs ch s p t) : Covers t := by
  cases ha with
  | acquire he hfree =>
    exact hc.move rfl (fun _ => he.pending hprocs) id
      (fun hp => hp.imp (fun hn => he.commits (by simpa using hn)) id)
      fun _ _ => rfl
  | release he hmine =>
    exact hc.move rfl (fun _ hp => (he.not_pending hp).elim) id
      (fun hp => hp.imp (fun hn => he.commits (by simpa using hn)) id)
      fun _ _ => rfl
  | goto he =>
    exact hc.move rfl (fun _ hp => (he.not_pending hp).elim) id
      (fun hp => hp.imp (fun hn => by simp [he.not_commits] at hn) id) fun _ _ => rfl
  | commit hp hcond =>
    intro q _ hq
    simp [hcond] at hq
  | use hp =>
    refine hc.move rfl (fun _ hq => by simp [hp] at hq)
      (fun hcond => by simp at hcond; exact hcond.1)
      (fun hq => hq.imp (fun hn => by simp [Pc.commits] at hn) id) fun _ _ => rfl
  | setChan hp =>
    exact hc.move rfl (fun _ hq => by simp [hp] at hq) id
      (fun _ => Or.inl (by rw [hp]; rfl)) fun _ _ => rfl
  | setState hp =>
    exact hc.move rfl (fun _ hq => by simp [hp] at hq) id
      (fun _ => Or.inl (by rw [hp]; rfl)) fun q hq => by simp [hq]
  | sched hp hmine =>
    exact hc.move rfl (fun _ hq => by simp [hp] at hq) id
      (fun _ => Or.inr (h.sched p hp)) fun _ _ => rfl
  | clearChan hp =>
    refine hc.move rfl (fun _ hq => by simp [hp] at hq) id
      (fun hq => hq.imp (fun hn => ?_) id) fun _ _ => rfl
    cases same <;> simp [Pc.commits] at hn
  | @setCond direct hp hd =>
    -- `p` itself is going to wake everybody
    intro q _ _
    refine ⟨p, ?_⟩
    cases direct with
    | false => simp
    | true => simpa using hprocs q
  | panic hp hs =>
    exact hc.move rfl (fun _ _ => trivial) id
      (fun hq => hq.imp (fun hn => by simp [Pc.commits] at hn) id) fun _ _ => rfl
  | @scan q l hp =>
    have hpc : (s.wake ch q).pc = s.pc := by unfold State.wake; split <;> rfl
    have hcond : (s.wake ch q).cond = s.cond := by unfold State.wake; split <;> rfl
    have hstate : ∀ r, (s.wake ch q).state r = .sleeping → s.state r = .sleeping ∧ r ≠ q := by
      intro r hr
      unfold State.wake at hr
      split at hr
      · by_cases hrq : r = q
        · subst hrq; simp at hr
        · exact ⟨by simpa [hrq] using hr, hrq⟩
      · rename_i hno
        refine ⟨hr, ?_⟩
        rintro rfl
        exact hno ⟨hr, (h.sleeping r hr).2⟩
    intro r hr hcd
    -- `r` is asleep and not the process just looked at
    have hrs : s.state r = .sleeping ∧ r ≠ q := by
      rcases hr with hr | hr
      · by_cases hrp : r = p
        · subst hrp; simp [Pc.commits] at hr
        · simp only [State.goto, update_of_ne hrp, hpc] at hr
          simp [h.not_commits_of_scan hp hrp] at hr
      · exact hstate r hr
    obtain ⟨i, hi⟩ := hc r (Or.inr hrs.1) (hcond ▸ hcd)
    refine ⟨i, ?_⟩
    by_cases hip : i = p
    · subst hip
      rw [hp] at hi
      simpa using (List.mem_cons.mp hi).resolve_left hrs.2
    · simpa [hip, hpc] using hi

/-! ## Every run -/

omit [DecidableEq ι] in
/-- A lock passes between nobody and a scheduler. -/
theorem Ok.give (h : Ok same ch s) {l : Lock} {o : Option (Party ι)}
    (hold : ∀ q, s.holder l ≠ some (.proc q)) (hnew : ∀ q, o ≠ some (.proc q)) :
    Ok same ch (s.give l o) := by
  refine ⟨fun l' p => ?_, h.fits, h.sleeping, h.runnable, h.sched, h.chan⟩
  rw [show ((s.give l o).pc p) = s.pc p from rfl, h.excl]
  by_cases hl : l' = l
  · subst hl
    simp [hold, hnew]
  · simp [hl]

/-- An idle process starts on one of the programs. -/
theorem Ok.start (h : Ok same ch s) (hp : s.pc p = .idle) {pc : Pc ι} (hcalm : pc.Calm)
    (hfits : pc.fits same = true) (hholds : ∀ l, pc.holds same l = false) :
    Ok same ch (s.goto p pc) := by
  refine h.plain (h.running (by simp [hp]) (by simp [hp])) rfl rfl rfl
    (h.locks_keep rfl fun l => ?_) hfits hcalm.1 hcalm.2.2
  rw [hp, hholds]
  cases same <;> cases l <;> rfl

theorem Covers.start (h : Covers s) (hp : s.pc p = .idle) {pc : Pc ι}
    (hcommits : pc.commits = false) : Covers (s.goto p pc) :=
  h.move rfl (fun _ hq => by simp [hp] at hq) id
    (fun hq => hq.imp (fun hn => by simp [hcommits] at hn) id) fun _ _ => rfl

theorem ok_step [DecidableEq χ] (hprocs : ∀ p, p ∈ procs) {e : Event ι} (h : Ok same ch s)
    (hc : Covers s) (hst : step same procs ch s e = some t) : Ok same ch t ∧ Covers t := by
  cases e with
  | wait p =>
    obtain ⟨hp, rfl⟩ := guard_some hst
    exact ⟨h.start hp (by simp [Pc.Calm]) rfl fun l => by cases l <;> cases same <;> rfl,
      hc.start hp rfl⟩
  | wake p direct =>
    obtain ⟨⟨hp, hd⟩, rfl⟩ := guard_some hst
    refine ⟨h.start hp (by simp [Pc.Calm]) ?_ fun l => by cases l <;> cases same <;> rfl,
      hc.start hp rfl⟩
    cases direct <;> simp_all
  | run p keep =>
    have ha := acts_of_advance h hst
    exact ⟨h.acts ha, hc.acts h hprocs ha⟩
  | schedulerAcquire =>
    obtain ⟨hfree, rfl⟩ := guard_some hst
    exact ⟨h.give (by simp [hfree]) (by simp), hc⟩
  | dispatch p =>
    obtain ⟨⟨hheld, hrun⟩, rfl⟩ := guard_some hst
    have hp := h.runnable p hrun
    rw [hp]
    constructor
    · refine h.move rfl (fun q hq => by simp [hq]) (fun _ _ => rfl)
        (h.locks_take (by simp [hheld]) rfl fun l => ?_) rfl (by simp)
        (by simp) (by simp [Pc.resume]) (by simp [Pc.resume])
      rw [hp]
      cases same <;> cases l <;> rfl
    · refine hc.move rfl (fun _ hq => by simp [hp] at hq) id (fun hq => ?_)
        fun q hq => by simp [hq]
      simp [State.Committed, Pc.resume, Pc.commits] at hq
  | schedulerRelease =>
    obtain ⟨hheld, rfl⟩ := guard_some hst
    exact ⟨h.give (by simp [hheld]) (by simp), hc⟩

omit [DecidableEq ι] in
theorem ok_start (cond : Bool) : Ok same ch (start cond : State ι χ) := by
  refine ⟨fun l p => ?_, fun p => rfl, by simp [start], by simp [start], by simp [start],
    by simp [start]⟩
  cases l <;> cases same <;> simp [start, Pc.holds, Pc.usesLk, Pc.usesPtable]

omit [DecidableEq ι] in
theorem covers_start (cond : Bool) : Covers (start cond : State ι χ) := by
  intro p hp
  simp [State.Committed, start, Pc.commits] at hp

/-- **No lost wakeup**, whether `lk` is `ptable.lock` or not: if a process sleeps on `chan` while
the condition holds, a process that has set the condition has not come to it in its scan. -/
theorem no_lost_wakeup [DecidableEq χ] (same : Bool) {procs : List ι} (hprocs : ∀ p, p ∈ procs)
    (ch : χ) (cond : Bool) {tr : List (Trans (State ι χ) (Event ι))}
    (h : IsRun (step same procs ch) (start cond) tr) :
    ∀ x ∈ tr, ∀ p, x.post.state p = .sleeping → x.post.chan p = some ch → x.post.cond = true →
      ∃ q, x.post.pc q = .wakeupAcquire ∨ (∃ l, x.post.pc q = .scan l ∧ p ∈ l) ∨
        (x.post.pc q = .panicked ∧ same = true) := by
  intro x hx p hp _ hcond
  obtain ⟨hok, hcov⟩ := (h.invariant (I := fun s => Ok same ch s ∧ Covers s) (C := fun _ => True)
    ⟨ok_start cond, covers_start cond⟩ (fun y hy _ hI => ok_step hprocs hI.1 hI.2 hy)
    (fun _ _ => trivial) x hx).2
  obtain ⟨q, hq⟩ := hcov p (Or.inr hp) hcond
  refine ⟨q, ?_⟩
  cases hpc : x.post.pc q with
  | wakeupAcquire => exact Or.inl rfl
  | scan l => exact Or.inr (Or.inl ⟨l, rfl, by simpa [hpc] using hq⟩)
  | panicked => exact Or.inr (Or.inr ⟨rfl, by simpa [hpc] using hok.fits q⟩)
  | _ => rw [hpc] at hq; exact hq.elim

/-- Process `false` goes to sleep, and process `true` sets the condition. -/
def sleepAndWake : List (Event Bool) :=
  .wait false :: List.replicate 7 (.run false true) ++
    [.schedulerRelease, .wake true false, .run true true, .run true true]

theorem no_lost_wakeup_sleepAndWake :
    ((trace (step false [false, true] ()) (start false) sleepAndWake).any fun x =>
      x.post.state false = .sleeping ∧ x.post.chan false = some () ∧ x.post.cond = true) = true ∧
    ∀ x ∈ trace (step false [false, true] ()) (start false) sleepAndWake, ∀ p,
      x.post.state p = .sleeping → x.post.chan p = some () → x.post.cond = true →
      ∃ q, x.post.pc q = .wakeupAcquire ∨ (∃ l, x.post.pc q = .scan l ∧ p ∈ l) ∨
        (x.post.pc q = .panicked ∧ false = true) :=
  ⟨by decide +kernel, no_lost_wakeup false (by decide) () false (isRun_trace _ _ _)⟩

end StrideXv6.Sleep
