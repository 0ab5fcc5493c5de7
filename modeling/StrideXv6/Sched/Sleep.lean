import StrideXv6.Lib.Run

set_option autoImplicit false

/-! # sleep and wakeup, step by step

`sleep(chan, lk)`, `wakeup(chan)` and the locks they take, one action at a time. Any number of
processes wait for a condition,

    acquire(lk); while(!cond) sleep(chan, lk); ... release(lk);

or bring it about,

    acquire(lk); cond = 1; wakeup(chan); release(lk);

in any order of their actions and of those of the schedulers. `lk` may be `ptable.lock` itself
(`same`), as it is in `wait` and `exit`; there `wakeup1` is called directly, and a `wakeup` would
panic in its `acquire`.

A process runs from its dispatch to the next `sched`; that its CPU may be taken from it in between
makes no difference to the order of the steps, and is left out.
-/

namespace StrideXv6.Sleep

/-! ## States -/

inductive Lock where
  | lk
  | ptable
  deriving DecidableEq

/-- A lock is held by a process, or by the scheduler its CPU has switched to. -/
inductive Party (ι : Type) where
  | scheduler
  | proc (p : ι)
  deriving DecidableEq

inductive RunState where
  | runnable | running | sleeping
  deriving DecidableEq

/-- What a process does next. -/
inductive Pc (ι : Type) where
  | idle
  -- a waiter
  | acquireWait
  | test
  | use
  | releaseWait
  -- `sleep`
  | sleepAcquire
  | sleepRelease
  | setChan
  | setState
  | sched
  | asleep
  | clearChan
  | resumeRelease
  | resumeAcquire
  -- a waker; `direct` if it calls `wakeup1`
  | acquireWake (direct : Bool)
  | setCond (direct : Bool)
  | wakeupAcquire
  | scan (l : List ι)
  | wakeupRelease
  | releaseWake
  | panicked
  deriving DecidableEq

structure State (ι χ : Type) where
  holder : Lock → Option (Party ι)
  cond : Bool
  state : ι → RunState
  chan : ι → Option χ
  pc : ι → Pc ι

variable {ι χ : Type} [DecidableEq ι] [DecidableEq χ]

/-- The lock that `lk` points to. -/
def lkOf (same : Bool) : Lock := if same then .ptable else .lk

def State.goto (s : State ι χ) (p : ι) (pc : Pc ι) : State ι χ :=
  { s with pc := Function.update s.pc p pc }

def State.give (s : State ι χ) (l : Lock) (h : Option (Party ι)) : State ι χ :=
  { s with holder := Function.update s.holder l h }

/-- `acquire(l)` of `p`: it spins while the lock is taken, and panics if `p` holds it. -/
def acquire (s : State ι χ) (p : ι) (l : Lock) (next : Pc ι) : Option (State ι χ) :=
  if s.holder l = some (.proc p) then some (s.goto p .panicked)
  else if s.holder l = none then some ((s.give l (some (.proc p))).goto p next)
  else none

/-- `release(l)` of `p`, which panics if `p` does not hold it. -/
def release (s : State ι χ) (p : ι) (l : Lock) (next : Pc ι) : Option (State ι χ) :=
  if s.holder l = some (.proc p) then some ((s.give l none).goto p next)
  else some (s.goto p .panicked)

/-- `wakeup1` on one slot. -/
def State.wake (s : State ι χ) (ch : χ) (q : ι) : State ι χ :=
  if s.state q = .sleeping ∧ s.chan q = some ch then
    { s with state := Function.update s.state q .runnable }
  else s

/-! ## Steps -/

section

variable (same : Bool) (procs : List ι) (ch : χ)

/-- The next action of `p`. In place of the dots a waiter may use up the condition (`keep`). -/
def advance (s : State ι χ) (p : ι) (keep : Bool) : Option (State ι χ) :=
  match s.pc p with
  | .idle | .asleep | .panicked => none
  | .acquireWait => acquire s p (lkOf same) .test
  | .test =>
    if s.cond then some (s.goto p .use)
    else some (s.goto p (if same then .setChan else .sleepAcquire))
  | .use => some ({ s with cond := s.cond && keep }.goto p .releaseWait)
  | .releaseWait => release s p (lkOf same) .idle
  | .sleepAcquire => acquire s p .ptable .sleepRelease
  | .sleepRelease => release s p .lk .setChan
  | .setChan => some ({ s with chan := Function.update s.chan p (some ch) }.goto p .setState)
  | .setState => some ({ s with state := Function.update s.state p .sleeping }.goto p .sched)
  | .sched =>
    -- no other lock than `ptable.lock` may be held, which is the scheduler's from here on
    if s.holder .ptable = some (.proc p) ∧ s.holder .lk ≠ some (.proc p) ∧ s.state p ≠ .running
    then some ((s.give .ptable (some .scheduler)).goto p .asleep)
    else some (s.goto p .panicked)
  | .clearChan =>
    some ({ s with chan := Function.update s.chan p none }.goto p
      (if same then .test else .resumeRelease))
  | .resumeRelease => release s p .ptable .resumeAcquire
  | .resumeAcquire => acquire s p .lk .test
  | .acquireWake direct => acquire s p (lkOf same) (.setCond direct)
  | .setCond direct =>
    some ({ s with cond := true }.goto p (if direct then .scan procs else .wakeupAcquire))
  | .wakeupAcquire => acquire s p .ptable (.scan procs)
  | .scan [] => some (s.goto p (if same then .releaseWake else .wakeupRelease))
  | .scan (q :: l) => some ((s.wake ch q).goto p (.scan l))
  | .wakeupRelease => release s p .ptable .releaseWake
  | .releaseWake => release s p (lkOf same) .idle

inductive Event (ι : Type) where
  | wait (p : ι)
  | wake (p : ι) (direct : Bool)
  | run (p : ι) (keep : Bool)
  | schedulerAcquire
  | dispatch (p : ι)
  | schedulerRelease
  deriving DecidableEq

/-- Where a process goes on that is switched to. -/
def Pc.resume : Pc ι → Pc ι
  | .asleep => .clearChan
  | pc => pc

/-- One step of a process or of a scheduler. -/
def step (s : State ι χ) : Event ι → Option (State ι χ)
  | .wait p => if s.pc p = .idle then some (s.goto p .acquireWait) else none
  | .wake p direct =>
    if s.pc p = .idle ∧ (direct = true → same = true) then some (s.goto p (.acquireWake direct))
    else none
  | .run p keep => advance same procs ch s p keep
  | .schedulerAcquire =>
    if s.holder .ptable = none then some (s.give .ptable (some .scheduler)) else none
  | .dispatch p =>
    if s.holder .ptable = some .scheduler ∧ s.state p = .runnable then
      some (({ s with state := Function.update s.state p .running }.give .ptable
        (some (.proc p))).goto p (s.pc p).resume)
    else none
  | .schedulerRelease =>
    if s.holder .ptable = some .scheduler then some (s.give .ptable none) else none

end

/-- Nobody has started yet. -/
def start (cond : Bool) : State ι χ :=
  { holder := fun _ => none, cond := cond, state := fun _ => .running, chan := fun _ => none,
    pc := fun _ => .idle }

end StrideXv6.Sleep
