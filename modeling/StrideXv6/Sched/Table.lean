import Mathlib.Tactic
import StrideXv6.Lib.Run

set_option autoImplicit false

/-! # The process table and its critical sections

The process table of `proc.c`, with one function for each critical section of `ptable.lock`.
A `Kernel ι` has a CPU for every element of `ι`, so nothing depends on their number. Every
operation that changes a process state does so with `ptable.lock` held from its `acquire` to
the matching `release` (which another function may perform: `sched` hands the lock over to
`scheduler`, and `scheduler` to the process it switches to). An interleaving of the
operations is therefore a sequence of `Op`s, each applied by `step` as a whole.

Of `struct proc` the model keeps the fields these functions read or write; memory, files and
the trap frame take no part in scheduling. Two fields are not in the source: `np`, the local
variable of a `fork` that has taken a slot and not yet finished, and `despachos`, which
counts the dispatches of a slot since `allocproc` and is never read by the code.
-/

namespace StrideXv6.Sched

/-! ## Constants and data types -/

def NPROC : Nat := 64
def MAX_TICKETS : Int := 2000
def MIN_TICKETS : Int := 25
def DEFAULT_TICKETS : Int := 50

/-- The value an `int` variable holds after `x` has been stored in it. -/
def int32 (x : Int) : Int := x.bmod (2 ^ 32)

instance : NeZero NPROC := ⟨by decide⟩

/-- A slot of `ptable.proc`; it stands for the pointer to that slot. -/
abbrev Slot := Fin NPROC

/-- Sleep channels are addresses. The only ones the process code forms itself are those of
its own slots. -/
inductive Chan where
  | slot (p : Slot)
  | addr (a : Nat)
  deriving DecidableEq

inductive ProcState where
  | unused | embryo | sleeping | runnable | running | zombie
  deriving DecidableEq

structure Proc where
  state : ProcState
  pid : Int
  parent : Option Slot
  chan : Option Chan
  killed : Bool
  passo : Int
  passada : Int
  np : Option Slot
  despachos : Nat

/-- A slot of the zero-initialised table. -/
def Proc.zero : Proc :=
  { state := .unused, pid := 0, parent := none, chan := none, killed := false, passo := 0,
    passada := 0, np := none, despachos := 0 }

/-- The part of a CPU's state the scheduler works with: `proc`, the current process, and the
local variable `min_proc` of that CPU's `scheduler()`, which outlives an iteration. -/
structure Cpu where
  proc : Option Slot
  minProc : Option Slot

structure Kernel (ι : Type) where
  ptable : Slot → Proc
  nextpid : Int
  initproc : Slot
  cpu : ι → Cpu

variable {ι : Type} [DecidableEq ι]

/-- Replace the entry of slot `p`. -/
def Kernel.setProc (k : Kernel ι) (p : Slot) (r : Proc) : Kernel ι :=
  { k with ptable := Function.update k.ptable p r }

def Kernel.setCpu (k : Kernel ι) (c : ι) (r : Cpu) : Kernel ι :=
  { k with cpu := Function.update k.cpu c r }

/-! ## fork -/

/-- The clamping of `fork`'s argument. -/
def clampTickets (stride : Int) : Int :=
  if stride = 0 then DEFAULT_TICKETS
  else if stride < MIN_TICKETS then MIN_TICKETS
  else if MAX_TICKETS < stride then MAX_TICKETS
  else stride

/-- The first `UNUSED` slot. -/
def findUnused (t : Slot → Proc) : Option Slot :=
  (List.finRange NPROC).find? fun p => decide ((t p).state = .unused)

/-- What `allocproc(stride)` writes into the slot it found. `np` is a local of the new
process' own future calls, none of which is in progress. -/
def allocated (k : Kernel ι) (stride : Int) (p : Slot) : Proc :=
  { k.ptable p with
    state := .embryo, pid := k.nextpid, passo := Int.tdiv 10000 stride, passada := 0,
    np := none, despachos := 0 }

def allocprocAt (k : Kernel ι) (stride : Int) (p : Slot) : Kernel ι :=
  { k.setProc p (allocated k stride p) with nextpid := int32 (k.nextpid + 1) }

/-- The critical section of `allocproc(stride)`: the slot taken, if there is one. -/
def allocproc (k : Kernel ι) (stride : Int) : Option (Slot × Kernel ι) :=
  (findUnused k.ptable).map fun p => (p, allocprocAt k stride p)

/-- `fork` keeps the slot `j` it got in its local `np`. -/
def setNp (k : Kernel ι) (me : Slot) (j : Option Slot) : Kernel ι :=
  k.setProc me { k.ptable me with np := j }

/-- `fork(stride)` up to the slot it takes; with no slot it returns `-1` at once. -/
def fork (k : Kernel ι) (me : Slot) (stride : Int) : Kernel ι :=
  match allocproc k (clampTickets stride) with
  | none => k
  | some (j, k') => setNp k' me (some j)

/-- `fork` failing for lack of memory, in `allocproc`'s `kalloc` or in `copyuvm`. -/
def forkFail (k : Kernel ι) (me j : Slot) : Kernel ι :=
  setNp (k.setProc j { k.ptable j with state := .unused }) me none

/-- The end of a successful `fork`: the child gets its parent and becomes `RUNNABLE`. -/
def forkRunnable (k : Kernel ι) (me j : Slot) : Kernel ι :=
  setNp (k.setProc j { k.ptable j with state := .runnable, parent := some me }) me none

/-! ## sleep, wakeup, kill, yield -/

/-- `wakeup1(chan)` on one slot. -/
def Proc.wakeup1 (r : Proc) (chan : Option Chan) : Proc :=
  if r.state = .sleeping ∧ r.chan = chan then { r with state := .runnable } else r

def wakeup1 (k : Kernel ι) (chan : Option Chan) : Kernel ι :=
  { k with ptable := fun p => (k.ptable p).wakeup1 chan }

/-- `sched()`: back in `scheduler()`, which clears `proc` and releases the lock. -/
def sched (k : Kernel ι) (c : ι) : Kernel ι := k.setCpu c { k.cpu c with proc := none }

/-- `sleep(chan, lk)`, from the moment `ptable.lock` is held. -/
def sleep (k : Kernel ι) (c : ι) (me : Slot) (chan : Option Chan) : Kernel ι :=
  sched (k.setProc me { k.ptable me with chan := chan, state := .sleeping }) c

def yield (k : Kernel ι) (c : ι) (me : Slot) : Kernel ι :=
  sched (k.setProc me { k.ptable me with state := .runnable }) c

/-- What `kill` does to the slot whose `pid` matches. -/
def Proc.kill (r : Proc) : Proc :=
  { r with killed := true, state := if r.state = .sleeping then .runnable else r.state }

/-- `kill(pid)` and its result. -/
def kill (k : Kernel ι) (pid : Int) : Kernel ι × Int :=
  match (List.finRange NPROC).find? fun p => decide ((k.ptable p).pid = pid) with
  | some p => (k.setProc p (k.ptable p).kill, 0)
  | none => (k, -1)

/-! ## exit and wait -/

/-- One turn of `exit`'s loop: slot `p`, if a child of `me`, is passed to `initproc`. -/
def reparent (me : Slot) (k : Kernel ι) (p : Slot) : Kernel ι :=
  if (k.ptable p).parent = some me then
    let k := k.setProc p { k.ptable p with parent := some k.initproc }
    if (k.ptable p).state = .zombie then wakeup1 k (some (.slot k.initproc)) else k
  else k

/-- `exit()` of the process `me` of CPU `c`, from its `acquire` on. -/
def exit (k : Kernel ι) (c : ι) (me : Slot) : Kernel ι :=
  let k := wakeup1 k ((k.ptable me).parent.map Chan.slot)
  let k := (List.finRange NPROC).foldl (reparent me) k
  sched (k.setProc me { k.ptable me with state := .zombie }) c

/-- What `wait` leaves in the slot of a reaped child. -/
def Proc.reap (r : Proc) : Proc :=
  { r with state := .unused, pid := 0, parent := none, killed := false }

/-- The `ZOMBIE` child `wait`'s scan finds first. -/
def zombieChild (k : Kernel ι) (me : Slot) : Option Slot :=
  (List.finRange NPROC).find? fun p =>
    decide ((k.ptable p).parent = some me ∧ (k.ptable p).state = .zombie)

def havekids (k : Kernel ι) (me : Slot) : Bool :=
  (List.finRange NPROC).any fun p => decide ((k.ptable p).parent = some me)

/-- One pass of `wait`'s loop: the table afterwards, and the value returned, `none` when the
caller went to sleep instead. -/
def wait (k : Kernel ι) (c : ι) (me : Slot) : Kernel ι × Option Int :=
  match zombieChild k me with
  | some p => (k.setProc p (k.ptable p).reap, some (k.ptable p).pid)
  | none =>
    if !havekids k me || (k.ptable me).killed then (k, some (-1))
    else (sleep k c me (some (.slot me)), none)

/-! ## scheduler -/

/-- The body of `scheduler`'s scan: `acc` holds `min` and `min_proc`. -/
def scanBody (t : Slot → Proc) (acc : Int × Option Slot) (p : Slot) : Int × Option Slot :=
  if (t p).state = .runnable ∧ ((t p).passada ≤ acc.1 ∨ acc.1 = 0) then ((t p).passada, some p)
  else acc

/-- The scan: `min` starts at `0`, `min_proc` with whatever the last iteration left in it. -/
def scan (t : Slot → Proc) (minProc : Option Slot) : Int × Option Slot :=
  (List.finRange NPROC).foldl (scanBody t) (0, minProc)

/-- The value of `min_proc` after the scan of CPU `c`. -/
def chosen (k : Kernel ι) (c : ι) : Option Slot := (scan k.ptable (k.cpu c).minProc).2

/-- What a dispatch writes into the slot: the charge, `RUNNING`, and the `chan = 0` with
which a process resumes from `sleep`. -/
def Proc.dispatch (r : Proc) : Proc :=
  { r with
    passada := int32 (r.passada + r.passo), state := .running, chan := none,
    despachos := r.despachos + 1 }

/-- One iteration of `scheduler()` on CPU `c`, up to `swtch`. -/
def scheduler (k : Kernel ι) (c : ι) : Kernel ι :=
  match chosen k c with
  | none => k
  | some p => (k.setProc p (k.ptable p).dispatch).setCpu c { proc := some p, minProc := some p }

/-! ## The system -/

/-- The events of a run. `fork` is the start of a call of `fork`, `forkFail` and
`forkRunnable` its two ends; `yield` is a timer interrupt; `wakeup` may come from an
interrupt handler and names no CPU. -/
inductive Op (ι : Type) where
  | scheduler (c : ι)
  | fork (c : ι) (stride : Int)
  | forkFail (c : ι)
  | forkRunnable (c : ι)
  | exit (c : ι)
  | wait (c : ι)
  | sleep (c : ι) (chan : Chan)
  | yield (c : ι)
  | kill (c : ι) (pid : Int)
  | wakeup (chan : Chan)
  deriving DecidableEq

/-- The process that can make a system call on CPU `c`: the current one, unless it is still
inside a `fork`. -/
def caller (k : Kernel ι) (c : ι) : Option Slot :=
  (k.cpu c).proc.filter fun p => decide ((k.ptable p).np = none)

/-- The current process of `c` and the slot its unfinished `fork` has taken. -/
def forker (k : Kernel ι) (c : ι) : Option (Slot × Slot) :=
  (k.cpu c).proc.bind fun p => (k.ptable p).np.map fun j => (p, j)

/-- One step of the system; `none` when the event is not possible in this state. -/
def step (k : Kernel ι) : Op ι → Option (Kernel ι)
  | .scheduler c => if (k.cpu c).proc = none then some (scheduler k c) else none
  | .fork c stride => (caller k c).map fun p => fork k p stride
  | .forkFail c => (forker k c).map fun x => forkFail k x.1 x.2
  | .forkRunnable c => (forker k c).map fun x => forkRunnable k x.1 x.2
  | .exit c => (caller k c).bind fun p => if p = k.initproc then none else some (exit k c p)
  | .wait c => (caller k c).map fun p => (wait k c p).1
  | .sleep c chan => (caller k c).map fun p => sleep k c p (some chan)
  -- trap() calls yield() only for a RUNNING process
  | .yield c => (k.cpu c).proc.bind fun p =>
    if (k.ptable p).state = .running then some (yield k c p) else none
  | .kill c pid => (caller k c).map fun _ => (kill k pid).1
  | .wakeup chan => some (wakeup1 k (some chan))

/-- The slot `userinit()` takes. -/
def firstSlot : Slot := ⟨0, by decide⟩

/-- The state after `userinit()`: `init` in the first slot and every CPU about to enter
`scheduler()`. The local `min_proc` has no initialiser, so its first value is a parameter. -/
def boot (minProc : ι → Option Slot) : Kernel ι :=
  { ptable := Function.update (fun _ => Proc.zero) firstSlot
      { Proc.zero with
        state := .runnable, pid := 1, passo := Int.tdiv 10000 DEFAULT_TICKETS },
    nextpid := 2, initproc := firstSlot, cpu := fun c => ⟨none, minProc c⟩ }

end StrideXv6.Sched
