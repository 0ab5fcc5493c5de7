import StrideXv6.Lib.Locks
import StrideXv6.Lib.Run
import StrideXv6.Sched.Table
import StrideXv6.Console.Input

set_option autoImplicit false

/-! # Where the kernel takes its spin locks

`wait`, `consoleintr`, `consoleread`, `wakeup`, `fork`, `exit` and what they call, cut at every
`acquire` and `release`. The code of each function is a `Prog`, which changes the process
table by the functions of `Sched.Table` and the input buffer by those of `Console.Input`. A
process that calls `sched()` leaves the code it resumes with in `resume`, and `scheduler()`
continues with it, still holding `ptable.lock`.

File system work (`iunlock`, `fileclose`, `begin_op`, `filedup`, ...) and `kalloc` only matter
for the locks taken on the way: a `Work` is one critical section of such a lock, in which the
source may call `wakeup` or `sleep`. Which sections a call goes through is chosen by its
caller, so that every possible one is covered.
-/

namespace StrideXv6.Console

open Locks
open Sched (Kernel Slot Chan)

/-! ## Locks and code -/

/-- The locks of the file system and of the other tables: `wakeup` and `sleep` are called
with one of them held, and never with two. -/
inductive FsLock where
  | ftable | icache | bcache | log | ide | ticks
  | pipe (n : Nat)
  deriving DecidableEq

inductive Lock where
  | ptable | cons | kmem
  | fs (l : FsLock)
  deriving DecidableEq

/-- What a critical section of an `FsLock` calls. -/
inductive Inner where
  | wakeup (chan : Chan)
  | sleep (chan : Chan)

/-- One critical section on the way: of `kmem.lock`, of `cons.lock` (`cprintf`,
`consolewrite`), or of an `FsLock`. -/
inductive Work where
  | kmem
  | cons
  | fs (l : FsLock) (body : List Inner)

/-- What a process does next, once it holds no lock. -/
inductive Cont where
  | user
  | exit
  | forkFail
  | forkPrint
  | forkRunnable
  | consoleread (target n : Nat) (ws : List Work)
  /-- Back from `sleep(chan, &l)`: take `l` again and go on with its section. -/
  | inner (l : FsLock) (body : List Inner) (ws : List Work) (cont : Cont)

/-- Where a process continues when `scheduler()` switches to it: in `wait`'s loop, or
releasing `ptable.lock` first (`sleep`, `yield`, `forkret`). `pages` is the number of pages a
later `freevm` will free. -/
inductive Resume where
  | wait (pages : Nat)
  | run (ws : List Work) (cont : Cont)

/-- The shared data. -/
structure Data (ι : Type) where
  kernel : Kernel ι
  input : Input
  resume : Slot → Resume

/-- The names of the actions on the data that decide what is locked next; `point` marks the
places of a process' kernel code at which it holds no lock and can be interrupted. -/
inductive Act where
  | point (ws : List Work) (cont : Cont)
  | waitScan (me : Slot)
  | getc (ch : Nat)
  | readTest (me : Slot)
  | other

abbrev Prog (ι : Type) := Code Lock (Data ι) Act

variable {ι : Type} [DecidableEq ι]

/-- Work on the process table, whatever comes next. -/
def onKernel (f : Kernel ι → Kernel ι) (k : Prog ι) : Prog ι :=
  .act .other (fun d => { d with kernel := f d.kernel }) fun _ => k

def point (ws : List Work) (cont : Cont) (k : Prog ι) : Prog ι :=
  .act (.point ws cont) id fun _ => k

/-! ## Printing and freeing -/

/-- `cprintf`, once `consoleinit` has set `cons.locking`. -/
def cprintf (k : Prog ι) : Prog ι := .acquire .cons (.release .cons k)

def printaProcessos (k : Prog ι) : Prog ι := cprintf k

def kfree (k : Prog ι) : Prog ι := .acquire .kmem (.release .kmem k)

def freevm : Nat → Prog ι → Prog ι
  | 0, k => k
  | pages + 1, k => kfree (freevm pages k)

/-! ## sleep and wakeup -/

def wakeup (chan : Chan) (k : Prog ι) : Prog ι :=
  .acquire .ptable (onKernel (fun t => Sched.wakeup1 t (some chan)) (.release .ptable k))

/-- Back in `scheduler()` after `sched()`. -/
def sched : Prog ι := .release .ptable .done

/-- `sleep` from the moment it holds only `ptable.lock`. -/
def goToSleep (c : ι) (me : Slot) (chan : Chan) (r : Resume) : Prog ι :=
  .act .other
    (fun d => { d with
      kernel := Sched.sleep d.kernel c me (some chan),
      resume := Function.update d.resume me r })
    fun _ => sched

/-- `sleep(chan, lk)` for a lock other than `ptable.lock`. -/
def sleep (c : ι) (me : Slot) (chan : Chan) (lk : Lock) (r : Resume) : Prog ι :=
  .acquire .ptable (.release lk (goToSleep c me chan r))

/-! ## Sections of other locks -/

/-- A critical section of `l`, from its `acquire` on; `k` is what follows it. -/
def inner (c : ι) (me : Slot) (l : FsLock) (ws : List Work) (cont : Cont) (k : Prog ι) :
    List Inner → Prog ι
  | [] => .release (.fs l) k
  | .wakeup chan :: body => wakeup chan (inner c me l ws cont k body)
  | .sleep chan :: body => sleep c me chan (.fs l) (.run [] (.inner l body ws cont))

def works (c : ι) (me : Slot) (cont : Cont) (k : Prog ι) : List Work → Prog ι
  | [] => k
  | .kmem :: ws => point (.kmem :: ws) cont (kfree (works c me cont k ws))
  | .cons :: ws => point (.cons :: ws) cont (cprintf (works c me cont k ws))
  | .fs l body :: ws =>
    point (.fs l body :: ws) cont
      (.acquire (.fs l) (inner c me l ws cont (works c me cont k ws) body))

/-! ## consoleread -/

/-- The address `&input.r`. -/
def inputR : Chan := .addr 0

/-- The loop of `consoleread` with `n` characters to go, `cons.lock` held; `ws` is the
`ilock(ip)` at its end. -/
def readLoop (c : ι) (me : Slot) (ws : List Work) (target : Nat) : Nat → Prog ι
  | 0 => .release .cons (works c me .user .done ws)
  | n + 1 =>
    .act (.readTest me)
      (fun d =>
        if d.input.r = d.input.w then d
        else { d with input := (d.input.read (decide (n + 1 < target))).1 })
      fun d =>
        if d.input.r = d.input.w then
          if (d.kernel.ptable me).killed then .release .cons (works c me .user .done ws)
          else sleep c me inputR .cons (.run [] (.consoleread target (n + 1) ws))
        else
          match (d.input.read (decide (n + 1 < target))).2.2 with
          | .stop => .release .cons (works c me .user .done ws)
          | .next => readLoop c me ws target n

/-! ## What a process goes on with -/

/-- The end of `fork`: the slot taken is in `np`. -/
def forkEnd (me : Slot) (f : Kernel ι → Slot → Slot → Kernel ι) (t : Kernel ι) : Kernel ι :=
  match (t.ptable me).np with
  | some j => f t me j
  | none => t

def contCode (c : ι) (me : Slot) : Cont → Prog ι
  | .user => .done
  | .exit =>
    point [] .exit
      (.acquire .ptable (onKernel (fun t => Sched.exit t c me) sched))
  -- `np->state = UNUSED` is written without `ptable.lock`
  | .forkFail => point [] .forkFail (onKernel (forkEnd me Sched.forkFail) .done)
  | .forkPrint => point [] .forkPrint (printaProcessos (point [] .forkRunnable forkRunnable))
  | .forkRunnable => point [] .forkRunnable forkRunnable
  | .consoleread target n ws =>
    point [] (.consoleread target n ws) (.acquire .cons (readLoop c me ws target n))
  | .inner l body ws cont =>
    point [] (.inner l body ws cont)
      (.acquire (.fs l) (inner c me l ws cont (works c me cont (contCode c me cont) ws) body))
where
  forkRunnable : Prog ι :=
    .acquire .ptable (onKernel (forkEnd me Sched.forkRunnable) (.release .ptable .done))

def run (c : ι) (me : Slot) (ws : List Work) (cont : Cont) : Prog ι :=
  works c me cont (contCode c me cont) ws

/-! ## wait -/

/-- One pass of `wait`'s loop, `ptable.lock` held. -/
def waitLoop (c : ι) (me : Slot) (pages : Nat) : Prog ι :=
  .act (.waitScan me) id fun d =>
    match Sched.zombieChild d.kernel me with
    | some p =>
      printaProcessos <| kfree <| freevm pages <|
        onKernel (fun t => t.setProc p (t.ptable p).reap) (.release .ptable .done)
    | none =>
      if !Sched.havekids d.kernel me || (d.kernel.ptable me).killed then .release .ptable .done
      else goToSleep c me (.slot me) (.wait pages)

/-! ## scheduler and yield -/

def resumeCode (c : ι) (me : Slot) : Resume → Prog ι
  | .wait pages => waitLoop c me pages
  | .run ws cont => .release .ptable (run c me ws cont)

/-- One iteration of `scheduler()`. -/
def scheduler (c : ι) : Prog ι :=
  .acquire .ptable <|
    .act .other (fun d => { d with kernel := Sched.scheduler d.kernel c }) fun d =>
      match Sched.chosen d.kernel c with
      | none => .release .ptable .done
      | some p => resumeCode c p (d.resume p)

/-- `yield()`, called by `trap()` on a timer interrupt of a process at `ws` and `cont`. -/
def yield (c : ι) (me : Slot) (ws : List Work) (cont : Cont) : Prog ι :=
  .acquire .ptable <|
    .act .other
      (fun d => { d with
        kernel := Sched.yield d.kernel c me,
        resume := Function.update d.resume me (.run ws cont) })
      fun _ => sched

/-! ## consoleintr -/

/-- `procdump()`; how often it prints depends on the stacks of the processes. -/
def procdump : Nat → Prog ι → Prog ι
  | 0, k => k
  | prints + 1, k => cprintf (procdump prints k)

/-- The loop of `consoleintr` over the characters `getc` delivers, `cons.lock` held. -/
def intrLoop (prints : Nat) (k : Prog ι) : Bool → List Nat → Prog ι
  | doprocdump, [] => .release .cons (if doprocdump then procdump prints k else k)
  | doprocdump, ch :: chs =>
    .act (.getc ch) (fun d => { d with input := (d.input.handle ch).1 }) fun d =>
      if (d.input.handle ch).2 then
        wakeup inputR (intrLoop prints k (doprocdump || ch == ctrl 'P') chs)
      else intrLoop prints k (doprocdump || ch == ctrl 'P') chs

def consoleintr (chs : List Nat) (prints : Nat) (k : Prog ι) : Prog ι :=
  .acquire .cons (intrLoop prints k false chs)

/-! ## The system -/

/-- System calls, with the sections of other locks each of them goes through. `ok` says
whether `fork` gets the memory it needs. -/
inductive Call where
  | wait (pages : Nat)
  | fork (stride : Int) (ok : Bool) (ws : List Work)
  | exit (ws : List Work)
  | kill (pid : Int)
  | consoleread (n : Nat) (iunlock ilock : List Work)
  | other (ws : List Work)

def Call.isExit : Call → Bool
  | .exit _ => true
  | _ => false

/-- `allocproc`'s critical section, with the `forkret` the new process starts in. -/
def allocStep (me : Slot) (stride : Int) (d : Data ι) : Data ι :=
  { d with
    kernel := Sched.fork d.kernel me stride,
    resume := match Sched.findUnused d.kernel.ptable with
      | some j => Function.update d.resume j (.run [] .user)
      | none => d.resume }

def callCode (c : ι) (me : Slot) : Call → Prog ι
  | .wait pages => .acquire .ptable (waitLoop c me pages)
  | .fork stride ok ws =>
    .acquire .ptable <| .act .other (allocStep me stride) fun d =>
      .release .ptable <|
        if (Sched.findUnused d.kernel.ptable).isSome then
          run c me ws (if ok then .forkPrint else .forkFail)
        else .done
  | .exit ws => run c me ws .exit
  | .kill pid =>
    .acquire .ptable (onKernel (fun t => (Sched.kill t pid).1) (.release .ptable .done))
  | .consoleread n iunlock ilock => run c me iunlock (.consoleread n n ilock)
  | .other ws => run c me ws .user

abbrev System (ι : Type) := State ι Lock (Data ι) Act

/-- The events of a run. `interrupt` is a keyboard or serial interrupt, which delivers the
characters `chs`. -/
inductive Event (ι : Type) where
  | advance (c : ι)
  | scheduler (c : ι)
  | call (c : ι) (f : Call)
  | interrupt (c : ι) (chs : List Nat) (prints : Nat)
  | timer (c : ι)

/-- The code CPU `c` runs after the event that starts something new on it. Interrupts are
only taken with no lock held. -/
def started (s : System ι) : Event ι → Option (Prog ι)
  | .advance _ => none
  | .scheduler c =>
    match s.code c, (s.data.kernel.cpu c).proc with
    | .done, none => some (scheduler c)
    | _, _ => none
  | .call c f =>
    match s.code c, (s.data.kernel.cpu c).proc with
    | .done, some me =>
      -- init exiting
      if f.isExit && me == s.data.kernel.initproc then none else some (callCode c me f)
    | _, _ => none
  | .interrupt c chs prints =>
    match s.code c with
    | .done => some (consoleintr chs prints .done)
    | .act (.point ws cont) upd next =>
      some (consoleintr chs prints (.act (.point ws cont) upd next))
    | _ => none
  | .timer c =>
    match s.code c, (s.data.kernel.cpu c).proc with
    | .done, some me => some (yield c me [] .user)
    | .act (.point ws cont) _ _, some me => some (yield c me ws cont)
    | _, _ => none

/-- The CPU an event happens on. -/
def Event.cpu : Event ι → ι
  | .advance c | .scheduler c | .call c _ | .interrupt c _ _ | .timer c => c

def step (s : System ι) : Event ι → Option (System ι)
  | .advance c => s.advance c
  | e => (started s e).map (s.setCode e.cpu)

/-- After `userinit()`, every CPU about to enter `scheduler()`. -/
def boot (minProc : ι → Option Slot) : System ι :=
  { data := { kernel := Sched.boot minProc, input := .zero, resume := fun _ => .run [] .user },
    holder := fun _ => none, code := fun _ => .done }

end StrideXv6.Console
