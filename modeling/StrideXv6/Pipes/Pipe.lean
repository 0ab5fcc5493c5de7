import StrideXv6.Lib.Run
import StrideXv6.Lib.Ring

set_option autoImplicit false

/-! # Pipes

`pipewrite`, `piperead` and `pipeclose` of `pipe.c` on one pipe, for any number of processes
`ι`. A process is a program counter (`Pc`) with the locals of the call it is in, and one step
runs one test or statement of the source. The steps between `acquire(&p->lock)` and the matching
`release` are separate too, so `kill` and the other processes' attempts to take the lock come
between any two of them.

`sleep(chan, &p->lock)` is one step: `ptable.lock` is held from before `p->lock` is released
until the process is `SLEEPING`, so no `wakeup` or `kill` can come in between. For the same
reason `wakeup` is one step. The counters are `uint`s and wrap. Two fields are not in the source,
and the code never reads them: `stored` and `delivered` are the bytes stored by writers and
copied out by readers so far.
-/

namespace StrideXv6.Pipes

def PIPESIZE : Nat := 512

structure Pipe where
  ring : RingBuffer 32 UInt8
  readopen : Bool
  writeopen : Bool

/-- `p->nwrite == p->nread + PIPESIZE` -/
def Pipe.full (p : Pipe) : Prop := p.ring.nwrite = p.ring.nread + BitVec.ofNat 32 PIPESIZE

/-- `p->nread == p->nwrite` -/
def Pipe.empty (p : Pipe) : Prop := p.ring.nread = p.ring.nwrite

instance (p : Pipe) : Decidable p.full := inferInstanceAs (Decidable (_ = _))
instance (p : Pipe) : Decidable p.empty := inferInstanceAs (Decidable (_ = _))

/-! ## Program counters -/

/-- Where a process is in `pipewrite`. -/
inductive WritePc where
  /-- `acquire(&p->lock)` -/
  | acquire
  /-- `acquire(&p->lock)` at the end of `sleep` -/
  | reacquire
  /-- `i < n` -/
  | loop
  /-- `p->nwrite == p->nread + PIPESIZE`, and else the store -/
  | test
  /-- `p->readopen == 0 || proc->killed` -/
  | full
  /-- `release(&p->lock); return -1` -/
  | fail
  /-- `wakeup(&p->nread)` before it sleeps -/
  | wake
  /-- `sleep(&p->nwrite, &p->lock)` -/
  | sleep
  /-- `SLEEPING` on `&p->nwrite` -/
  | sleeping
  /-- `wakeup(&p->nread)` after the loop -/
  | done
  /-- `release(&p->lock); return n` -/
  | release
  deriving DecidableEq

/-- Where a process is in `piperead`. -/
inductive ReadPc where
  /-- `acquire(&p->lock)`, at the start or at the end of `sleep` -/
  | acquire
  /-- `p->nread == p->nwrite && p->writeopen` -/
  | test
  /-- `proc->killed` -/
  | empty
  /-- `release(&p->lock); return -1` -/
  | fail
  /-- `sleep(&p->nread, &p->lock)` -/
  | sleep
  /-- `SLEEPING` on `&p->nread` -/
  | sleeping
  /-- the loop that copies -/
  | copy
  /-- `wakeup(&p->nwrite)` -/
  | wake
  /-- `release(&p->lock); return i` -/
  | release
  deriving DecidableEq

/-- Where a process is in `pipeclose`. -/
inductive ClosePc where
  /-- `acquire(&p->lock)` -/
  | acquire
  /-- `p->writeopen = 0` or `p->readopen = 0` -/
  | clear
  /-- the `wakeup` after that -/
  | wake
  /-- `release(&p->lock)`, and `kfree` if both ends are closed -/
  | release
  deriving DecidableEq

/-- `addr` is the caller's memory, `n` the argument and `i` the loop counter. -/
inductive Pc where
  | user (ret : Int)
  | write (w : WritePc) (addr : Nat → UInt8) (n : Int) (i : Nat)
  | read (r : ReadPc) (n : Int) (i : Nat)
  | close (c : ClosePc) (writable : Bool)

/-! ## State -/

structure PipeState (ι : Type) where
  pipe : Pipe
  lock : Option ι
  pc : ι → Pc
  killed : ι → Bool
  freed : Bool
  stored : List UInt8
  delivered : List UInt8

variable {ι : Type} [DecidableEq ι]

def PipeState.setPc (s : PipeState ι) (i : ι) (pc : Pc) : PipeState ι :=
  { s with pc := Function.update s.pc i pc }

/-- `wakeup(&p->nread)` on one process. -/
def Pc.wakeRead : Pc → Pc
  | .read .sleeping n i => .read .acquire n i
  | pc => pc

/-- `wakeup(&p->nwrite)` on one process. -/
def Pc.wakeWrite : Pc → Pc
  | .write .sleeping addr n i => .write .reacquire addr n i
  | pc => pc

def wakeupRead (s : PipeState ι) : PipeState ι := { s with pc := fun i => (s.pc i).wakeRead }

def wakeupWrite (s : PipeState ι) : PipeState ι := { s with pc := fun i => (s.pc i).wakeWrite }

/-- `acquire(&p->lock)`, which spins while the lock is taken. -/
def acquire (s : PipeState ι) (me : ι) (pc : Pc) : Option (PipeState ι) :=
  if s.lock = none then some { s.setPc me pc with lock := some me } else none

def release (s : PipeState ι) (me : ι) (pc : Pc) : PipeState ι :=
  { s.setPc me pc with lock := none }

/-! ## The calls -/

/-- `p->data[p->nwrite++ % PIPESIZE] = a` -/
def store (s : PipeState ι) (a : UInt8) : PipeState ι :=
  { s with pipe := { s.pipe with ring := s.pipe.ring.push PIPESIZE a },
           stored := s.stored ++ [a] }

/-- `p->data[p->nread++ % PIPESIZE]`, delivered to the reader. -/
def fetch (s : PipeState ι) : PipeState ι :=
  { s with pipe := { s.pipe with ring := s.pipe.ring.pop },
           delivered := s.delivered ++ [s.pipe.ring.front PIPESIZE] }

/-- One step of `pipewrite(p, addr, n)`. -/
def pipewrite (s : PipeState ι) (me : ι) (addr : Nat → UInt8) (n : Int) (i : Nat) :
    WritePc → Option (PipeState ι)
  | .acquire => acquire s me (.write .loop addr n i)
  | .reacquire => acquire s me (.write .test addr n i)
  | .loop => some (s.setPc me (.write (if i < n then .test else .done) addr n i))
  | .test =>
    if s.pipe.full then some (s.setPc me (.write .full addr n i))
    else some ((store s (addr i)).setPc me (.write .loop addr n (i + 1)))
  | .full =>
    if s.pipe.readopen = false ∨ s.killed me = true then
      some (s.setPc me (.write .fail addr n i))
    else some (s.setPc me (.write .wake addr n i))
  | .fail => some (release s me (.user (-1)))
  | .wake => some ((wakeupRead s).setPc me (.write .sleep addr n i))
  | .sleep => some (release s me (.write .sleeping addr n i))
  | .sleeping => none
  | .done => some ((wakeupRead s).setPc me (.write .release addr n i))
  | .release => some (release s me (.user n))

/-- One step of `piperead(p, addr, n)`. -/
def piperead (s : PipeState ι) (me : ι) (n : Int) (i : Nat) : ReadPc → Option (PipeState ι)
  | .acquire => acquire s me (.read .test n i)
  | .test =>
    if s.pipe.empty ∧ s.pipe.writeopen = true then some (s.setPc me (.read .empty n i))
    else some (s.setPc me (.read .copy n i))
  | .empty =>
    if s.killed me = true then some (s.setPc me (.read .fail n i))
    else some (s.setPc me (.read .sleep n i))
  | .fail => some (release s me (.user (-1)))
  | .sleep => some (release s me (.read .sleeping n i))
  | .sleeping => none
  | .copy =>
    if i < n ∧ ¬ s.pipe.empty then some ((fetch s).setPc me (.read .copy n (i + 1)))
    else some (s.setPc me (.read .wake n i))
  | .wake => some ((wakeupWrite s).setPc me (.read .release n i))
  | .release => some (release s me (.user i))

/-- One step of `pipeclose(p, writable)`. -/
def pipeclose (s : PipeState ι) (me : ι) (writable : Bool) : ClosePc → Option (PipeState ι)
  | .acquire => acquire s me (.close .clear writable)
  | .clear =>
    let p := if writable then { s.pipe with writeopen := false }
      else { s.pipe with readopen := false }
    some { s.setPc me (.close .wake writable) with pipe := p }
  | .wake =>
    some ((if writable then wakeupRead s else wakeupWrite s).setPc me (.close .release writable))
  | .release =>
    some { release s me (.user 0) with
      freed := s.pipe.readopen = false ∧ s.pipe.writeopen = false }

/-! ## The system -/

inductive Call where
  | write (addr : Nat → UInt8) (n : Int)
  | read (n : Int)
  | close (writable : Bool)

def Call.pc : Call → Pc
  | .write addr n => .write .acquire addr n 0
  | .read n => .read .acquire n 0
  | .close writable => .close .acquire writable

inductive PipeEvent (ι : Type) where
  | call (i : ι) (c : Call)
  | run (i : ι)
  | kill (i : ι)

/-- The next step of process `me`, in whichever call it is. -/
def advance (s : PipeState ι) (me : ι) : Option (PipeState ι) :=
  match s.pc me with
  | .user _ => none
  | .write w addr n i => pipewrite s me addr n i w
  | .read r n i => piperead s me n i r
  | .close c writable => pipeclose s me writable c

/-- `kill` of process `i`, which wakes it if it sleeps. -/
def kill (s : PipeState ι) (i : ι) : PipeState ι :=
  { s.setPc i (s.pc i).wakeRead.wakeWrite with killed := Function.update s.killed i true }

/-- A pipe that has been freed is not used any more. -/
def pipeStep (s : PipeState ι) : PipeEvent ι → Option (PipeState ι)
  | .call i c =>
    match s.pc i with
    | .user _ => if s.freed then none else some (s.setPc i c.pc)
    | _ => none
  | .run i => if s.freed then none else advance s i
  | .kill i => some (kill s i)

/-- After `pipealloc`. The page comes with any bytes in it, and any processes may be killed. -/
def pipealloc (data : Nat → UInt8) (killed : ι → Bool) : PipeState ι :=
  { pipe := { ring := { data := data, nread := 0, nwrite := 0 },
              readopen := true, writeopen := true },
    lock := none, pc := fun _ => .user 0, killed := killed, freed := false,
    stored := [], delivered := [] }

end StrideXv6.Pipes
