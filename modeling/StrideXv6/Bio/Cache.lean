import Mathlib.Data.Fintype.Basic
import StrideXv6.Lib.Run

set_option autoImplicit false

/-! # The buffer cache

`bread`, `bwrite` and `brelse` of `bio.c` and the requests to the disk of `ide.c`, run by any
number of processes `ι` one step at a time. The steps are those that the locks leave atomic: a
process that holds `bcache.lock` looks at one buffer in a step, since `log_write` and `ideintr`
change flags without that lock; what is done under `idelock` is one step.

A process that sleeps takes no step. `sleep` is also ended by `kill`, at any time, and both loops
around it test again; so waking up early is always allowed here and a wakeup has nothing to do.

`Steps` lists what a step of a process does, with its guards, and `steps_of_advance` and its
companions say that the functions do nothing else.
-/

namespace StrideXv6.Bio

/-! ## State -/

/-- `MAXOPBLOCKS*3` -/
def NBUF : Nat := 30
def FSSIZE : Nat := 1000

/-- A buffer of `bcache.buf`; it stands for the pointer to it. -/
abbrev BufId := Fin NBUF

/-- The driver knows two disks: `idestart` uses the lowest bit of `dev`. -/
inductive Disk where
  | disk0
  | disk1
  deriving DecidableEq

/-- `dev` and `blockno` -/
structure Key where
  dev : Disk
  blockno : Nat
  deriving DecidableEq

/-- `struct buf` with contents of type `α`. The flags are `B_BUSY`, `B_VALID` and `B_DIRTY`;
`block` is `none` for the `dev` of -1 that `binit` gives to every buffer. -/
structure Buf (α : Type) where
  busy : Bool
  valid : Bool
  dirty : Bool
  block : Option Key
  data : α

inductive Panic where
  /-- `"bget: no buffers"` -/
  | noBuffers
  /-- `"bwrite"` -/
  | bwrite
  /-- `"brelse"` -/
  | brelse
  /-- `"iderw: buf not busy"` -/
  | notBusy
  /-- `"iderw: nothing to do"` -/
  | nothingToDo
  /-- `"iderw: ide disk 1 not present"` -/
  | noDisk1
  /-- `"incorrect blockno"` -/
  | blockno
  deriving DecidableEq

/-- Where a process is. A request that `bread` makes carries the block asked for. -/
inductive Pc where
  /-- outside of these functions, with the buffer `bread` has just returned -/
  | idle (ret : Option BufId)
  /-- `acquire(&bcache.lock)` of `bget`, or asleep in it -/
  | bget (k : Key)
  /-- the first loop, with the buffers still to look at -/
  | scan (k : Key) (rest : List BufId)
  /-- the second loop -/
  | recycle (k : Key) (rest : List BufId)
  /-- `release(&bcache.lock); return b` -/
  | bgot (k : Key) (b : BufId)
  /-- the test of `B_VALID` in `bread` -/
  | check (k : Key) (b : BufId)
  /-- `iderw(b)`, for `bread` or for `bwrite` -/
  | iderw (b : BufId) (for_ : Option Key)
  /-- the loop of `iderw` that waits for the request -/
  | wait (b : BufId) (for_ : Option Key)
  /-- `acquire(&bcache.lock)` of `brelse` -/
  | brelse (b : BufId)
  | relink (b : BufId)
  /-- `release(&bcache.lock)` of `brelse` -/
  | brelsed
  /-- the critical section of `log_write(b)` -/
  | record (b : BufId)
  deriving DecidableEq

/-- What a process knows about a buffer: that it does not have it, or whether it has changed the
contents since it got it or passed it to `log_write` or `bwrite`. -/
inductive Use where
  | none
  | clean
  | modified
  deriving DecidableEq

structure Cache (ι α : Type) where
  buf : BufId → Buf α
  /-- the buffers from `bcache.head.next` on -/
  mru : List BufId
  /-- the holder of `bcache.lock` -/
  lock : Option ι
  idequeue : List BufId
  disk : Key → α
  havedisk1 : Bool
  pc : ι → Pc
  use : ι → BufId → Use
  panic : Option Panic

variable {ι α : Type} [DecidableEq ι]

def Cache.setBuf (c : Cache ι α) (b : BufId) (x : Buf α) : Cache ι α :=
  { c with buf := Function.update c.buf b x }

def Cache.setPc (c : Cache ι α) (p : ι) (pc : Pc) : Cache ι α :=
  { c with pc := Function.update c.pc p pc }

def Cache.setUse (c : Cache ι α) (p : ι) (b : BufId) (u : Use) : Cache ι α :=
  { c with use := Function.update c.use p (Function.update (c.use p) b u) }

def Cache.fail (c : Cache ι α) (e : Panic) : Cache ι α := { c with panic := some e }

/-! ## ide.c -/

/-- `idestart(b)`: a block to be written is handed to the disk here. -/
def idestart (c : Cache ι α) (b : BufId) : Cache ι α :=
  match (c.buf b).block with
  | none => c
  | some k =>
    if k.blockno ≥ FSSIZE then c.fail .blockno
    else if (c.buf b).dirty then { c with disk := Function.update c.disk k (c.buf b).data }
    else c

/-- The first critical section of `iderw(b)`, up to its loop. -/
def enqueue (c : Cache ι α) (p : ι) (b : BufId) (for_ : Option Key) : Cache ι α :=
  let c := { c.setPc p (.wait b for_) with idequeue := c.idequeue ++ [b] }
  if c.idequeue.head? = some b then idestart c b else c

def iderw (c : Cache ι α) (p : ι) (b : BufId) (for_ : Option Key) : Cache ι α :=
  if ¬ (c.buf b).busy then c.fail .notBusy
  else if (c.buf b).valid ∧ ¬ (c.buf b).dirty then c.fail .nothingToDo
  else if (c.buf b).block.map Key.dev ≠ some .disk0 ∧ ¬ c.havedisk1 then c.fail .noDisk1
  else enqueue c p b for_

/-- What `insl` reads for `b`. -/
def onDisk (c : Cache ι α) (b : BufId) : α :=
  match (c.buf b).block with
  | some k => c.disk k
  | none => (c.buf b).data

/-- `b` as the interrupt handler leaves it. -/
def finished (c : Cache ι α) (b : BufId) : Buf α :=
  { c.buf b with
    data := if (c.buf b).dirty then (c.buf b).data else onDisk c b
    valid := true
    dirty := false }

def ideintr (c : Cache ι α) : Cache ι α :=
  match c.idequeue with
  | [] => c
  | b :: rest =>
    let c := { c.setBuf b (finished c b) with idequeue := rest }
    match rest with
    | [] => c
    | b' :: _ => idestart c b'

/-! ## bio.c -/

/-- The first loop of `bget`. -/
def scan (c : Cache ι α) (p : ι) (k : Key) : List BufId → Cache ι α
  | [] => c.setPc p (.recycle k c.mru.reverse)
  | b :: rest =>
    if (c.buf b).block = some k then
      -- sleep(b, &bcache.lock); goto loop
      if (c.buf b).busy then { c.setPc p (.bget k) with lock := none }
      else ((c.setBuf b { c.buf b with busy := true }).setUse p b .clean).setPc p (.bgot k b)
    else c.setPc p (.scan k rest)

/-- A buffer taken for the block `k`. -/
def recycled (c : Cache ι α) (k : Key) (b : BufId) : Buf α :=
  { busy := true, valid := false, dirty := false, block := some k, data := (c.buf b).data }

/-- The second loop of `bget`. -/
def recycle (c : Cache ι α) (p : ι) (k : Key) : List BufId → Cache ι α
  | [] => c.fail .noBuffers
  | b :: rest =>
    if (c.buf b).busy = false ∧ (c.buf b).dirty = false then
      ((c.setBuf b (recycled c k b)).setUse p b .clean).setPc p (.bgot k b)
    else c.setPc p (.recycle k rest)

/-- `acquire(&bcache.lock)` -/
def acquire (c : Cache ι α) (p : ι) (pc : Pc) : Option (Cache ι α) :=
  if c.lock = none then some { c.setPc p pc with lock := some p } else none

/-- `release(&bcache.lock)` -/
def release (c : Cache ι α) (p : ι) (pc : Pc) : Cache ι α := { c.setPc p pc with lock := none }

/-- The critical section of `brelse(b)`: `b` becomes the most recently used buffer. -/
def relink (c : Cache ι α) (p : ι) (b : BufId) : Cache ι α :=
  { ((c.setBuf b { c.buf b with busy := false }).setUse p b .none).setPc p .brelsed with
    mru := b :: c.mru.erase b }

/-- The next step of a process inside of `bread`, `bwrite` or `brelse`. -/
def advance (c : Cache ι α) (p : ι) : Option (Cache ι α) :=
  match c.pc p with
  | .bget k => acquire c p (.scan k c.mru)
  | .scan k rest => some (scan c p k rest)
  | .recycle k rest => some (recycle c p k rest)
  | .bgot k b => some (release c p (.check k b))
  | .check k b =>
    if (c.buf b).valid then some (c.setPc p (.idle (some b)))
    else some (c.setPc p (.iderw b (some k)))
  | .iderw b for_ => some (iderw c p b for_)
  | .wait b for_ =>
    if (c.buf b).valid ∧ ¬ (c.buf b).dirty then some (c.setPc p (.idle (for_.map fun _ => b)))
    else none
  | .brelse b => acquire c p (.relink b)
  | .relink b => some (relink c p b)
  | .brelsed => some (release c p (.idle none))
  | .idle _ | .record _ => none

/-! ## Calls -/

def bread (c : Cache ι α) (p : ι) (k : Key) : Cache ι α := c.setPc p (.bget k)

/-- The process stores into `b->data`. -/
def modify (c : Cache ι α) (p : ι) (b : BufId) (f : α → α) : Cache ι α :=
  ((c.setBuf b { c.buf b with data := f (c.buf b).data }).setUse p b .modified).setPc p (.idle none)

/-- `bwrite(b)` up to its call of `iderw`. -/
def bwrite (c : Cache ι α) (p : ι) (b : BufId) : Cache ι α :=
  if ¬ (c.buf b).busy then c.fail .bwrite
  else ((c.setBuf b { c.buf b with dirty := true }).setUse p b .clean).setPc p (.iderw b none)

def brelse (c : Cache ι α) (p : ι) (b : BufId) : Cache ι α :=
  if ¬ (c.buf b).busy then c.fail .brelse else c.setPc p (.brelse b)

/-- What `log_write(b)` does to the buffer. -/
def pin (c : Cache ι α) (p : ι) (b : BufId) : Cache ι α :=
  ((c.setBuf b { c.buf b with dirty := true }).setUse p b .clean).setPc p (.idle none)

/-- After `binit`, with the disks as they are. -/
def binit (zero : α) (disk : Key → α) (havedisk1 : Bool) : Cache ι α :=
  { buf := fun _ =>
      { busy := false, valid := false, dirty := false, block := none, data := zero }
    -- each buffer is put in front of those before it
    mru := (List.finRange NBUF).reverse
    lock := none
    idequeue := []
    disk := disk
    havedisk1 := havedisk1
    pc := fun _ => .idle none
    use := fun _ _ => .none
    panic := none }

/-! ## The steps, one constructor each -/

section Steps

variable {c c' : Cache ι α} {p : ι}

/-- What a step of the process `p` does. -/
inductive Steps (c : Cache ι α) (p : ι) : Cache ι α → Prop
  | bread {r : Option BufId} {k : Key} (hp : c.pc p = .idle r) : Steps c p (c.setPc p (.bget k))
  | modify {r : Option BufId} {b : BufId} (f : α → α) (hp : c.pc p = .idle r)
      (hb : c.use p b ≠ .none) : Steps c p (Bio.modify c p b f)
  | bwrite {r : Option BufId} {b : BufId} (hp : c.pc p = .idle r) (hb : c.use p b ≠ .none) :
      Steps c p
        (((c.setBuf b { c.buf b with dirty := true }).setUse p b .clean).setPc p (.iderw b none))
  | brelse {r : Option BufId} {b : BufId} (hp : c.pc p = .idle r) (hb : c.use p b = .clean) :
      Steps c p (c.setPc p (.brelse b))
  | logWrite {r : Option BufId} {b : BufId} (hp : c.pc p = .idle r) (hb : c.use p b ≠ .none) :
      Steps c p (c.setPc p (.record b))
  | panic (e : Panic) : Steps c p (c.fail e)
  | lock {k : Key} (hp : c.pc p = .bget k) (hl : c.lock = none) :
      Steps c p { c.setPc p (.scan k c.mru) with lock := some p }
  | scanned {k : Key} (hp : c.pc p = .scan k []) :
      Steps c p (c.setPc p (.recycle k c.mru.reverse))
  | next {k : Key} {b : BufId} {rest : List BufId} (hp : c.pc p = .scan k (b :: rest))
      (hb : (c.buf b).block ≠ some k) : Steps c p (c.setPc p (.scan k rest))
  | sleep {k : Key} {b : BufId} {rest : List BufId} (hp : c.pc p = .scan k (b :: rest)) :
      Steps c p (release c p (.bget k))
  | hit {k : Key} {b : BufId} {rest : List BufId} (hp : c.pc p = .scan k (b :: rest))
      (hb : (c.buf b).block = some k) (hfree : (c.buf b).busy = false) :
      Steps c p
        (((c.setBuf b { c.buf b with busy := true }).setUse p b .clean).setPc p (.bgot k b))
  | skip {k : Key} {b : BufId} {rest : List BufId} (hp : c.pc p = .recycle k (b :: rest)) :
      Steps c p (c.setPc p (.recycle k rest))
  | recycle {k : Key} {b : BufId} {rest : List BufId} (hp : c.pc p = .recycle k (b :: rest))
      (hfree : (c.buf b).busy = false) (hclean : (c.buf b).dirty = false) :
      Steps c p (((c.setBuf b (recycled c k b)).setUse p b .clean).setPc p (.bgot k b))
  | bgot {k : Key} {b : BufId} (hp : c.pc p = .bgot k b) :
      Steps c p (release c p (.check k b))
  | valid {k : Key} {b : BufId} (hp : c.pc p = .check k b) (hv : (c.buf b).valid = true) :
      Steps c p (c.setPc p (.idle (some b)))
  | read {k : Key} {b : BufId} (hp : c.pc p = .check k b) (hv : (c.buf b).valid = false) :
      Steps c p (c.setPc p (.iderw b (some k)))
  | enqueue {b : BufId} {r : Option Key} (hp : c.pc p = .iderw b r)
      (hv : (c.buf b).valid = true → (c.buf b).dirty = true) : Steps c p (Bio.enqueue c p b r)
  | done {b : BufId} {r : Option Key} (hp : c.pc p = .wait b r) (hv : (c.buf b).valid = true)
      (hd : (c.buf b).dirty = false) : Steps c p (c.setPc p (.idle (r.map fun _ => b)))
  | relock {b : BufId} (hp : c.pc p = .brelse b) (hl : c.lock = none) :
      Steps c p { c.setPc p (.relink b) with lock := some p }
  | relink {b : BufId} (hp : c.pc p = .relink b) : Steps c p (Bio.relink c p b)
  | brelsed (hp : c.pc p = .brelsed) : Steps c p (release c p (.idle none))
  | pin {b : BufId} (hp : c.pc p = .record b) : Steps c p (Bio.pin c p b)

theorem steps_scan {k : Key} {rest : List BufId} (hp : c.pc p = .scan k rest) :
    Steps c p (scan c p k rest) := by
  cases rest with
  | nil => exact .scanned hp
  | cons b rest =>
    rw [scan]
    split
    · rename_i hb
      split
      · exact .sleep hp
      · rename_i hfree
        exact .hit hp hb (by simpa using hfree)
    · rename_i hb
      exact .next hp hb

theorem steps_recycle {k : Key} {rest : List BufId} (hp : c.pc p = .recycle k rest) :
    Steps c p (recycle c p k rest) := by
  cases rest with
  | nil => exact .panic _
  | cons b rest =>
    rw [Bio.recycle]
    split
    · rename_i hb
      exact .recycle hp hb.1 hb.2
    · exact .skip hp

theorem steps_iderw {b : BufId} {r : Option Key} (hp : c.pc p = .iderw b r) :
    Steps c p (iderw c p b r) := by
  unfold iderw
  split
  · exact .panic _
  · split
    · exact .panic _
    · rename_i hv
      split
      · exact .panic _
      · exact .enqueue hp (by simpa using hv)

theorem steps_of_advance (h : advance c p = some c') : Steps c p c' := by
  unfold advance at h
  split at h
  · rename_i k hp
    obtain ⟨hl, rfl⟩ := Runs.guard_some h
    exact .lock hp hl
  · rename_i k rest hp
    obtain rfl := Option.some.inj h
    exact steps_scan hp
  · rename_i k rest hp
    obtain rfl := Option.some.inj h
    exact steps_recycle hp
  · rename_i k b hp
    obtain rfl := Option.some.inj h
    exact .bgot hp
  · rename_i k b hp
    split at h
    · rename_i hv
      obtain rfl := Option.some.inj h
      exact .valid hp hv
    · rename_i hv
      obtain rfl := Option.some.inj h
      exact .read hp (by simpa using hv)
  · rename_i b r hp
    obtain rfl := Option.some.inj h
    exact steps_iderw hp
  · rename_i b r hp
    obtain ⟨⟨hv, hd⟩, rfl⟩ := Runs.guard_some h
    exact .done hp hv (by simpa using hd)
  · rename_i b hp
    obtain ⟨hl, rfl⟩ := Runs.guard_some h
    exact .relock hp hl
  · rename_i b hp
    obtain rfl := Option.some.inj h
    exact .relink hp
  · rename_i hp
    obtain rfl := Option.some.inj h
    exact .brelsed hp
  · simp at h
  · simp at h

theorem steps_bwrite {r : Option BufId} {b : BufId} (hp : c.pc p = .idle r)
    (hb : c.use p b ≠ .none) : Steps c p (bwrite c p b) := by
  unfold bwrite
  split
  · exact .panic _
  · exact .bwrite hp hb

theorem steps_brelse {r : Option BufId} {b : BufId} (hp : c.pc p = .idle r)
    (hb : c.use p b = .clean) : Steps c p (brelse c p b) := by
  unfold brelse
  split
  · exact .panic _
  · exact .brelse hp hb

end Steps

end StrideXv6.Bio
