import StrideXv6.Fs.Paths
import StrideXv6.Mem.Copyout
import StrideXv6.Mem.Freevm

set_option autoImplicit false

/-! # exec

`exec.c` with the functions of `vm.c` and `fs.c` that it calls, on a state that has the memory, the
file system and the calling process. The call is one step of the system: while `exec` sleeps in
`readi`, nothing else happens.

A file is read through `readi`, a device through its `read` function, and the only device that has
one is the console. What `consoleread` will do is part of the state (`input`). The header `elf` is a
local variable that is not initialised; `garbage` is what it contains.

`Watch` observes two things that leave no trace in the state: which headers `exec` uses, and where
`loaduvm` stores what it reads. `exec` itself makes no such observations; it runs with `Watch.none`.
-/

namespace StrideXv6.Exec

open Bytes
open Mem (Memory Page Image Pte PGSIZE NPTENTRIES pgroundup)
open Fs (FsState NINODE T_DEV CONSOLE slash)

/-! ## State -/

/-- What a call of `consoleread` does: the characters it stores, if there is room for so many, and
whether it returns their number; it returns -1 if the process is killed while it waits. -/
structure Answer where
  bytes : List UInt8
  ok : Bool

inductive LogOp where
  | beginOp
  | endOp
  deriving DecidableEq

/-- The fields of `struct proc`, and of its trap frame, that `exec` uses. -/
structure Proc where
  pgdir : Page
  sz : Nat
  eip : Nat
  esp : Nat
  name : List UInt8
  cwd : Fin NINODE

/-- `busy` is the flag `I_BUSY`; `ops` are the calls of `begin_op` and `end_op`, the last one
first. -/
structure World where
  mem : Memory
  fs : FsState
  busy : Fin NINODE → Bool
  input : List Answer
  ops : List LogOp
  proc : Proc

inductive Fault where
  | mem (e : Mem.Panic)
  | fs (e : Fs.Panic)
  /-- `"iunlock"` -/
  | iunlock
  /-- Not a panic: `Watch` objects. -/
  | watched
  deriving DecidableEq

abbrev X := StateT World (Except Fault)

def onMem {α : Type} (x : Mem.M α) : X α := fun w =>
  ((x w.mem).mapError .mem).map fun r => (r.1, { w with mem := r.2 })

def onFs {α : Type} (x : Fs.FsM α) : X α := fun w =>
  ((x w.fs).mapError .fs).map fun r => (r.1, { w with fs := r.2 })

/-! ## Inodes -/

def beginOp : X Unit := modify fun w => { w with ops := .beginOp :: w.ops }

def endOp : X Unit := modify fun w => { w with ops := .endOp :: w.ops }

def namei (path : List UInt8) : X (Option (Fin NINODE)) := do
  let w ← get
  onFs (Fs.namei w.proc.cwd path)

def ilock (c : Fin NINODE) : X Unit := do
  modify fun w => { w with busy := Function.update w.busy c true }
  onFs (Fs.ilock c)

def iunlock (c : Fin NINODE) : X Unit := do
  let w ← get
  if w.busy c = false ∨ (w.fs.icache c).ref = 0 then throw .iunlock
  set { w with busy := Function.update w.busy c false }

def iunlockput (c : Fin NINODE) : X Unit := do
  iunlock c
  onFs (Fs.iput c)

/-- The outcome of `readi`: what it has stored, and whether it returns the number of these bytes;
otherwise it returns -1. -/
structure Read where
  bytes : List UInt8
  ok : Bool

/-- The result of `readi` in a comparison with an unsigned number. -/
def Read.ret (r : Read) : Nat := if r.ok then r.bytes.length else 2 ^ 32 - 1

/-- While `consoleread` waits the inode is unlocked. Without further input it waits until the
process is killed. -/
def consoleread (n : Nat) : X Read := fun w =>
  match w.input with
  | [] => .ok (⟨[], false⟩, w)
  | a :: as => .ok (⟨a.bytes.take n, a.ok⟩, { w with input := as })

def readi (c : Fin NINODE) (off n : Nat) : X Read := do
  let w ← get
  let ip := w.fs.icache c
  if ip.d.type = T_DEV then
    if ip.d.major = CONSOLE then consoleread n else return ⟨[], false⟩
  else
    match ← onFs (Fs.readi c off n) with
    | none => return ⟨[], false⟩
    | some l => return ⟨l, true⟩

/-! ## Headers -/

structure Watch where
  /-- A header of `n` bytes is used, and this is how it was read. -/
  header : Nat → Read → Bool
  /-- For an image of `sz` bytes with the page directory `d`, bytes are stored at the virtual page
  `v`, which is the page `p`. -/
  store : Nat → Page → Nat → Page → Memory → Bool

def Watch.none : Watch := ⟨fun _ _ => true, fun _ _ _ _ _ => true⟩

def expect (b : Bool) : X Unit := if b then return () else throw .watched

/-- `sizeof(struct elfhdr)` -/
def ELFSIZE : Nat := 52
/-- `sizeof(struct proghdr)` -/
def PHSIZE : Nat := 32
def ELF_MAGIC : Nat := 0x464C457F
def ELF_PROG_LOAD : Nat := 1
def MAXARG : Nat := 32

/-- The variable `b` after the bytes `l` have been stored in it. -/
def overlay {n : Nat} (b : Fin n → UInt8) (l : List UInt8) : Fin n → UInt8 := fun k =>
  l.getD k (b k)

/-- `struct elfhdr` -/
structure Elf where
  magic : Nat
  entry : Nat
  phoff : Nat
  phnum : Nat

def Elf.decode (b : Fin ELFSIZE → UInt8) : Elf where
  magic := getLE b 0 4
  entry := getLE b 24 4
  phoff := getLE b 28 4
  phnum := getLE b 44 2

/-- `struct proghdr` -/
structure Ph where
  type : Nat
  off : Nat
  vaddr : Nat
  filesz : Nat
  memsz : Nat

def Ph.decode (b : Fin PHSIZE → UInt8) : Ph where
  type := getLE b 0 4
  off := getLE b 4 4
  vaddr := getLE b 8 4
  filesz := getLE b 16 4
  memsz := getLE b 20 4

/-- "Check ELF header"; `none` for `goto bad`. -/
def readElf (W : Watch) (garbage : Fin ELFSIZE → UInt8) (c : Fin NINODE) : X (Option Elf) := do
  let r ← readi c 0 ELFSIZE
  if r.ret < ELFSIZE then return none
  else
    let elf := Elf.decode (overlay garbage r.bytes)
    if elf.magic ≠ ELF_MAGIC then return none
    else
      expect (W.header ELFSIZE r)
      return some elf

/-! ## Segments -/

/-- `PTE_ADDR` of an entry that may have no `PTE_P`. -/
def pteAddr (m : Memory) (t : Page) (j : Nat) : Page :=
  match m.pt t j with
  | some e => e.page
  | none => Mem.word (m.bytes t) j / PGSIZE

/-- `readi` has read `l` into the page `p`, which is the virtual page `v` of the image. -/
def store (W : Watch) (img : Image) (d : Page) (sz v : Nat) (p : Page) (l : List UInt8) : X Unit :=
  if l = [] then return ()
  else do
    let w ← get
    expect (W.store sz d v p w.mem)
    onMem (Mem.memmove img p 0 l)

/-- The loop of `loaduvm` over `n` pages from `v` on, with `rest` bytes left to read from `off`. -/
def loadLoop (W : Watch) (img : Image) (d : Page) (sz : Nat) (c : Fin NINODE) :
    Nat → Nat → Nat → Nat → X Bool
  | 0, _, _, _ => return true
  | n + 1, v, off, rest => do
    match ← onMem (Mem.walkpgdir d (v % 2 ^ 20) false) with
    | none => throw (.mem .loadAddr)
    | some (t, j) =>
      let w ← get
      let p := pteAddr w.mem t j
      let k := min rest PGSIZE
      let r ← readi c (off % 2 ^ 32) k
      store W img d sz (v % 2 ^ 20) p r.bytes
      if r.ret ≠ k then return false
      else loadLoop W img d sz c n (v + 1) (off + PGSIZE) (rest - k)

/-- `loaduvm`, with `false` for -1; `sz` is the size of the image for `W`. -/
def loaduvm (W : Watch) (img : Image) (d : Page) (sz : Nat) (c : Fin NINODE)
    (addr offset filesz : Nat) : X Bool := do
  if addr % PGSIZE ≠ 0 then throw (.mem .loadAlign)
  loadLoop W img d sz c (pgroundup filesz) (addr / PGSIZE) offset filesz

/-- What "Load program into memory" does with one header: the size of the image then, or `none` for
`goto bad`. -/
def loadSegment (W : Watch) (img : Image) (d : Page) (c : Fin NINODE) (ph : Ph) (sz : Nat) :
    X (Option Nat) :=
  if ph.type ≠ ELF_PROG_LOAD then return some sz
  else if ph.memsz < ph.filesz then return none
  else do
    let sz ← onMem (Mem.allocuvm img d sz ((ph.vaddr + ph.memsz) % 2 ^ 32))
    if sz = 0 then return none
    else if ← loaduvm W img d sz c ph.vaddr ph.off ph.filesz then return some sz
    else return none

/-- The loop over `n` headers from `off` on. -/
def loadSegments (W : Watch) (img : Image) (d : Page) (c : Fin NINODE) :
    Nat → Nat → Nat → X (Option Nat)
  | 0, _, sz => return some sz
  | n + 1, off, sz => do
    let r ← readi c (off % 2 ^ 32) PHSIZE
    if r.ret ≠ PHSIZE then return none
    else
      expect (W.header PHSIZE r)
      match ← loadSegment W img d c (Ph.decode (overlay (fun _ => 0) r.bytes)) sz with
      | none => return none
      | some sz => loadSegments W img d c n (off + PHSIZE) sz

/-! ## The stack -/

/-- `a - b` of unsigned numbers. -/
def sub32 (a b : Nat) : Nat := (a + (2 ^ 32 - b % 2 ^ 32)) % 2 ^ 32

/-- "Push argument strings": the stack pointer and `ustack[3..]`; `none` for `goto bad`. -/
def pushStrings (img : Image) (null : Mem.M (Option Pte)) (d : Page) :
    List (List UInt8) → Nat → List Nat → Mem.M (Option (Nat × List Nat))
  | [], sp, ustack => return some (sp, ustack)
  | s :: argv, sp, ustack => do
    if MAXARG ≤ ustack.length then return none
    else
      let sp := sub32 sp (s.length + 1) / 4 * 4
      if ← Mem.copyout img null d sp (s ++ [0]) then
        pushStrings img null d argv sp (ustack ++ [sp])
      else return none

/-- The bytes of a word. -/
def wordBytes (x : Nat) : List UInt8 :=
  [UInt8.ofNat x, UInt8.ofNat (x / 2 ^ 8), UInt8.ofNat (x / 2 ^ 16), UInt8.ofNat (x / 2 ^ 24)]

/-- The arguments, and the words below them; the new stack pointer, or `none` for `goto bad`. -/
def pushArgs (img : Image) (null : Mem.M (Option Pte)) (d : Page) (sz : Nat)
    (argv : List (List UInt8)) : Mem.M (Option Nat) := do
  match ← pushStrings img null d argv sz [] with
  | none => return none
  | some (sp, ptrs) =>
    let argc := ptrs.length
    let ustack := [0xFFFFFFFF, argc, sub32 sp ((argc + 1) * 4)] ++ ptrs ++ [0]
    let sp := sub32 sp ((3 + argc + 1) * 4)
    if ← Mem.copyout img null d sp (ustack.flatMap wordBytes) then return some sp
    else return none

/-! ## exec -/

/-- The label `bad`. -/
def bad (img : Image) (pgdir : Option Page) (ip : Option (Fin NINODE)) : X Int := do
  pgdir.forM fun d => onMem (Mem.freevm img d)
  ip.forM fun c => do
    iunlockput c
    endOp
  return -1

/-- The loop that looks for the last `/`. -/
def lastElem : List UInt8 → List UInt8 → List UInt8
  | last, [] => last
  | last, a :: s => lastElem (if a = slash then s else last) s

/-- `safestrcpy(s, t, n)` -/
def safestrcpy (s t : List UInt8) (n : Nat) : List UInt8 :=
  t.take (n - 1) ++ [0] ++ s.drop ((t.take (n - 1)).length + 1)

/-- "Save program name" and "Commit to the user image". -/
def commit (img : Image) (path : List UInt8) (entry : Nat) (d : Page) (sz sp : Nat) : X Int := do
  let w ← get
  let old := w.proc.pgdir
  set { w with proc := { w.proc with
    pgdir := d
    sz := sz
    eip := entry
    esp := sp
    name := safestrcpy w.proc.name (lastElem path path) 16 } }
  onMem (Mem.freevm img old)
  return 0

/-- What `exec` does with an image of `sz` bytes. -/
def install (img : Image) (path : List UInt8) (argv : List (List UInt8)) (entry : Nat) (d : Page)
    (sz : Nat) : X Int := do
  match ← onMem (Mem.makeStack img d sz) with
  | none => bad img (some d) none
  | some sz =>
    let w ← get
    match ← onMem (pushArgs img (Mem.nullPte w.proc.pgdir) d sz argv) with
    | none => bad img (some d) none
    | some sp => commit img path entry d sz sp

/-- What `exec` does with the locked inode `c`. -/
def execInode (W : Watch) (img : Image) (garbage : Fin ELFSIZE → UInt8) (path : List UInt8)
    (argv : List (List UInt8)) (c : Fin NINODE) : X Int := do
  match ← readElf W garbage c with
  | none => bad img none (some c)
  | some elf =>
    match ← onMem (Mem.setupkvm img) with
    | none => bad img none (some c)
    | some d =>
      match ← loadSegments W img d c elf.phnum elf.phoff 0 with
      | none => bad img (some d) (some c)
      | some sz =>
        iunlockput c
        endOp
        install img path argv elf.entry d sz

def exec (W : Watch) (img : Image) (garbage : Fin ELFSIZE → UInt8) (path : List UInt8)
    (argv : List (List UInt8)) : X Int := do
  beginOp
  match ← namei path with
  | none => do
    endOp
    return -1
  | some c => do
    ilock c
    execInode W img garbage path argv c

end StrideXv6.Exec
