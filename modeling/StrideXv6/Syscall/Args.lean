import StrideXv6.Lib.Hoare
import StrideXv6.Fs.Inode

set_option autoImplicit false

/-! # System call arguments

`fetchint`, `fetchstr`, `argint`, `argptr` and `argstr` of `syscall.c`, and the calls that use
the pointers they return: `sys_read`, `sys_write`, `sys_fstat` and `sys_pipe`, down to the
functions that copy to or from user memory. Words are 32 bits, `uint` and `int` alike; a
conversion between the two changes nothing but the way they are compared.

The state is the caller's memory with every user address touched so far (`touched`, which is
not in the source). What a pipe or the console delivers, and how much a pipe takes, is given
(`Env`).
-/

namespace StrideXv6.Syscall

open Fs (NOFILE T_DEV FileType MAXFILE NDEV CONSOLE)

abbrev Word := BitVec 32

def KERNBASE : Nat := 2 ^ 31

structure UserState where
  mem : Word → UInt8
  touched : List Word

inductive Panic where
  | fileread
  | filewrite
  | shortFilewrite
  deriving DecidableEq

abbrev UserM := StateT UserState (Except Panic)

def load (a : Word) : UserM UInt8 := fun s =>
  .ok (s.mem a, { s with touched := a :: s.touched })

def store (a : Word) (b : UInt8) : UserM Unit := fun s =>
  .ok ((), { mem := Function.update s.mem a b, touched := a :: s.touched })

/-- An inode as `readi`, `writei` and `stati` see it; `bytes` is what the file holds. The size
of a file has a limit. -/
structure Inode where
  dev : Word
  inum : Word
  type : Nat
  major : Nat
  nlink : Nat
  size : Word
  fits : size.toNat ≤ MAXFILE * BSIZE
  bytes : Nat → UInt8

structure File where
  type : FileType
  readable : Bool
  writable : Bool
  ip : Inode
  off : Word

/-- A process is smaller than the user part of the address space. -/
structure Proc where
  sz : Word
  below : sz.toNat < KERNBASE
  esp : Word
  ofile : Fin NOFILE → Option File

/-- What the other end of a pipe, or the console, lets through during a call. -/
structure Env where
  delivered : List UInt8
  accepted : Nat

variable (pr : Proc)

/-! ## Fetching arguments -/

/-- The word at `a`, as the machine loads it. -/
def loadWord (a : Word) : UserM Word := do
  let b0 ← load a
  let b1 ← load (a + 1)
  let b2 ← load (a + 2)
  let b3 ← load (a + 3)
  return BitVec.ofNat 32 (b0.toNat + 2 ^ 8 * b1.toNat + 2 ^ 16 * b2.toNat + 2 ^ 24 * b3.toNat)

def fetchint (addr : Word) : UserM (Option Word) :=
  if pr.sz ≤ addr ∨ pr.sz < addr + 4 then return none
  else do
    let w ← loadWord addr
    return some w

/-- The loop of `fetchstr` from `s` on, with `fuel` bytes to the end of the process. -/
def strLoop (s : Word) : Nat → UserM (Option Word)
  | 0 => return none
  | fuel + 1 => do
    let b ← load s
    if b = 0 then return some s else strLoop (s + 1) fuel

/-- The string at `addr` and its length. -/
def fetchstr (addr : Word) : UserM (Option (Word × Nat)) :=
  if pr.sz ≤ addr then return none
  else do
    match ← strLoop addr (pr.sz.toNat - addr.toNat) with
    | some s => return some (addr, s.toNat - addr.toNat)
    | none => return none

def argint (n : Nat) : UserM (Option Word) := fetchint pr (pr.esp + 4 + 4 * BitVec.ofNat 32 n)

def argptr (n : Nat) (size : Word) : UserM (Option Word) := do
  match ← argint pr n with
  | none => return none
  | some i => if pr.sz ≤ i ∨ pr.sz < i + size then return none else return some i

def argstr (n : Nat) : UserM (Option (Word × Nat)) := do
  match ← argint pr n with
  | none => return none
  | some addr => fetchstr pr addr

def argfd (n : Nat) : UserM (Option File) := do
  match ← argint pr n with
  | none => return none
  | some fd =>
    -- `fd < 0` as an `int` is `fd >= 2^31` as a `uint`
    if h : fd.toNat < NOFILE then return pr.ofile ⟨fd.toNat, h⟩ else return none

/-! ## Copying -/

/-- Store bytes from `dst` on. -/
def copyOut (dst : Word) : List UInt8 → UserM Unit
  | [] => return ()
  | b :: l => do
    store dst b
    copyOut (dst + 1) l

/-- Load `n` bytes from `src` on. -/
def copyIn (src : Word) : Nat → UserM Unit
  | 0 => return ()
  | n + 1 => do
    let _ ← load src
    copyIn (src + 1) n

/-- The number of turns of a loop `for(i = 0; i < n; i++)` over an `int`. -/
def turns (n : Word) : Nat := n.toInt.toNat

/-- `piperead`, and `consoleread` too: they copy until there is no more, or `n` bytes. -/
def receive (env : Env) (dst n : Word) : UserM Int := do
  let l := env.delivered.take (turns n)
  copyOut dst l
  return l.length

/-- `pipewrite`: it may give up before the end. -/
def pipewrite (env : Env) (src n : Word) : UserM Int := do
  copyIn src (min (turns n) env.accepted)
  if turns n ≤ env.accepted then return n.toInt else return -1

def consolewrite (src n : Word) : UserM Int := do
  copyIn src (turns n)
  return n.toInt

/-- The loop of `readi` and `writei`: `n` bytes from `off` on, a piece of a block at a time.
Every turn copies at least one byte, so `fuel` turns are enough for as many bytes. -/
def pieces (copy : Word → Nat → Nat → UserM Unit) (a : Word) : Nat → Nat → Nat → UserM Unit
  | 0, _, _ => return ()
  | _ + 1, _, 0 => return ()
  | fuel + 1, off, n + 1 => do
    let m := min (n + 1) (BSIZE - off % BSIZE)
    copy a off m
    pieces copy (a + BitVec.ofNat 32 m) fuel (off + m) (n + 1 - m)

/-- `memmove(dst, bp->data + off%BSIZE, m)` of `readi` -/
def readPiece (ip : Inode) (dst : Word) (off m : Nat) : UserM Unit :=
  copyOut dst ((List.range m).map fun k => ip.bytes (off + k))

/-- `memmove(bp->data + off%BSIZE, src, m)` of `writei` -/
def writePiece (src : Word) (_off m : Nat) : UserM Unit := copyIn src m

def readi (env : Env) (ip : Inode) (dst off n : Word) : UserM Int := do
  if ip.type = T_DEV then
    if ip.major = CONSOLE then receive env dst n else return -1
  else if ip.size < off ∨ off + n < off then return -1
  else
    let n := if ip.size < off + n then ip.size - off else n
    pieces (readPiece ip) dst n.toNat off.toNat n.toNat
    return n.toInt

/-- `writei` of a file whose size is `size` now; `none` for `-1`. -/
def writei (ip : Inode) (size src off n : Word) : UserM (Option Word) := do
  if ip.type = T_DEV then
    if ip.major = CONSOLE then
      let _ ← consolewrite src n
      return some n
    else return none
  else if size < off ∨ off + n < off then return none
  else if BitVec.ofNat 32 (MAXFILE * BSIZE) < off + n then return none
  else
    pieces writePiece src n.toNat off.toNat n.toNat
    return some n

/-! ## Files -/

def fileread (env : Env) (f : File) (addr n : Word) : UserM Int :=
  if f.readable = false then return -1
  else
    match f.type with
    | .pipe => receive env addr n
    | .inode => readi env f.ip addr f.off n
    | .none => throw .fileread

/-- `((LOGSIZE-1-1-2) / 2) * 512` -/
def maxWrite : Nat := (LOGSIZE - 1 - 1 - 2) / 2 * 512

/-- The loop of `filewrite`: `i` bytes are written, and `left` remain. -/
def filewriteLoop (f : File) (addr : Word) : Nat → Nat → Nat → Word → Word → UserM Bool
  | 0, _, left, _, _ => return left = 0
  | _ + 1, _, 0, _, _ => return true
  | fuel + 1, i, left + 1, off, size => do
    let n1 := min (left + 1) maxWrite
    match ← writei f.ip size (addr + BitVec.ofNat 32 i) off (BitVec.ofNat 32 n1) with
    | none => return false
    | some r =>
      if r ≠ BitVec.ofNat 32 n1 then throw .shortFilewrite
      else
        let off := off + r
        filewriteLoop f addr fuel (i + n1) (left + 1 - n1) off
          (if size < off then off else size)

def filewrite (env : Env) (f : File) (addr n : Word) : UserM Int :=
  if f.writable = false then return -1
  else
    match f.type with
    | .pipe => pipewrite env addr n
    | .inode => do
      let ok ← filewriteLoop f addr (turns n) 0 (turns n) f.off f.ip.size
      -- a negative `n` is not reached by `i`
      if ok ∧ 0 ≤ n.toInt then return n.toInt else return -1
    | .none => throw .filewrite

/-- `n` bytes of a word, from `a` on. -/
def storeWord (a : Word) (n : Nat) (w : Word) : UserM Unit :=
  copyOut a ((List.range n).map fun k => UInt8.ofNat (w.toNat / 2 ^ (8 * k)))

/-- The fields of `struct stat` in the order `stati` fills them. -/
def stati (ip : Inode) (st : Word) : UserM Unit := do
  storeWord (st + 4) 4 ip.dev
  storeWord (st + 8) 4 ip.inum
  storeWord st 2 (BitVec.ofNat 32 ip.type)
  storeWord (st + 12) 2 (BitVec.ofNat 32 ip.nlink)
  storeWord (st + 16) 4 ip.size

def filestat (f : File) (st : Word) : UserM Int :=
  match f.type with
  | .inode => do
    stati f.ip st
    return 0
  | _ => return -1

/-! ## System calls -/

def sysRead (env : Env) : UserM Int := do
  match ← argfd pr 0 with
  | none => return -1
  | some f =>
    match ← argint pr 2 with
    | none => return -1
    | some n =>
      match ← argptr pr 1 n with
      | none => return -1
      | some p => fileread env f p n

def sysWrite (env : Env) : UserM Int := do
  match ← argfd pr 0 with
  | none => return -1
  | some f =>
    match ← argint pr 2 with
    | none => return -1
    | some n =>
      match ← argptr pr 1 n with
      | none => return -1
      | some p => filewrite env f p n

/-- `sizeof(struct stat)` -/
def STATSIZE : Nat := 20

def sysFstat : UserM Int := do
  match ← argfd pr 0 with
  | none => return -1
  | some f =>
    match ← argptr pr 1 (BitVec.ofNat 32 STATSIZE) with
    | none => return -1
    | some st => filestat f st

/-- `fds` are the descriptors `pipealloc` and `fdalloc` come up with, if they do. -/
def sysPipe (fds : Option (Word × Word)) : UserM Int := do
  match ← argptr pr 0 8 with
  | none => return -1
  | some fd =>
    match fds with
    | none => return -1
    | some (fd0, fd1) =>
      storeWord fd 4 fd0
      storeWord (fd + 4) 4 fd1
      return 0

end StrideXv6.Syscall
