import Mathlib.Data.List.GetD
import StrideXv6.Fs.Layout
import StrideXv6.Sched.Table

set_option autoImplicit false

/-! # Blocks and inodes

The block allocator, the inode cache and the inode contents of `fs.c`, on the blocks as the
buffer cache shows them: `bread` gives the current contents of a block and `log_write` records
new ones. A panic is an error of the monad.

The functions are called one at a time, as they are by a process that holds the locks they
need; so `I_BUSY` is never found set and is left out. `exec` lists the calls the system calls
are made of.
-/

namespace StrideXv6.Fs

open Bytes
open Sched (NPROC)

/-! ## State -/

def NINODE : Nat := 50
def NFILE : Nat := 100
def NOFILE : Nat := 16

instance : NeZero NINODE := ⟨by decide⟩
instance : NeZero NFILE := ⟨by decide⟩
instance : NeZero NOFILE := ⟨by decide⟩

/-- An entry of the inode cache. `valid` is the flag `I_VALID`, and `d` the copy of the inode
on disk. -/
structure Inode where
  inum : Nat
  ref : Nat
  valid : Bool
  d : Dinode

inductive FileType where
  | none
  | pipe
  | inode
  deriving DecidableEq

/-- An entry of the file table; `ip` is an entry of the inode cache. -/
structure File where
  type : FileType
  ref : Nat
  readable : Bool
  writable : Bool
  ip : Fin NINODE
  off : Nat

/-- What a process has of the file system. -/
structure Proc where
  cwd : Fin NINODE
  ofile : Fin NOFILE → Option (Fin NFILE)

structure FsState where
  store : Disk
  sb : Superblock
  icache : Fin NINODE → Inode
  ftable : Fin NFILE → File
  proc : Fin NPROC → Option Proc

inductive Panic where
  | outOfBlocks
  | freeingFree
  | noInodes
  | igetNoInodes
  | noType
  | outOfRange
  | dirlookupNotDir
  | dirlinkRead
  | dirlink
  | isdirempty
  | unlinkNlink
  | unlinkWritei
  | createDots
  | createDirlink
  | fileclose
  | filewrite
  | shortFilewrite
  deriving DecidableEq

abbrev FsM := StateT FsState (Except Panic)

def bread (b : Nat) : FsM Block := do
  return (← get).store b

def logWrite (b : Nat) (data : Block) : FsM Unit :=
  modify fun s => { s with store := Function.update s.store b data }

def inode (c : Fin NINODE) : FsM Inode := do
  return (← get).icache c

def setInode (c : Fin NINODE) (ip : Inode) : FsM Unit :=
  modify fun s => { s with icache := Function.update s.icache c ip }

def setDinode (c : Fin NINODE) (d : Dinode) : FsM Unit :=
  modify fun s => { s with icache := Function.update s.icache c { s.icache c with d := d } }

/-- Return `n`, computed: a number kept in the cache is not computed again from the blocks it
was read from when a run is evaluated. -/
def eval (n : Nat) : FsM Nat := fun s =>
  match n with
  | 0 => .ok (0, s)
  | n + 1 => .ok (n + 1, s)

theorem eval_eq (n : Nat) (s : FsState) : eval n s = .ok (n, s) := by
  cases n <;> rfl

theorem mapM_eval_eq (l : List Nat) (s : FsState) : l.mapM eval s = .ok (l, s) := by
  induction l with
  | nil => rfl
  | cons n l ih =>
    rw [List.mapM_cons]
    simp only [bind, StateT.bind, eval_eq, Except.bind, ih]
    rfl

/-! ## Blocks -/

def readsb : FsM Unit :=
  modify fun s => { s with sb := decodeSb (s.store 1) }

def bzero (b : Nat) : FsM Unit := logWrite b fun _ => 0

/-- The two loops of `balloc` run over the blocks in order. -/
def balloc : FsM Nat := do
  let s ← get
  match (List.range s.sb.size).find? fun b => !bit s.sb s.store b with
  | some b =>
    logWrite (BBLOCK s.sb b) (setBit (s.store (BBLOCK s.sb b)) (b % BPB))
    bzero b
    return b
  | none => throw .outOfBlocks

def bfree (b : Nat) : FsM Unit := do
  readsb
  let s ← get
  if bit s.sb s.store b = false then throw .freeingFree
  else logWrite (BBLOCK s.sb b) (clearBit (s.store (BBLOCK s.sb b)) (b % BPB))

/-! ## Inodes -/

/-- A cached inode with this number is shared; otherwise an unused entry is recycled. -/
def iget (inum : Nat) : FsM (Fin NINODE) := do
  let inum ← eval inum
  let s ← get
  match (List.finRange NINODE).find? fun c =>
      decide (0 < (s.icache c).ref ∧ (s.icache c).inum = inum) with
  | some c =>
    setInode c { s.icache c with ref := (s.icache c).ref + 1 }
    return c
  | none =>
    match (List.finRange NINODE).find? fun c => decide ((s.icache c).ref = 0) with
    | some c =>
      setInode c { s.icache c with inum := inum, ref := 1, valid := false }
      return c
    | none => throw .igetNoInodes

def ialloc (type : Nat) : FsM (Fin NINODE) := do
  let s ← get
  match (List.range' 1 (s.sb.ninodes - 1)).find? fun i => (dinode s.sb s.store i).type == 0 with
  | some i =>
    logWrite (IBLOCK s.sb i)
      (putDinode (s.store (IBLOCK s.sb i)) (i % IPB) (Dinode.fresh (type % 2 ^ 16)))
    iget i
  | none => throw .noInodes

def iupdate (c : Fin NINODE) : FsM Unit := do
  let s ← get
  let ip := s.icache c
  logWrite (IBLOCK s.sb ip.inum)
    (putDinode (s.store (IBLOCK s.sb ip.inum)) (ip.inum % IPB) ip.d)

/-- Read an inode from disk. -/
def readInode (i : Nat) : FsM Dinode := do
  let s ← get
  let d := dinode s.sb s.store i
  let type ← eval d.type
  let major ← eval d.major
  let minor ← eval d.minor
  let nlink ← eval d.nlink
  let size ← eval d.size
  let addrs ← (List.ofFn d.addrs).mapM eval
  return { type := type, major := major, minor := minor, nlink := nlink, size := size,
           addrs := fun k => addrs.getD k 0 }

theorem readInode_eq (i : Nat) (s : FsState) :
    readInode i s = .ok (dinode s.sb s.store i, s) := by
  have haddrs : (fun k : Fin (NDIRECT + 1) => (List.ofFn (dinode s.sb s.store i).addrs).getD k 0)
      = (dinode s.sb s.store i).addrs := by
    funext k
    have hk : k.val < (List.ofFn (dinode s.sb s.store i).addrs).length := by
      rw [List.length_ofFn]
      exact k.isLt
    rw [List.getD_eq_getElem _ _ hk, List.getElem_ofFn]
  unfold readInode
  simp only [bind, StateT.bind, get, getThe, MonadStateOf.get, StateT.get, pure, Except.pure,
    Except.bind, eval_eq, mapM_eval_eq, haddrs]
  rfl

def ilock (c : Fin NINODE) : FsM Unit := do
  let s ← get
  let ip := s.icache c
  if ip.valid then return ()
  else
    let d ← readInode ip.inum
    setInode c { ip with d := d, valid := true }
    if d.type = 0 then throw .noType else return ()

/-! ## Inode content -/

def setAddr (d : Dinode) (k : Fin (NDIRECT + 1)) (a : Nat) : Dinode :=
  { d with addrs := Function.update d.addrs k a }

@[simp] theorem setAddr_addrs (d : Dinode) (k : Fin (NDIRECT + 1)) (a : Nat) :
    (setAddr d k a).addrs = Function.update d.addrs k a := rfl

/-- Load a block pointer of the inode, allocating the block if there is none. -/
def loadAddr (c : Fin NINODE) (k : Fin (NDIRECT + 1)) : FsM Nat := do
  let ip ← inode c
  if ip.d.addrs k = 0 then
    let addr ← balloc
    setDinode c (setAddr ip.d k addr)
    return addr
  else return ip.d.addrs k

def bmap (c : Fin NINODE) (bn : Nat) : FsM Nat :=
  if h : bn < NDIRECT then loadAddr c ⟨bn, Nat.lt_succ_of_lt h⟩
  else if bn - NDIRECT < NINDIRECT then do
    let ind ← loadAddr c (Fin.last NDIRECT)
    let bp ← bread ind
    let addr := getLE bp (4 * (bn - NDIRECT)) 4
    if addr = 0 then
      let addr ← balloc
      logWrite ind (setLE bp (4 * (bn - NDIRECT)) 4 addr)
      return addr
    else return addr
  else throw .outOfRange

/-- Free the direct block `k`. -/
def freeDirect (c : Fin NINODE) (k : Fin NDIRECT) : FsM Unit := do
  let ip ← inode c
  if ip.d.addrs k.castSucc = 0 then return ()
  else
    bfree (ip.d.addrs k.castSucc)
    setDinode c (setAddr ip.d k.castSucc 0)

/-- Free the block in entry `j` of the indirect block `bp`. -/
def freeEntry (bp : Block) (j : Nat) : FsM Unit :=
  if getLE bp (4 * j) 4 = 0 then return () else bfree (getLE bp (4 * j) 4)

/-- Free the indirect block with the blocks it lists. -/
def freeIndirect (c : Fin NINODE) : FsM Unit := do
  let ip ← inode c
  if ip.d.addrs (Fin.last NDIRECT) = 0 then return ()
  else
    let bp ← bread (ip.d.addrs (Fin.last NDIRECT))
    forM (List.range NINDIRECT) (freeEntry bp)
    bfree (ip.d.addrs (Fin.last NDIRECT))
    setDinode c (setAddr ip.d (Fin.last NDIRECT) 0)

def itrunc (c : Fin NINODE) : FsM Unit := do
  forM (List.finRange NDIRECT) (freeDirect c)
  freeIndirect c
  let ip ← inode c
  setDinode c { ip.d with size := 0 }
  iupdate c

/-- Drop a reference; the last one frees an inode without links. -/
def iput (c : Fin NINODE) : FsM Unit := do
  let ip ← inode c
  if ip.ref = 1 ∧ ip.valid = true ∧ ip.d.nlink = 0 then
    itrunc c
    let ip ← inode c
    setDinode c { ip.d with type := 0 }
    iupdate c
    let ip ← inode c
    setInode c { ip with valid := false, ref := ip.ref - 1 }
  else setInode c { ip with ref := ip.ref - 1 }

def NDEV : Nat := 10
def CONSOLE : Nat := 1

/-- The loop of `readi`; every turn reads at least one byte, so `fuel` turns are enough for as
many bytes. -/
def readLoop (c : Fin NINODE) : Nat → Nat → Nat → FsM (List UInt8)
  | 0, _, _ => return []
  | _ + 1, _, 0 => return []
  | fuel + 1, off, n + 1 => do
    let addr ← bmap c (off / BSIZE)
    let bp ← bread addr
    let m := min (n + 1) (BSIZE - off % BSIZE)
    let rest ← readLoop c fuel (off + m) (n + 1 - m)
    return slice bp (off % BSIZE) m ++ rest

/-- `readi` of a file or directory; reading a device does not touch the file system. -/
def readi (c : Fin NINODE) (off n : Nat) : FsM (Option (List UInt8)) := do
  let ip ← inode c
  if ip.d.type = T_DEV then return none
  else if off > ip.d.size ∨ (off + n) % 2 ^ 32 < off then return none
  else
    let n := if off + n > ip.d.size then ip.d.size - off else n
    return some (← readLoop c n off n)

/-- The loop of `writei`, and the offset it ends at. -/
def writeLoop (c : Fin NINODE) : Nat → Nat → List UInt8 → FsM Nat
  | 0, off, _ => return off
  | _ + 1, off, [] => return off
  | fuel + 1, off, a :: src => do
    let addr ← bmap c (off / BSIZE)
    let bp ← bread addr
    let m := min (src.length + 1) (BSIZE - off % BSIZE)
    logWrite addr (blit bp (off % BSIZE) ((a :: src).take m))
    writeLoop c fuel (off + m) ((a :: src).drop m)

/-- `writei`, with `none` for `-1`. The only device with a `write` is the console. -/
def writei (c : Fin NINODE) (off : Nat) (src : List UInt8) : FsM (Option Nat) := do
  let ip ← inode c
  let n := src.length
  if ip.d.type = T_DEV then
    return if ip.d.major = CONSOLE then some n else none
  else if off > ip.d.size ∨ (off + n) % 2 ^ 32 < off then return none
  else if (off + n) % 2 ^ 32 > MAXFILE * BSIZE then return none
  else
    let off' ← writeLoop c n off src
    let ip ← inode c
    if 0 < n ∧ off' > ip.d.size then
      setDinode c { ip.d with size := off' }
      iupdate c
      return some n
    else return some n

/-! ## Calls -/

/-- The calls a system call makes on blocks and inodes. `update` changes the fields `create`,
`sys_link` and `sys_unlink` change, and writes the inode back. -/
inductive Call where
  | iget (inum : Nat)
  | ialloc (type : Nat)
  | ilock (c : Fin NINODE)
  | readi (c : Fin NINODE) (off n : Nat)
  | writei (c : Fin NINODE) (off : Nat) (src : List UInt8)
  | update (c : Fin NINODE) (major minor nlink : Nat)
  | iput (c : Fin NINODE)

def update (c : Fin NINODE) (major minor nlink : Nat) : FsM Unit := do
  let ip ← inode c
  setDinode c { ip.d with
    major := major % 2 ^ 16, minor := minor % 2 ^ 16, nlink := nlink % 2 ^ 16 }
  iupdate c

def exec : Call → FsM Unit
  | .iget inum => do let _ ← iget inum
  | .ialloc type => do let _ ← ialloc type
  | .ilock c => ilock c
  | .readi c off n => do let _ ← readi c off n
  | .writei c off src => do let _ ← writei c off src
  | .update c major minor nlink => update c major minor nlink
  | .iput c => iput c

/-- A call is made with an inode number that exists or a type that does, on an entry the caller
has a reference to, and the contents of an inode are only used after `ilock`. The number of
bytes is a `uint`. -/
def Call.Enabled (s : FsState) : Call → Prop
  | .iget inum => inum < s.sb.ninodes
  | .ialloc type => type = T_DIR ∨ type = T_FILE ∨ type = T_DEV
  | .ilock c | .iput c => 0 < (s.icache c).ref
  | .readi c _ _ | .update c _ _ _ => 0 < (s.icache c).ref ∧ (s.icache c).valid = true
  | .writei c _ src =>
    0 < (s.icache c).ref ∧ (s.icache c).valid = true ∧ src.length < 2 ^ 32

instance (s : FsState) : (f : Call) → Decidable (f.Enabled s)
  | .iget _ => inferInstanceAs (Decidable (_ < _))
  | .ialloc _ => inferInstanceAs (Decidable (_ ∨ _ ∨ _))
  | .ilock _ | .iput _ => inferInstanceAs (Decidable (_ < _))
  | .readi _ _ _ | .update _ _ _ _ => inferInstanceAs (Decidable (_ ∧ _))
  | .writei _ _ _ => inferInstanceAs (Decidable (_ ∧ _ ∧ _))

def step (s : FsState) (f : Call) : Option FsState :=
  if f.Enabled s then
    match exec f s with
    | .ok (_, t) => some t
    | .error _ => none
  else none

end StrideXv6.Fs
