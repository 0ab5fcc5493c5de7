import StrideXv6.Bio.Cache
import StrideXv6.Fs.Sysfile

set_option autoImplicit false

/-! # mkfs

`mkfs.c`, which builds the first image of the file system. The image is a file of the host: it
grows when a sector behind its end is written (`wsect`), and reading a sector behind its end ends
the program (`rsect`). Inodes and blocks are given out in order, by the counters `freeinode` and
`freeblock`; the bit map is written at the very end.

`mkfs files` is the image after `exit(0)`, or how the program ended otherwise. Errors of the host
other than reading behind the end of the image do not occur here.
-/

namespace StrideXv6.Mkfs

open Bytes Fs
open Bio (FSSIZE)

/-! ## The layout -/

def NINODES : Nat := 200

def nbitmap : Nat := FSSIZE / (BSIZE * 8) + 1
def ninodeblocks : Nat := NINODES / IPB + 1
def nlog : Nat := LOGSIZE
/-- Boot block, superblock, log, inode blocks and bit map. -/
def nmeta : Nat := 2 + nlog + ninodeblocks + nbitmap
def nblocks : Nat := FSSIZE - nmeta

/-- `sb` -/
def superblock : Superblock :=
  { size := FSSIZE
    nblocks := nblocks
    ninodes := NINODES
    nlog := nlog
    logstart := 2
    inodestart := 2 + nlog
    bmapstart := 2 + nlog + ninodeblocks }

/-- The block with the superblock at its start. -/
def encodeSb (sb : Superblock) : Block :=
  setWords (fun _ => 0) 0
    [sb.size, sb.nblocks, sb.ninodes, sb.nlog, sb.logstart, sb.inodestart, sb.bmapstart]

/-! ## The image -/

structure Image where
  blocks : Disk
  /-- the length of the file, in blocks -/
  len : Nat
  freeinode : Nat
  freeblock : Nat

/-- How the program ends when it does not come to `exit(0)`. -/
inductive Exit where
  /-- `perror("read"); exit(1)` -/
  | read
  /-- a failed assertion -/
  | assert
  deriving DecidableEq

abbrev M := StateT Image (Except Exit)

def wsect (sec : Nat) (buf : Block) : M Unit :=
  modify fun s =>
    { s with blocks := Function.update s.blocks sec buf, len := max s.len (sec + 1) }

def rsect (sec : Nat) : M Block := do
  let s ← get
  if sec < s.len then return s.blocks sec else throw .read

def winode (inum : Nat) (ip : Dinode) : M Unit := do
  let bn := IBLOCK superblock inum
  let buf ← rsect bn
  wsect bn (putDinode buf (inum % IPB) ip)

def rinode (inum : Nat) : M Dinode := do
  let buf ← rsect (IBLOCK superblock inum)
  return getDinode buf (inum % IPB)

def ialloc (type : Nat) : M Nat := do
  let inum := (← get).freeinode
  modify fun s => { s with freeinode := s.freeinode + 1 }
  winode inum
    { type := type, major := 0, minor := 0, nlink := 1, size := 0, addrs := fun _ => 0 }
  return inum

/-- The bit map with the first `used` blocks marked. -/
def usedMap (used : Nat) : Block := (List.range used).foldl setBit fun _ => 0

def balloc (used : Nat) : M Unit :=
  if used < BSIZE * 8 then wsect superblock.bmapstart (usedMap used) else throw .assert

/-! ## Appending to a file -/

/-- `freeblock++` -/
def newBlock : M Nat := do
  let b := (← get).freeblock
  modify fun s => { s with freeblock := s.freeblock + 1 }
  return b

/-- Block pointer `k` of the inode, with a new block if there is none. -/
def loadAddr (din : Dinode) (k : Fin (NDIRECT + 1)) : M (Nat × Dinode) :=
  if din.addrs k = 0 then do
    let b ← newBlock
    return (b, setAddr din k b)
  else return (din.addrs k, din)

/-- The block that holds block `fbn` of the file, and the inode with its pointers set. -/
def blockFor (din : Dinode) (fbn : Nat) : M (Nat × Dinode) :=
  if MAXFILE ≤ fbn then throw .assert
  else if h : fbn < NDIRECT then loadAddr din ⟨fbn, Nat.lt_succ_of_lt h⟩
  else do
    let (ind, din) ← loadAddr din (Fin.last NDIRECT)
    let indirect ← rsect ind
    if getLE indirect (4 * (fbn - NDIRECT)) 4 = 0 then
      let b ← newBlock
      wsect ind (setLE indirect (4 * (fbn - NDIRECT)) 4 b)
      return (b, din)
    else return (getLE indirect (4 * (fbn - NDIRECT)) 4, din)

/-- The loop of `iappend`, with the inode and the offset it ends with. Every turn writes at least
one byte, so `fuel` turns are enough for as many bytes. -/
def appendLoop : Nat → Dinode → Nat → List UInt8 → M (Dinode × Nat)
  | 0, din, off, _ => return (din, off)
  | _ + 1, din, off, [] => return (din, off)
  | fuel + 1, din, off, a :: p => do
    let fbn := off / BSIZE
    let (x, din) ← blockFor din fbn
    let n1 := min (p.length + 1) ((fbn + 1) * BSIZE - off)
    let buf ← rsect x
    wsect x (blit buf (off - fbn * BSIZE) ((a :: p).take n1))
    appendLoop fuel din (off + n1) ((a :: p).drop n1)

def iappend (inum : Nat) (p : List UInt8) : M Unit := do
  let din ← rinode inum
  let (din, off) ← appendLoop p.length din din.size p
  winode inum { din with size := off }

/-! ## The program -/

/-- A file named on the command line: what the calls of `read` return one after the other. -/
structure File where
  name : List UInt8
  reads : List (List UInt8)
  string : 0 ∉ name
  chunks : ∀ p ∈ reads, p ≠ [] ∧ p.length ≤ BSIZE

def File.bytes (f : File) : List UInt8 := f.reads.flatten

def underscore : UInt8 := 95

/-- The name without a leading `_`. -/
def File.stripped (f : File) : List UInt8 :=
  if f.name.head? = some underscore then f.name.tail else f.name

/-- The bytes of a directory entry. -/
def dirent (inum : Nat) (name : List UInt8) : List UInt8 :=
  encodeDirent { inum := inum, name := strncpy name DIRSIZ }

/-- A turn of the loop over the arguments. -/
def addFile (rootino : Nat) (f : File) : M Unit := do
  if slash ∈ f.name then throw .assert
  else
    let inum ← ialloc T_FILE
    iappend rootino (dirent inum f.stripped)
    forM f.reads (iappend inum)

/-- The size of the root directory is rounded up. -/
def fixRoot (rootino : Nat) : M Unit := do
  let din ← rinode rootino
  winode rootino { din with size := (din.size / BSIZE + 1) * BSIZE }

def main (files : List File) : M Unit := do
  forM (List.range FSSIZE) fun i => wsect i fun _ => 0
  wsect 1 (encodeSb superblock)
  let rootino ← ialloc T_DIR
  if rootino = ROOTINO then
    iappend rootino (dirent rootino dot)
    iappend rootino (dirent rootino dotdot)
    forM files (addFile rootino)
    fixRoot rootino
    balloc (← get).freeblock
  else throw .assert

/-- The counters at the start, and the empty file. -/
def start : Image := { blocks := fun _ _ => 0, len := 0, freeinode := 1, freeblock := nmeta }

def mkfs (files : List File) : Except Exit Image :=
  match main files start with
  | .ok (_, s) => .ok s
  | .error e => .error e

end StrideXv6.Mkfs
