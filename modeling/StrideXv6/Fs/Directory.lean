import StrideXv6.Fs.Inode

set_option autoImplicit false

/-! # Directories and paths

The directory and path name functions of `fs.c`. A directory is a file of entries of 16 bytes,
an inode number and a name of up to 14 bytes (`Dirent`). A C string is the list of its bytes in
front of the terminating zero.
-/

namespace StrideXv6.Fs

open Sched (NPROC)

def DIRSIZ : Nat := 14
def ROOTINO : Nat := 1

/-- `sizeof(struct dirent)` -/
def DESIZE : Nat := 16

/-! ## Strings -/

/-- The loop of `strncmp` and the difference it returns. -/
def strncmp : List UInt8 → List UInt8 → Nat → Int
  | _, _, 0 => 0
  | p, q, n + 1 =>
    if p.headD 0 ≠ 0 ∧ p.headD 0 = q.headD 0 then strncmp p.tail q.tail n
    else (p.headD 0).toNat - (q.headD 0).toNat

/-- The `n` bytes that `strncpy` writes. -/
def strncpy : List UInt8 → Nat → List UInt8
  | _, 0 => []
  | [], n + 1 => 0 :: strncpy [] n
  | a :: t, n + 1 => if a = 0 then 0 :: strncpy [] n else a :: strncpy t n

def namecmp (s t : List UInt8) : Int := strncmp s t DIRSIZ

/-! ## Entries -/

structure Dirent where
  inum : Nat
  name : List UInt8
  deriving DecidableEq

def decodeDirent (l : List UInt8) : Dirent :=
  { inum := (l.getD 0 0).toNat + 256 * (l.getD 1 0).toNat, name := l.drop 2 }

def encodeDirent (de : Dirent) : List UInt8 :=
  UInt8.ofNat de.inum :: UInt8.ofNat (de.inum / 256) :: de.name

/-- The offsets a loop over the entries goes through, from entry `k` on. -/
def offsets (k size : Nat) : List Nat :=
  (List.range' k ((size + DESIZE - 1) / DESIZE - k)).map (DESIZE * ·)

/-- Read the entry at `off`, or panic with `e`. -/
def readDirent (dp : Fin NINODE) (off : Nat) (e : Panic) : FsM Dirent := do
  match ← readi dp off DESIZE with
  | some l => if l.length = DESIZE then return decodeDirent l else throw e
  | none => throw e

/-- The loop of `dirlookup`; the result is the inode and the offset of the entry. -/
def lookupLoop (dp : Fin NINODE) (name : List UInt8) : List Nat → FsM (Option (Fin NINODE × Nat))
  | [] => return none
  | off :: offs => do
    let de ← readDirent dp off .dirlinkRead
    if de.inum = 0 then lookupLoop dp name offs
    else if namecmp name de.name = 0 then
      let ip ← iget de.inum
      return some (ip, off)
    else lookupLoop dp name offs

def dirlookup (dp : Fin NINODE) (name : List UInt8) : FsM (Option (Fin NINODE × Nat)) := do
  let d ← inode dp
  if d.d.type ≠ T_DIR then throw .dirlookupNotDir
  else lookupLoop dp name (offsets 0 d.d.size)

/-- The loop of `dirlink` that looks for an empty entry; `last` is where it ends without one. -/
def emptyLoop (dp : Fin NINODE) (last : Nat) : List Nat → FsM Nat
  | [] => return last
  | off :: offs => do
    let de ← readDirent dp off .dirlinkRead
    if de.inum = 0 then return off else emptyLoop dp last offs

/-- `dirlink`, with `false` for `-1`. -/
def dirlink (dp : Fin NINODE) (name : List UInt8) (inum : Nat) : FsM Bool := do
  match ← dirlookup dp name with
  | some (ip, _) =>
    iput ip
    return false
  | none =>
    let d ← inode dp
    let off ← emptyLoop dp ((d.d.size + DESIZE - 1) / DESIZE * DESIZE) (offsets 0 d.d.size)
    let de := { inum := inum % 2 ^ 16, name := strncpy name DIRSIZ }
    match ← writei dp off (encodeDirent de) with
    | some n => if n = DESIZE then return true else throw .dirlink
    | none => throw .dirlink

/-! ## Paths -/

def slash : UInt8 := 47

/-- The rest of the path and its first element, or `none` if there is none. -/
def skipelem (path : List UInt8) : Option (List UInt8 × List UInt8) :=
  let path := path.dropWhile (· = slash)
  if path = [] then none
  else
    let s := path.takeWhile (· ≠ slash)
    let path := path.dropWhile (· ≠ slash)
    some (path.dropWhile (· = slash), s.take DIRSIZ)

def idup (ip : Fin NINODE) : FsM (Fin NINODE) := do
  let d ← inode ip
  setInode ip { d with ref := d.ref + 1 }
  return ip

/-- `iunlock` only clears `I_BUSY`. -/
def iunlockput (ip : Fin NINODE) : FsM Unit := iput ip

/-- The loop of `namex`. Every turn takes at least one byte of the path, so it ends before
`fuel` does if that starts above the length of the path. -/
def namexLoop (nameiparent : Bool) :
    Nat → Fin NINODE → List UInt8 → List UInt8 → FsM (Option (Fin NINODE × List UInt8))
  | 0, _, _, _ => return none
  | fuel + 1, ip, path, name =>
    match skipelem path with
    | none =>
      if nameiparent then do
        iput ip
        return none
      else return some (ip, name)
    | some (rest, name) => do
      ilock ip
      let d ← inode ip
      if d.d.type ≠ T_DIR then
        iunlockput ip
        return none
      else if nameiparent ∧ rest = [] then return some (ip, name)
      else
        match ← dirlookup ip name with
        | none =>
          iunlockput ip
          return none
        | some (next, _) =>
          iunlockput ip
          namexLoop nameiparent fuel next rest name

/-- `cwd` is the current directory of the process. -/
def namex (cwd : Fin NINODE) (path : List UInt8) (nameiparent : Bool) :
    FsM (Option (Fin NINODE × List UInt8)) := do
  let ip ← if path.head? = some slash then iget ROOTINO else idup cwd
  namexLoop nameiparent (path.length + 1) ip path []

def namei (cwd : Fin NINODE) (path : List UInt8) : FsM (Option (Fin NINODE)) := do
  match ← namex cwd path false with
  | some (ip, _) => return some ip
  | none => return none

def nameiparent (cwd : Fin NINODE) (path : List UInt8) :
    FsM (Option (Fin NINODE × List UInt8)) := namex cwd path true

/-- A turn of the loop takes at least one byte. -/
theorem skipelem_length {path rest name : List UInt8} (h : skipelem path = some (rest, name)) :
    rest.length < path.length := by
  simp only [skipelem] at h
  split at h
  · simp at h
  · rename_i hne
    obtain ⟨a, l, hal⟩ := List.exists_cons_of_ne_nil hne
    simp only [Option.some.injEq, Prod.mk.injEq] at h
    have ha : a ≠ slash := by
      have := List.head?_dropWhile_not (fun x => decide (x = slash)) path
      rw [hal] at this
      simpa using this
    have h1 : (path.dropWhile (· = slash)).length ≤ path.length :=
      (List.dropWhile_suffix _).length_le
    have h2 : ((a :: l).dropWhile (· ≠ slash)).length ≤ l.length := by
      simp only [ne_eq, ha, not_false_eq_true, decide_true, List.dropWhile_cons_of_pos]
      exact (List.dropWhile_suffix _).length_le
    have h3 : (((a :: l).dropWhile (· ≠ slash)).dropWhile (· = slash)).length
        ≤ ((a :: l).dropWhile (· ≠ slash)).length := (List.dropWhile_suffix _).length_le
    rw [hal] at h h1
    rw [← h.1]
    simp only [List.length_cons] at *
    omega

end StrideXv6.Fs
