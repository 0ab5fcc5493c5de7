import StrideXv6.Lib.Run
import StrideXv6.Fs.Directory

set_option autoImplicit false

/-! # The system calls on files and directories

`create` and the calls of `sysfile.c` that change the directory tree or the references to
inodes, with the file table functions of `file.c` they use. Calls run one after the other, each
to its end; so the locks of the inodes, the log and the arguments' copying from user space do
not show. A call returns `none` or `false` for `-1`.
-/

namespace StrideXv6.Fs

open Sched (NPROC)

def O_RDONLY : Nat := 0
def O_WRONLY : Nat := 1
def O_RDWR : Nat := 2
def O_CREATE : Nat := 512

/-! ## Files -/

def setFile (f : Fin NFILE) (file : File) : FsM Unit :=
  modify fun s => { s with ftable := Function.update s.ftable f file }

def setProc (p : Fin NPROC) (pr : Proc) : FsM Unit :=
  modify fun s => { s with proc := Function.update s.proc p (some pr) }

def filealloc : FsM (Option (Fin NFILE)) := do
  let s ← get
  match (List.finRange NFILE).find? fun f => decide ((s.ftable f).ref = 0) with
  | some f =>
    setFile f { s.ftable f with ref := 1 }
    return some f
  | none => return none

/-- Closing a pipe does not concern the file system. -/
def fileclose (f : Fin NFILE) : FsM Unit := do
  let ff := (← get).ftable f
  if ff.ref < 1 then throw .fileclose
  else if ff.ref - 1 > 0 then setFile f { ff with ref := ff.ref - 1 }
  else
    setFile f { ff with ref := 0, type := .none }
    match ff.type with
    | .inode => iput ff.ip
    | .pipe | .none => return ()

/-- Allocate a file descriptor for process `p`, whose record is `pr`. -/
def fdalloc (p : Fin NPROC) (pr : Proc) (f : Fin NFILE) : FsM (Option (Fin NOFILE)) := do
  match (List.finRange NOFILE).find? fun fd => decide (pr.ofile fd = none) with
  | some fd =>
    setProc p { pr with ofile := Function.update pr.ofile fd (some f) }
    return some fd
  | none => return none

/-! ## Links -/

/-- `ip->nlink = n; iupdate(ip)` -/
def setNlink (ip : Fin NINODE) (n : Nat) : FsM Unit := do
  let d ← inode ip
  update ip d.d.major d.d.minor n

/-- `ip->nlink++; iupdate(ip)` -/
def incNlink (ip : Fin NINODE) : FsM Unit := do
  let d ← inode ip
  setNlink ip (d.d.nlink + 1)

/-- `ip->nlink--; iupdate(ip)`, for a `short`. -/
def decNlink (ip : Fin NINODE) : FsM Unit := do
  let d ← inode ip
  setNlink ip (d.d.nlink + (2 ^ 16 - 1))

/-- The end of `sys_link` when it fails. -/
def linkBad (ip : Fin NINODE) : FsM Bool := do
  ilock ip
  decNlink ip
  iunlockput ip
  return false

def sysLink (cwd : Fin NINODE) (old new : List UInt8) : FsM Bool := do
  match ← namei cwd old with
  | none => return false
  | some ip =>
    ilock ip
    let d ← inode ip
    if d.d.type = T_DIR then
      iunlockput ip
      return false
    else
      incNlink ip
      match ← nameiparent cwd new with
      | none => linkBad ip
      | some (dp, name) =>
        ilock dp
        if ← dirlink dp name d.inum then
          iunlockput dp
          iput ip
          return true
        else
          iunlockput dp
          linkBad ip

/-- The loop of `isdirempty`. -/
def emptyScan (dp : Fin NINODE) : List Nat → FsM Bool
  | [] => return true
  | off :: offs => do
    let de ← readDirent dp off .isdirempty
    if de.inum ≠ 0 then return false else emptyScan dp offs

def isdirempty (dp : Fin NINODE) : FsM Bool := do
  let d ← inode dp
  emptyScan dp (offsets 2 d.d.size)

def dot : List UInt8 := [46]
def dotdot : List UInt8 := [46, 46]

/-- The part of `sys_unlink` that removes entry `off` of `dp`, which names `ip`. -/
def unlinkEntry (dp ip : Fin NINODE) (off : Nat) : FsM Bool := do
  match ← writei dp off (List.replicate DESIZE 0) with
  | some n =>
    if n = DESIZE then
      let d ← inode ip
      if d.d.type = T_DIR then decNlink dp
      iunlockput dp
      decNlink ip
      iunlockput ip
      return true
    else throw .unlinkWritei
  | none => throw .unlinkWritei

def sysUnlink (cwd : Fin NINODE) (path : List UInt8) : FsM Bool := do
  match ← nameiparent cwd path with
  | none => return false
  | some (dp, name) =>
    ilock dp
    if namecmp name dot = 0 ∨ namecmp name dotdot = 0 then
      iunlockput dp
      return false
    else
      match ← dirlookup dp name with
      | none =>
        iunlockput dp
        return false
      | some (ip, off) =>
        ilock ip
        let d ← inode ip
        -- `nlink` is a `short`
        if d.d.nlink = 0 ∨ 2 ^ 15 ≤ d.d.nlink then throw .unlinkNlink
        else if d.d.type = T_DIR then
          if ← isdirempty ip then unlinkEntry dp ip off
          else
            iunlockput ip
            iunlockput dp
            return false
        else unlinkEntry dp ip off

/-! ## Creating -/

/-- The part of `create` that makes a new inode `ip` and enters it in `dp`. -/
def createIn (dp : Fin NINODE) (name : List UInt8) (type major minor : Nat) :
    FsM (Fin NINODE) := do
  let ip ← ialloc type
  ilock ip
  update ip major minor 1
  let i := (← inode ip).inum
  if type = T_DIR then
    incNlink dp
    let d ← inode dp
    let ok ← dirlink ip dot i
    if ok then
      let ok ← dirlink ip dotdot d.inum
      if ok then pure () else throw .createDots
    else throw .createDots
  let ok ← dirlink dp name i
  if ok then
    iunlockput dp
    return ip
  else throw .createDirlink

def create (cwd : Fin NINODE) (path : List UInt8) (type major minor : Nat) :
    FsM (Option (Fin NINODE)) := do
  match ← nameiparent cwd path with
  | none => return none
  | some (dp, name) =>
    ilock dp
    match ← dirlookup dp name with
    | some (ip, _) =>
      iunlockput dp
      ilock ip
      let d ← inode ip
      if type = T_FILE ∧ d.d.type = T_FILE then return some ip
      else
        iunlockput ip
        return none
    | none =>
      let ip ← createIn dp name type major minor
      return some ip

/-- The inode that `sys_open` opens. -/
def openInode (cwd : Fin NINODE) (path : List UInt8) (omode : Nat) :
    FsM (Option (Fin NINODE)) := do
  if omode &&& O_CREATE ≠ 0 then create cwd path T_FILE 0 0
  else
    match ← namei cwd path with
    | none => return none
    | some ip =>
      ilock ip
      let d ← inode ip
      if d.d.type = T_DIR ∧ omode ≠ O_RDONLY then
        iunlockput ip
        return none
      else return some ip

def sysOpen (p : Fin NPROC) (pr : Proc) (path : List UInt8) (omode : Nat) :
    FsM (Option (Fin NOFILE)) := do
  match ← openInode pr.cwd path omode with
  | none => return none
  | some ip =>
    match ← filealloc with
    | none =>
      iunlockput ip
      return none
    | some f =>
      match ← fdalloc p pr f with
      | none =>
        fileclose f
        iunlockput ip
        return none
      | some fd =>
        setFile f
          { type := .inode, ref := 1, readable := omode &&& O_WRONLY = 0,
            writable := omode &&& O_WRONLY ≠ 0 ∨ omode &&& O_RDWR ≠ 0, ip := ip, off := 0 }
        return some fd

/-- `sys_mkdir` and `sys_mknod` after their arguments are fetched. -/
def makeNode (cwd : Fin NINODE) (path : List UInt8) (type major minor : Nat) : FsM Bool := do
  match ← create cwd path type major minor with
  | none => return false
  | some ip =>
    iunlockput ip
    return true

def sysMkdir (cwd : Fin NINODE) (path : List UInt8) : FsM Bool := makeNode cwd path T_DIR 0 0

def sysMknod (cwd : Fin NINODE) (path : List UInt8) (major minor : Nat) : FsM Bool :=
  makeNode cwd path T_DEV major minor

def sysChdir (p : Fin NPROC) (pr : Proc) (path : List UInt8) : FsM Bool := do
  match ← namei pr.cwd path with
  | none => return false
  | some ip =>
    ilock ip
    let d ← inode ip
    if d.d.type ≠ T_DIR then
      iunlockput ip
      return false
    else
      iput pr.cwd
      setProc p { pr with cwd := ip }
      return true

def sysClose (p : Fin NPROC) (pr : Proc) (fd : Fin NOFILE) : FsM Bool := do
  match pr.ofile fd with
  | none => return false
  | some f =>
    setProc p { pr with ofile := Function.update pr.ofile fd none }
    fileclose f
    return true

/-! ## Calls -/

inductive SysCall where
  | open (path : List UInt8) (omode : Nat)
  | mkdir (path : List UInt8)
  | mknod (path : List UInt8) (major minor : Nat)
  | link (old new : List UInt8)
  | unlink (path : List UInt8)
  | chdir (path : List UInt8)
  | close (fd : Fin NOFILE)

/-- Process `p` makes a call. -/
def syscall (p : Fin NPROC) (pr : Proc) : SysCall → FsM Unit
  | .open path omode => do let _ ← sysOpen p pr path omode
  | .mkdir path => do let _ ← sysMkdir pr.cwd path
  | .mknod path major minor => do let _ ← sysMknod pr.cwd path major minor
  | .link old new => do let _ ← sysLink pr.cwd old new
  | .unlink path => do let _ ← sysUnlink pr.cwd path
  | .chdir path => do let _ ← sysChdir p pr path
  | .close fd => do let _ ← sysClose p pr fd

structure SysEvent where
  p : Fin NPROC
  call : SysCall

/-- A panic ends the run. -/
def sysStep (s : FsState) (e : SysEvent) : Option FsState :=
  match s.proc e.p with
  | none => none
  | some pr =>
    match syscall e.p pr e.call s with
    | .ok (_, t) => some t
    | .error _ => none

end StrideXv6.Fs
