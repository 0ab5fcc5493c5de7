import StrideXv6.Lib.Bytes
import StrideXv6.Lib.Crash

set_option autoImplicit false

/-! # The log on disk

`write_log`, `write_head`, `install_trans`, `commit`, `read_head` and `recover_from_log` of
`log.c` as programs on a disk of blocks. The header is read from and written to the bytes of
its block: writing `n = 0` leaves the block numbers of the last transaction in place.

A clean buffer holds what the disk holds, so of the buffer cache only the dirty buffers are
kept, those pinned by `log_write`. A transaction (`Tx`) is the list of its `log_write` calls,
with the contents of the buffer at each; that they stay out of the log area and fit into the
log is part of the type.
-/

namespace StrideXv6

def BSIZE : Nat := 512
def MAXOPBLOCKS : Nat := 10
def LOGSIZE : Nat := MAXOPBLOCKS * 3

abbrev Block := Fin BSIZE → UInt8
abbrev Disk := Nat → Block

namespace Log

open Bytes Crash

/-! ## The log area -/

/-- Where the log lies on the disk: `log.start` and `log.size` from the superblock. -/
structure Layout where
  start : Nat
  size : Nat
  disksize : Nat
  pos : 0 < size
  inDisk : start + size ≤ disksize
  int : disksize ≤ 2 ^ 31

/-- A block outside the log area. -/
def Layout.Home (L : Layout) (b : Nat) : Prop :=
  b < L.disksize ∧ ¬ (L.start ≤ b ∧ b < L.start + L.size)

instance (L : Layout) (b : Nat) : Decidable (L.Home b) := inferInstanceAs (Decidable (_ ∧ _))

/-- The field `n` of the header block, an `int`. -/
def headN (buf : Block) : Int := Int.bmod (getLE buf 0 4) (2 ^ 32)

/-- The fields `n` and `block[0..n)`. -/
def decodeHead (buf : Block) : List Nat :=
  (List.range (headN buf).toNat).map fun i => getLE buf (4 + 4 * i) 4

/-- Write `n` and `block[0..n)`; what is behind stays. -/
def encodeHead (buf : Block) (lh : List Nat) : Block := setWords (setLE buf 0 4 lh.length) 4 lh

/-! ## Transactions -/

/-- What `log_write` does to `log.lh`: a block that is there already is absorbed. -/
def absorb (lh : List Nat) (b : Nat) : List Nat := if b ∈ lh then lh else lh ++ [b]

theorem mem_absorb (lh : List Nat) (b b' : Nat) : b' ∈ absorb lh b ↔ b' ∈ lh ∨ b' = b := by
  unfold absorb
  split
  · rename_i hb
    constructor
    · exact Or.inl
    · rintro (h | rfl)
      · exact h
      · exact hb
  · simp

structure Tx (L : Layout) where
  updates : List (Nat × Block)
  home : ∀ u ∈ updates, L.Home u.1
  fits : ((updates.map Prod.fst).foldl absorb []).length ≤ L.size - 1
  cap : ((updates.map Prod.fst).foldl absorb []).length ≤ LOGSIZE

variable {L : Layout}

/-- The header in memory when the transaction commits. -/
def Tx.lh (t : Tx L) : List Nat := (t.updates.map Prod.fst).foldl absorb []

/-- The buffer of a block holds new contents that are not on the disk. -/
def setDirty (cache : Nat → Option Block) (u : Nat × Block) : Nat → Option Block :=
  Function.update cache u.1 (some u.2)

/-- The dirty buffers when the transaction commits. -/
def Tx.cache (t : Tx L) : Nat → Option Block := t.updates.foldl setDirty fun _ => none

/-- The effect of the whole transaction on the home blocks. -/
def Tx.apply (t : Tx L) (d : Disk) : Disk := fun b => (t.cache b).getD (d b)

/-! ## The programs -/

abbrev Io := Prog Block

/-- `bread`, through the dirty buffers. -/
def bread (cache : Nat → Option Block) (b : Nat) : Io Block :=
  match cache b with
  | some v => pure v
  | none => Crash.bread b

/-- Copy modified blocks from cache to log. -/
def writeLog (L : Layout) (cache : Nat → Option Block) (lh : List Nat) : Io Unit :=
  forEach (fun tail b => do
    let _to ← bread cache (L.start + tail + 1)
    let data ← bread cache b
    bwrite (L.start + tail + 1) data) 0 lh

/-- Copy committed blocks from log to their home location. -/
def installTrans (L : Layout) (cache : Nat → Option Block) (lh : List Nat) : Io Unit :=
  forEach (fun tail b => do
    let lbuf ← bread cache (L.start + tail + 1)
    let _dbuf ← bread cache b
    bwrite b lbuf) 0 lh

def readHead (L : Layout) : Io (List Nat) := do
  let buf ← Crash.bread L.start
  pure (decodeHead buf)

def writeHead (L : Layout) (lh : List Nat) : Io Unit := do
  let buf ← Crash.bread L.start
  bwrite L.start (encodeHead buf lh)

/-- After a reboot there are no dirty buffers. -/
def recoverFromLog (L : Layout) : Io Unit := do
  let lh ← readHead L
  installTrans L (fun _ => none) lh
  writeHead L []

def commit (L : Layout) (cache : Nat → Option Block) (lh : List Nat) : Io Unit :=
  if 0 < lh.length then do
    writeLog L cache lh
    writeHead L lh
    installTrans L cache lh
    writeHead L []
  else pure ()

/-! ## The header block -/

/-- `write_head` stores the number of blocks it was given. -/
theorem headN_encodeHead (buf : Block) {lh : List Nat} (h : lh.length ≤ LOGSIZE) :
    headN (encodeHead buf lh) = lh.length := by
  have hcap : lh.length ≤ 30 := h
  have hget : getLE (encodeHead buf lh) 0 4 = lh.length := by
    rw [encodeHead, getLE_setWords_of_disjoint _ _ (by omega),
      getLE_setLE_self _ _ (by unfold BSIZE; omega), Nat.mod_eq_of_lt (by omega)]
  unfold headN
  rw [hget]
  exact Int.bmod_eq_of_le (by omega) (by omega)

/-- What `write_head` stores is what `read_head` reads. -/
theorem decodeHead_encodeHead (buf : Block) {lh : List Nat} (h : lh.length ≤ LOGSIZE)
    (hb : ∀ b ∈ lh, b < 2 ^ 31) : decodeHead (encodeHead buf lh) = lh := by
  have hcap : lh.length ≤ 30 := h
  rw [decodeHead, headN_encodeHead buf h]
  refine List.ext_getElem (by simp) fun j h1 h2 => ?_
  have hj := hb lh[j] (List.getElem_mem h2)
  rw [List.getElem_map, List.getElem_range, encodeHead]
  rw [getLE_setWords _ lh h2 (by unfold BSIZE; omega), Nat.mod_eq_of_lt (by omega)]

theorem decodeHead_of_clean {buf : Block} (h : headN buf = 0) : decodeHead buf = [] := by
  simp [decodeHead, h]

end Log

end StrideXv6
