import StrideXv6.Log.Commit

set_option autoImplicit false

/-! # The disk layout of the file system

The superblock, the inode blocks and the free bit map of `fs.h`, in the bytes of their
blocks. The file system code sees three things in them: the superblock, the inode with a
given number (`dinode`) and the bit of a given block (`bit`). For each write the code does,
a lemma per view says what it changes there and that the other views stay as they are; they
rest on the areas being disjoint (`Superblock.Ok`).
-/

namespace StrideXv6.Fs

open Bytes Function

/-! ## Constants and on-disk structures -/

def NDIRECT : Nat := 12
def NINDIRECT : Nat := BSIZE / 4
def MAXFILE : Nat := NDIRECT + NINDIRECT
/-- Inodes per block. -/
def IPB : Nat := BSIZE / 64
/-- Bitmap bits per block. -/
def BPB : Nat := BSIZE * 8

def T_DIR : Nat := 1
def T_FILE : Nat := 2
def T_DEV : Nat := 3

structure Superblock where
  size : Nat
  nblocks : Nat
  ninodes : Nat
  nlog : Nat
  logstart : Nat
  inodestart : Nat
  bmapstart : Nat
  deriving DecidableEq

structure Dinode where
  type : Nat
  major : Nat
  minor : Nat
  nlink : Nat
  size : Nat
  addrs : Fin (NDIRECT + 1) → Nat

/-- A zeroed inode of the given type. -/
def Dinode.fresh (type : Nat) : Dinode :=
  { type := type, major := 0, minor := 0, nlink := 0, size := 0, addrs := fun _ => 0 }

/-- The values fit the fields: `short`s and `uint`s. -/
structure Dinode.Fits (d : Dinode) : Prop where
  type : d.type < 2 ^ 16
  major : d.major < 2 ^ 16
  minor : d.minor < 2 ^ 16
  nlink : d.nlink < 2 ^ 16
  size : d.size < 2 ^ 32
  addrs : ∀ k, d.addrs k < 2 ^ 32

def decodeSb (b : Block) : Superblock :=
  { size := getLE b 0 4, nblocks := getLE b 4 4, ninodes := getLE b 8 4, nlog := getLE b 12 4,
    logstart := getLE b 16 4, inodestart := getLE b 20 4, bmapstart := getLE b 24 4 }

/-- The `k`-th inode of an inode block. -/
def getDinode (b : Block) (k : Nat) : Dinode :=
  { type := getLE b (64 * k) 2, major := getLE b (64 * k + 2) 2, minor := getLE b (64 * k + 4) 2,
    nlink := getLE b (64 * k + 6) 2, size := getLE b (64 * k + 8) 4,
    addrs := fun j => getLE b (64 * k + 12 + 4 * j) 4 }

def putDinode (b : Block) (k : Nat) (d : Dinode) : Block :=
  let b := setLE b (64 * k) 2 d.type
  let b := setLE b (64 * k + 2) 2 d.major
  let b := setLE b (64 * k + 4) 2 d.minor
  let b := setLE b (64 * k + 6) 2 d.nlink
  let b := setLE b (64 * k + 8) 4 d.size
  setWords b (64 * k + 12) (List.ofFn d.addrs)

/-- Block containing inode `i`. -/
def IBLOCK (sb : Superblock) (i : Nat) : Nat := i / IPB + sb.inodestart

/-- Block of free map containing the bit for block `b`. -/
def BBLOCK (sb : Superblock) (b : Nat) : Nat := b / BPB + sb.bmapstart

/-- The first data block: behind the bit map. -/
def Superblock.dataStart (sb : Superblock) : Nat := sb.bmapstart + sb.size / BPB + 1

/-- The areas follow one another as `mkfs` lays them out: boot block and superblock, log,
inode blocks, bit map, data. -/
structure Superblock.Ok (sb : Superblock) : Prop where
  inodes : 2 ≤ sb.inodestart
  bmap : sb.inodestart + (sb.ninodes + IPB - 1) / IPB ≤ sb.bmapstart
  data : sb.dataStart ≤ sb.size
  int : sb.size < 2 ^ 31

theorem NDIRECT_eq : NDIRECT = 12 := rfl
theorem NINDIRECT_eq : NINDIRECT = 128 := rfl
theorem MAXFILE_eq : MAXFILE = 140 := rfl
theorem IPB_eq : IPB = 8 := rfl
theorem BPB_eq : BPB = 4096 := rfl
theorem BSIZE_eq : BSIZE = 512 := rfl

/-! ## Inodes in a block -/

theorem byteAt_putDinode_outside (b : Block) (k : Nat) (d : Dinode) {i : Nat}
    (h : i < 64 * k ∨ 64 * k + 64 ≤ i) : byteAt (putDinode b k d) i = byteAt b i := by
  have hlen : (List.ofFn d.addrs).length = 13 := List.length_ofFn
  unfold putDinode
  rw [byteAt_setWords_outside _ _ (by omega), byteAt_setLE_outside _ _ (by omega),
    byteAt_setLE_outside _ _ (by omega), byteAt_setLE_outside _ _ (by omega),
    byteAt_setLE_outside _ _ (by omega), byteAt_setLE_outside _ _ (by omega)]

theorem getDinode_congr {b b' : Block} {k : Nat}
    (h : ∀ i, 64 * k ≤ i → i < 64 * k + 64 → byteAt b i = byteAt b' i) :
    getDinode b k = getDinode b' k := by
  unfold getDinode
  congr 1
  · exact getLE_congr fun i hi => h _ (by omega) (by omega)
  · exact getLE_congr fun i hi => h _ (by omega) (by omega)
  · exact getLE_congr fun i hi => h _ (by omega) (by omega)
  · exact getLE_congr fun i hi => h _ (by omega) (by omega)
  · exact getLE_congr fun i hi => h _ (by omega) (by omega)
  · funext j
    have hj : j.val < 13 := j.isLt
    exact getLE_congr fun i hi => h _ (by omega) (by omega)

theorem getDinode_putDinode_ne (b : Block) {k k' : Nat} (d : Dinode) (hk : k' ≠ k) :
    getDinode (putDinode b k d) k' = getDinode b k' :=
  getDinode_congr fun _ _ _ => byteAt_putDinode_outside b k d (by omega)

/-- An inode whose values fit is read as it was written. -/
theorem getDinode_putDinode_self (b : Block) {k : Nat} {d : Dinode} (hd : d.Fits) (hk : k < IPB) :
    getDinode (putDinode b k d) k = d := by
  have hlen : (List.ofFn d.addrs).length = 13 := List.length_ofFn
  have hbs : 64 * k + 64 ≤ BSIZE := by rw [IPB_eq] at hk; rw [BSIZE_eq]; omega
  obtain ⟨h1, h2, h3, h4, h5, h6⟩ := hd
  have haddrs : (fun j : Fin (NDIRECT + 1) => getLE (putDinode b k d) (64 * k + 12 + 4 * j) 4)
      = d.addrs := by
    funext j
    have hj : j.val < 13 := j.isLt
    unfold putDinode
    rw [getLE_setWords _ _ (by omega) (by omega), List.getElem_ofFn,
      Nat.mod_eq_of_lt (by have := h6 j; omega)]
  unfold getDinode
  rw [haddrs]
  unfold putDinode
  simp (disch := omega) only [getLE_setWords_of_disjoint, getLE_setLE_of_disjoint,
    getLE_setLE_self, Nat.mod_eq_of_lt]

/-! ## The views of the disk -/

/-- The bit of block `b` in the free map: whether it is in use. -/
def bit (sb : Superblock) (st : Disk) (b : Nat) : Bool := getBit (st (BBLOCK sb b)) (b % BPB)

def dinode (sb : Superblock) (st : Disk) (i : Nat) : Dinode :=
  getDinode (st (IBLOCK sb i)) (i % IPB)

/-- The disk with one bit of the free map set, or cleared. -/
def mark (sb : Superblock) (st : Disk) (b : Nat) : Disk :=
  Function.update st (BBLOCK sb b) (setBit (st (BBLOCK sb b)) (b % BPB))

def unmark (sb : Superblock) (st : Disk) (b : Nat) : Disk :=
  Function.update st (BBLOCK sb b) (clearBit (st (BBLOCK sb b)) (b % BPB))

/-- The disk with inode `i` written. -/
def putInode (sb : Superblock) (st : Disk) (i : Nat) (d : Dinode) : Disk :=
  Function.update st (IBLOCK sb i) (putDinode (st (IBLOCK sb i)) (i % IPB) d)

section Views

variable {sb : Superblock} (st : Disk) {b b' i i' : Nat}

theorem Superblock.Ok.iblock (h : sb.Ok) (hi : i < sb.ninodes) :
    1 < IBLOCK sb i ∧ IBLOCK sb i < sb.bmapstart := by
  have h1 := h.inodes
  have h2 := h.bmap
  unfold IBLOCK
  rw [IPB_eq] at *
  omega

theorem Superblock.bblock (sb : Superblock) (hb : b < sb.size) :
    sb.bmapstart ≤ BBLOCK sb b ∧ BBLOCK sb b < sb.dataStart := by
  unfold BBLOCK Superblock.dataStart
  rw [BPB_eq]
  omega

theorem Superblock.Ok.bmap_lt (h : sb.Ok) : 1 < sb.bmapstart ∧ sb.bmapstart < sb.dataStart := by
  have h1 := h.inodes
  have h2 := h.bmap
  unfold Superblock.dataStart
  rw [IPB_eq] at h2
  rw [BPB_eq]
  omega

/-- Two blocks with the same map block and the same position in it are one. -/
theorem eq_of_bblock (h : BBLOCK sb b' = BBLOCK sb b) (hm : b' % BPB = b % BPB) : b' = b := by
  unfold BBLOCK at h
  rw [BPB_eq] at *
  omega

theorem bit_mark : bit sb (mark sb st b) b' = (decide (b' = b) || bit sb st b') := by
  have hlt : b % BPB < 8 * BSIZE := by rw [BPB_eq, BSIZE_eq]; omega
  unfold bit mark
  by_cases hblk : BBLOCK sb b' = BBLOCK sb b
  · have : decide (b' % BPB = b % BPB) = decide (b' = b) := by
      rw [decide_eq_decide]
      exact ⟨eq_of_bblock hblk, fun h => by rw [h]⟩
    rw [hblk, update_self, getBit_setBit _ _ hlt, this]
  · have hne : b' ≠ b := by rintro rfl; exact hblk rfl
    rw [update_of_ne hblk]
    simp [hne]

theorem bit_unmark : bit sb (unmark sb st b) b' = (!decide (b' = b) && bit sb st b') := by
  have hlt : b % BPB < 8 * BSIZE := by rw [BPB_eq, BSIZE_eq]; omega
  unfold bit unmark
  by_cases hblk : BBLOCK sb b' = BBLOCK sb b
  · have : decide (b' % BPB = b % BPB) = decide (b' = b) := by
      rw [decide_eq_decide]
      exact ⟨eq_of_bblock hblk, fun h => by rw [h]⟩
    rw [hblk, update_self, getBit_clearBit _ _ hlt, this]
  · have hne : b' ≠ b := by rintro rfl; exact hblk rfl
    rw [update_of_ne hblk]
    simp [hne]

theorem dinode_putInode_ne (d : Dinode) (hi : i' ≠ i) :
    dinode sb (putInode sb st i d) i' = dinode sb st i' := by
  unfold dinode putInode
  by_cases hblk : IBLOCK sb i' = IBLOCK sb i
  · rw [hblk, update_self, getDinode_putDinode_ne]
    unfold IBLOCK at hblk
    rw [IPB_eq] at *
    omega
  · rw [update_of_ne hblk]

theorem dinode_putInode_self {d : Dinode} (hd : d.Fits) :
    dinode sb (putInode sb st i d) i = d := by
  unfold dinode putInode
  rw [update_self]
  exact getDinode_putDinode_self _ hd (Nat.mod_lt _ (by decide))

/-! The areas do not overlap: a write in one leaves the views of the others alone. -/

theorem dinode_mark (h : sb.Ok) (hi : i < sb.ninodes) (hb : b < sb.size) :
    dinode sb (mark sb st b) i = dinode sb st i := by
  have h1 := h.iblock hi
  have h2 := sb.bblock hb
  rw [dinode, mark, update_of_ne (by omega), dinode]

theorem dinode_unmark (h : sb.Ok) (hi : i < sb.ninodes) (hb : b < sb.size) :
    dinode sb (unmark sb st b) i = dinode sb st i := by
  have h1 := h.iblock hi
  have h2 := sb.bblock hb
  rw [dinode, unmark, update_of_ne (by omega), dinode]

theorem bit_putInode (h : sb.Ok) (hi : i < sb.ninodes) (d : Dinode) (hb : b < sb.size) :
    bit sb (putInode sb st i d) b = bit sb st b := by
  have h1 := h.iblock hi
  have h2 := sb.bblock hb
  rw [bit, putInode, update_of_ne (by omega), bit]

theorem dinode_data (h : sb.Ok) (hi : i < sb.ninodes) (hb : sb.dataStart ≤ b) (v : Block) :
    dinode sb (Function.update st b v) i = dinode sb st i := by
  have h1 := h.iblock hi
  have h2 := h.bmap_lt
  rw [dinode, update_of_ne (by omega), dinode]

theorem bit_data (hb : sb.dataStart ≤ b) (v : Block) (hb' : b' < sb.size) :
    bit sb (Function.update st b v) b' = bit sb st b' := by
  have h2 := sb.bblock hb'
  rw [bit, update_of_ne (by omega), bit]

/-- What the code reads besides inodes and bits: the superblock and the data blocks. -/
def Elsewhere (sb : Superblock) (b : Nat) : Prop := b = 1 ∨ sb.dataStart ≤ b

theorem mark_elsewhere (h : sb.Ok) (hb : b < sb.size) (hb' : Elsewhere sb b') :
    mark sb st b b' = st b' := by
  have h1 := sb.bblock hb
  have h2 := h.bmap_lt
  rw [mark, update_of_ne (by rcases hb' with rfl | hb' <;> omega)]

theorem unmark_elsewhere (h : sb.Ok) (hb : b < sb.size) (hb' : Elsewhere sb b') :
    unmark sb st b b' = st b' := by
  have h1 := sb.bblock hb
  have h2 := h.bmap_lt
  rw [unmark, update_of_ne (by rcases hb' with rfl | hb' <;> omega)]

theorem putInode_elsewhere (h : sb.Ok) (hi : i < sb.ninodes) (d : Dinode)
    (hb' : Elsewhere sb b') : putInode sb st i d b' = st b' := by
  have h1 := h.iblock hi
  have h2 := h.bmap_lt
  rw [putInode, update_of_ne (by rcases hb' with rfl | hb' <;> omega)]

end Views

end StrideXv6.Fs
