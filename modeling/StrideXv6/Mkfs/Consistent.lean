import StrideXv6.Mkfs.Image

set_option autoImplicit false

/-! # When the image is consistent

`Consistent t` is what an image should be like when `mkfs` is done. `consistent_iff` says when it
is: the inode area must have room for all files, and the entries of the root directory must not
fill its blocks exactly, since then the rounded size goes one block too far. The first file system
that fails is one with 30 files (`thirty_files_hole`).
-/

namespace StrideXv6.Mkfs

open Bytes Fs Hoare Ownership Function
open Bio (FSSIZE)

/-- Inode `i` as the image has it. -/
def inodeOf (t : Image) (i : Nat) : Dinode := dinode superblock t.blocks i

/-- The number is one of an inode that `mkfs` has made. -/
def Used (t : Image) (i : Nat) : Prop := 0 < i ∧ i < t.freeinode

structure Consistent (t : Image) : Prop where
  /-- the inodes lie in the inode area -/
  area : ∀ i, Used t i → IBLOCK superblock i < superblock.inodestart + ninodeblocks
  /-- a file has all its blocks, and they are data blocks -/
  mapped : ∀ i, Used t i → ∀ bn, bn < ((inodeOf t i).size + BSIZE - 1) / BSIZE →
    nmeta ≤ mapped t.blocks (inodeOf t i) bn ∧ mapped t.blocks (inodeOf t i) bn < FSSIZE
  /-- no block is used twice -/
  once : ∀ i i' p p', Used t i → Used t i' → held t.blocks (inodeOf t i) p ≠ 0 →
    held t.blocks (inodeOf t i) p = held t.blocks (inodeOf t i') p' → i = i' ∧ p = p'
  /-- the bit map -/
  bitmap : ∀ b < BPB, bit superblock t.blocks b = true ↔ b < t.freeblock

variable {s t : Image} {files : List File}
variable {i : Nat}

/-! ## The last two writes -/

theorem finish_data {b : Nat} (hb : nmeta ≤ b) : (finish s).blocks b = sealed s b := by
  have hi := (iblock_range (i := ROOTINO) (by decide)).2.2
  have hbm : area.bmapstart < nmeta := by decide
  rw [sealed_data hb]
  show Function.update (Function.update s.blocks (IBLOCK area ROOTINO) _) area.bmapstart _ b = _
  rw [update_of_ne (by omega), update_of_ne (by omega)]

/-- The root directory after its size has been rounded up. -/
def rounded (s : Image) : Dinode :=
  { dinode area (sealed s) ROOTINO with
    size := ((dinode area (sealed s) ROOTINO).size / BSIZE + 1) * BSIZE }

theorem Filled.root_size (h : Filled files s) :
    (dinode area (sealed s) ROOTINO).size = DESIZE * (files.length + 2) := by
  have hnode : nodeOf (sealed s) (dinode area (sealed s) ROOTINO) = some (rootNode files) :=
    h.holds.node ROOTINO (by decide)
  have hty : (dinode area (sealed s) ROOTINO).type ≠ 0 := by
    intro h0
    rw [nodeOf, if_pos h0] at hnode
    simp at hnode
  rw [nodeOf, if_neg hty, Option.some.injEq] at hnode
  rw [← length_contents (sealed s), ← length_rootBytes]
  exact congrArg (fun nd => nd.bytes.length) hnode

theorem Filled.length_le (h : Filled files s) : files.length ≤ 206 := by
  have := h.holds.fits
  rw [length_nodes, area_ninodes] at this
  omega

theorem Filled.rounded_fits (h : Filled files s) : (rounded s).Fits := by
  have hf := dinode_fits area (sealed s) ROOTINO
  refine ⟨hf.type, hf.major, hf.minor, hf.nlink, ?_, hf.addrs⟩
  have hlen := h.length_le
  show (_ / BSIZE + 1) * BSIZE < 2 ^ 32
  rw [h.root_size, DESIZE, BSIZE_eq]
  omega

theorem Filled.inodeOf_finish (h : Filled files s) (hi : i < area.ninodes) :
    inodeOf (finish s) i = if i = ROOTINO then rounded s else dinode area (sealed s) i := by
  obtain ⟨h1, h2, -⟩ := iblock_range hi
  have hput : inodeOf (finish s) i
      = dinode area (putInode area (sealed s) ROOTINO (rounded s)) i := by
    have hblk : (finish s).blocks (IBLOCK area i) = sealed (s.putNode ROOTINO (rounded s))
        (IBLOCK area i) := by
      rw [sealed_of_ne h1 h2]
      exact update_of_ne h2 ..
    rw [← sealed_putNode (by decide)]
    exact congrArg (fun v => getDinode v (i % IPB)) hblk
  rw [hput]
  split
  · rename_i hr
    rw [hr]
    exact dinode_putInode_self _ h.rounded_fits
  · rename_i hr
    exact dinode_putInode_ne _ _ hr

theorem Filled.freeinode_eq (h : Filled files s) : (finish s).freeinode = files.length + 2 := by
  have := h.holds.inode
  rw [length_nodes] at this
  exact this

theorem Filled.used_lt (h : Filled files s) (hi : Used (finish s) i) :
    i < area.ninodes := by
  have h1 := hi.2
  have h2 := h.length_le
  rw [h.freeinode_eq] at h1
  rw [area_ninodes]
  omega

/-- The inodes that have been made are not free. -/
theorem Filled.type_ne (h : Filled files s) (hi : Used (finish s) i) :
    (dinode area (sealed s) i).type ≠ 0 := by
  intro h0
  have hnode := h.holds.node i (h.used_lt hi)
  rw [nodeOf, if_pos h0] at hnode
  obtain ⟨j, rfl⟩ : ∃ j, i = j + 1 := ⟨i - 1, by have := hi.1; omega⟩
  have hj : j < (nodes files).length := by
    have := hi.2
    rw [h.freeinode_eq] at this
    rw [length_nodes]
    omega
  rw [nodeAt, List.getElem?_eq_getElem hj] at hnode
  simp at hnode

/-- The pointers are those of the sealed image. -/
theorem Filled.held_finish (h : Filled files s) (hi : Used (finish s) i) (p : Ptr) :
    held (finish s).blocks (inodeOf (finish s) i) p
      = held (sealed s) (dinode area (sealed s) i) p := by
  have haddrs : (inodeOf (finish s) i).addrs = (dinode area (sealed s) i).addrs := by
    rw [h.inodeOf_finish (h.used_lt hi)]
    split
    · rename_i hr
      rw [hr]
      rfl
    · rfl
  have hdata : (dinode area (sealed s) i).addrs ind ≠ 0 →
      (finish s).blocks ((dinode area (sealed s) i).addrs ind)
        = sealed s ((dinode area (sealed s) i).addrs ind) := fun ha =>
    finish_data (h.holds.disk.blocks.data _ _ (owner_ind (h.used_lt hi) (h.type_ne hi) ha)).1
  cases p with
  | addr k => exact congrFun haddrs k
  | entry j =>
    rw [held, held, haddrs]
    by_cases ha : (dinode area (sealed s) i).addrs ind = 0
    · rw [if_pos ha, if_pos ha]
    · rw [if_neg ha, if_neg ha, hdata ha]

theorem Filled.mapped_finish (h : Filled files s) (hi : Used (finish s) i) (bn : Nat) :
    mapped (finish s).blocks (inodeOf (finish s) i) bn
      = mapped (sealed s) (dinode area (sealed s) i) bn := by
  unfold mapped
  cases place bn with
  | none => rw [Option.map_none, Option.map_none]
  | some p => exact h.held_finish hi p

theorem Filled.owner_held (h : Filled files s) (hi : Used (finish s) i) {p : Ptr}
    (hp : held (sealed s) (dinode area (sealed s) i) p ≠ 0) :
    owner area (sealed s) (dinode area (sealed s)) (i, p)
      = some (held (sealed s) (dinode area (sealed s) i) p) :=
  owner_eq_some.mpr ⟨h.used_lt hi, h.type_ne hi, rfl, hp⟩

/-! ## Consistency -/

theorem Filled.used_root (h : Filled files s) : Used (finish s) ROOTINO :=
  ⟨Nat.one_pos, by rw [h.freeinode_eq, ROOTINO]; omega⟩

theorem Filled.size_root (h : Filled files s) :
    (inodeOf (finish s) ROOTINO).size = (DESIZE * (files.length + 2) / BSIZE + 1) * BSIZE := by
  rw [h.inodeOf_finish (by decide), if_pos rfl, rounded, h.root_size]

theorem Filled.sized (h : Filled files s) (hi : Used (finish s) i) :
    Sized (sealed s) (dinode area (sealed s) i) :=
  h.holds.disk.sized i (h.used_lt hi) (h.type_ne hi)

/-- A block that is mapped is a data block. -/
theorem Filled.mapped_range (h : Filled files s) (hi : Used (finish s) i) {bn : Nat}
    (hm : mapped (sealed s) (dinode area (sealed s) i) bn ≠ 0) :
    nmeta ≤ mapped (sealed s) (dinode area (sealed s) i) bn ∧
      mapped (sealed s) (dinode area (sealed s) i) bn < FSSIZE := by
  obtain ⟨p, hp⟩ := place_of_mapped hm
  rw [mapped_place hp] at *
  exact h.holds.disk.blocks.data _ _ (h.owner_held hi hm)

theorem Filled.consistent (h : Filled files s) (hmod : (files.length + 2) % 32 ≠ 0) :
    Consistent (finish s) where
  area i hi := by
    have h1 := h.used_lt hi
    rw [area_ninodes] at h1
    show i / IPB + _ < _
    rw [IPB_eq, ninodeblocks_eq]
    omega
  mapped i hi bn hbn := by
    rw [h.mapped_finish hi]
    refine h.mapped_range hi (((h.sized hi).mapped bn).mpr ?_)
    by_cases hr : i = ROOTINO
    · subst hr
      rw [h.size_root] at hbn
      rw [h.root_size]
      rw [DESIZE, BSIZE_eq] at *
      omega
    · rwa [h.inodeOf_finish (h.used_lt hi), if_neg hr] at hbn
  once i i' p p' hi hi' hp he := by
    rw [h.held_finish hi] at hp he
    rw [h.held_finish hi'] at he
    have h1 := h.owner_held hi hp
    have h2 := h.owner_held hi' (he ▸ hp)
    rw [← he] at h2
    exact Prod.mk.inj (h.holds.disk.blocks.owned.excl _ _ _ h1 h2)
  bitmap b hb := by
    have hblk : BBLOCK superblock b = Mkfs.area.bmapstart := by
      rw [BBLOCK, Nat.div_eq_of_lt hb, Nat.zero_add]
      rfl
    have hmap : (finish s).blocks Mkfs.area.bmapstart = usedMap s.freeblock := by
      simp [finish, Image.write]
    have hback := h.holds.ready.back
    rw [FSSIZE_eq] at hback
    rw [bit, hblk, hmap, Nat.mod_eq_of_lt hb, getBit_usedMap (by rw [BPB_eq]; omega),
      decide_eq_true_iff]
    rfl

/-- The rounded size goes beyond the last block. -/
theorem Filled.not_consistent (h : Filled files s) (hmod : (files.length + 2) % 32 = 0) :
    ¬ Consistent (finish s) := by
  intro hc
  have hbn : (files.length + 2) / 32
      < ((inodeOf (finish s) ROOTINO).size + BSIZE - 1) / BSIZE := by
    rw [h.size_root, DESIZE, BSIZE_eq]
    omega
  have hm := (hc.mapped ROOTINO h.used_root _ hbn).1
  rw [h.mapped_finish h.used_root, nmeta_eq] at hm
  have hlt := ((h.sized h.used_root).mapped ((files.length + 2) / 32)).mp (by omega)
  rw [h.root_size, DESIZE, BSIZE_eq] at hlt
  omega

/-- In a consistent image the kernel reads without allocating. -/
theorem Consistent.readi (h : Consistent t) {k : FsState} {c : Fin NINODE}
    (hst : k.store = t.blocks) (hi : Used t (k.icache c).inum)
    (hd : (k.icache c).d = inodeOf t (k.icache c).inum) (off n : Nat) :
    ∃ r, readi c off n k = .ok (r, k) := by
  refine ⟨_, readi_eq _ _ fun bn hbn => ?_⟩
  obtain ⟨x, h1, h2, rfl⟩ := hbn
  have hlt : x / BSIZE < ((inodeOf t (k.icache c).inum).size + BSIZE - 1) / BSIZE := by
    rw [← hd]
    rw [BSIZE_eq]
    split at h2 <;> omega
  have := (h.mapped _ hi _ hlt).1
  rw [nmeta_eq] at this
  rw [hst, hd]
  omega

/-- **The images that are consistent.** An image is consistent if and only if the inode area has
room for its files and the entries of the root directory do not fill a number of blocks exactly; the
kernel then reads every file without allocating a block. -/
theorem consistent_iff (h : mkfs files = .ok t) :
    (Consistent t ↔ files.length ≤ 206 ∧ (files.length + 2) % 32 ≠ 0) ∧
      (Consistent t → ∀ (k : FsState) (c : Fin NINODE) (off n : Nat), k.store = t.blocks →
        Used t (k.icache c).inum → (k.icache c).d = inodeOf t (k.icache c).inum →
        ∃ r, readi c off n k = .ok (r, k)) := by
  refine ⟨⟨fun hc => ?_, fun hcond => ?_⟩, fun hc k c off n hst hi hd => hc.readi hst hi hd off n⟩
  · have hlen : files.length ≤ 206 := by
      by_contra hlt
      have hused : Used t (files.length + 1) := by
        have := Mkfs.freeinode_eq h
        exact ⟨by omega, by omega⟩
      have := hc.area _ hused
      have hib : IBLOCK superblock (files.length + 1)
          = (files.length + 1) / IPB + superblock.inodestart := rfl
      rw [hib, IPB_eq, ninodeblocks_eq] at this
      omega
    refine ⟨hlen, fun hmod => ?_⟩
    obtain ⟨s, hs, rfl⟩ := exists_filled h hlen
    exact hs.not_consistent hmod hc
  · obtain ⟨s, hs, rfl⟩ := exists_filled h hcond.1
    exact hs.consistent hcond.2

/-! ### Thirty files -/

/-- An empty file whose name is one letter. -/
def emptyFile (i : Fin 30) : File :=
  { name := [UInt8.ofNat (97 + i)], reads := [], string := by revert i; decide,
    chunks := by simp }

def files30 : List File := (List.finRange 30).map emptyFile

theorem emptyFile_good (i : Fin 30) : ¬ (emptyFile i).Bad := by
  revert i
  unfold File.Bad
  decide

theorem files30_ok : ∃ t, mkfs files30 = .ok t := by
  refine mkfs_ok (by decide) (by decide) fun f hf => ?_
  obtain ⟨i, -, rfl⟩ := List.mem_map.mp hf
  exact emptyFile_good i

/-- With 30 files the entries of the root directory fill a block, and its rounded size covers a
second one that does not exist. -/
theorem thirty_files_hole : ∃ t, mkfs files30 = .ok t ∧ ¬ Consistent t := by
  obtain ⟨t, ht⟩ := files30_ok
  obtain ⟨s, hs, rfl⟩ := exists_filled ht (by decide)
  exact ⟨_, ht, hs.not_consistent (by decide)⟩

/-- One file is fine. -/
theorem consistent_iff_one : ∃ t, mkfs [emptyFile 0] = .ok t ∧ Consistent t := by
  obtain ⟨t, ht⟩ : ∃ t, mkfs [emptyFile 0] = .ok t := by
    refine mkfs_ok (by decide) (by decide) fun f hf => ?_
    rw [List.mem_singleton.mp hf]
    exact emptyFile_good 0
  exact ⟨t, ht, (consistent_iff ht).1.mpr (by decide)⟩

end StrideXv6.Mkfs
