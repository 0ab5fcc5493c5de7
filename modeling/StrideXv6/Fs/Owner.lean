import StrideXv6.Lib.Ownership
import StrideXv6.Fs.Inode

set_option autoImplicit false

/-! # Who owns a block

An inode owns the blocks its pointers name: the direct ones, the indirect block, and those
the indirect block lists. `owner` reads this off the disk and the inodes, and `BlocksOk` is the
invariant of the block layer: no block has two owners, owned blocks lie in the data area and
are marked in the bit map, and so are all blocks in front of the data area.

The lemmas here follow the writes of `fs.c`: taking a free block (`BlocksOk.alloc`), storing
its number in an inode or in an indirect block (`owner_setAddr`, `owner_setEntry`), writing
data (`owner_data`), and giving a block back (`BlocksOk.free`).
-/

namespace StrideXv6.Fs

open Bytes Ownership Function

/-! ## Pointers -/

/-- The places of an inode that hold block numbers. -/
inductive Ptr where
  | addr (k : Fin (NDIRECT + 1))
  | entry (j : Fin NINDIRECT)
  deriving DecidableEq

/-- The entry of `addrs` that points to the indirect block. -/
abbrev ind : Fin (NDIRECT + 1) := Fin.last NDIRECT

/-- The block number in a place, `0` if there is none. -/
def held (st : Disk) (d : Dinode) : Ptr → Nat
  | .addr k => d.addrs k
  | .entry j => if d.addrs ind = 0 then 0 else getLE (st (d.addrs ind)) (4 * j) 4

/-- Block number `0` is the null pointer. -/
def ptr (a : Nat) : Option Nat := if a = 0 then none else some a

theorem ptr_eq_some {a b : Nat} : ptr a = some b ↔ a = b ∧ b ≠ 0 := by
  unfold ptr
  split
  · rename_i h
    simp [h]
    omega
  · rename_i h
    constructor
    · intro h'
      obtain rfl := Option.some.inj h'
      exact ⟨rfl, h⟩
    · rintro ⟨rfl, -⟩
      rfl

/-- The block the pointer `p` of inode `i` owns; `D` gives the inodes, of which those of type
`0` are free. -/
def owner (sb : Superblock) (st : Disk) (D : Nat → Dinode) (q : Nat × Ptr) : Option Nat :=
  if q.1 < sb.ninodes ∧ (D q.1).type ≠ 0 then ptr (held st (D q.1) q.2) else none

structure BlocksOk (sb : Superblock) (st : Disk) (own : Nat × Ptr → Option Nat) : Prop where
  owned : Owned own {b | bit sb st b = true}
  data : ∀ q b, own q = some b → sb.dataStart ≤ b ∧ b < sb.size
  front : ∀ b < sb.dataStart, bit sb st b = true

variable {sb : Superblock} {st st' : Disk} {D : Nat → Dinode} {own : Nat × Ptr → Option Nat}
variable {i : Nat} {b : Nat}

theorem owner_eq_some {p : Ptr} :
    owner sb st D (i, p) = some b ↔
      i < sb.ninodes ∧ (D i).type ≠ 0 ∧ held st (D i) p = b ∧ b ≠ 0 := by
  unfold owner
  split
  · rename_i h
    simp [ptr_eq_some, h.1, h.2]
  · rename_i h
    simp only [reduceCtorEq, false_iff]
    rintro ⟨h1, h2, -⟩
    exact h ⟨h1, h2⟩

/-- The indirect block of an inode is owned by it. -/
theorem owner_ind (hi : i < sb.ninodes) (ht : (D i).type ≠ 0)
    (ha : (D i).addrs ind ≠ 0) : owner sb st D (i, .addr ind) = some ((D i).addrs ind) :=
  owner_eq_some.mpr ⟨hi, ht, rfl, ha⟩

/-- Ownership depends on the disk only through the indirect blocks. -/
theorem owner_congr {D' : Nat → Dinode} {p : Ptr} (hD : i < sb.ninodes → D' i = D i)
    (h : i < sb.ninodes → (D i).type ≠ 0 → (D i).addrs ind ≠ 0 →
      st' ((D i).addrs ind) = st ((D i).addrs ind)) :
    owner sb st' D' (i, p) = owner sb st D (i, p) := by
  by_cases hi : i < sb.ninodes ∧ (D i).type ≠ 0
  · cases p with
    | addr k => simp [owner, hD hi.1, held]
    | entry j =>
      by_cases ha : (D i).addrs ind = 0
      · simp [owner, hD hi.1, held, ha]
      · simp [owner, hD hi.1, held, ha, h hi.1 hi.2 ha]
  · by_cases hlt : i < sb.ninodes
    · simp [owner, hD hlt, not_and_not_right.mp hi hlt]
    · simp [owner, hlt]

/-- So it depends only on the contents of owned blocks. -/
theorem owner_congr_owned {D' : Nat → Dinode} (hD : ∀ i < sb.ninodes, D' i = D i)
    (h : ∀ q b, owner sb st D q = some b → st' b = st b) :
    owner sb st' D' = owner sb st D := by
  funext ⟨i, p⟩
  exact owner_congr (hD i) fun hi ht ha => h (i, .addr ind) _ (owner_ind hi ht ha)

/-! ## Taking a block -/

/-- The disk after `balloc` has taken `b`. -/
def taken (sb : Superblock) (st : Disk) (b : Nat) : Disk :=
  Function.update (mark sb st b) b fun _ => 0

theorem BlocksOk.free_block (h : BlocksOk sb st own) (hb : bit sb st b = false) :
    sb.dataStart ≤ b ∧ ∀ q, own q ≠ some b := by
  constructor
  · by_contra hlt
    have := h.front b (by omega)
    simp [this] at hb
  · exact h.owned.not_owned (by simp [hb])

theorem taken_elsewhere (hok : sb.Ok) {b x : Nat} (hb : b < sb.size) (hx : Elsewhere sb x)
    (hne : x ≠ b) : taken sb st b x = st x := by
  rw [taken, update_of_ne hne, mark_elsewhere st hok hb hx]

theorem bit_taken {b b' : Nat} (hb : sb.dataStart ≤ b) (hb' : b' < sb.size) :
    bit sb (taken sb st b) b' = (decide (b' = b) || bit sb st b') := by
  rw [taken, bit_data _ hb _ hb', bit_mark]

theorem dinode_taken (hok : sb.Ok) {b i : Nat} (hb : sb.dataStart ≤ b) (hb' : b < sb.size)
    (hi : i < sb.ninodes) : dinode sb (taken sb st b) i = dinode sb st i := by
  rw [taken, dinode_data _ hok hi hb, dinode_mark _ hok hi hb']

theorem BlocksOk.alloc (h : BlocksOk sb st own) (hok : sb.Ok) (hs : b < sb.size)
    (hb : bit sb st b = false) : BlocksOk sb (taken sb st b) own := by
  obtain ⟨hdata, -⟩ := h.free_block hb
  refine ⟨⟨h.owned.excl, fun q x hq => ?_⟩, h.data, fun x hx => ?_⟩
  · have := h.owned.marked q x hq
    rw [Set.mem_ofPred_eq] at *
    rw [bit_taken hdata (h.data q x hq).2, this, Bool.or_true]
  · have := hok.data
    rw [bit_taken hdata (by omega), h.front x hx, Bool.or_true]

/-- The block taken gets an owner. -/
theorem BlocksOk.give (h : BlocksOk sb st own) (q : Nat × Ptr)
    (hd : sb.dataStart ≤ b ∧ b < sb.size) (hbit : bit sb st b = true) (hb : ∀ q, own q ≠ some b) :
    BlocksOk sb st (Function.update own q (some b)) := by
  refine ⟨h.owned.alloc q hb hbit, fun q' x hq => ?_, h.front⟩
  rw [update_apply] at hq
  split at hq
  · obtain rfl := Option.some.inj hq
    exact hd
  · exact h.data q' x hq

/-- A write outside the bit map changes nothing for the block layer. -/
theorem BlocksOk.congr (h : BlocksOk sb st own) (hok : sb.Ok)
    (hbit : ∀ b < sb.size, bit sb st' b = bit sb st b) : BlocksOk sb st' own := by
  have hds := hok.data
  refine ⟨⟨h.owned.excl, fun q x hq => ?_⟩, h.data, fun x hx => ?_⟩
  · have := h.owned.marked q x hq
    rw [Set.mem_ofPred_eq] at *
    rw [hbit x (h.data q x hq).2, this]
  · rw [hbit x (by omega), h.front x hx]

/-! ## Giving a block back -/

theorem BlocksOk.free (h : BlocksOk sb st own) {q : Nat × Ptr} (hq : own q = some b) :
    BlocksOk sb (unmark sb st b) (Function.update own q none) := by
  have hdata := (h.data q b hq).1
  refine ⟨(h.owned.free hq).mono ?_, fun q' x hq' => ?_, fun x hx => ?_⟩
  · rintro x ⟨hx, hne⟩
    rw [Set.mem_ofPred_eq] at *
    have : x ≠ b := hne
    rw [bit_unmark, hx]
    simp [this]
  · rw [update_apply] at hq'
    split at hq'
    · simp at hq'
    · exact h.data q' x hq'
  · rw [bit_unmark, h.front x hx]
    have : x ≠ b := by omega
    simp [this]

/-! ## Storing block numbers -/

/-- Setting a pointer of `addrs` that was null. For the indirect block this needs that the
new block lists nothing yet. -/
theorem owner_setAddr (hi : i < sb.ninodes) (ht : (D i).type ≠ 0)
    {k : Fin (NDIRECT + 1)} {a : Nat} (ha : a ≠ 0) (hk : (D i).addrs k = 0)
    (hzero : k = ind → st a = fun _ => 0) :
    owner sb st (Function.update D i (setAddr (D i) k a))
      = Function.update (owner sb st D) (i, .addr k) (some a) := by
  funext ⟨i', p⟩
  by_cases hii : i' = i
  · subst hii
    have hkk : (setAddr (D i') k a).type ≠ 0 := ht
    cases p with
    | addr k' =>
      by_cases hk' : k' = k
      · subst hk'
        simp [owner, hi, ht, setAddr, held, ptr, ha]
      · simp [owner, hi, ht, setAddr, held, hk']
    | entry j =>
      by_cases hki : k = ind
      · subst hki
        have hz : getLE (st a) (4 * j) 4 = 0 := by
          rw [hzero rfl]
          simp [getLE, byteAt]
        simp [owner, hi, ht, setAddr, held, ptr, ha, hk, hz]
      · simp [owner, hi, ht, setAddr, held, Ne.symm hki]
  · simp [owner, hii]

/-- Clearing a direct pointer. -/
theorem owner_clearAddr {k : Fin (NDIRECT + 1)} (hk : k ≠ ind) :
    owner sb st (Function.update D i (setAddr (D i) k 0))
      = Function.update (owner sb st D) (i, .addr k) none := by
  funext ⟨i', p⟩
  by_cases hii : i' = i
  · subst hii
    cases p with
    | addr k' =>
      by_cases hk' : k' = k
      · subst hk'
        simp [owner, setAddr, held, ptr]
      · simp [owner, setAddr, held, hk']
    | entry j => simp [owner, setAddr, held, Ne.symm hk]
  · simp [owner, hii]

/-- Writing a block that is no indirect block. -/
theorem owner_data (h : BlocksOk sb st (owner sb st D)) {p : Ptr} {a : Nat}
    (hq : owner sb st D (i, p) = some a) (hp : p ≠ .addr ind) (v : Block) :
    owner sb (Function.update st a v) D = owner sb st D := by
  funext ⟨i', p'⟩
  apply owner_congr fun _ => rfl
  intro hi' ht' ha'
  have hne : (D i').addrs ind ≠ a := by
    rintro rfl
    have := h.owned.excl _ _ _ hq (owner_ind hi' ht' ha')
    exact hp (Prod.mk.inj this).2
  rw [update_of_ne hne]

/-- Storing a block number in an empty entry of the indirect block. -/
theorem owner_setEntry (h : BlocksOk sb st (owner sb st D)) (hi : i < sb.ninodes)
    (ht : (D i).type ≠ 0) (hx : (D i).addrs ind ≠ 0) (j : Fin NINDIRECT) {a : Nat} (ha : a ≠ 0)
    (ha' : a < 2 ^ 32) :
    owner sb (Function.update st ((D i).addrs ind) (setLE (st ((D i).addrs ind)) (4 * j) 4 a)) D
      = Function.update (owner sb st D) (i, .entry j) (some a) := by
  have hj : 4 * j.val + 4 ≤ BSIZE := by
    have : j.val < 128 := j.isLt
    rw [BSIZE_eq]
    omega
  funext ⟨i', p⟩
  unfold owner
  by_cases hii : i' = i
  · subst hii
    cases p with
    | addr k => simp [held]
    | entry j' =>
      by_cases hjj : j' = j
      · subst hjj
        simp only [hi, ht, ne_eq, not_false_eq_true, and_self, if_true, held, hx, if_false,
          update_self]
        rw [getLE_setLE_self _ _ hj, Nat.mod_eq_of_lt (by omega)]
        simp [ptr, ha]
      · have hne : j'.val ≠ j.val := fun he => hjj (Fin.ext he)
        simp only [held, hx, if_false, update_self, update_apply,
          Prod.mk.injEq, Ptr.entry.injEq, hjj, and_false]
        rw [getLE_setLE_of_disjoint _ _ (by omega)]
  · rw [update_of_ne (by simp [hii])]
    cases p with
    | addr k => simp [held]
    | entry j' =>
      by_cases hal : i' < sb.ninodes ∧ (D i').type ≠ 0 ∧ (D i').addrs ind ≠ 0
      · have hne : (D i').addrs ind ≠ (D i).addrs ind := by
          intro he
          have h1 : owner sb st D (i', .addr ind) = some ((D i).addrs ind) :=
            he ▸ owner_ind hal.1 hal.2.1 hal.2.2
          have := h.owned.excl _ _ _ h1 (owner_ind hi ht hx)
          exact hii (Prod.mk.inj this).1
        simp [held, hne]
      · simp only [held]
        split
        · rename_i h1
          have : (D i').addrs ind = 0 := by
            by_contra h0
            exact hal ⟨h1.1, h1.2, h0⟩
          simp [this]
        · rfl

/-- Clearing the pointer to the indirect block also lets go of the blocks it lists. -/
theorem owner_clearInd :
    owner sb st (Function.update D i (setAddr (D i) ind 0)) = fun q =>
      if q.1 = i ∧ (q.2 = .addr ind ∨ ∃ j, q.2 = .entry j) then none else owner sb st D q := by
  funext ⟨i', p⟩
  by_cases hii : i' = i
  · subst hii
    cases p with
    | addr k' =>
      by_cases hk' : k' = ind
      · subst hk'
        simp [owner, setAddr, held, ptr]
      · simp [owner, setAddr, held, hk']
    | entry j => simp [owner, setAddr, held, ptr]
  · simp [owner, hii]

end StrideXv6.Fs
