import Mathlib.Tactic

set_option autoImplicit false

/-! # Ring buffers with wrapping counters

A ring of `N` cells between a read and a write counter. The counters are machine words of `w`
bits: they only count up and wrap past `2 ^ w`, and a counter stands for its cell modulo `N`.
If `N` divides `2 ^ w` a counter that wraps keeps its cell, so the ring is a queue for ever:
`contents_push`, `contents_pop` and `contents_back`, with `isFull_iff` and `isEmpty_iff` for the tests that
compare the counters.
-/

structure RingBuffer (w : Nat) (α : Type*) where
  data : Nat → α
  nread : BitVec w
  nwrite : BitVec w

namespace RingBuffer

variable {w N : Nat} {α : Type*} (r : RingBuffer w α)

/-- The number of elements in the ring, by the difference of the counters. -/
def pending : Nat := (r.nwrite - r.nread).toNat

/-- The cell a counter stands for. -/
def cell (N : Nat) (x : BitVec w) : Nat := x.toNat % N

/-- The elements in the ring, the oldest first. -/
def contents (N : Nat) : List α :=
  (List.range r.pending).map fun k => r.data (cell N (r.nread + BitVec.ofNat w k))

/-- Store an element in the cell of the write counter. -/
def push (N : Nat) (a : α) : RingBuffer w α :=
  { r with data := Function.update r.data (cell N r.nwrite) a, nwrite := r.nwrite + 1 }

/-- The element in the cell of the read counter. -/
def front (N : Nat) : α := r.data (cell N r.nread)

def pop : RingBuffer w α := { r with nread := r.nread + 1 }

/-- Take back the element that was stored last. -/
def back : RingBuffer w α := { r with nwrite := r.nwrite - 1 }

theorem nwrite_eq : r.nwrite = r.nread + BitVec.ofNat w r.pending := by
  rw [pending, BitVec.ofNat_toNat, BitVec.setWidth_eq, BitVec.add_comm, BitVec.sub_add_cancel]

theorem pending_eq_iff {n : Nat} (hn : n < 2 ^ w) :
    r.pending = n ↔ r.nwrite = r.nread + BitVec.ofNat w n := by
  constructor
  · intro h
    rw [← h]
    exact r.nwrite_eq
  · intro h
    rw [pending, h, BitVec.add_comm, BitVec.add_sub_cancel, BitVec.toNat_ofNat,
      Nat.mod_eq_of_lt hn]

theorem length_contents (N : Nat) : (r.contents N).length = r.pending := by
  simp [contents]

/-- The contents only depend on the cells of the ring. -/
theorem contents_congr (hN : 0 < N) {r' : RingBuffer w α} (hr : r'.nread = r.nread)
    (hw : r'.nwrite = r.nwrite) (h : ∀ k < N, r'.data k = r.data k) :
    r'.contents N = r.contents N := by
  rw [contents, contents, pending, pending, hr, hw]
  exact List.map_congr_left fun k _ => h _ (Nat.mod_lt _ hN)

theorem isEmpty_iff : r.nread = r.nwrite ↔ r.pending = 0 := by
  rw [r.pending_eq_iff (Nat.two_pow_pos w), BitVec.add_zero, eq_comm]

theorem isFull_iff (hN : N < 2 ^ w) :
    r.nwrite = r.nread + BitVec.ofNat w N ↔ r.pending = N := (r.pending_eq_iff hN).symm

theorem pending_back (h : 0 < r.pending) : r.back.pending + 1 = r.pending := by
  have hlt : r.pending < 2 ^ w := (r.nwrite - r.nread).isLt
  have hpred : r.back.pending = r.pending - 1 := by
    refine (pending_eq_iff _ (by omega)).mpr ?_
    have hw := r.nwrite_eq
    rw [show r.pending = r.pending - 1 + 1 by omega, BitVec.ofNat_add, ← BitVec.add_assoc] at hw
    rw [back, hw]
    exact BitVec.add_sub_cancel ..
  omega

theorem contents_back (h : 0 < r.pending) :
    r.contents N = r.back.contents N ++ [r.data (cell N (r.nwrite - 1))] := by
  have hlast : r.nread + BitVec.ofNat w r.back.pending = r.nwrite - 1 := r.back.nwrite_eq.symm
  rw [contents, ← r.pending_back h, List.range_succ, List.map_append, List.map_singleton, hlast]
  rfl

section Queue

variable (hdvd : N ∣ 2 ^ w) (hN : N < 2 ^ w)

include hdvd in
/-- Wrapping does not change the cell. -/
theorem cell_add (x : BitVec w) (k : Nat) :
    cell N (x + BitVec.ofNat w k) = (x.toNat + k) % N := by
  rw [cell, BitVec.toNat_add, BitVec.toNat_ofNat, Nat.add_mod_mod, Nat.mod_mod_of_dvd _ hdvd]

include hN in
theorem pending_push {a : α} (h : r.pending < N) : (r.push N a).pending = r.pending + 1 := by
  refine (pending_eq_iff _ (by omega)).mpr ?_
  rw [BitVec.ofNat_add, ← BitVec.add_assoc]
  exact congrArg (· + 1) r.nwrite_eq

theorem pending_pop (h : 0 < r.pending) : r.pop.pending + 1 = r.pending := by
  have hlt : r.pending < 2 ^ w := (r.nwrite - r.nread).isLt
  have hpred : r.pop.pending = r.pending - 1 := by
    refine (pending_eq_iff _ (by omega)).mpr ?_
    have hw := r.nwrite_eq
    rw [show r.pending = 1 + (r.pending - 1) by omega, BitVec.ofNat_add, ← BitVec.add_assoc] at hw
    exact hw
  omega

include hdvd hN in
theorem contents_push (a : α) (h : r.pending < N) :
    (r.push N a).contents N = r.contents N ++ [a] := by
  have hcell : ∀ k < r.pending,
      cell N (r.nread + BitVec.ofNat w k) ≠ cell N r.nwrite := by
    intro k hk
    rw [r.nwrite_eq, cell_add hdvd, cell_add hdvd]
    intro he
    -- two cells of one round are never the same
    have hd : N ∣ r.pending - k := by
      have := (Nat.modEq_iff_dvd' (by omega)).mp he
      rwa [Nat.add_sub_add_left] at this
    exact absurd (Nat.le_of_dvd (by omega) hd) (by omega)
  rw [contents, r.pending_push hN h, List.range_succ, List.map_append, List.map_singleton]
  congr 1
  · refine List.map_congr_left fun k hk => ?_
    exact Function.update_of_ne (hcell k (List.mem_range.mp hk)) ..
  · have : cell N ((r.push N a).nread + BitVec.ofNat w r.pending) = cell N r.nwrite := by
      rw [show (r.push N a).nread = r.nread from rfl, ← r.nwrite_eq]
    rw [this]
    exact congrArg (fun x => [x]) (Function.update_self ..)

theorem contents_pop (h : 0 < r.pending) : r.contents N = r.front N :: r.pop.contents N := by
  have hcell : ∀ k, cell N (r.nread + BitVec.ofNat w (k + 1))
      = cell N (r.pop.nread + BitVec.ofNat w k) := by
    intro k
    rw [pop, BitVec.add_assoc, Nat.add_comm, BitVec.ofNat_add]
    rfl
  have hfront : cell N (r.nread + BitVec.ofNat w 0) = cell N r.nread := by simp
  rw [contents, ← r.pending_pop h, List.range_succ_eq_map, List.map_cons, hfront, List.map_map]
  congr 1
  exact List.map_congr_left fun k _ => congrArg r.data (hcell k)

end Queue

end RingBuffer
