import Mathlib.Data.BitVec
import Mathlib.Tactic.Ring

set_option autoImplicit false

/-! # memmove

The kernel has `memmove` in `string.c`, which copies downwards where the ranges overlap with the
destination above the source. The one for user programs in `ulib.c` copies upwards always, and its
`n` is an `int`.

Copying upwards has a closed form for all ranges (`copyUp_apply`): what is copied repeats with the
distance of the two ranges. So the kernel's version is right for all ranges in the address space,
and the other one is right if and only if the source repeats itself so, where the ranges overlap
(`memmove_moves_iff`).
-/

namespace StrideXv6.Strings

open Function

abbrev Addr := BitVec 32

abbrev Store := Addr → UInt8

/-- `while(n-- > 0) *d++ = *s++;` -/
def copyUp : Nat → Addr → Addr → Store → Store
  | 0, _, _, mem => mem
  | n + 1, d, s, mem => copyUp n (d + 1) (s + 1) (Function.update mem d (mem s))

/-- `while(n-- > 0) *--d = *--s;` -/
def copyDown : Nat → Addr → Addr → Store → Store
  | 0, _, _, mem => mem
  | n + 1, d, s, mem => copyDown n (d - 1) (s - 1) (Function.update mem (d - 1) (mem (s - 1)))

/-- `memmove` of the kernel. -/
def Kernel.memmove (dst src : Addr) (n : BitVec 32) (mem : Store) : Store :=
  if src < dst ∧ src + n > dst then copyDown n.toNat (dst + n) (src + n) mem
  else copyUp n.toNat dst src mem

/-- `memmove` of the user library, with `int n`. -/
def Ulib.memmove (dst src : Addr) (n : BitVec 32) (mem : Store) : Store :=
  copyUp n.toInt.toNat dst src mem

/-- The `n` bytes at `src` have been moved to `dst`, and nothing else has changed. -/
structure Moved (dst src : Addr) (n : BitVec 32) (mem mem' : Store) : Prop where
  bytes : ∀ i < n.toNat, mem' (dst + BitVec.ofNat 32 i) = mem (src + BitVec.ofNat 32 i)
  frame : ∀ a, (∀ i < n.toNat, a ≠ dst + BitVec.ofNat 32 i) → mem' a = mem a

variable {dst src d s a : Addr} {n : BitVec 32} {mem mem' : Store}

/-! ## The loops -/

/-- One step further in a repetition with period `p`. -/
theorem succ_mod_cases (j p : Nat) :
    j % p + 1 = p ∧ (j + 1) % p = 0 ∨ j % p + 1 ≠ p ∧ (j + 1) % p = j % p + 1 := by
  rw [← Nat.mod_add_mod j p 1]
  by_cases h : j % p + 1 = p
  · left
    exact ⟨h, by rw [h, Nat.mod_self]⟩
  · right
    refine ⟨h, ?_⟩
    rcases Nat.eq_zero_or_pos p with rfl | hp
    · exact Nat.mod_zero _
    · have := Nat.mod_lt j hp
      exact Nat.mod_eq_of_lt (by omega)

/-- **Copying upwards**: the bytes at `s` up to `d` are repeated. -/
theorem copyUp_apply (n : Nat) (hn : n ≤ 2 ^ 32) (d s a : Addr) (mem : Store) :
    copyUp n d s mem a = if (a - d).toNat < n then
      mem (s + BitVec.ofNat 32 ((a - d).toNat % (d - s).toNat)) else mem a := by
  induction n generalizing d s mem with
  | zero => rw [copyUp, if_neg (Nat.not_lt_zero _)]
  | succ n ih =>
    have hdist : d + 1 - (s + 1) = d - s := add_sub_add_right_eq_sub d s 1
    rw [copyUp, ih (by omega), hdist]
    by_cases ha : a = d
    · -- the first byte is not written again
      subst ha
      have hlast : ¬ (a - (a + 1)).toNat < n := by bv_omega
      have hfirst : (a - a).toNat = 0 := by bv_omega
      rw [if_neg hlast, hfirst, if_pos (Nat.succ_pos n), Nat.zero_mod, update_self]
      exact congrArg mem (add_zero s).symm
    · have hindex : (a - d).toNat = (a - (d + 1)).toNat + 1 := by bv_omega
      rw [hindex, update_of_ne ha]
      have hlt : (a - (d + 1)).toNat < 2 ^ 32 := BitVec.isLt _
      generalize (a - (d + 1)).toNat = j at hlt
      by_cases hj : j < n
      · rw [if_pos hj, if_pos (Nat.succ_lt_succ hj)]
        have hmod : j % (d - s).toNat ≤ j := Nat.mod_le ..
        have hstep : s + 1 + BitVec.ofNat 32 (j % (d - s).toNat)
            = s + BitVec.ofNat 32 (j % (d - s).toNat + 1) := by
          rw [BitVec.ofNat_add, add_assoc, add_comm 1]
          rfl
        rw [hstep]
        rcases succ_mod_cases j (d - s).toNat with ⟨hend, h0⟩ | ⟨hend, hnext⟩
        · -- the byte that is read is the first one that was written
          have hd : s + BitVec.ofNat 32 (d - s).toNat = d := by
            rw [BitVec.ofNat_toNat, BitVec.setWidth_eq]
            exact add_sub_cancel s d
          rw [hend, hd, update_self, h0]
          exact congrArg mem (add_zero s).symm
        · have hne : s + BitVec.ofNat 32 (j % (d - s).toNat + 1) ≠ d := by
            intro h
            apply hend
            have hdiff : BitVec.ofNat 32 (j % (d - s).toNat + 1) = d - s :=
              eq_sub_of_add_eq' h
            have hval := congrArg BitVec.toNat hdiff
            rw [BitVec.toNat_ofNat, Nat.mod_eq_of_lt (by omega)] at hval
            exact hval
          rw [update_of_ne hne, hnext]
      · rw [if_neg hj, if_neg fun h => hj (Nat.lt_of_succ_lt_succ h)]

/-- Copying downwards is copying upwards in the mirror. -/
theorem copyDown_apply (n : Nat) (d s a : Addr) (mem : Store) :
    copyDown n d s mem a = copyUp n (1 - d) (1 - s) (fun x => mem (-x)) (-a) := by
  induction n generalizing d s mem with
  | zero => rw [copyDown, copyUp, neg_neg]
  | succ n ih =>
    rw [copyDown, copyUp, ih]
    have hd : 1 - (d - 1) = 1 - d + 1 := by ring
    have hs : 1 - (s - 1) = 1 - s + 1 := by ring
    have hmem : (fun x => Function.update mem (d - 1) (mem (s - 1)) (-x))
        = Function.update (fun x => mem (-x)) (1 - d) (mem (-(1 - s))) := by
      funext x
      by_cases hx : x = 1 - d
      · rw [hx, update_self, neg_sub, neg_sub, update_self]
      · have hne : -x ≠ d - 1 := fun h => hx (by rw [← neg_neg x, h, neg_sub])
        rw [update_of_ne hx, update_of_ne hne]
    rw [hd, hs, hmem]

/-! ## The functions -/

theorem offset_toNat (a : Addr) {i : Nat} (hi : i < 2 ^ 32) :
    (a + BitVec.ofNat 32 i - a).toNat = i := by
  rw [add_sub_cancel_left, BitVec.toNat_ofNat, Nat.mod_eq_of_lt hi]

theorem offset_eq (d a : Addr) : d + BitVec.ofNat 32 (a - d).toNat = a := by
  rw [BitVec.ofNat_toNat, BitVec.setWidth_eq]
  exact add_sub_cancel d a

/-- What there is after a move, by address. -/
theorem moved_iff : Moved dst src n mem mem' ↔ ∀ a, mem' a = if (a - dst).toNat < n.toNat then
    mem (src + BitVec.ofNat 32 (a - dst).toNat) else mem a := by
  constructor
  · intro h a
    by_cases ha : (a - dst).toNat < n.toNat
    · rw [if_pos ha]
      have := h.bytes _ ha
      rwa [offset_eq] at this
    · rw [if_neg ha]
      refine h.frame a fun i hi heq => ha ?_
      rwa [heq, offset_toNat dst (hi.trans n.isLt)]
  · refine fun h => ⟨fun i hi => ?_, fun a ha => ?_⟩
    · have hoff := offset_toNat dst (hi.trans n.isLt)
      rw [h, hoff, if_pos hi]
    · rw [h, if_neg fun hlt => ha _ hlt (offset_eq dst a).symm]

theorem Moved.unique {mem'' : Store} (h : Moved dst src n mem mem')
    (h' : Moved dst src n mem mem'') : mem' = mem'' :=
  funext fun a => (moved_iff.mp h a).trans (moved_iff.mp h' a).symm

/-- Copying upwards is a move unless the destination begins inside the source. -/
theorem copyUp_moved (hdst : dst.toNat + n.toNat ≤ 2 ^ 32) (hsrc : src.toNat + n.toNat ≤ 2 ^ 32)
    (h : ¬ (src.toNat < dst.toNat ∧ dst.toNat < src.toNat + n.toNat)) :
    Moved dst src n mem (copyUp n.toNat dst src mem) := by
  rw [moved_iff]
  intro a
  rw [copyUp_apply _ n.isLt.le]
  by_cases ha : (a - dst).toNat < n.toNat
  · have hmod : (a - dst).toNat % (dst - src).toNat = (a - dst).toNat := by
      by_cases heq : dst = src
      · rw [heq, sub_self]
        exact Nat.mod_zero _
      · have hne : dst.toNat ≠ src.toNat := fun h => heq (BitVec.eq_of_toNat_eq h)
        refine Nat.mod_eq_of_lt (lt_of_lt_of_le ha ?_)
        rw [BitVec.toNat_sub]
        omega
    rw [hmod]
  · rw [if_neg ha, if_neg ha]

theorem mirror_lt (n b : BitVec 32) : (n - 1 - b).toNat < n.toNat ↔ b.toNat < n.toNat := by
  bv_omega

/-- **The kernel's memmove** moves. -/
theorem kernel_memmove_moved (hdst : dst.toNat + n.toNat ≤ 2 ^ 32)
    (hsrc : src.toNat + n.toNat ≤ 2 ^ 32) : Moved dst src n mem (Kernel.memmove dst src n mem) := by
  unfold Kernel.memmove
  by_cases h : src < dst ∧ src + n > dst
  · rw [if_pos h, moved_iff]
    intro a
    have hlt : src.toNat < dst.toNat := h.1
    have hdist : 1 - (dst + n) - (1 - (src + n)) = src - dst := by ring
    have hfar : n.toNat ≤ (src - dst).toNat := by
      rw [BitVec.toNat_sub]
      omega
    have hmirror : -a - (1 - (dst + n)) = n - 1 - (a - dst) := by ring
    have hrange := mirror_lt n (a - dst)
    rw [copyDown_apply, copyUp_apply _ n.isLt.le, hdist, hmirror]
    by_cases ha : (a - dst).toNat < n.toNat
    · have hx := hrange.mpr ha
      have haddr : -(1 - (src + n) + (n - 1 - (a - dst))) = src + (a - dst) := by ring
      rw [if_pos ha, if_pos hx, Nat.mod_eq_of_lt (hx.trans_le hfar), BitVec.ofNat_toNat,
        BitVec.setWidth_eq, haddr, BitVec.ofNat_toNat, BitVec.setWidth_eq]
    · rw [if_neg ha, if_neg fun hx => ha (hrange.mp hx), neg_neg]
  · rw [if_neg h]
    refine copyUp_moved hdst hsrc fun ⟨h1, h2⟩ => h ⟨h1, ?_⟩
    show dst.toNat < (src + n).toNat
    rw [BitVec.toNat_add, Nat.mod_eq_of_lt (by omega)]
    exact h2

/-- What the user's `memmove` needs: where the destination begins inside the source, the source
repeats with the distance of the two; and where `n` is negative as an `int`, the bytes are there
already. -/
structure Repeats (dst src : Addr) (n : BitVec 32) (mem : Store) : Prop where
  overlap : n.toNat < 2 ^ 31 → src.toNat < dst.toNat → dst.toNat < src.toNat + n.toNat →
    ∀ i < n.toNat, mem (src + BitVec.ofNat 32 (i % (dst.toNat - src.toNat)))
      = mem (src + BitVec.ofNat 32 i)
  negative : 2 ^ 31 ≤ n.toNat →
    ∀ i < n.toNat, mem (dst + BitVec.ofNat 32 i) = mem (src + BitVec.ofNat 32 i)

theorem ulib_memmove_moved_iff (hdst : dst.toNat + n.toNat ≤ 2 ^ 32)
    (hsrc : src.toNat + n.toNat ≤ 2 ^ 32) :
    Moved dst src n mem (Ulib.memmove dst src n mem) ↔ Repeats dst src n mem := by
  unfold Ulib.memmove
  by_cases hn : n.toNat < 2 ^ 31
  · have hint : n.toInt.toNat = n.toNat := by
      rw [BitVec.toInt_eq_toNat_of_lt (by omega), Int.toNat_natCast]
    rw [hint]
    by_cases hover : src.toNat < dst.toNat ∧ dst.toNat < src.toNat + n.toNat
    · have hdist : (dst - src).toNat = dst.toNat - src.toNat := by
        rw [BitVec.toNat_sub]
        omega
      have hup : ∀ i < n.toNat, copyUp n.toNat dst src mem (dst + BitVec.ofNat 32 i)
          = mem (src + BitVec.ofNat 32 (i % (dst.toNat - src.toNat))) := by
        intro i hi
        rw [copyUp_apply _ n.isLt.le, offset_toNat dst (hi.trans n.isLt), if_pos hi, hdist]
      constructor
      · refine fun h => ⟨fun _ _ _ i hi => ?_, fun hneg => absurd hn (Nat.not_lt.mpr hneg)⟩
        exact (hup i hi).symm.trans (h.bytes i hi)
      · intro h
        refine ⟨fun i hi => (hup i hi).trans (h.overlap hn hover.1 hover.2 i hi), fun a ha => ?_⟩
        rw [copyUp_apply _ n.isLt.le, if_neg fun hlt => ha _ hlt (offset_eq dst a).symm]
    · refine iff_of_true (copyUp_moved hdst hsrc hover) ⟨fun _ h1 h2 => ?_, fun hneg => ?_⟩
      · exact absurd ⟨h1, h2⟩ hover
      · exact absurd hn (Nat.not_lt.mpr hneg)
  · -- `n` is negative, and nothing is copied
    have hint : n.toInt.toNat = 0 := by
      rw [BitVec.toInt_eq_toNat_cond, if_neg (by omega)]
      have := n.isLt
      omega
    rw [hint, copyUp]
    constructor
    · exact fun h => ⟨fun hlt => absurd hlt hn, fun _ => h.bytes⟩
    · exact fun h => ⟨h.negative (Nat.le_of_not_lt hn), fun _ _ => rfl⟩

/-- A range that does not begin inside the source, of less than 2 GB, is moved. -/
theorem repeats_of_apart (hn : n.toNat < 2 ^ 31)
    (h : dst.toNat ≤ src.toNat ∨ src.toNat + n.toNat ≤ dst.toNat) : Repeats dst src n mem :=
  ⟨fun _ h1 h2 => by omega, fun hneg => by omega⟩

/-- **Both versions of memmove**, for ranges in the address space: the kernel's is right, and the
user's is right, and does the same, if and only if the source repeats itself. -/
theorem memmove_moves_iff (hdst : dst.toNat + n.toNat ≤ 2 ^ 32)
    (hsrc : src.toNat + n.toNat ≤ 2 ^ 32) :
    Moved dst src n mem (Kernel.memmove dst src n mem) ∧
      (Moved dst src n mem (Ulib.memmove dst src n mem) ↔ Repeats dst src n mem) ∧
      (Ulib.memmove dst src n mem = Kernel.memmove dst src n mem ↔ Repeats dst src n mem) := by
  have hkernel : Moved dst src n mem (Kernel.memmove dst src n mem) :=
    kernel_memmove_moved hdst hsrc
  have hulib : Moved dst src n mem (Ulib.memmove dst src n mem) ↔ Repeats dst src n mem :=
    ulib_memmove_moved_iff hdst hsrc
  refine ⟨hkernel, hulib, fun h => ?_, fun h => ?_⟩
  · exact hulib.mp (h ▸ hkernel)
  · exact (hulib.mpr h).unique hkernel

/-- Every byte is the last byte of its address. -/
def numbered : Store := fun a => UInt8.ofNat a.toNat

/-- The second and third byte are moved one down. -/
theorem memmove_down_agrees :
    Ulib.memmove 0 1 2 numbered = Kernel.memmove 0 1 2 numbered :=
  (memmove_moves_iff (by decide) (by decide)).2.2.mpr (repeats_of_apart (by decide) (.inl (by decide)))

/-- The first two bytes are to be moved one up. -/
theorem memmove_up_differs : (1 : Addr).toNat + (2 : BitVec 32).toNat ≤ 2 ^ 32 ∧
    numbered 1 = 1 ∧ Kernel.memmove 1 0 2 numbered 2 = 1 ∧ Ulib.memmove 1 0 2 numbered 2 = 0 := by
  decide

end StrideXv6.Strings
