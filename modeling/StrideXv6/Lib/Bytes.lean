import Mathlib.Tactic

set_option autoImplicit false

/-! # Fields and bits in a block of bytes

A block is a function from its byte positions. `getLE b off len` is the number stored in the
`len` bytes from `off` on, least significant byte first, and `setLE` stores one. A field keeps
its value when other bytes are written (`getLE_setLE_of_disjoint`) and gives back what was
written to it, as far as that fits (`getLE_setLE_self`).

`getBit b i` reads the block as a bit map; `setBit` and `clearBit` change one bit of it.
-/

namespace Bytes

variable {n : Nat}

/-- The byte at position `i`; there is none beyond the end. -/
def byteAt (b : Fin n → UInt8) (i : Nat) : UInt8 := if h : i < n then b ⟨i, h⟩ else 0

def setByte (b : Fin n → UInt8) (i : Nat) (v : UInt8) : Fin n → UInt8 :=
  fun j => if j.val = i then v else b j

def getLE (b : Fin n → UInt8) (off : Nat) : Nat → Nat
  | 0 => 0
  | len + 1 => (byteAt b off).toNat + 256 * getLE b (off + 1) len

def setLE (b : Fin n → UInt8) (off : Nat) : Nat → Nat → (Fin n → UInt8)
  | 0, _ => b
  | len + 1, v => setLE (setByte b off (UInt8.ofNat v)) (off + 1) len (v / 256)

variable (b : Fin n → UInt8)

theorem byteAt_setByte_self {i : Nat} (v : UInt8) (h : i < n) :
    byteAt (setByte b i v) i = v := by
  simp [byteAt, setByte, h]

theorem byteAt_setByte_ne {i j : Nat} (v : UInt8) (h : j ≠ i) :
    byteAt (setByte b i v) j = byteAt b j := by
  simp [byteAt, setByte, h]

theorem byteAt_setLE_outside {off len i : Nat} (v : Nat)
    (h : i < off ∨ off + len ≤ i) : byteAt (setLE b off len v) i = byteAt b i := by
  induction len generalizing b off v with
  | zero => rfl
  | succ len ih =>
    rw [setLE, ih _ _ (by omega), byteAt_setByte_ne _ _ (by omega)]

theorem byteAt_setLE_inside {off len i : Nat} (v : Nat) (hi : i < len)
    (h : off + len ≤ n) : byteAt (setLE b off len v) (off + i) = UInt8.ofNat (v / 256 ^ i) := by
  induction len generalizing b off v i with
  | zero => omega
  | succ len ih =>
    rw [setLE]
    cases i with
    | zero =>
      rw [byteAt_setLE_outside _ _ (by omega), pow_zero, Nat.div_one]
      exact byteAt_setByte_self _ _ (by omega)
    | succ i =>
      rw [show off + (i + 1) = off + 1 + i by omega, ih _ _ (by omega) (by omega),
        Nat.div_div_eq_div_mul, pow_succ']

theorem getLE_congr {m : Nat} {b : Fin n → UInt8} {b' : Fin m → UInt8} {off off' len : Nat}
    (h : ∀ i < len, byteAt b (off + i) = byteAt b' (off' + i)) :
    getLE b off len = getLE b' off' len := by
  induction len generalizing off off' with
  | zero => rfl
  | succ len ih =>
    have h0 : byteAt b off = byteAt b' off' := h 0 (by omega)
    rw [getLE, getLE, h0, ih fun i hi => ?_]
    have := h (i + 1) (by omega)
    rwa [show off + (i + 1) = off + 1 + i by omega,
      show off' + (i + 1) = off' + 1 + i by omega] at this

theorem getLE_setLE_of_disjoint {off len off' len' : Nat} (v : Nat)
    (h : off' + len' ≤ off ∨ off + len ≤ off') :
    getLE (setLE b off len v) off' len' = getLE b off' len' :=
  getLE_congr fun _ _ => byteAt_setLE_outside _ _ (by omega)

/-- A field gives back the number written to it, cut to its width. -/
theorem getLE_setLE_self {off len : Nat} (v : Nat) (h : off + len ≤ n) :
    getLE (setLE b off len v) off len = v % 256 ^ len := by
  induction len generalizing b off v with
  | zero => simp [getLE, Nat.mod_one]
  | succ len ih =>
    rw [getLE, setLE, ih _ _ (by omega), byteAt_setLE_outside _ _ (by omega),
      byteAt_setByte_self _ _ (by omega), UInt8.toNat_ofNat', pow_succ' 256 len]
    exact Nat.mod_mul.symm

theorem getLE_lt (off len : Nat) : getLE b off len < 256 ^ len := by
  induction len generalizing off with
  | zero => simp [getLE]
  | succ len ih =>
    have h1 := ih (off + 1)
    have h2 := (byteAt b off).toNat_lt
    rw [getLE, pow_succ']
    omega

/-- Copy the bytes `src` into the block, from `off` on. -/
def blit (b : Fin n → UInt8) (off : Nat) (src : List UInt8) : Fin n → UInt8 :=
  fun j => if off ≤ j.val ∧ j.val < off + src.length then src.getD (j.val - off) 0 else b j

theorem byteAt_blit_inside {off i : Nat} (src : List UInt8) (h : off ≤ i)
    (h' : i < off + src.length) (hn : i < n) : byteAt (blit b off src) i = src.getD (i - off) 0 := by
  simp only [byteAt, hn, dif_pos, blit, h, h', and_self, if_true]

theorem byteAt_blit_outside {off i : Nat} (src : List UInt8)
    (h : i < off ∨ off + src.length ≤ i) : byteAt (blit b off src) i = byteAt b i := by
  have : ¬ (off ≤ i ∧ i < off + src.length) := by omega
  by_cases hn : i < n
  · simp only [byteAt, hn, dif_pos, blit, this, if_false]
  · simp only [byteAt, hn, dif_neg, not_false_eq_true]

/-- The `len` bytes from `off` on. -/
def slice (b : Fin n → UInt8) (off len : Nat) : List UInt8 :=
  (List.range len).map fun i => byteAt b (off + i)

/-! ## Consecutive words -/

/-- Write 32-bit words one after the other, from `off` on. -/
def setWords (b : Fin n → UInt8) (off : Nat) : List Nat → (Fin n → UInt8)
  | [] => b
  | w :: ws => setWords (setLE b off 4 w) (off + 4) ws

theorem byteAt_setWords_outside {off i : Nat} (ws : List Nat)
    (h : i < off ∨ off + 4 * ws.length ≤ i) : byteAt (setWords b off ws) i = byteAt b i := by
  induction ws generalizing b off with
  | nil => rfl
  | cons w ws ih =>
    rw [List.length_cons] at h
    rw [setWords, ih _ (by omega), byteAt_setLE_outside _ _ (by omega)]

theorem getLE_setWords_of_disjoint {off off' len : Nat} (ws : List Nat)
    (h : off' + len ≤ off ∨ off + 4 * ws.length ≤ off') :
    getLE (setWords b off ws) off' len = getLE b off' len :=
  getLE_congr fun _ _ => byteAt_setWords_outside _ _ (by omega)

theorem getLE_setWords {off j : Nat} (ws : List Nat) (hj : j < ws.length)
    (h : off + 4 * ws.length ≤ n) :
    getLE (setWords b off ws) (off + 4 * j) 4 = ws[j] % 256 ^ 4 := by
  induction ws generalizing b off j with
  | nil => simp at hj
  | cons w ws ih =>
    rw [List.length_cons] at h hj
    rw [setWords]
    cases j with
    | zero =>
      rw [getLE_setWords_of_disjoint _ _ (by omega)]
      exact getLE_setLE_self _ _ (by omega)
    | succ j =>
      rw [show off + 4 * (j + 1) = off + 4 + 4 * j by omega]
      exact ih (setLE b off 4 w) (by omega) (by omega)

/-! ## Bits -/

/-- The byte with only bit `i` set. -/
def mask (i : Nat) : UInt8 := 1 <<< UInt8.ofNat i

def getBit (b : Fin n → UInt8) (i : Nat) : Bool := byteAt b (i / 8) &&& mask (i % 8) != 0

def setBit (b : Fin n → UInt8) (i : Nat) : Fin n → UInt8 :=
  setByte b (i / 8) (byteAt b (i / 8) ||| mask (i % 8))

def clearBit (b : Fin n → UInt8) (i : Nat) : Fin n → UInt8 :=
  setByte b (i / 8) (byteAt b (i / 8) &&& ~~~ mask (i % 8))

theorem mask_toBitVec {i : Nat} (hi : i < 8) : (mask i).toBitVec = BitVec.twoPow 8 i := by
  interval_cases i <;> rfl

theorem and_mask_ne_zero (x : UInt8) {i : Nat} (hi : i < 8) :
    (x &&& mask i != 0) = x.toBitVec.getLsbD i := by
  have hm := mask_toBitVec hi
  have hz : x &&& mask i = 0 ↔ x.toBitVec &&& BitVec.twoPow 8 i = 0#8 := by
    rw [← UInt8.toBitVec_inj, UInt8.toBitVec_and, hm]
    rfl
  rw [BitVec.and_twoPow] at hz
  cases hb : x.toBitVec.getLsbD i with
  | false => simpa [hb] using hz
  | true =>
    have hne : BitVec.twoPow 8 i ≠ 0#8 := by interval_cases i <;> decide
    simpa [hb, hne] using hz

theorem getBit_eq (i : Nat) :
    getBit b i = (byteAt b (i / 8)).toBitVec.getLsbD (i % 8) :=
  and_mask_ne_zero _ (Nat.mod_lt _ (by decide))

theorem getBit_setBit {i : Nat} (j : Nat) (hi : i < 8 * n) :
    getBit (setBit b i) j = (decide (j = i) || getBit b j) := by
  have hi8 : i % 8 < 8 := Nat.mod_lt _ (by decide)
  have hj8 : j % 8 < 8 := Nat.mod_lt _ (by decide)
  rw [getBit_eq, getBit_eq, setBit]
  by_cases hbyte : j / 8 = i / 8
  · rw [hbyte, byteAt_setByte_self _ _ (by omega), UInt8.toBitVec_or, BitVec.getLsbD_or,
      mask_toBitVec hi8, BitVec.getLsbD_twoPow, Bool.or_comm]
    have : (decide (i % 8 < 8) && decide (i % 8 = j % 8)) = decide (j = i) := by
      simp only [hi8, decide_true, Bool.true_and, decide_eq_decide]
      omega
    rw [this]
  · have hne : j ≠ i := by rintro rfl; exact hbyte rfl
    rw [byteAt_setByte_ne _ _ hbyte]
    simp [hne]

theorem getBit_clearBit {i : Nat} (j : Nat) (hi : i < 8 * n) :
    getBit (clearBit b i) j = (!decide (j = i) && getBit b j) := by
  have hi8 : i % 8 < 8 := Nat.mod_lt _ (by decide)
  have hj8 : j % 8 < 8 := Nat.mod_lt _ (by decide)
  rw [getBit_eq, getBit_eq, clearBit]
  by_cases hbyte : j / 8 = i / 8
  · rw [hbyte, byteAt_setByte_self _ _ (by omega), UInt8.toBitVec_and, BitVec.getLsbD_and,
      UInt8.toBitVec_not, BitVec.getLsbD_not, mask_toBitVec hi8, BitVec.getLsbD_twoPow,
      Bool.and_comm]
    have : (decide (j % 8 < 8) && !(decide (i % 8 < 8) && decide (i % 8 = j % 8)))
        = !decide (j = i) := by
      simp only [hi8, hj8, decide_true, Bool.true_and]
      congr 1
      rw [decide_eq_decide]
      omega
    rw [this]
  · have hne : j ≠ i := by rintro rfl; exact hbyte rfl
    rw [byteAt_setByte_ne _ _ hbyte]
    simp [hne]

end Bytes
