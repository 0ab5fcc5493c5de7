import Mathlib.Tactic

set_option autoImplicit false

/-! # The console's input buffer

The ring `input` of `console.c` with its three `uint` indices, and what `consoleintr` does
with one character (`Input.handle`) and `consoleread` with one turn of its loop
(`Input.read`), both with `cons.lock` held. `handle_wakes` says which characters make
`consoleintr` call `wakeup(&input.r)`.
-/

namespace StrideXv6.Console

def INPUT_BUF : UInt32 := 128

/-- The control character of a letter, `C(x)`. -/
def ctrl (x : Char) : Nat := x.toNat - '@'.toNat

structure Input where
  buf : UInt32 → UInt8
  r : UInt32
  w : UInt32
  e : UInt32

/-- The zero-initialised buffer. -/
def Input.zero : Input := { buf := fun _ => 0, r := 0, w := 0, e := 0 }

/-- The loop of `^U`. Its turns are at most the distance from `w` to `e`. -/
def Input.killLine : Nat → Input → Input
  | 0, i => i
  | n + 1, i =>
    if i.e ≠ i.w ∧ i.buf ((i.e - 1) % INPUT_BUF) ≠ 10 then killLine n { i with e := i.e - 1 }
    else i

/-- The end of the `default` case of `consoleintr`, for a character that goes into the
buffer: whether a line is complete, and then `w` moves up to `e`. -/
def Input.store (i : Input) (c : Nat) : Input × Bool :=
  let c := if c = '\r'.toNat then '\n'.toNat else c
  let i := { i with buf := Function.update i.buf (i.e % INPUT_BUF) c.toUInt8, e := i.e + 1 }
  if c = '\n'.toNat ∨ c = ctrl 'D' ∨ i.e = i.r + INPUT_BUF then ({ i with w := i.e }, true)
  else (i, false)

/-- What `consoleintr` does to the buffer with the character `c`, and whether it goes on to
`wakeup(&input.r)`. -/
def Input.handle (i : Input) (c : Nat) : Input × Bool :=
  if c = ctrl 'P' then (i, false)
  else if c = ctrl 'U' then (i.killLine (i.e - i.w).toNat, false)
  else if c = ctrl 'H' ∨ c = 0x7f then (if i.e ≠ i.w then { i with e := i.e - 1 } else i, false)
  else if c ≠ 0 ∧ i.e - i.r < INPUT_BUF then i.store c
  else (i, false)

/-- The character goes into the buffer, and it ends a line or fills the buffer. -/
def Input.CompletesLine (i : Input) (c : Nat) : Prop :=
  c ∉ [0, ctrl 'P', ctrl 'U', ctrl 'H', 0x7f] ∧ i.e - i.r < INPUT_BUF ∧
    (c ∈ ['\n'.toNat, '\r'.toNat, ctrl 'D'] ∨ i.e + 1 = i.r + INPUT_BUF)

instance (i : Input) (c : Nat) : Decidable (i.CompletesLine c) :=
  inferInstanceAs (Decidable (_ ∧ _ ∧ _))

theorem store_wakes (i : Input) (c : Nat) :
    (i.store c).2 = true ↔ c ∈ ['\n'.toNat, '\r'.toNat, ctrl 'D'] ∨ i.e + 1 = i.r + INPUT_BUF := by
  unfold Input.store
  by_cases hr : c = '\r'.toNat
  · simp [hr]
  · have hr' : c ≠ 13 := by simpa using hr
    simp only [hr, if_false]
    split
    · rename_i h
      simpa [hr', or_assoc] using h
    · rename_i h
      simpa [hr', or_assoc] using h

theorem handle_wakes (i : Input) (c : Nat) : (i.handle c).2 = true ↔ i.CompletesLine c := by
  unfold Input.handle Input.CompletesLine
  by_cases hP : c = ctrl 'P'
  · simp [hP]
  by_cases hU : c = ctrl 'U'
  · simp [hU, show ctrl 'U' ≠ ctrl 'P' by decide]
  by_cases hH : c = ctrl 'H' ∨ c = 0x7f
  · rw [if_neg hP, if_neg hU, if_pos hH]
    rcases hH with rfl | rfl <;> simp
  rw [if_neg hP, if_neg hU, if_neg hH]
  rw [not_or] at hH
  split
  · rename_i h
    rw [store_wakes]
    simp [hP, hU, hH, h.1, h.2]
  · rename_i h
    simp only [Bool.false_eq_true, false_iff]
    rintro ⟨h0, hroom, -⟩
    exact h ⟨fun hc => h0 (by simp [hc]), hroom⟩

/-- How a turn of `consoleread`'s loop ends. -/
inductive Turn where
  | next
  | stop
  deriving DecidableEq

/-- One turn of `consoleread`'s loop over a non-empty buffer; `started` says that characters
have been delivered already (`n < target`), and then a `^D` is left for the next call. -/
def Input.read (i : Input) (started : Bool) : Input × UInt8 × Turn :=
  let c := i.buf (i.r % INPUT_BUF)
  if c = 4 then (if started then i else { i with r := i.r + 1 }, c, .stop)
  else ({ i with r := i.r + 1 }, c, if c = 10 then .stop else .next)

end StrideXv6.Console
