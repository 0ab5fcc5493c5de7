import StrideXv6.Lib.Ring
import StrideXv6.Lib.Run
import StrideXv6.Console.Input

set_option autoImplicit false

/-! # The console's input ring

The ring `input` with its three wrapping indices stands for a `Line`: the bytes that may be read,
and the line that is being edited. `consoleintr` and `consoleread` on the ring do what is expected
on it (`Shows.handle`, `Shows.read`), and from that follow the bounds on the indices, that no byte
is lost, changed or delivered twice, and what a `^D` does (`Console/Reading.lean`).
-/

namespace StrideXv6.Console

open Runs Function

/-! ## Lines -/

/-- The bytes that can be read, and those of the line that is being edited. -/
structure Line where
  committed : List UInt8
  edit : List UInt8

/-- The characters typed and not yet read. -/
def Line.length (a : Line) : Nat := a.committed.length + a.edit.length

def Line.add (a : Line) (c : UInt8) : Line :=
  let c := if c = 13 then 10 else c
  if c = 10 ∨ c = 4 ∨ a.length + 1 = 128 then
    { committed := a.committed ++ a.edit ++ [c], edit := [] }
  else { a with edit := a.edit ++ [c] }

/-- What typing `c` means: `^P` is no input, `^U` deletes the line, `^H` and delete its last
character, and a character is dropped if 128 are not read yet. A line is committed by `\n` and
`^D`, and when there is no room behind it. -/
def Line.type (a : Line) (c : UInt8) : Line :=
  if c = 16 then a
  else if c = 21 then { a with edit := [] }
  else if c = 8 ∨ c = 127 then { a with edit := a.edit.dropLast }
  else if c ≠ 0 ∧ a.length < 128 then a.add c
  else a

/-! ## The ring -/

def Input.ring (i : Input) : RingBuffer 32 UInt8 :=
  { data := fun k => i.buf (UInt32.ofNat k), nread := i.r.toBitVec, nwrite := i.e.toBitVec }

/-- The bytes of the buffer from index `x` up to index `y`. -/
def Input.bytes (i : Input) (x y : UInt32) : List UInt8 :=
  (List.range (y - x).toNat).map fun k => i.buf ((x + UInt32.ofNat k) % INPUT_BUF)

/-- The bytes that can be read. -/
def Input.unread (i : Input) : List UInt8 := i.bytes i.r i.w

/-- The ring `i` holds the line `a`. -/
structure Shows (i : Input) (a : Line) : Prop where
  bytes : i.bytes i.r i.e = a.committed ++ a.edit
  committed : (i.w - i.r).toNat = a.committed.length
  le : a.length ≤ 128
  full : a.length = 128 → a.edit = []
  newline : 10 ∉ a.edit

theorem ofNat_cell (x : UInt32) :
    UInt32.ofNat (RingBuffer.cell 128 x.toBitVec) = x % INPUT_BUF := by
  apply UInt32.toNat.inj
  rw [RingBuffer.cell, UInt32.toNat_mod]
  simp [INPUT_BUF]
  omega

theorem bytes_eq_contents (i : Input) : i.bytes i.r i.e = i.ring.contents 128 := by
  unfold Input.bytes RingBuffer.contents
  refine List.map_congr_left fun k _ => ?_
  exact congrArg i.buf (ofNat_cell (i.r + UInt32.ofNat k)).symm

theorem pending_ring (i : Input) : i.ring.pending = (i.e - i.r).toNat := rfl

variable {i : Input} {a : Line}

theorem Shows.total (h : Shows i a) : (i.e - i.r).toNat = a.length := by
  have := congrArg List.length h.bytes
  rwa [Input.bytes, List.length_map, List.length_range, List.length_append] at this

theorem Shows.edit_length (h : Shows i a) : (i.e - i.w).toNat = a.edit.length := by
  have htot := h.total
  have hcom := h.committed
  have hle := h.le
  have h1 := i.e.toNat_lt
  have h2 := i.r.toNat_lt
  have h3 := i.w.toNat_lt
  simp only [Line.length, UInt32.toNat_sub] at *
  omega

theorem Shows.e_eq_w (h : Shows i a) : i.e = i.w ↔ a.edit = [] := by
  have h1 := i.e.toNat_lt
  have h2 := i.w.toNat_lt
  rw [← List.length_eq_zero_iff, ← h.edit_length, ← UInt32.toNat_inj, UInt32.toNat_sub]
  omega

theorem Shows.back (h : Shows i a) (hne : a.edit ≠ []) :
    Shows { i with e := i.e - 1 } { a with edit := a.edit.dropLast } ∧
      i.buf ((i.e - 1) % INPUT_BUF) = a.edit.getLast hne := by
  have hpos : 0 < i.ring.pending := by
    rw [pending_ring, h.total, Line.length]
    have := List.length_pos_iff.mpr hne
    omega
  have hcell : i.ring.data (RingBuffer.cell 128 (i.ring.nwrite - 1)) = i.buf ((i.e - 1) % INPUT_BUF) :=
    congrArg i.buf (ofNat_cell (i.e - 1))
  have hback : i.ring.back = ({ i with e := i.e - 1 } : Input).ring := rfl
  have hb := h.bytes
  rw [bytes_eq_contents, i.ring.contents_back hpos, hcell, hback, ← bytes_eq_contents,
    ← List.dropLast_append_getLast hne, ← List.append_assoc] at hb
  obtain ⟨h1, h2⟩ := List.append_inj' hb rfl
  have hlen := h.le
  refine ⟨⟨h1, h.committed, ?_, ?_, fun hm => h.newline (List.dropLast_subset _ hm)⟩,
    (List.singleton_inj.mp h2)⟩
  · simp only [Line.length, List.length_dropLast] at *
    omega
  · have := List.length_pos_iff.mpr hne
    simp only [Line.length, List.length_dropLast] at *
    omega

/-- `^U` deletes the whole line: it ends where the last one was committed. -/
theorem Shows.killLine {n : Nat} (h : Shows i a) (hn : n = a.edit.length) :
    Shows (i.killLine n) { a with edit := [] } := by
  induction n generalizing i a with
  | zero =>
    have he : a.edit = [] := List.eq_nil_of_length_eq_zero hn.symm
    rw [Input.killLine, ← he]
    exact h
  | succ n ih =>
    have hne : a.edit ≠ [] := List.length_pos_iff.mp (by omega)
    obtain ⟨hback, hlast⟩ := h.back hne
    have hgo : i.e ≠ i.w ∧ i.buf ((i.e - 1) % INPUT_BUF) ≠ 10 := by
      refine ⟨fun he => hne (h.e_eq_w.mp he), fun he => h.newline ?_⟩
      rw [← he, hlast]
      exact List.getLast_mem hne
    rw [Input.killLine, if_pos hgo]
    refine ih (a := { a with edit := a.edit.dropLast }) hback ?_
    rw [List.length_dropLast]
    omega

/-- Storing a byte at the edit index. -/
theorem Shows.bytes_push (h : Shows i a) (hlt : a.length < 128) (c : UInt8) :
    ({ i with buf := Function.update i.buf (i.e % INPUT_BUF) c, e := i.e + 1 } : Input).bytes i.r
      (i.e + 1) = a.committed ++ a.edit ++ [c] := by
  have hpend : i.ring.pending < 128 := by rw [pending_ring, h.total]; exact hlt
  have hpush := i.ring.contents_push (by decide) (by decide) c hpend
  rw [← bytes_eq_contents, h.bytes] at hpush
  suffices hring : ({ i with buf := Function.update i.buf (i.e % INPUT_BUF) c, e := i.e + 1 }
      : Input).ring.contents 128 = (i.ring.push 128 c).contents 128 from
    (bytes_eq_contents _).trans (hring.trans hpush)
  refine RingBuffer.contents_congr _ (by decide) rfl rfl fun k hk => ?_
  have hcell : UInt32.ofNat k = i.e % INPUT_BUF ↔ k = RingBuffer.cell 128 i.e.toBitVec := by
    rw [← ofNat_cell]
    constructor
    · intro he
      have := congrArg UInt32.toNat he
      have hc : RingBuffer.cell 128 i.e.toBitVec < 128 := Nat.mod_lt _ (by decide)
      rwa [UInt32.toNat_ofNat_of_lt' (by show k < 2 ^ 32; omega),
        UInt32.toNat_ofNat_of_lt' (by show _ < 2 ^ 32; omega)] at this
    · exact fun he => by rw [he]
  show Function.update i.buf (i.e % INPUT_BUF) c (UInt32.ofNat k)
    = Function.update (fun k => i.buf (UInt32.ofNat k)) (RingBuffer.cell 128 i.e.toBitVec) c k
  by_cases hk' : k = RingBuffer.cell 128 i.e.toBitVec
  · rw [hcell.mpr hk', hk', update_self, update_self]
  · rw [update_of_ne (fun he => hk' (hcell.mp he)), update_of_ne hk']

/-- The character that is stored for `c`. -/
def echo (c : UInt8) : UInt8 := if c = 13 then 10 else c

theorem store_eq (i : Input) (c : UInt8) :
    (i.store c.toNat).1 =
      { i with
        buf := Function.update i.buf (i.e % INPUT_BUF) (echo c), e := i.e + 1,
        w := if echo c = 10 ∨ echo c = 4 ∨ i.e + 1 = i.r + INPUT_BUF then i.e + 1 else i.w } := by
  have hecho : (if c.toNat = '\r'.toNat then '\n'.toNat else c.toNat) = (echo c).toNat := by
    have h13 : c.toNat = '\r'.toNat ↔ c = 13 := UInt8.toNat_inj (b := 13)
    unfold echo
    by_cases hc : c = 13
    · rw [if_pos (h13.mpr hc), if_pos hc]
      rfl
    · rw [if_neg fun h => hc (h13.mp h), if_neg hc]
  have h10 : (echo c).toNat = '\n'.toNat ↔ echo c = 10 := UInt8.toNat_inj (b := 10)
  have h4 : (echo c).toNat = ctrl 'D' ↔ echo c = 4 := UInt8.toNat_inj (b := 4)
  unfold Input.store
  dsimp only
  have hbyte : (echo c).toNat.toUInt8 = echo c := UInt8.ofNat_toNat
  rw [hecho, hbyte]
  simp only [h10, h4]
  split <;> rfl

/-- The test for a full buffer. -/
theorem Shows.full_iff (h : Shows i a) : i.e + 1 = i.r + INPUT_BUF ↔ a.length + 1 = 128 := by
  have htot := h.total
  rw [← UInt32.toNat_inj]
  have h1 := i.e.toNat_lt
  have h2 := i.r.toNat_lt
  have h3 := h.le
  simp only [INPUT_BUF, UInt32.toNat_add, UInt32.toNat_sub, UInt32.reduceToNat] at *
  omega

/-- A character that goes into the buffer. -/
theorem Shows.store {c : UInt8} (h : Shows i a) (hlt : a.length < 128) :
    Shows (i.store c.toNat).1 (a.add c) := by
  have hpush := h.bytes_push hlt (echo c)
  have hlen : ((i.e + 1 : UInt32) - i.r).toNat = a.length + 1 := by
    have := congrArg List.length hpush
    rwa [Input.bytes, List.length_map, List.length_range, List.length_append, List.length_append]
      at this
  rw [store_eq]
  unfold Line.add
  change Shows _ (if echo c = 10 ∨ echo c = 4 ∨ a.length + 1 = 128 then
    { committed := a.committed ++ a.edit ++ [echo c], edit := [] }
    else { a with edit := a.edit ++ [echo c] })
  by_cases hend : echo c = 10 ∨ echo c = 4 ∨ a.length + 1 = 128
  · rw [if_pos hend, if_pos (by rwa [h.full_iff])]
    refine ⟨hpush.trans (List.append_nil _).symm, ?_, ?_, fun _ => rfl, List.not_mem_nil⟩
    · rw [hlen]
      simp only [Line.length, List.length_append, List.length_singleton]
    · simp only [Line.length, List.length_append, List.length_singleton, List.length_nil] at *
      omega
  · rw [if_neg hend, if_neg (by rwa [h.full_iff])]
    simp only [not_or] at hend
    refine ⟨hpush.trans (List.append_assoc ..), h.committed, ?_, ?_, ?_⟩
    · simp only [Line.length, List.length_append, List.length_singleton] at *
      omega
    · simp only [Line.length, List.length_append, List.length_singleton] at *
      omega
    · intro hm
      rcases List.mem_append.mp hm with hm | hm
      · exact h.newline hm
      · exact hend.1 (List.mem_singleton.mp hm).symm

/-- **One character.** `consoleintr` does with it what it means. -/
theorem Shows.handle (h : Shows i a) (c : UInt8) : Shows (i.handle c.toNat).1 (a.type c) := by
  have hP : c.toNat = ctrl 'P' ↔ c = 16 := UInt8.toNat_inj (b := 16)
  have hU : c.toNat = ctrl 'U' ↔ c = 21 := UInt8.toNat_inj (b := 21)
  have hH : c.toNat = ctrl 'H' ↔ c = 8 := UInt8.toNat_inj (b := 8)
  have hD : c.toNat = 0x7f ↔ c = 127 := UInt8.toNat_inj (b := 127)
  have h0 : c.toNat = 0 ↔ c = 0 := UInt8.toNat_inj (b := 0)
  have hroom : i.e - i.r < INPUT_BUF ↔ a.length < 128 := by
    rw [← h.total]
    exact UInt32.lt_iff_toNat_lt
  unfold Input.handle Line.type
  simp only [hP, hU, hH, hD, ne_eq, h0, hroom]
  by_cases c1 : c = 16
  · rw [if_pos c1, if_pos c1]
    exact h
  rw [if_neg c1, if_neg c1]
  by_cases c2 : c = 21
  · rw [if_pos c2, if_pos c2]
    exact h.killLine h.edit_length
  rw [if_neg c2, if_neg c2]
  by_cases c3 : c = 8 ∨ c = 127
  · rw [if_pos c3, if_pos c3]
    by_cases he : a.edit = []
    · rw [if_neg (not_not.mpr (h.e_eq_w.mpr he)), he, List.dropLast_nil, ← he]
      exact h
    · rw [if_pos fun hw => he (h.e_eq_w.mp hw)]
      exact (h.back he).1
  rw [if_neg c3, if_neg c3]
  by_cases c4 : ¬ c = 0 ∧ a.length < 128
  · rw [if_pos c4, if_pos c4]
    exact h.store c4.2
  · rw [if_neg c4, if_neg c4]
    exact h

theorem read_byte (i : Input) (started : Bool) :
    (i.read started).2.1 = i.buf (i.r % INPUT_BUF) := by
  unfold Input.read
  dsimp only
  split <;> rfl

theorem read_input (i : Input) (started : Bool) :
    (i.read started).1
      = if i.buf (i.r % INPUT_BUF) = 4 ∧ started = true then i else { i with r := i.r + 1 } := by
  unfold Input.read
  dsimp only
  by_cases h4 : i.buf (i.r % INPUT_BUF) = 4
  · rw [if_pos h4]
    cases started <;> simp [h4]
  · simp [h4]

/-- **One turn of the reading loop** takes the first committed byte, unless that is a `^D` and the
call has delivered bytes already. -/
theorem Shows.read (h : Shows i a) (hne : i.r ≠ i.w) (started : Bool) :
    ∃ rest, a.committed = (i.read started).2.1 :: rest ∧
      Shows (i.read started).1
        (if (i.read started).2.1 = 4 ∧ started = true then a else { a with committed := rest }) := by
  have hpos : 0 < a.committed.length := by
    rw [← h.committed]
    have h1 := i.r.toNat_lt
    have h2 := i.w.toNat_lt
    rw [Ne, ← UInt32.toNat_inj] at hne
    rw [UInt32.toNat_sub]
    omega
  obtain ⟨c, rest, hc⟩ := List.exists_cons_of_length_pos hpos
  have hpend : 0 < i.ring.pending := by
    rw [pending_ring, h.total, Line.length]
    omega
  have hpop := i.ring.contents_pop (N := 128) hpend
  have hfront : i.ring.front 128 = i.buf (i.r % INPUT_BUF) := congrArg i.buf (ofNat_cell i.r)
  have hring : i.ring.pop = ({ i with r := i.r + 1 } : Input).ring := rfl
  rw [← bytes_eq_contents, h.bytes, hc, List.cons_append, hfront, hring, ← bytes_eq_contents]
    at hpop
  obtain ⟨rfl, hrest⟩ := List.cons.inj hpop
  have hnext : Shows { i with r := i.r + 1 } { a with committed := rest } := by
    have hcom := h.committed
    have hle := h.le
    have h1 := i.r.toNat_lt
    have h2 := i.w.toNat_lt
    refine ⟨hrest.symm, ?_, ?_, fun hfull => ?_, h.newline⟩
    · simp only [hc, List.length_cons, UInt32.toNat_add, UInt32.toNat_sub, UInt32.reduceToNat]
        at *
      omega
    · simp only [Line.length, hc, List.length_cons] at *
      omega
    · simp only [Line.length, hc, List.length_cons] at *
      omega
  rw [read_byte, read_input]
  refine ⟨rest, hc, ?_⟩
  split
  · exact h
  · exact hnext

/-! ## The indices -/

theorem bytes_append (i : Input) {x y z : UInt32}
    (h : (z - x).toNat = (y - x).toNat + (z - y).toNat) :
    i.bytes x z = i.bytes x y ++ i.bytes y z := by
  unfold Input.bytes
  rw [h, List.range_add, List.map_append, List.map_map]
  congr 1
  refine List.map_congr_left fun k _ => ?_
  show i.buf ((x + UInt32.ofNat ((y - x).toNat + k)) % INPUT_BUF) = _
  rw [UInt32.ofNat_add, UInt32.ofNat_toNat, ← UInt32.add_assoc, UInt32.add_comm x,
    UInt32.sub_add_cancel]

theorem length_bytes (i : Input) (x y : UInt32) : (i.bytes x y).length = (y - x).toNat := by
  rw [Input.bytes, List.length_map, List.length_range]

theorem bytes_self (i : Input) (x : UInt32) : i.bytes x x = [] := by
  rw [Input.bytes, UInt32.sub_self]
  rfl

theorem bytes_next (i : Input) (x : UInt32) : i.bytes x (x + 1) = [i.buf (x % INPUT_BUF)] := by
  have h1 : (x + 1 - x).toNat = 1 := by rw [UInt32.add_comm, UInt32.add_sub_cancel]; rfl
  have h0 : x + UInt32.ofNat 0 = x := UInt32.add_zero x
  rw [Input.bytes, h1, List.range_one, List.map_singleton, h0]

/-- The bytes before `w` are the committed ones. -/
theorem Shows.unread (h : Shows i a) : i.unread = a.committed := by
  have htot := h.total
  have hsplit := bytes_append i (x := i.r) (y := i.w) (z := i.e)
    (by rw [htot, h.committed, h.edit_length, Line.length])
  rw [h.bytes] at hsplit
  exact (List.append_inj hsplit (by rw [length_bytes, h.committed])).1.symm

/-- The order of the indices, counted from `r`. -/
theorem Shows.bounds (h : Shows i a) :
    i.w - i.r ≤ i.e - i.r ∧ i.e - i.r ≤ INPUT_BUF ∧ (i.e - i.r = INPUT_BUF → i.w = i.e) := by
  have htot := h.total
  have hcom := h.committed
  refine ⟨?_, ?_, fun hfull => ?_⟩
  · rw [UInt32.le_iff_toNat_le, htot, hcom, Line.length]
    omega
  · rw [UInt32.le_iff_toNat_le, htot]
    exact h.le
  · rw [hfull] at htot
    exact (h.e_eq_w.mpr (h.full htot.symm)).symm

theorem killLine_frame (n : Nat) (i : Input) :
    (i.killLine n).r = i.r ∧ (i.killLine n).buf = i.buf := by
  induction n generalizing i with
  | zero => exact ⟨rfl, rfl⟩
  | succ n ih =>
    rw [Input.killLine]
    split
    · exact ih _
    · exact ⟨rfl, rfl⟩

/-- `consoleintr` does not read, and it only writes to the cell of `e` when that is not in use. -/
theorem handle_frame (i : Input) (c : UInt8) :
    (i.handle c.toNat).1.r = i.r ∧
      ((i.handle c.toNat).1.buf = i.buf ∨ i.e - i.r < INPUT_BUF ∧
        (i.handle c.toNat).1.buf = Function.update i.buf (i.e % INPUT_BUF) (echo c)) := by
  unfold Input.handle
  split_ifs with h1 h2 h3 h4 h5
  · exact ⟨rfl, Or.inl rfl⟩
  · exact ⟨(killLine_frame _ i).1, Or.inl (killLine_frame _ i).2⟩
  · exact ⟨rfl, Or.inl rfl⟩
  · exact ⟨rfl, Or.inl rfl⟩
  · rw [store_eq]
    exact ⟨rfl, Or.inr ⟨h5.2, rfl⟩⟩
  · exact ⟨rfl, Or.inl rfl⟩

/-- No byte between `r` and `e` is overwritten. -/
theorem handle_keeps (i : Input) (c : UInt8) {k : UInt32} (hk : k - i.r < i.e - i.r) :
    (i.handle c.toNat).1.buf (k % INPUT_BUF) = i.buf (k % INPUT_BUF) := by
  rcases (handle_frame i c).2 with h | ⟨hroom, h⟩
  · rw [h]
  · rw [h, update_of_ne]
    intro he
    -- both are within 128 of `r`, and they are less than 128 apart
    have h1 := i.e.toNat_lt
    have h2 := i.r.toNat_lt
    have h3 := k.toNat_lt
    rw [UInt32.lt_iff_toNat_lt] at hk hroom
    rw [← UInt32.toNat_inj] at he
    simp only [INPUT_BUF, UInt32.toNat_sub, UInt32.toNat_mod, UInt32.reduceToNat] at *
    omega

end StrideXv6.Console
