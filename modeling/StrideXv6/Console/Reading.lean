import StrideXv6.Console.Ring

set_option autoImplicit false

/-! # Typing and reading

Characters are typed and processes call `consoleread`, in any order. `consoleintr` holds
`cons.lock` for one character, `consoleread` for one turn of its loop; in the source they may hold
it longer, so that fewer orders are possible. Bytes are committed (`committedBy`), taken out of
the ring (`takenBy`) and stored into the buffer of a reader (`storedBy`): `console_ring` says how
these go together in every run.
-/

namespace StrideXv6.Console

open Runs

/-! ## Readers -/

/-- A call of `consoleread` in its loop: the number of bytes asked for, and those stored at `dst`
so far. -/
structure Reader where
  target : Nat
  dst : List UInt8

/-- How a turn of the loop ends: with another turn, or the call returns. -/
inductive Outcome where
  | loop (rd : Reader)
  | ret (dst : List UInt8)

def Outcome.dst : Outcome → List UInt8
  | .loop rd => rd.dst
  | .ret dst => dst

/-- A turn of the loop, with nothing if the call has to sleep. -/
def readTurn (i : Input) (rd : Reader) : Option (Input × Outcome) :=
  if rd.dst.length < rd.target then
    if i.r = i.w then none
    else
      let x := i.read (decide (0 < rd.dst.length))
      some (x.1,
        if x.2.1 = 4 then .ret rd.dst
        else if x.2.2 = .stop then .ret (rd.dst ++ [x.2.1])
        else .loop { rd with dst := rd.dst ++ [x.2.1] })
  else some (i, .ret rd.dst)

structure ConsState (ρ : Type) where
  input : Input
  reader : ρ → Option Reader

def ConsState.init (ρ : Type) : ConsState ρ := { input := Input.zero, reader := fun _ => none }

/-- `killed` is the return of `-1` by a killed process that would have to sleep. -/
inductive ConsEvent (ρ : Type) where
  | typed (c : UInt8)
  | call (p : ρ) (n : Nat)
  | turn (p : ρ)
  | killed (p : ρ)

variable {ρ : Type}
variable {rd : Reader} {o : Outcome}

section Step

variable [DecidableEq ρ]

def ConsState.setReader (s : ConsState ρ) (p : ρ) (rd : Option Reader) : ConsState ρ :=
  { s with reader := Function.update s.reader p rd }

/-- The state after a turn. -/
def ConsState.after (s : ConsState ρ) (p : ρ) (i : Input) : Outcome → ConsState ρ
  | .loop rd => { s.setReader p (some rd) with input := i }
  | .ret _ => { s.setReader p none with input := i }

def consStep (s : ConsState ρ) : ConsEvent ρ → Option (ConsState ρ)
  | .typed c => some { s with input := (s.input.handle c.toNat).1 }
  | .call p n =>
    if (s.reader p).isNone then some (s.setReader p (some { target := n, dst := [] })) else none
  | .turn p =>
    (s.reader p).bind fun rd => (readTurn s.input rd).map fun x => s.after p x.1 x.2
  | .killed p =>
    (s.reader p).bind fun rd =>
      if rd.dst.length < rd.target ∧ s.input.r = s.input.w then some (s.setReader p none) else none

theorem after_input (s : ConsState ρ) (p : ρ) (i : Input) (o : Outcome) :
    (s.after p i o).input = i := by
  cases o <;> rfl

end Step

/-! ## What a transition does -/

abbrev ConsTrans (ρ : Type) := Trans (ConsState ρ) (ConsEvent ρ)

/-- The bytes that a transition commits. -/
def committedBy (x : ConsTrans ρ) : List UInt8 :=
  x.post.input.bytes x.pre.input.w x.post.input.w

/-- The bytes that it takes out of the ring. -/
def takenBy (x : ConsTrans ρ) : List UInt8 := x.pre.input.bytes x.pre.input.r x.post.input.r

/-- The turn of `consoleread` it is, if it is one. -/
def turnOf (x : ConsTrans ρ) : Option (Reader × Outcome) :=
  match x.ev with
  | .turn p => (x.pre.reader p).bind fun rd => (readTurn x.pre.input rd).map fun y => (rd, y.2)
  | _ => none

/-- The bytes that it stores into the buffer of a reader. -/
def storedBy (x : ConsTrans ρ) : List UInt8 :=
  match turnOf x with
  | some (rd, o) => o.dst.drop rd.dst.length
  | none => []

/-- It is the end of a call that asked for some bytes and returns 0. -/
def returnsZero (x : ConsTrans ρ) : Bool :=
  match turnOf x with
  | some (rd, .ret []) => decide (0 < rd.target)
  | _ => false

/-- What a transition can do to the ring. -/
inductive Effect (x : ConsTrans ρ) : Prop where
  | typed (c : UInt8) (hev : x.ev = .typed c)
      (hpost : x.post.input = (x.pre.input.handle c.toNat).1)
  | deliver (c : UInt8) (hne : x.pre.input.r ≠ x.pre.input.w) (hc : c ≠ 4)
      (hbyte : c = x.pre.input.buf (x.pre.input.r % INPUT_BUF)) (hstored : storedBy x = [c])
      (hpost : x.post.input = { x.pre.input with r := x.pre.input.r + 1 })
      (hret : ¬ returnsZero x = true)
  | eof (hne : x.pre.input.r ≠ x.pre.input.w)
      (hbyte : x.pre.input.buf (x.pre.input.r % INPUT_BUF) = 4) (hstored : storedBy x = [])
      (hpost : x.post.input = { x.pre.input with r := x.pre.input.r + 1 }) (hret : returnsZero x = true)
  | quiet (hev : ∀ c, x.ev ≠ .typed c) (hpost : x.post.input = x.pre.input)
      (hstored : storedBy x = []) (hret : ¬ returnsZero x = true)

variable {x : ConsTrans ρ}

theorem storedBy_turn (h : turnOf x = some (rd, o)) :
    storedBy x = o.dst.drop rd.dst.length := by
  rw [storedBy, h]

theorem returnsZero_turn
    (h : turnOf x = some (rd, o)) : returnsZero x = true ↔ 0 < rd.target ∧ o = .ret [] := by
  rw [returnsZero, h]
  rcases o with rd' | (_ | ⟨c, dst⟩) <;> simp

theorem no_turn (h : turnOf x = none) : storedBy x = [] ∧ ¬ returnsZero x = true := by
  rw [storedBy, returnsZero, h]
  exact ⟨rfl, Bool.false_ne_true⟩

/-- A turn that stores the byte `c`. -/
theorem deliver_of_turn (h : turnOf x = some (rd, o)) (hne : x.pre.input.r ≠ x.pre.input.w)
    (hc : x.pre.input.buf (x.pre.input.r % INPUT_BUF) ≠ 4)
    (ho : o.dst = rd.dst ++ [x.pre.input.buf (x.pre.input.r % INPUT_BUF)])
    (hpost : x.post.input = { x.pre.input with r := x.pre.input.r + 1 }) : Effect x := by
  refine .deliver _ hne hc rfl ?_ hpost fun hz => ?_
  · rw [storedBy_turn h, ho, List.drop_left]
  · rw [((returnsZero_turn h).mp hz).2] at ho
    exact absurd ho (by simp [Outcome.dst])

/-- A turn that meets a `^D`: the call returns, and the `^D` is taken if it has stored nothing. -/
theorem eof_of_turn (h : turnOf x = some (rd, .ret rd.dst))
    (hev : ∀ c, x.ev ≠ .typed c) (hn : rd.dst.length < rd.target)
    (hne : x.pre.input.r ≠ x.pre.input.w)
    (hc : x.pre.input.buf (x.pre.input.r % INPUT_BUF) = 4)
    (hpost : x.post.input = (x.pre.input.read (decide (0 < rd.dst.length))).1) : Effect x := by
  have hstored : storedBy x = [] := by
    rw [storedBy_turn h]
    exact List.drop_length
  rw [read_input] at hpost
  by_cases hd : 0 < rd.dst.length
  · rw [if_pos ⟨hc, decide_eq_true hd⟩] at hpost
    refine .quiet hev hpost hstored fun hz => ?_
    have hnil := ((returnsZero_turn h).mp hz).2
    rw [Outcome.ret.injEq] at hnil
    rw [hnil] at hd
    exact Nat.lt_irrefl 0 hd
  · rw [if_neg fun hx => hd (of_decide_eq_true hx.2)] at hpost
    have hnil : rd.dst = [] := List.eq_nil_of_length_eq_zero (by omega)
    exact .eof hne hc hstored hpost ((returnsZero_turn h).mpr ⟨by omega, by rw [hnil]⟩)

section Step

variable [DecidableEq ρ]

theorem effect_of_turn {x : ConsTrans ρ} {p : ρ} (hev : x.ev = .turn p)
    (h : consStep x.pre x.ev = some x.post) : Effect x := by
  have hnot : ∀ c, x.ev ≠ .typed c := fun c he => by rw [hev] at he; cases he
  rw [hev] at h
  obtain ⟨rd, hrd, h⟩ := Option.bind_eq_some_iff.mp h
  obtain ⟨y, hy, hpost⟩ := Option.map_eq_some_iff.mp h
  have hturn : turnOf x = some (rd, y.2) := by
    rw [turnOf, hev]
    simp only [hrd, hy, Option.bind_some, Option.map_some]
  have hin : x.post.input = y.1 := by rw [← hpost, after_input]
  unfold readTurn at hy
  by_cases hn : rd.dst.length < rd.target
  · rw [if_pos hn] at hy
    by_cases hne : x.pre.input.r = x.pre.input.w
    · rw [if_pos hne] at hy
      cases hy
    · rw [if_neg hne, Option.some.injEq, read_byte] at hy
      subst hy
      dsimp only at hturn hin
      by_cases hc : x.pre.input.buf (x.pre.input.r % INPUT_BUF) = 4
      · rw [if_pos hc] at hturn
        exact eof_of_turn hturn hnot hn hne hc hin
      · rw [if_neg hc] at hturn
        rw [read_input, if_neg fun hx => hc hx.1] at hin
        refine deliver_of_turn hturn hne hc ?_ hin
        split <;> rfl
  · rw [if_neg hn, Option.some.injEq] at hy
    subst hy
    refine .quiet hnot hin ?_ fun hz => ?_
    · rw [storedBy_turn hturn]
      exact List.drop_length
    · obtain ⟨hpos, hnil⟩ := (returnsZero_turn hturn).mp hz
      rw [Outcome.ret.injEq] at hnil
      rw [hnil] at hn
      exact hn hpos

theorem effect_of_step {x : ConsTrans ρ} (h : consStep x.pre x.ev = some x.post) : Effect x := by
  obtain ⟨s, e, t⟩ := x
  cases e with
  | typed c => exact .typed c rfl (congrArg ConsState.input (Option.some.inj h)).symm
  | call p n =>
    dsimp only [consStep] at h
    split at h
    · have hin : t.input = s.input := (congrArg ConsState.input (Option.some.inj h)).symm
      exact .quiet (fun c hc => by cases hc) hin (no_turn rfl).1 (no_turn rfl).2
    · cases h
  | turn p => exact effect_of_turn rfl h
  | killed p =>
    obtain ⟨rd, hrd, h⟩ := Option.bind_eq_some_iff.mp h
    split at h
    · have hin : t.input = s.input := (congrArg ConsState.input (Option.some.inj h)).symm
      exact .quiet (fun c hc => by cases hc) hin (no_turn rfl).1 (no_turn rfl).2
    · cases h

end Step

/-! ## Every run -/

/-- The ring of `s` shows some line. -/
def Shown (s : ConsState ρ) : Prop := ∃ a, Shows s.input a

theorem shows_zero : Shows Input.zero ⟨[], []⟩ :=
  ⟨bytes_self _ _, by decide, by decide, fun _ => rfl, List.not_mem_nil⟩

theorem shown_init : Shown (ConsState.init ρ) := ⟨⟨[], []⟩, shows_zero⟩

theorem Line.type_committed (a : Line) (c : UInt8) : a.committed <+: (a.type c).committed := by
  unfold Line.type Line.add
  dsimp only
  split_ifs <;> simp [List.append_assoc]

/-- Typing keeps the committed bytes, and adds to them what it commits. -/
theorem typed_commits {i : Input} {a : Line} (h : Shows i a) (c : UInt8) :
    (i.handle c.toNat).1.unread
      = i.unread ++ (i.handle c.toNat).1.bytes i.w (i.handle c.toNat).1.w := by
  have hb := h.handle c
  have hr := (handle_frame i c).1
  obtain ⟨tail, htail⟩ := a.type_committed c
  have hcom := hb.committed
  rw [hr, ← htail, List.length_append, ← h.committed] at hcom
  have hun := hb.unread
  have hle := hb.le
  rw [Line.length, ← htail, List.length_append, ← h.committed] at hle
  rw [Input.unread, hr, ← htail] at hun
  have hdist : ((i.handle c.toNat).1.w - i.r).toNat
      = (i.w - i.r).toNat + ((i.handle c.toNat).1.w - i.w).toNat := by
    have h1 := i.w.toNat_lt
    have h2 := i.r.toNat_lt
    have h3 := (i.handle c.toNat).1.w.toNat_lt
    simp only [UInt32.toNat_sub] at *
    omega
  have hsplit := bytes_append (i.handle c.toNat).1 hdist
  rw [hun] at hsplit
  obtain ⟨-, h2⟩ := List.append_inj hsplit (by rw [length_bytes, h.committed])
  rw [Input.unread, hr, hun, h2, h.unread]

/-- A byte that is taken was the first of the committed ones. -/
theorem taken_first {i : Input} (hne : i.r ≠ i.w) :
    i.unread
      = i.buf (i.r % INPUT_BUF) :: ({ i with r := i.r + 1 } : Input).bytes (i.r + 1) i.w := by
  have hdist : (i.w - i.r).toNat = (i.r + 1 - i.r).toNat + (i.w - (i.r + 1)).toNat := by
    have h1 := i.w.toNat_lt
    have h2 := i.r.toNat_lt
    rw [Ne, ← UInt32.toNat_inj] at hne
    simp only [UInt32.toNat_sub, UInt32.toNat_add, UInt32.reduceToNat]
    omega
  rw [Input.unread, bytes_append i hdist, bytes_next]
  rfl

/-- What one transition does to the committed bytes. -/
structure Accounts (x : ConsTrans ρ) : Prop where
  shown : Shown x.post
  bytes : x.pre.input.unread ++ committedBy x
    = takenBy x ++ x.post.input.unread
  stored : storedBy x = (takenBy x).filter (· ≠ 4)
  zero : takenBy x = [4] ↔ returnsZero x = true
  once : (takenBy x).length ≤ 1

theorem accounts_taken (hs : Shown x.pre) (hne : x.pre.input.r ≠ x.pre.input.w)
    (hpost : x.post.input = { x.pre.input with r := x.pre.input.r + 1 })
    (hstored : storedBy x = [x.pre.input.buf (x.pre.input.r % INPUT_BUF)].filter (· ≠ 4))
    (hzero : x.pre.input.buf (x.pre.input.r % INPUT_BUF) = 4 ↔ returnsZero x = true) : Accounts x := by
  obtain ⟨a, ha⟩ := hs
  have htaken : takenBy x = [x.pre.input.buf (x.pre.input.r % INPUT_BUF)] := by
    rw [takenBy, hpost]
    exact bytes_next _ _
  have hnone : committedBy x = [] := by
    rw [committedBy, hpost]
    exact bytes_self _ _
  refine ⟨?_, ?_, by rw [htaken, hstored], ?_, by rw [htaken]; exact le_rfl⟩
  · obtain ⟨rest, -, hb⟩ := ha.read hne false
    rw [read_input, if_neg (by simp), ← hpost] at hb
    exact ⟨_, hb⟩
  · rw [hnone, List.append_nil, htaken, taken_first hne, hpost]
    rfl
  · rw [htaken, ← hzero, List.singleton_inj]

theorem Shown.accounts (hs : Shown x.pre) (h : Effect x) : Accounts x := by
  cases h with
  | typed c hev hpost =>
    obtain ⟨a, ha⟩ := hs
    have hr : x.post.input.r = x.pre.input.r := by rw [hpost]; exact (handle_frame _ c).1
    have htaken : takenBy x = [] := by rw [takenBy, hr, bytes_self]
    have hturn : turnOf x = none := by rw [turnOf, hev]
    refine ⟨⟨a.type c, by rw [hpost]; exact ha.handle c⟩, ?_, ?_, ?_, by rw [htaken]; simp⟩
    · rw [htaken, List.nil_append, committedBy, hpost]
      exact (typed_commits ha c).symm
    · rw [htaken, (no_turn hturn).1]
      rfl
    · rw [htaken]
      exact iff_of_false (by simp) (no_turn hturn).2
  | deliver c hne hc hbyte hstored hpost hret =>
    refine accounts_taken hs hne hpost ?_ (iff_of_false (hbyte ▸ hc) hret)
    rw [hstored, ← hbyte]
    simp [hc]
  | eof hne hbyte hstored hpost hret =>
    refine accounts_taken hs hne hpost ?_ (iff_of_true hbyte hret)
    rw [hstored, hbyte]
    rfl
  | quiet hev hpost hstored hret =>
    have htaken : takenBy x = [] := by rw [takenBy, hpost, bytes_self]
    obtain ⟨a, ha⟩ := hs
    refine ⟨⟨a, hpost ▸ ha⟩, ?_, by rw [htaken, hstored]; rfl, ?_, by rw [htaken]; simp⟩
    · rw [htaken, committedBy, hpost, bytes_self, List.append_nil, List.nil_append]
    · rw [htaken]
      exact iff_of_false (by simp) hret

/-- No byte that is not read yet is overwritten. -/
theorem Effect.keeps (h : Effect x) {k : UInt32}
    (hk : k - x.pre.input.r < x.pre.input.e - x.pre.input.r) :
    x.post.input.buf (k % INPUT_BUF) = x.pre.input.buf (k % INPUT_BUF) := by
  cases h with
  | typed c _ hpost => rw [hpost]; exact handle_keeps _ c hk
  | deliver _ _ _ _ _ hpost => rw [hpost]
  | eof _ _ _ hpost => rw [hpost]
  | quiet _ hpost => rw [hpost]

theorem Accounts.count (h : Accounts x) :
    (takenBy x).count 4 = if returnsZero x = true then 1 else 0 := by
  by_cases hz : returnsZero x = true
  · rw [if_pos hz, h.zero.mpr hz]
    rfl
  · rw [if_neg hz, List.count_eq_zero]
    intro hmem
    refine hz (h.zero.mp ?_)
    have hlen := h.once
    cases ht : takenBy x with
    | nil => rw [ht] at hmem; exact absurd hmem List.not_mem_nil
    | cons c l =>
      rw [ht] at hmem hlen
      obtain rfl : l = [] := List.eq_nil_of_length_eq_zero (by simpa using hlen)
      rw [List.mem_singleton.mp hmem]

/-- What was committed is what was taken and what can still be read, and each part of what was
taken went where it should. -/
structure Balance (tr : List (ConsTrans ρ)) (s : ConsState ρ) : Prop where
  shown : Shown s
  bytes : tr.flatMap committedBy = tr.flatMap takenBy ++ s.input.unread
  stored : tr.flatMap storedBy = (tr.flatMap takenBy).filter (· ≠ 4)
  zero : (tr.flatMap takenBy).count 4 = tr.countP returnsZero

variable {tr : List (ConsTrans ρ)}

theorem Balance.snoc (h : Balance tr x.pre) (hx : Accounts x) : Balance (tr ++ [x]) x.post := by
  refine ⟨hx.shown, ?_, ?_, ?_⟩
  · simp only [List.flatMap_append, List.flatMap_singleton, h.bytes, List.append_assoc]
    rw [hx.bytes]
  · simp only [List.flatMap_append, List.flatMap_singleton, h.stored, hx.stored,
      List.filter_append]
  · simp only [List.flatMap_append, List.flatMap_singleton, List.count_append, h.zero,
      List.countP_append, hx.count, List.countP_singleton]

variable [DecidableEq ρ]

theorem balance (h : IsRun consStep (ConsState.init ρ) tr) :
    Balance tr (last (ConsState.init ρ) tr) := by
  refine h.past (J := Balance) ⟨shown_init, ?_, rfl, rfl⟩ fun tr x hx hb =>
    hb.snoc (hb.shown.accounts (effect_of_step hx))
  exact (bytes_self _ _).symm

theorem shown_of_run (h : IsRun consStep (ConsState.init ρ) tr) :
    ∀ x ∈ tr, Shown x.pre ∧ Shown x.post :=
  h.invariant (C := fun _ => True) shown_init
    (fun _ hst _ hx => (hx.accounts (effect_of_step hst)).shown) fun _ _ => trivial

/-- **The input ring.** In every run: the indices stay in order within the buffer, and a full
buffer can be read; typing never removes or changes a committed byte, and no byte that is not
read is overwritten; the bytes that readers get are the committed ones in order, without the
`^D`s; and every `^D` that is taken ends one call, which returns 0, while no other call that asks
for bytes returns 0. -/
theorem console_ring {tr : List (ConsTrans ρ)} (h : IsRun consStep (ConsState.init ρ) tr) :
    (∀ x ∈ tr, x.post.input.w - x.post.input.r ≤ x.post.input.e - x.post.input.r ∧
      x.post.input.e - x.post.input.r ≤ INPUT_BUF ∧
      (x.post.input.e - x.post.input.r = INPUT_BUF → x.post.input.w = x.post.input.e)) ∧
    (∀ x ∈ tr, (∃ c, x.ev = .typed c) → x.post.input.r = x.pre.input.r ∧
      x.pre.input.unread
        <+: x.post.input.unread) ∧
    (∀ x ∈ tr, ∀ k, k - x.pre.input.r < x.pre.input.e - x.pre.input.r →
      x.post.input.buf (k % INPUT_BUF) = x.pre.input.buf (k % INPUT_BUF)) ∧
    tr.flatMap storedBy ++ (last (ConsState.init ρ) tr).input.unread.filter (· ≠ 4)
      = (tr.flatMap committedBy).filter (· ≠ 4) ∧
    (tr.flatMap committedBy).count 4
      = tr.countP returnsZero + (last (ConsState.init ρ) tr).input.unread.count 4 ∧
    ∀ x ∈ tr, takenBy x = [4] ↔ returnsZero x = true := by
  refine ⟨fun x hx => ?_, fun x hx hev => ?_, fun x hx k hk => ?_, ?_, ?_, fun x hx => ?_⟩
  · obtain ⟨-, a, ha⟩ := shown_of_run h x hx
    exact ha.bounds
  · obtain ⟨⟨a, ha⟩, -⟩ := shown_of_run h x hx
    obtain ⟨c, hc⟩ := hev
    have hpost : x.post.input = (x.pre.input.handle c.toNat).1 := by
      have hst := h.step_of_mem hx
      rw [hc] at hst
      exact (congrArg ConsState.input (Option.some.inj hst)).symm
    have hr := (handle_frame x.pre.input c).1
    rw [hpost, hr, typed_commits ha c]
    exact ⟨rfl, List.prefix_append ..⟩
  · exact (effect_of_step (h.step_of_mem hx)).keeps hk
  · have hb := balance h
    rw [hb.bytes, hb.stored, List.filter_append]
  · have hb := balance h
    rw [hb.bytes, List.count_append, hb.zero]
  · exact ((shown_of_run h x hx).1.accounts (effect_of_step (h.step_of_mem hx))).zero

/-- A line is typed with a mistake and read, and then a `^D` ends the input. -/
def lineAndEof : List (ConsEvent Unit) :=
  [.typed 97, .typed 98, .typed 8, .typed 13, .call () 5, .turn (), .turn (), .typed 4,
    .call () 3, .turn ()]

theorem console_ring_lineAndEof :
    (trace consStep (ConsState.init Unit) lineAndEof).flatMap storedBy = [97, 10] ∧
      ((trace consStep (ConsState.init Unit) lineAndEof).flatMap committedBy).count 4
        = (trace consStep (ConsState.init Unit) lineAndEof).countP returnsZero
          + (last (ConsState.init Unit)
              (trace consStep (ConsState.init Unit) lineAndEof)).input.unread.count 4 :=
  ⟨by decide +kernel, (console_ring (isRun_trace ..)).2.2.2.2.1⟩

end StrideXv6.Console
