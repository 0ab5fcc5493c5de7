import StrideXv6.Grep.Match

set_option autoImplicit false

/-! # The lines that grep writes

`grep` reads into a buffer, as much as there is room for, and writes the lines of the buffer that
match. What is behind the last newline is moved to the front of the buffer and waits for the next
read (`readStep_spec`). If a read leaves the buffer without a newline, `p == buf` after the loop and
`m` is set to 0: what is in the buffer is dropped. So `grep` is right if and only if nothing with a
newline is read after a piece without one (`grep_lines_iff`).
-/

namespace StrideXv6.Grep

def newline : UInt8 := 10

/-! ## grep.c -/

/-- `sizeof(buf)` -/
def BUFSZ : Nat := 1024

/-- `strchr`, as an index. -/
def strchr : List UInt8 → UInt8 → Option Nat
  | [], _ => none
  | x :: s, c => if x = 0 then none else if x = c then some 0 else (strchr s c).map (· + 1)

variable {s : List UInt8} {c : UInt8}

theorem strchr_lt {k : Nat} (h : strchr s c = some k) :
    k < s.length := by
  induction s generalizing k with
  | nil => cases h
  | cons x s ih =>
    rw [strchr] at h
    split_ifs at h with h0 hc
    · cases h
      exact Nat.succ_pos _
    · obtain ⟨j, hj, rfl⟩ := Option.map_eq_some_iff.mp h
      exact Nat.succ_lt_succ (ih hj)

/-- The loop over the lines in `buf` from `p` on, with what has been written. -/
def lineLoop (re buf : List UInt8) (p : Nat) (out : List UInt8) :
    List UInt8 × Nat × List UInt8 :=
  match _h : strchr (buf.drop p) newline with
  | none => (buf, p, out)
  | some k =>
    -- `*q = 0`
    if match_ re ((buf.set (p + k) 0).drop p) then
      -- `*q = '\n'`
      lineLoop re ((buf.set (p + k) 0).set (p + k) newline) (p + k + 1)
        (out ++ ((((buf.set (p + k) 0).set (p + k) newline).drop p).take (k + 1)))
    else lineLoop re (buf.set (p + k) 0) (p + k + 1) out
termination_by buf.length - p
decreasing_by
  all_goals
    have hlt := strchr_lt _h
    rw [List.length_drop] at hlt
    simp only [List.length_set]
    omega

structure State where
  buf : List UInt8
  m : Nat
  out : List UInt8

/-- The body of the loop of `grep`, for a read of `piece`. -/
def readStep (re : List UInt8) (s : State) (piece : List UInt8) : State :=
  let m := s.m + piece.length
  let buf := (s.buf.take s.m ++ piece ++ s.buf.drop m).set m 0
  let (buf, p, out) := lineLoop re buf 0 s.out
  let m := if p = 0 then 0 else m
  -- `memmove` down to the beginning of the buffer
  if 0 < m then ⟨(buf.drop p).take (m - p) ++ buf.drop (m - p), m - p, out⟩ else ⟨buf, m, out⟩

/-- `grep`, with what the calls of `read` deliver; the buffer is as the call before has left it. -/
def grep (re buf : List UInt8) (pieces : List (List UInt8)) : List UInt8 :=
  (pieces.foldl (readStep re) ⟨buf, 0, []⟩).out

/-! ## Lines -/

/-- The lines that end with a newline, without it. -/
def lines : List UInt8 → List (List UInt8)
  | [] => []
  | x :: s =>
    if x = newline then [] :: lines s
    else match lines s with
      | [] => []
      | l :: ls => (x :: l) :: ls

/-- What is behind the last newline. -/
def rest : List UInt8 → List UInt8
  | [] => []
  | x :: s => if newline ∈ x :: s then rest s else x :: s

/-- The lines of `s` that match, each with its newline. -/
def selected (re s : List UInt8) : List UInt8 :=
  ((lines s).filter (match_ re)).flatMap (· ++ [newline])

theorem lines_of_not_mem (h : newline ∉ s) : lines s = [] := by
  induction s with
  | nil => rfl
  | cons x s ih =>
    rw [List.mem_cons, not_or] at h
    rw [lines, if_neg fun hx => h.1 hx.symm, ih h.2]

variable {a : List UInt8}

theorem lines_append (s : List UInt8) (h : newline ∉ a) :
    lines (a ++ newline :: s) = a :: lines s := by
  induction a with
  | nil => rw [List.nil_append, lines, if_pos rfl]
  | cons x a ih =>
    rw [List.mem_cons, not_or] at h
    rw [List.cons_append, lines, if_neg fun hx => h.1 hx.symm, ih h.2]

theorem rest_of_not_mem (h : newline ∉ s) : rest s = s := by
  cases s with
  | nil => rfl
  | cons x s => rw [rest, if_neg h]

theorem rest_append (a s : List UInt8) : rest (a ++ newline :: s) = rest s := by
  induction a with
  | nil => rw [List.nil_append, rest, if_pos List.mem_cons_self]
  | cons x a ih =>
    rw [List.cons_append, rest, if_pos, ih]
    exact List.mem_cons_of_mem _ (List.mem_append_right a List.mem_cons_self)

theorem rest_suffix (s : List UInt8) : rest s <:+ s := by
  induction s with
  | nil => exact List.suffix_refl []
  | cons x s ih =>
    rw [rest]
    split
    · exact ih.trans (List.suffix_cons x s)
    · exact List.suffix_refl _

/-- A text has no newline, or it has a first line. -/
theorem newline_cases (s : List UInt8) :
    newline ∉ s ∨ ∃ a t, s = a ++ newline :: t ∧ newline ∉ a := by
  by_cases h : newline ∈ s
  · obtain ⟨a, t, rfl, ha⟩ := List.eq_append_cons_of_mem h
    exact .inr ⟨a, t, rfl, ha⟩
  · exact .inl h

theorem newline_not_mem_rest (s : List UInt8) : newline ∉ rest s := by
  induction hn : s.length using Nat.strong_induction_on generalizing s with
  | _ n ih =>
  subst hn
  rcases newline_cases s with h | ⟨a, t, rfl, -⟩
  · rwa [rest_of_not_mem h]
  · rw [rest_append]
    exact ih t.length (by rw [List.length_append, List.length_cons]; omega) t rfl

variable (re : List UInt8)

theorem selected_of_not_mem (h : newline ∉ s) :
    selected re s = [] := by
  rw [selected, lines_of_not_mem h]
  rfl

theorem selected_line (s : List UInt8) (h : newline ∉ a) :
    selected re (a ++ newline :: s)
      = (if match_ re a then a ++ [newline] else []) ++ selected re s := by
  rw [selected, lines_append s h, List.filter_cons]
  split
  · rw [List.flatMap_cons]
    rfl
  · rfl

/-- The lines of a text that goes on. -/
theorem selected_append (re s t : List UInt8) :
    selected re (s ++ t) = selected re s ++ selected re (rest s ++ t) := by
  induction hn : s.length using Nat.strong_induction_on generalizing s with
  | _ n ih =>
  subst hn
  rcases newline_cases s with h | ⟨a, u, rfl, ha⟩
  · rw [selected_of_not_mem re h, rest_of_not_mem h, List.nil_append]
  · have hshort : u.length < (a ++ newline :: u).length := by
      rw [List.length_append, List.length_cons]
      omega
    rw [List.append_assoc, List.cons_append, selected_line re _ ha, selected_line re _ ha,
      rest_append, ih u.length hshort u rfl, List.append_assoc]

/-! ## The loop over the lines -/

theorem strchr_of_not_mem {s junk : List UInt8} (h0 : 0 ∉ s) (hc : c ∉ s) :
    strchr (s ++ 0 :: junk) c = none := by
  induction s with
  | nil => rw [List.nil_append, strchr, if_pos rfl]
  | cons x s ih =>
    rw [List.mem_cons, not_or] at h0 hc
    rw [List.cons_append, strchr, if_neg fun h => h0.1 h.symm, if_neg fun h => hc.1 h.symm,
      ih h0.2 hc.2]
    rfl

theorem strchr_append {a s : List UInt8} (h0 : 0 ∉ a) (hc : c ∉ a) (hne : c ≠ 0) :
    strchr (a ++ c :: s) c = some a.length := by
  induction a with
  | nil => rw [List.nil_append, strchr, if_neg hne, if_pos rfl]; rfl
  | cons x a ih =>
    rw [List.mem_cons, not_or] at h0 hc
    rw [List.cons_append, strchr, if_neg fun h => h0.1 h.symm, if_neg fun h => hc.1 h.symm,
      ih h0.2 hc.2]
    rfl

theorem cstr_eq_self (h : 0 ∉ a) : cstr a = a := by
  induction a with
  | nil => rfl
  | cons x a ih =>
    rw [List.mem_cons, not_or] at h
    rw [cstr_of_ne (s := x :: a) fun hx => h.1 hx.symm]
    exact congrArg (x :: ·) (ih h.2)

theorem cstr_append (s : List UInt8) (h : 0 ∉ a) : cstr (a ++ 0 :: s) = a := by
  induction a with
  | nil => exact cstr_of_eq rfl
  | cons x a ih =>
    rw [List.mem_cons, not_or] at h
    rw [cstr_of_ne (s := x :: a ++ 0 :: s) fun hx => h.1 hx.symm]
    exact congrArg (x :: ·) (ih h.2)

/-- The matcher sees the text up to the NUL. -/
theorem match_append (s : List UInt8) (h : 0 ∉ a) :
    match_ re (a ++ 0 :: s) = match_ re a := by
  rw [Bool.eq_iff_iff, match_iff, match_iff, cstr_append s h, cstr_eq_self h]

theorem set_append (a s : List UInt8) (x y : UInt8) :
    (a ++ x :: s).set a.length y = a ++ y :: s := by
  rw [List.set_append_right _ _ le_rfl, Nat.sub_self]
  rfl

/-- One line: it is written if it matches, and otherwise ends with a NUL from now on. -/
theorem lineLoop_line (pre s out : List UInt8) (h0 : 0 ∉ a)
    (hn : newline ∉ a) : ∃ x, lineLoop re (pre ++ (a ++ newline :: s)) pre.length out
      = lineLoop re ((pre ++ a ++ [x]) ++ s) (pre ++ a ++ [x]).length
        (out ++ if match_ re a then a ++ [newline] else []) := by
  have hfound : strchr ((pre ++ (a ++ newline :: s)).drop pre.length) newline = some a.length := by
    rw [List.drop_left]
    exact strchr_append h0 hn (by decide)
  have hlen : ∀ x : UInt8, (pre ++ a ++ [x]).length = pre.length + a.length + 1 := by
    intro x
    rw [List.length_append, List.length_append]
    rfl
  have hset : ∀ x y, (pre ++ (a ++ x :: s)).set (pre.length + a.length) y = pre ++ (a ++ y :: s) := by
    intro x y
    rw [← List.append_assoc, ← List.length_append, set_append, List.append_assoc]
  have hsplit : ∀ x, pre ++ (a ++ x :: s) = pre ++ a ++ [x] ++ s := by
    intro x
    simp
  rw [lineLoop]
  split
  · rename_i hnone
    rw [hfound] at hnone
    cases hnone
  · rename_i k hk
    obtain rfl := Option.some.inj (hfound.symm.trans hk)
    rw [hset, hset, List.drop_left, match_append re s h0, List.drop_left]
    split
    · refine ⟨newline, ?_⟩
      rw [hlen, ← hsplit]
      have htake : (a ++ newline :: s).take (a.length + 1) = a ++ [newline] := by
        rw [List.take_append, List.take_of_length_le (Nat.le_succ _), Nat.add_sub_cancel_left]
        rfl
      rw [htake]
    · refine ⟨0, ?_⟩
      rw [hlen, ← hsplit, List.append_nil]

/-- **The loop over the lines** writes those that match, and stops at what is behind the last
newline. -/
theorem lineLoop_spec (re t : List UInt8) (pre junk out : List UInt8) (h0 : 0 ∉ t) : ∃ pre',
    lineLoop re (pre ++ (t ++ 0 :: junk)) pre.length out
      = (pre' ++ (rest t ++ 0 :: junk), pre'.length, out ++ selected re t) ∧
    pre'.length + (rest t).length = pre.length + t.length ∧
    (pre'.length = pre.length ↔ newline ∉ t) := by
  induction hn : t.length using Nat.strong_induction_on generalizing t pre out with
  | _ n ih =>
  subst hn
  rcases newline_cases t with h | ⟨a, u, rfl, ha⟩
  · refine ⟨pre, ?_, by rw [rest_of_not_mem h], iff_of_true rfl h⟩
    have hnone : strchr ((pre ++ (t ++ 0 :: junk)).drop pre.length) newline = none := by
      rw [List.drop_left]
      exact strchr_of_not_mem h0 h
    rw [lineLoop]
    split
    · rw [rest_of_not_mem h, selected_of_not_mem re h, List.append_nil]
    · rename_i k hk
      rw [hnone] at hk
      cases hk
  · rw [List.mem_append, List.mem_cons, not_or, not_or] at h0
    obtain ⟨x, hline⟩ := lineLoop_line re pre (u ++ 0 :: junk) out h0.1 ha
    have hshort : u.length < (a ++ newline :: u).length := by
      rw [List.length_append, List.length_cons]
      omega
    obtain ⟨pre', hloop, hlen, -⟩ := ih u.length hshort u (pre ++ a ++ [x]) _ h0.2.2 rfl
    have hpre : (pre ++ a ++ [x]).length = pre.length + a.length + 1 := by
      rw [List.length_append, List.length_append]
      rfl
    rw [hpre] at hlen
    refine ⟨pre', ?_, ?_, ?_⟩
    · rw [List.append_assoc, List.cons_append, hline, hloop, rest_append, selected_line re _ ha,
        List.append_assoc]
    · rw [rest_append, List.length_append, List.length_cons]
      omega
    · refine iff_of_false ?_ fun hmem => hmem (List.mem_append_right a List.mem_cons_self)
      have := (rest_suffix u).length_le
      omega

/-! ## A read -/

/-- What `grep` keeps for the next read. -/
def keep (t : List UInt8) : List UInt8 := if newline ∈ t then rest t else []

/-- The buffer begins with `carry`, which waits for its newline. -/
structure Holds (s : State) (carry : List UInt8) : Prop where
  size : s.buf.length = BUFSZ
  count : s.m = carry.length
  text : ∃ junk, s.buf = carry ++ junk
  nul : 0 ∉ carry

theorem Holds.filled {s : State} {carry piece : List UInt8} (h : Holds s carry)
    (hroom : (carry ++ piece).length < BUFSZ) : ∃ junk,
      (s.buf.take s.m ++ piece ++ s.buf.drop (s.m + piece.length)).set (s.m + piece.length) 0
        = carry ++ piece ++ 0 :: junk ∧ (carry ++ piece ++ 0 :: junk).length = BUFSZ := by
  obtain ⟨junk, hbuf⟩ := h.text
  have hsize := h.size
  rw [List.length_append] at hroom
  rw [hbuf, List.length_append] at hsize
  have hne : piece.length < junk.length := by omega
  obtain ⟨x, junk', hdrop⟩ := List.exists_cons_of_length_pos
    (l := junk.drop piece.length) (by rw [List.length_drop]; omega)
  have hlen := congrArg List.length hdrop
  rw [List.length_drop, List.length_cons] at hlen
  refine ⟨junk', ?_, ?_⟩
  · rw [hbuf, h.count, List.take_left, ← List.drop_drop, List.drop_left, hdrop, ← List.length_append,
      set_append]
  · rw [List.length_append, List.length_append, List.length_cons]
    omega

/-- **A read**: the lines that are complete now are written if they match, and what is behind them is
kept, unless there are none. -/
theorem readStep_spec {s : State} {carry piece : List UInt8} (h : Holds s carry)
    (hnul : 0 ∉ piece) (hroom : (carry ++ piece).length < BUFSZ) :
    Holds (readStep re s piece) (keep (carry ++ piece)) ∧
      (readStep re s piece).out = s.out ++ selected re (carry ++ piece) := by
  obtain ⟨junk, hfill, hsize⟩ := h.filled hroom
  have h0 : 0 ∉ carry ++ piece := fun hmem => (List.mem_append.mp hmem).elim h.nul hnul
  have hm : s.m + piece.length = (carry ++ piece).length := by
    rw [h.count, List.length_append]
  generalize carry ++ piece = t at *
  obtain ⟨pre, hloop, hlen, hstay⟩ := lineLoop_spec re t [] junk s.out h0
  rw [List.nil_append, List.length_nil] at hloop
  rw [List.length_nil, Nat.zero_add] at hlen
  rw [List.length_nil] at hstay
  have hsize' : (pre ++ (rest t ++ 0 :: junk)).length = BUFSZ := by
    rw [List.length_append] at hsize
    rw [List.length_append, List.length_append]
    omega
  unfold readStep
  dsimp only
  rw [hfill, hloop]
  dsimp only
  by_cases hnew : newline ∈ t
  · have hpos : pre.length ≠ 0 := fun hp => hstay.mp hp hnew
    have hcount : s.m + piece.length - pre.length = (rest t).length := by omega
    rw [if_neg hpos, if_pos (by omega), hcount, List.drop_left, List.take_left]
    rw [keep, if_pos hnew]
    refine ⟨⟨?_, rfl, ⟨_, rfl⟩, fun hmem => h0 ((rest_suffix t).subset hmem)⟩, rfl⟩
    rw [List.length_append, List.length_drop, hsize']
    have := (rest_suffix t).length_le
    omega
  · rw [if_pos (hstay.mpr hnew), if_neg (Nat.lt_irrefl 0)]
    rw [keep, if_neg hnew]
    exact ⟨⟨hsize', rfl, ⟨_, rfl⟩, List.not_mem_nil⟩, rfl⟩

/-! ## The call -/

/-- What is written in all, if `carry` waits in the buffer. -/
def written (re : List UInt8) : List UInt8 → List (List UInt8) → List UInt8
  | _, [] => []
  | carry, piece :: pieces =>
    selected re (carry ++ piece) ++ written re (keep (carry ++ piece)) pieces

/-- The reads are not empty, and there is room for each. -/
def Arrives : List UInt8 → List (List UInt8) → Prop
  | _, [] => True
  | carry, piece :: pieces =>
    piece ≠ [] ∧ (carry ++ piece).length < BUFSZ ∧ Arrives (keep (carry ++ piece)) pieces

/-- The reads are not empty, and each is as long as requested or shorter. -/
def Requested (re : List UInt8) : State → List (List UInt8) → Prop
  | _, [] => True
  | s, piece :: pieces =>
    piece ≠ [] ∧ piece.length ≤ BUFSZ - s.m - 1 ∧ Requested re (readStep re s piece) pieces

variable {pieces : List (List UInt8)} {carry : List UInt8}

theorem requested_iff {s : State} (h : Holds s carry) (hnul : 0 ∉ pieces.flatten) :
    Requested re s pieces ↔ Arrives carry pieces := by
  induction pieces generalizing s carry with
  | nil => exact Iff.rfl
  | cons piece pieces ih =>
    rw [List.flatten_cons, List.mem_append, not_or] at hnul
    refine and_congr_right fun hne => ?_
    have hlen : 0 < piece.length := List.length_pos_iff.mpr hne
    have hroom : piece.length ≤ BUFSZ - s.m - 1 ↔ (carry ++ piece).length < BUFSZ := by
      rw [h.count, List.length_append]
      omega
    rw [hroom]
    exact and_congr_right fun hlt => ih (readStep_spec re h hnul.1 hlt).1 hnul.2

theorem newline_not_mem_keep (t : List UInt8) : newline ∉ keep t := by
  unfold keep
  split
  · exact newline_not_mem_rest t
  · exact List.not_mem_nil

theorem keep_suffix (t : List UInt8) : keep t <:+ t := by
  unfold keep
  split
  · exact rest_suffix t
  · exact List.nil_suffix

/-- The reads one after the other. -/
theorem run_spec {s : State} (h : Holds s carry) (hc : newline ∉ carry) (hnul : 0 ∉ pieces.flatten)
    (harr : Arrives carry pieces) : ∃ c, Holds (pieces.foldl (readStep re) s) c ∧ newline ∉ c ∧
      c <:+ carry ++ pieces.flatten ∧
      (pieces.foldl (readStep re) s).out = s.out ++ written re carry pieces := by
  induction pieces generalizing s carry with
  | nil =>
    rw [List.flatten_nil, List.append_nil, written, List.append_nil]
    exact ⟨carry, h, hc, List.suffix_refl carry, rfl⟩
  | cons piece pieces ih =>
    rw [List.flatten_cons, List.mem_append, not_or] at hnul
    obtain ⟨-, hroom, harr⟩ := harr
    obtain ⟨hnext, hout⟩ := readStep_spec re h hnul.1 hroom
    obtain ⟨c, hend, hcn, hsuf, hrun⟩ := ih hnext (newline_not_mem_keep _) hnul.2 harr
    refine ⟨c, hend, hcn, hsuf.trans ?_, ?_⟩
    · obtain ⟨a, ha⟩ := keep_suffix (carry ++ piece)
      rw [List.flatten_cons, ← List.append_assoc, ← ha, List.append_assoc, ha]
      exact List.suffix_append ..
    · rw [List.foldl_cons, hrun, hout, written, List.append_assoc]

variable {buf : List UInt8}

theorem holds_start (h : buf.length = BUFSZ) : Holds ⟨buf, 0, []⟩ [] :=
  ⟨h, rfl, ⟨buf, rfl⟩, List.not_mem_nil⟩

/-- Nothing with a newline is read after a piece without one. -/
def Steady (pieces : List (List UInt8)) : Prop :=
  pieces.Pairwise fun p q => newline ∈ q → newline ∈ p

instance (pieces : List (List UInt8)) : Decidable (Steady pieces) :=
  inferInstanceAs (Decidable (List.Pairwise _ pieces))

theorem newline_mem_flatten :
    newline ∈ pieces.flatten ↔ ∃ q ∈ pieces, newline ∈ q := List.mem_flatten

theorem written_of_steady (hc : newline ∉ carry) (h : Steady pieces) :
    written re carry pieces = selected re (carry ++ pieces.flatten) := by
  induction pieces generalizing carry with
  | nil =>
    rw [written, List.flatten_nil, List.append_nil, selected_of_not_mem re hc]
  | cons piece pieces ih =>
    obtain ⟨hhead, htail⟩ := List.pairwise_cons.mp h
    rw [written, ih (newline_not_mem_keep _) htail, List.flatten_cons, ← List.append_assoc,
      selected_append re (carry ++ piece)]
    by_cases hnew : newline ∈ carry ++ piece
    · rw [keep, if_pos hnew]
    · -- what has been dropped does not belong to a line
      have hpiece : newline ∉ piece := fun hmem => hnew (List.mem_append_right _ hmem)
      have hlater : newline ∉ pieces.flatten := by
        rw [newline_mem_flatten]
        rintro ⟨q, hq, hmem⟩
        exact hpiece (hhead q hq hmem)
      rw [keep, if_neg hnew, List.nil_append, rest_of_not_mem hnew, selected_of_not_mem re hlater,
        selected_of_not_mem re fun hmem => (List.mem_append.mp hmem).elim hnew hlater]

/-! ## The empty pattern -/

/-- The empty pattern matches every line. -/
theorem match_nil (s : List UInt8) : match_ [] s = true := by
  rw [match_iff]
  exact ⟨[], [], cstr s, rfl, Set.mem_singleton _, fun _ => rfl, fun h => absurd h Bool.false_ne_true⟩

theorem length_selected_nil (t : List UInt8) (h : newline ∉ s) (ht : newline ∈ t) :
    (selected [] (s ++ t)).length = s.length + (selected [] t).length := by
  rcases newline_cases t with hno | ⟨a, u, rfl, ha⟩
  · exact absurd ht hno
  · have hsa : newline ∉ s ++ a := fun hmem => (List.mem_append.mp hmem).elim h ha
    rw [← List.append_assoc, selected_line [] u hsa, selected_line [] u ha, match_nil, match_nil,
      if_pos rfl, if_pos rfl]
    simp only [List.length_append]
    omega

theorem length_written_le (pieces : List (List UInt8)) (hc : newline ∉ carry) :
    (written [] carry pieces).length ≤ (selected [] (carry ++ pieces.flatten)).length := by
  induction pieces generalizing carry with
  | nil => exact Nat.zero_le _
  | cons piece pieces ih =>
    have hle := ih (newline_not_mem_keep (carry ++ piece))
    rw [written, List.flatten_cons, ← List.append_assoc, List.length_append]
    by_cases hnew : newline ∈ carry ++ piece
    · rw [keep, if_pos hnew] at hle ⊢
      rw [selected_append [] (carry ++ piece), List.length_append]
      omega
    · rw [keep, if_neg hnew, List.nil_append] at hle
      rw [keep, if_neg hnew, selected_of_not_mem [] hnew, List.length_nil, Nat.zero_add]
      refine hle.trans ?_
      by_cases hlater : newline ∈ pieces.flatten
      · rw [length_selected_nil _ hnew hlater]
        omega
      · rw [selected_of_not_mem [] hlater]
        exact Nat.zero_le _

/-- With the empty pattern nothing may be dropped. -/
theorem steady_of_written (hc : newline ∉ carry) (hne : ∀ p ∈ pieces, p ≠ [])
    (h : written [] carry pieces = selected [] (carry ++ pieces.flatten)) : Steady pieces := by
  induction pieces generalizing carry with
  | nil => exact .nil
  | cons piece pieces ih =>
    rw [List.forall_mem_cons] at hne
    rw [written, List.flatten_cons, ← List.append_assoc, selected_append [] (carry ++ piece)] at h
    have h := List.append_cancel_left h
    by_cases hnew : newline ∈ carry ++ piece
    · have hpiece : newline ∈ piece := (List.mem_append.mp hnew).resolve_left hc
      rw [keep, if_pos hnew] at h
      exact List.pairwise_cons.mpr ⟨fun _ _ _ => hpiece, ih (newline_not_mem_rest _) hne.2 h⟩
    · rw [keep, if_neg hnew, rest_of_not_mem hnew] at h
      have hlater : newline ∉ pieces.flatten := by
        intro hmem
        have hlen := congrArg List.length h
        have hle := length_written_le pieces (List.not_mem_nil (a := newline))
        rw [length_selected_nil _ hnew hmem, List.length_append] at hlen
        have := List.length_pos_iff.mpr hne.1
        rw [List.nil_append] at hle
        omega
      have hnone : ∀ q ∈ pieces, newline ∉ q := fun q hq hmem =>
        hlater (newline_mem_flatten.mpr ⟨q, hq, hmem⟩)
      refine List.pairwise_cons.mpr ⟨fun q hq hmem => absurd hmem (hnone q hq), ?_⟩
      exact List.pairwise_iff_getElem.mpr fun i j _ hj _ hmem =>
        absurd hmem (hnone _ (List.getElem_mem hj))

theorem Arrives.ne_nil (h : Arrives carry pieces) :
    ∀ p ∈ pieces, p ≠ [] := by
  induction pieces generalizing carry with
  | nil => exact fun p hp => absurd hp List.not_mem_nil
  | cons piece pieces ih => exact List.forall_mem_cons.mpr ⟨h.1, ih h.2.2⟩

/-! ## Results -/

theorem grep_eq_written
    (hbuf : buf.length = BUFSZ) (hnul : 0 ∉ pieces.flatten) (harr : Arrives [] pieces) :
    grep re buf pieces = written re [] pieces := by
  obtain ⟨c, -, -, -, hout⟩ := run_spec re (holds_start hbuf) List.not_mem_nil hnul harr
  exact hout

/-- **grep writes the lines that match**, for all patterns, if and only if nothing with a newline is
read after a piece without one. -/
theorem grep_lines_iff {buf : List UInt8} {pieces : List (List UInt8)} (hbuf : buf.length = BUFSZ)
    (hnul : 0 ∉ pieces.flatten) (hreq : ∀ re, Requested re ⟨buf, 0, []⟩ pieces) :
    (∀ re, grep re buf pieces = selected re pieces.flatten) ↔ Steady pieces := by
  have harr := (requested_iff [] (holds_start hbuf) hnul).mp (hreq [])
  have hgrep : ∀ re, grep re buf pieces = written re [] pieces := fun re =>
    grep_eq_written re hbuf hnul harr
  constructor
  · intro h
    refine steady_of_written List.not_mem_nil harr.ne_nil ?_
    exact (hgrep []).symm.trans (h [])
  · intro h re
    exact (hgrep re).trans (written_of_steady re List.not_mem_nil h)

/-- `grep l` reads `a`, a newline and `h`, and then the rest of the second line. -/
theorem grep_two_lines : grep [108] (List.replicate BUFSZ 0) [[97, 10, 104], [101, 108, 10]]
    = selected [108] [97, 10, 104, 101, 108, 10] := by
  have hbuf : (List.replicate BUFSZ (0 : UInt8)).length = BUFSZ := List.length_replicate
  have harr : Arrives [] [[97, 10, 104], [101, 108, 10]] :=
    ⟨List.cons_ne_nil _ _, by decide, List.cons_ne_nil _ _, by decide, trivial⟩
  have hnul : (0 : UInt8) ∉ [[97, 10, 104], [101, 108, 10]].flatten := by decide
  exact (grep_lines_iff hbuf hnul fun re => (requested_iff re (holds_start hbuf) hnul).mpr harr).mpr
    (by decide) [108]

/-- `he` is read first, and then `l` with a newline: the line that is written has lost its
beginning. -/
theorem grep_split_line :
    Requested [] ⟨List.replicate BUFSZ 0, 0, []⟩ [[104, 101], [108, 10]] ∧
      selected [] [104, 101, 108, 10] = [104, 101, 108, 10] ∧
      grep [] (List.replicate BUFSZ 0) [[104, 101], [108, 10]] = [108, 10] := by
  have hbuf : (List.replicate BUFSZ (0 : UInt8)).length = BUFSZ := List.length_replicate
  have harr : Arrives [] [[104, 101], [108, 10]] :=
    ⟨List.cons_ne_nil _ _, by decide, List.cons_ne_nil _ _, by decide, trivial⟩
  have hnul : (0 : UInt8) ∉ [[104, 101], [108, 10]].flatten := by decide
  have hline : ∀ a, newline ∉ a → selected [] (a ++ [newline]) = a ++ [newline] := by
    intro a ha
    rw [selected_line [] [] ha, match_nil, if_pos rfl]
    exact List.append_nil _
  refine ⟨(requested_iff [] (holds_start hbuf) hnul).mpr harr, hline [104, 101, 108] (by decide), ?_⟩
  have hdropped : selected [] [104, 101] = [] := selected_of_not_mem [] (by decide)
  have hkeep : keep [104, 101] = [] := by decide
  rw [grep_eq_written [] hbuf hnul harr, written, written, written, List.nil_append, hdropped, hkeep,
    List.nil_append, List.nil_append, List.append_nil]
  exact hline [108] (by decide)

end StrideXv6.Grep
