import StrideXv6.Shell.Grammar

set_option autoImplicit false

/-! # The words of a line

The words of a command are pointers into the line, and become strings when `nulterminate` writes a
NUL behind each of them. A word never ends inside of another (`IsWord.end_ne`), so each of them is
then the string that `gettoken` found (`cstring_terminate`).
-/

namespace StrideXv6.Shell

/-! ## Words that `gettoken` finds -/

/-- `b` is a word of the line `a ++ b ++ c`, as long as it can be, and `w` points to it. -/
structure IsWord (buf : Text) (w : Word) (a b c : Text) : Prop where
  buf_eq : buf = a ++ b ++ c
  chars : ∀ x ∈ b, wordChar x = true
  ends : ∀ x ∈ c.head?, wordChar x = false
  q_eq : w.q = b.length + c.length
  eq_eq : w.eq = c.length

variable {w : Word}

theorem IsWord.append {s : Text} {a b c : Text} (h : IsWord s w a b c) (p : Text) :
    IsWord (p ++ s) w (p ++ a) b c where
  __ := h
  buf_eq := by rw [h.buf_eq, List.append_assoc, List.append_assoc, List.append_assoc]

theorem isWord_scan {x : UInt8} {s : Text} (hx : blank x = false) (h : (scan x s).1 = .word w) :
    IsWord (x :: s) w [] (x :: s.takeWhile wordChar) (s.dropWhile wordChar) := by
  have hsym : x ∉ symbols := by
    intro hm
    have hfirst := scan_first x s
    rw [h, if_pos hm] at hfirst
    cases hfirst
  have hw : w = ⟨s.length + 1, (s.dropWhile wordChar).length⟩ := by
    simp only [symbols, List.mem_cons, List.not_mem_nil, or_false, not_or] at hsym
    simpa [scan, hsym] using h.symm
  have hlen := congrArg List.length (List.takeWhile_append_dropWhile (p := wordChar) (l := s))
  rw [List.length_append] at hlen
  refine ⟨?_, ?_, ?_, ?_, ?_⟩
  · rw [List.nil_append, List.cons_append, List.takeWhile_append_dropWhile]
  · intro y hy
    rcases List.mem_cons.mp hy with rfl | hy
    · have hb : y ∉ whitespace := by simpa [blank] using hx
      simp [wordChar, hsym, hb]
    · exact List.mem_takeWhile_imp hy
  · intro y hy
    have hend := List.head?_dropWhile_not wordChar s
    rw [Option.mem_def.mp hy] at hend
    exact hend
  · rw [hw, List.length_cons]
    dsimp only
    omega
  · rw [hw]

theorem suffix_scan (x : UInt8) (s : Text) : (scan x s).2 <:+ s := by
  unfold scan
  split_ifs <;> first | exact List.suffix_refl s | exact List.tail_suffix s |
    exact List.dropWhile_suffix wordChar

theorem isWord_of_mem {s : Text} (h : .word w ∈ tokens s) :
    ∃ a b c, IsWord s w a b c := by
  generalize hn : s.length = n
  induction n using Nat.strong_induction_on generalizing s with
  | _ n ih =>
    obtain ⟨p, hp⟩ : skip s <:+ s := List.dropWhile_suffix blank
    cases hs : skip s with
    | nil =>
      rw [tokens_eq_nil hs] at h
      cases h
    | cons x r =>
      have hg := gettoken_cons hs
      rw [hs] at hp
      rw [tokens_of_gettoken hg] at h
      rcases List.mem_cons.mp h with h | h
      · have hx : blank x = false := by
          have hend := List.head?_dropWhile_not blank s
          rw [show s.dropWhile blank = x :: r from hs] at hend
          exact hend
        exact ⟨_, _, _, hp ▸ (isWord_scan hx h.symm).append p⟩
      · obtain ⟨a, b, c, hw⟩ := ih _ (hn ▸ length_gettoken_lt hg) h rfl
        obtain ⟨p', hp'⟩ : skip (scan x r).2 <:+ x :: r :=
          ((List.dropWhile_suffix blank).trans (suffix_scan x r)).trans (List.suffix_cons x r)
        rw [← hp, ← hp']
        exact ⟨_, _, _, (hw.append p').append p⟩

variable {buf : Text}

/-- A word ends outside of every word. -/
theorem IsWord.end_ne {w w' : Word} {a b c a' b' c' : Text}
    (h : IsWord buf w a b c) (h' : IsWord buf w' a' b' c') {i : Nat} (hi : i < b.length) :
    buf.length - w'.eq ≠ a.length + i := by
  intro heq
  have hend : buf.length - w'.eq = (a' ++ b').length := by
    rw [h'.eq_eq, h'.buf_eq, List.length_append, Nat.add_sub_cancel]
  have hin : buf[a.length + i]? = some b[i] := by
    rw [h.buf_eq, List.append_assoc, List.getElem?_append_right (by omega), Nat.add_sub_cancel_left,
      List.getElem?_append_left hi, List.getElem?_eq_getElem hi]
  have hout : buf[(a' ++ b').length]? = c'.head? := by
    rw [h'.buf_eq, List.getElem?_append_right le_rfl, Nat.sub_self, List.head?_eq_getElem?]
  rw [← heq, hend, hout] at hin
  exact absurd (h.chars _ (List.getElem_mem hi)) (by rw [h'.ends _ hin]; exact Bool.false_ne_true)

/-! ## Words as strings -/

/-- The words that a command points to. -/
def Cmd.words : Cmd → List Word
  | .exec argv => argv
  | .redir cmd file _ _ => cmd.words ++ [file]
  | .pipe left right => left.words ++ right.words
  | .list left right => left.words ++ right.words
  | .back cmd => cmd.words

theorem nulterminate_eq (c : Cmd) (buf : Text) :
    nulterminate c buf = c.words.foldl terminate buf := by
  induction c generalizing buf with
  | exec argv => rfl
  | redir cmd file mode fd ih => rw [nulterminate, ih, Cmd.words, List.foldl_append]; rfl
  | pipe left right ihl ihr => rw [nulterminate, ihl, ihr, Cmd.words, List.foldl_append]
  | list left right ihl ihr => rw [nulterminate, ihl, ihr, Cmd.words, List.foldl_append]
  | back cmd ih => rw [nulterminate, ih, Cmd.words]

theorem length_terminate (ws : List Word) (buf : Text) :
    (ws.foldl terminate buf).length = buf.length := by
  induction ws generalizing buf with
  | nil => rfl
  | cons w ws ih => rw [List.foldl_cons, ih, terminate, List.length_set]

theorem getElem?_terminate (ws : List Word) (buf : Text) (i : Nat) :
    (ws.foldl terminate buf)[i]?
      = if ∃ w ∈ ws, buf.length - w.eq = i then buf[i]?.map (fun _ => 0) else buf[i]? := by
  induction ws generalizing buf with
  | nil => simp
  | cons w ws ih =>
    rw [List.foldl_cons, ih, terminate, List.length_set, List.getElem?_set]
    by_cases hw : buf.length - w.eq = i
    · subst hw
      by_cases hlt : buf.length - w.eq < buf.length <;> simp [hlt]
    · simp [hw]

/-- The string that a pointer with `q` characters behind it points to. -/
def cstring (buf : Text) (q : Nat) : Text := (buf.drop (buf.length - q)).takeWhile (· != 0)

/-- The characters between the two pointers. -/
def Word.text (buf : Text) (w : Word) : Text := (buf.drop (buf.length - w.q)).take (w.q - w.eq)

theorem IsWord.text_eq {a b c : Text} (h : IsWord buf w a b c) :
    w.text buf = b := by
  have hq : buf.length - w.q = a.length := by
    rw [h.q_eq, h.buf_eq, List.length_append, List.length_append]
    omega
  have hlen : w.q - w.eq = b.length := by
    rw [h.q_eq, h.eq_eq, Nat.add_sub_cancel]
  rw [Word.text, hq, hlen, h.buf_eq, List.append_assoc, List.drop_left, List.take_left]

/-- Once every word is terminated, each of them is a string. -/
theorem cstring_terminate {ws : List Word} (h0 : 0 ∉ buf)
    (hws : ∀ w ∈ ws, ∃ a b c, IsWord buf w a b c) (hw : w ∈ ws) :
    cstring (ws.foldl terminate buf) w.q = w.text buf := by
  obtain ⟨a, b, c, h⟩ := hws w hw
  have hbuf := h.buf_eq
  have hq : buf.length - w.q = a.length := by
    rw [h.q_eq, hbuf, List.length_append, List.length_append]
    omega
  have heq : buf.length - w.eq = a.length + b.length := by
    rw [h.eq_eq, hbuf, List.length_append, List.length_append]
    omega
  rw [h.text_eq, cstring, length_terminate, hq,
    ← List.take_append_drop b.length ((ws.foldl terminate buf).drop a.length), List.drop_drop]
  -- no terminator is inside the word, and one is behind it
  have hin : ((ws.foldl terminate buf).drop a.length).take b.length = b := by
    refine List.ext_getElem? fun i => ?_
    by_cases hi : i < b.length
    · have hno : ¬ ∃ w' ∈ ws, buf.length - w'.eq = a.length + i := by
        rintro ⟨w', hw', he⟩
        obtain ⟨a', b', c', h'⟩ := hws w' hw'
        exact h.end_ne h' hi he
      rw [List.getElem?_take_of_lt hi, List.getElem?_drop, getElem?_terminate, if_neg hno, hbuf,
        List.append_assoc, List.getElem?_append_right (by omega), Nat.add_sub_cancel_left,
        List.getElem?_append_left hi]
    · rw [List.getElem?_take_eq_none (by omega), List.getElem?_eq_none (by omega)]
  have hend : ∀ x ∈ ((ws.foldl terminate buf).drop (a.length + b.length)).head?, x = 0 := by
    intro x hx
    rw [List.head?_drop, getElem?_terminate, if_pos ⟨w, hw, heq⟩] at hx
    obtain ⟨-, -, rfl⟩ := Option.map_eq_some_iff.mp hx
    rfl
  have hb : ∀ x ∈ b, (x != 0) = true := by
    intro x hx
    rw [bne_iff_ne]
    rintro rfl
    exact h0 (hbuf ▸ List.mem_append_left c (List.mem_append_right a hx))
  rw [hin, List.takeWhile_append_of_pos hb]
  cases hrest : (ws.foldl terminate buf).drop (a.length + b.length) with
  | nil => rw [List.takeWhile_nil, List.append_nil]
  | cons x r =>
    have hx : x = 0 := hend x (by rw [hrest]; rfl)
    rw [hx, List.takeWhile_cons_of_neg (by decide), List.append_nil]

theorem mem_words_redirs {rs : List Redir} {c : Cmd}
    (h : w ∈ (rs.foldl Redir.cmd c).words) : w ∈ c.words ∨ .word w ∈ rs.flatMap Redir.yield := by
  induction rs generalizing c with
  | nil => exact Or.inl h
  | cons r rs ih =>
    rw [List.flatMap_cons, List.mem_append]
    rcases ih h with h | h
    · have hr : (Redir.cmd c r).words = c.words ++ [r.file] := by
        cases r with
        | mk op file => cases op <;> rfl
      rw [hr, List.mem_append, List.mem_singleton] at h
      rcases h with h | rfl
      · exact Or.inl h
      · exact Or.inr (Or.inl (by simp [Redir.yield]))
    · exact Or.inr (Or.inr h)

theorem words_back (m : Nat) (c : Cmd) : (Cmd.back^[m] c).words = c.words := by
  induction m generalizing c with
  | zero => rfl
  | succ m ih => rw [Function.iterate_succ_apply, ih]; rfl

/-- The command has its words from the tokens. -/
theorem Tree.word_mem_yield {nt : NT} {t : Tree nt} (h : w ∈ t.cmd.words) :
    .word w ∈ t.yield := by
  induction t with
  | block l rs ih =>
    rcases mem_words_redirs h with h | h
    · simp [Tree.yield, ih h]
    · simp [Tree.yield, h]
  | simple rs args =>
    rw [Tree.yield, List.mem_append]
    rcases mem_words_redirs h with h | h
    · obtain ⟨a, ha, rfl⟩ := List.mem_map.mp h
      exact Or.inr (List.mem_flatMap.mpr ⟨a, ha, List.mem_cons_self⟩)
    · rw [List.flatMap_append, List.mem_append] at h
      refine h.imp id fun h => ?_
      obtain ⟨r, hr, h⟩ := List.mem_flatMap.mp h
      obtain ⟨a, ha, hra⟩ := List.mem_flatMap.mp hr
      exact List.mem_flatMap.mpr
        ⟨a, ha, List.mem_cons_of_mem _ (List.mem_flatMap.mpr ⟨r, hra, h⟩)⟩
  | one e ih => exact ih h
  | pipe e p ihe ihp =>
    rcases List.mem_append.mp h with h | h
    · simp [Tree.yield, ihe h]
    · simp [Tree.yield, ihp h]
  | last p m ih =>
    rw [Tree.cmd, words_back] at h
    simp [Tree.yield, ih h]
  | seq p m l ihp ihl =>
    rcases List.mem_append.mp h with h | h
    · rw [words_back] at h
      simp [Tree.yield, ihp h]
    · simp [Tree.yield, ihl h]

end StrideXv6.Shell
