import Mathlib.Data.List.DropRight
import Mathlib.Data.List.TakeWhile
import StrideXv6.Lib.Hoare
import StrideXv6.Fs.Sysfile

set_option autoImplicit false

/-! # The parser of the shell

`gettoken`, `peek` and the `parse` functions of `sh.c`, on a cursor into the input line. The
cursor is the text from there up to the end, so a pointer `q` of the source is the number of
characters behind it. The functions call each other in a circle, and get fuel for it; `need` says
how much is enough.

`tokens` is what `gettoken` returns when it is called again and again. Of the two functions that
move the cursor the parser only has to know how they act on the tokens (`peek_eq`, `token_nil`,
`token_cons`).
-/

namespace StrideXv6.Shell

open Hoare

/-! ## Tokens -/

/-- The text from a pointer up to the end of the line, without the NUL. -/
abbrev Text := List UInt8

/-- `" \t\r\n\v"` -/
def whitespace : List UInt8 := [32, 9, 13, 10, 11]

/-- `"<|>&;()"` -/
def symbols : List UInt8 := [60, 124, 62, 38, 59, 40, 41]

def blank (c : UInt8) : Bool := whitespace.contains c

def wordChar (c : UInt8) : Bool := !whitespace.contains c && !symbols.contains c

/-- The pointers `q` and `eq` to the start and the end of a word. -/
structure Word where
  q : Nat
  eq : Nat
  deriving DecidableEq

/-- The results of `gettoken`: `'a'` with the word, the symbols, and `'+'` for `>>`. -/
inductive Token where
  | word (w : Word)
  | pipe
  | lparen
  | rparen
  | semi
  | amp
  | lt
  | gt
  | append
  deriving DecidableEq

/-- `while(s < es && strchr(whitespace, *s)) s++;` -/
def skip (s : Text) : Text := s.dropWhile blank

/-- `gettoken` at a character that is not white space. -/
def scan (c : UInt8) (s : Text) : Token × Text :=
  if c = 124 then (.pipe, s)
  else if c = 40 then (.lparen, s)
  else if c = 41 then (.rparen, s)
  else if c = 59 then (.semi, s)
  else if c = 38 then (.amp, s)
  else if c = 60 then (.lt, s)
  else if c = 62 then (if s.head? = some 62 then (.append, s.tail) else (.gt, s))
  else (.word ⟨s.length + 1, (s.dropWhile wordChar).length⟩, s.dropWhile wordChar)

def gettoken (s : Text) : Option Token × Text :=
  match skip s with
  | [] => (none, [])
  | c :: s => (some (scan c s).1, skip (scan c s).2)

/-! ## The parser -/

def MAXARGS : Nat := 10

inductive Cmd where
  | exec (argv : List Word)
  | redir (cmd : Cmd) (file : Word) (mode fd : Nat)
  | pipe (left right : Cmd)
  | list (left right : Cmd)
  | back (cmd : Cmd)
  deriving DecidableEq

/-- The calls of `panic`. -/
inductive Stop where
  | outOfFuel
  | missingFile
  | parseblock
  | missingParen
  | tooManyArgs
  | badSyntax
  deriving DecidableEq

abbrev ParseM := StateT Text (Except Stop)

def peek (toks : List UInt8) : ParseM Bool := fun s =>
  .ok (match skip s with
    | [] => false
    | c :: _ => toks.contains c, skip s)

def token : ParseM (Option Token) := fun s => .ok (gettoken s)

/-- The `switch` of `parseredirs`. -/
def redircmd (cmd : Cmd) (file : Word) : Option Token → Cmd
  | some .lt => .redir cmd file Fs.O_RDONLY 0
  | some .gt => .redir cmd file (Fs.O_WRONLY ||| Fs.O_CREATE) 1
  | some .append => .redir cmd file (Fs.O_WRONLY ||| Fs.O_CREATE) 1
  | _ => cmd

def parseredirs : Nat → Cmd → ParseM Cmd
  | 0, _ => throw .outOfFuel
  | fuel + 1, cmd => do
    if ← peek [60, 62] then
      let tok ← token
      match ← token with
      | some (.word w) => parseredirs fuel (redircmd cmd w tok)
      | _ => throw .missingFile
    else return cmd

/-- Store a word in `argv` of the `execcmd`, around which redirections have been put. -/
def Cmd.addArg (w : Word) : Cmd → Cmd
  | .exec argv => .exec (argv ++ [w])
  | .redir cmd file mode fd => .redir (cmd.addArg w) file mode fd
  | cmd => cmd

/-- The loop of `parseexec`. -/
def parseargs : Nat → Nat → Cmd → ParseM Cmd
  | 0, _, _ => throw .outOfFuel
  | fuel + 1, argc, ret => do
    if ← peek [124, 41, 38, 59] then return ret
    else
      match ← token with
      | none => return ret
      | some (.word w) =>
        if argc + 1 ≥ MAXARGS then throw .tooManyArgs
        else
          let ret ← parseredirs fuel (ret.addArg w)
          parseargs fuel (argc + 1) ret
      | some _ => throw .badSyntax

/-- The loop of `parseline`. -/
def parseamps : Nat → Cmd → ParseM Cmd
  | 0, _ => throw .outOfFuel
  | fuel + 1, cmd => do
    if ← peek [38] then
      let _ ← token
      parseamps fuel (.back cmd)
    else return cmd

mutual

def parseline : Nat → ParseM Cmd
  | 0 => throw .outOfFuel
  | fuel + 1 => do
    let cmd ← parsepipe fuel
    let cmd ← parseamps fuel cmd
    if ← peek [59] then
      let _ ← token
      let rest ← parseline fuel
      return .list cmd rest
    else return cmd

def parsepipe : Nat → ParseM Cmd
  | 0 => throw .outOfFuel
  | fuel + 1 => do
    let cmd ← parseexec fuel
    if ← peek [124] then
      let _ ← token
      let rest ← parsepipe fuel
      return .pipe cmd rest
    else return cmd

def parseexec : Nat → ParseM Cmd
  | 0 => throw .outOfFuel
  | fuel + 1 => do
    if ← peek [40] then parseblock fuel
    else
      let ret ← parseredirs fuel (.exec [])
      parseargs fuel 0 ret

def parseblock : Nat → ParseM Cmd
  | 0 => throw .outOfFuel
  | fuel + 1 => do
    if ← peek [40] then
      let _ ← token
      let cmd ← parseline fuel
      if ← peek [41] then
        let _ ← token
        parseredirs fuel cmd
      else throw .missingParen
    else throw .parseblock

end

/-- `*eq = 0`, in the line `buf`; behind the last character there is a NUL already. -/
def terminate (buf : Text) (w : Word) : Text := buf.set (buf.length - w.eq) 0

def nulterminate : Cmd → Text → Text
  | .exec argv, buf => argv.foldl terminate buf
  | .redir cmd file _ _, buf => terminate (nulterminate cmd buf) file
  | .pipe left right, buf => nulterminate right (nulterminate left buf)
  | .list left right, buf => nulterminate right (nulterminate left buf)
  | .back cmd, buf => nulterminate cmd buf

/-- `parsecmd`, with the line as `nulterminate` leaves it. -/
def parsecmd (buf : Text) : Except Stop (Cmd × Text) := do
  let x ← parseline (4 * buf.length + 4) buf
  if skip x.2 = [] then return (x.1, nulterminate x.1 buf) else throw .badSyntax

/-! ## The tokens of a line -/

def lex : Nat → Text → List Token
  | 0, _ => []
  | fuel + 1, s =>
    match gettoken s with
    | (none, _) => []
    | (some t, s) => t :: lex fuel s

/-- What `gettoken` returns until the end of the line. -/
def tokens (s : Text) : List Token := lex s.length s

/-- The first character of a symbol. -/
def Token.first : Token → Option UInt8
  | .word _ => none
  | .pipe => some 124
  | .lparen => some 40
  | .rparen => some 41
  | .semi => some 59
  | .amp => some 38
  | .lt => some 60
  | .gt => some 62
  | .append => some 62

/-- The token is a symbol that starts with one of `toks`. -/
def Token.startsIn (toks : List UInt8) (t : Token) : Bool :=
  match t.first with
  | some c => toks.contains c
  | none => false

theorem length_skip_le (s : Text) : (skip s).length ≤ s.length := List.length_dropWhile_le ..

theorem length_scan_le (c : UInt8) (s : Text) : (scan c s).2.length ≤ s.length := by
  unfold scan
  split_ifs <;> simp [List.length_dropWhile_le]

theorem skip_skip (s : Text) : skip (skip s) = skip s := List.dropWhile_idempotent ..

variable {s : Text} {t : Token}

theorem length_gettoken_lt {s' : Text} (h : gettoken s = (some t, s')) :
    s'.length < s.length := by
  unfold gettoken at h
  have hle := length_skip_le s
  cases hs : skip s with
  | nil => rw [hs] at h; cases h
  | cons c r =>
    rw [hs] at h hle
    obtain ⟨-, rfl⟩ := Prod.mk.inj h
    have h1 := length_skip_le (scan c r).2
    have h2 := length_scan_le c r
    rw [List.length_cons] at hle
    omega

theorem lex_eq (fuel : Nat) (h : s.length ≤ fuel) : lex fuel s = tokens s := by
  have key : ∀ n fuel (s : Text), s.length ≤ n → n ≤ fuel → lex fuel s = lex n s := by
    intro n
    induction n with
    | zero =>
      intro fuel s hs _
      obtain rfl : s = [] := List.eq_nil_of_length_eq_zero (by omega)
      cases fuel <;> rfl
    | succ n ih =>
      intro fuel s hs hle
      obtain ⟨fuel, rfl⟩ : ∃ f, fuel = f + 1 := ⟨fuel - 1, by omega⟩
      rw [lex, lex]
      cases hg : gettoken s with
      | mk t s' =>
        cases t with
        | none => rfl
        | some t =>
          have hlt := length_gettoken_lt hg
          exact congrArg (t :: ·) (ih fuel s' (by omega) (by omega))
  exact key s.length fuel s le_rfl h

theorem tokens_of_gettoken {s s' : Text} (h : gettoken s = (some t, s')) :
    tokens s = t :: tokens s' := by
  have hlt := length_gettoken_lt h
  obtain ⟨n, hn⟩ : ∃ n, s.length = n + 1 := ⟨s.length - 1, by omega⟩
  rw [tokens, hn, lex, h]
  exact congrArg (t :: ·) (lex_eq n (by omega))

theorem gettoken_nil (h : skip s = []) : gettoken s = (none, []) := by
  rw [gettoken, h]

theorem gettoken_cons {s r : Text} {c : UInt8} (h : skip s = c :: r) :
    gettoken s = (some (scan c r).1, skip (scan c r).2) := by
  rw [gettoken, h]

theorem tokens_eq_nil (h : skip s = []) : tokens s = [] := by
  unfold tokens
  cases s.length with
  | zero => rfl
  | succ n => rw [lex, gettoken_nil h]

theorem tokens_skip (s : Text) : tokens (skip s) = tokens s := by
  cases h : skip s with
  | nil => rw [tokens_eq_nil h]; rfl
  | cons c r =>
    rw [tokens_of_gettoken (gettoken_cons h), tokens_of_gettoken (gettoken_cons (s := c :: r) ?_)]
    rw [← h, skip_skip, h]

/-- `gettoken` at the end of the line. -/
theorem token_nil (h : tokens s = []) : token s = .ok (none, []) ∧ skip s = [] := by
  cases hs : skip s with
  | nil => exact ⟨by rw [token, gettoken_nil hs], rfl⟩
  | cons c r =>
    rw [tokens_of_gettoken (gettoken_cons hs)] at h
    cases h

/-- `gettoken` takes the first token. -/
theorem token_cons {ts : List Token} (h : tokens s = t :: ts) :
    ∃ s', token s = .ok (some t, s') ∧ tokens s' = ts ∧ s'.length < s.length := by
  cases hs : skip s with
  | nil =>
    rw [tokens_eq_nil hs] at h
    cases h
  | cons c r =>
    have hg := gettoken_cons hs
    rw [tokens_of_gettoken hg] at h
    obtain ⟨h1, h2⟩ := List.cons.inj h
    refine ⟨_, ?_, h2, length_gettoken_lt hg⟩
    rw [token, hg, h1]

theorem scan_first (c : UInt8) (s : Text) :
    (scan c s).1.first = if c ∈ symbols then some c else none := by
  unfold scan
  split_ifs <;> simp_all [Token.first, symbols]

/-- `peek` looks at the first token. -/
theorem peek_eq {toks : List UInt8} (htoks : toks.all symbols.contains = true) (s : Text) :
    peek toks s = .ok ((tokens s).head?.any (Token.startsIn toks), skip s) := by
  unfold peek
  cases hs : skip s with
  | nil => rw [tokens_eq_nil hs]; rfl
  | cons c r =>
    rw [tokens_of_gettoken (gettoken_cons hs), List.head?_cons, Option.any_some,
      Token.startsIn, scan_first]
    by_cases hc : c ∈ symbols
    · rw [if_pos hc]
    · rw [if_neg hc]
      have hn : toks.contains c = false := by
        have hall := List.all_eq_true.mp htoks
        simpa using fun hm => hc (List.contains_iff_mem.mp (hall c hm))
      dsimp only
      rw [hn]

end StrideXv6.Shell
