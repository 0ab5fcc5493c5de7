import StrideXv6.Shell.Parser

set_option autoImplicit false

/-! # The grammar of the shell

    line   ::= pipe '&'* [';' line]
    pipe   ::= exec ['|' pipe]
    exec   ::= '(' line ')' redirs | redirs (word redirs)*
    redirs ::= (('<' | '>' | '>>') word)*

A `Tree` is a derivation, with the tokens it derives (`Tree.yield`) and the command it stands for
(`Tree.cmd`). The grammar is unambiguous, also for a line that is followed by something which
cannot belong to it (`Tree.unique`).
-/

namespace StrideXv6.Shell

/-! ## Redirections -/

inductive RedirOp where
  | lt
  | gt
  | append
  deriving DecidableEq

def RedirOp.token : RedirOp → Token
  | .lt => .lt
  | .gt => .gt
  | .append => .append

structure Redir where
  op : RedirOp
  file : Word
  deriving DecidableEq

def Redir.yield (r : Redir) : List Token := [r.op.token, .word r.file]

/-- The command with a redirection around it. -/
def Redir.cmd (c : Cmd) (r : Redir) : Cmd :=
  match r.op with
  | .lt => .redir c r.file Fs.O_RDONLY 0
  | .gt => .redir c r.file (Fs.O_WRONLY ||| Fs.O_CREATE) 1
  | .append => .redir c r.file (Fs.O_WRONLY ||| Fs.O_CREATE) 1

/-- A word of a command, and the redirections behind it. -/
structure Arg where
  word : Word
  redirs : List Redir
  deriving DecidableEq

def Arg.yield (a : Arg) : List Token := .word a.word :: a.redirs.flatMap Redir.yield

/-! ## Trees -/

inductive NT where
  | line
  | pipe
  | exec

inductive Tree : NT → Type where
  | block (l : Tree .line) (redirs : List Redir) : Tree .exec
  | simple (redirs : List Redir) (args : List Arg) : Tree .exec
  | one (e : Tree .exec) : Tree .pipe
  | pipe (e : Tree .exec) (p : Tree .pipe) : Tree .pipe
  | last (p : Tree .pipe) (amps : Nat) : Tree .line
  | seq (p : Tree .pipe) (amps : Nat) (l : Tree .line) : Tree .line

namespace Tree

def yield : {n : NT} → Tree n → List Token
  | _, .block l redirs => .lparen :: l.yield ++ .rparen :: redirs.flatMap Redir.yield
  | _, .simple redirs args => redirs.flatMap Redir.yield ++ args.flatMap Arg.yield
  | _, .one e => e.yield
  | _, .pipe e p => e.yield ++ .pipe :: p.yield
  | _, .last p amps => p.yield ++ List.replicate amps .amp
  | _, .seq p amps l => p.yield ++ List.replicate amps .amp ++ .semi :: l.yield

/-- Redirections and `&` are put around a command in the order of the input. -/
def cmd : {n : NT} → Tree n → Cmd
  | _, .block l redirs => redirs.foldl Redir.cmd l.cmd
  | _, .simple redirs args =>
    (redirs ++ args.flatMap Arg.redirs).foldl Redir.cmd (.exec (args.map Arg.word))
  | _, .one e => e.cmd
  | _, .pipe e p => .pipe e.cmd p.cmd
  | _, .last p amps => Cmd.back^[amps] p.cmd
  | _, .seq p amps l => .list (Cmd.back^[amps] p.cmd) l.cmd

/-- No command has more words than `MAXARGS - 1`. -/
def Fits : {n : NT} → Tree n → Prop
  | _, .block l _ => l.Fits
  | _, .simple _ args => args.length ≤ MAXARGS - 1
  | _, .one e => e.Fits
  | _, .pipe e p => e.Fits ∧ p.Fits
  | _, .last p _ => p.Fits
  | _, .seq p _ l => p.Fits ∧ l.Fits

end Tree

/-! ## The grammar is unambiguous -/

/-- What can follow an `exec`, a `pipe` and a `line`: each of them goes on as far as it can. -/
def NT.follow : NT → List Token
  | .line => [.rparen]
  | .pipe => [.rparen, .amp, .semi]
  | .exec => [.rparen, .amp, .semi, .pipe]

/-- The tokens `k` end a part of kind `n`. -/
def Ends (n : NT) (k : List Token) : Prop := ∀ t ∈ k.head?, t ∈ n.follow

theorem ends_nil (n : NT) : Ends n [] := by simp [Ends]

variable {k : List Token} {n : NT}

theorem ends_cons {t : Token} : Ends n (t :: k) ↔ t ∈ n.follow := by
  simp [Ends]

/-- The tokens `k` do not go on with a redirection. -/
def NoRedir (k : List Token) : Prop := ∀ (op : RedirOp), k.head? ≠ some op.token

/-- The tokens `k` do not go on with a word. -/
def NoWord (k : List Token) : Prop := ∀ w, k.head? ≠ some (.word w)

theorem Ends.noRedir (h : Ends n k) : NoRedir k := by
  intro op hop
  have := h _ hop
  cases n <;> cases op <;> simp [NT.follow, RedirOp.token] at this

theorem Ends.noWord (h : Ends n k) : NoWord k := by
  intro w hw
  have := h _ hw
  cases n <;> simp [NT.follow] at this

theorem redirOp_token_inj {a b : RedirOp} (h : a.token = b.token) : a = b := by
  cases a <;> cases b <;> first | rfl | cases h

theorem redirs_unique {rs rs' : List Redir} {k k' : List Token}
    (h : rs.flatMap Redir.yield ++ k = rs'.flatMap Redir.yield ++ k') (hk : NoRedir k)
    (hk' : NoRedir k') : rs = rs' ∧ k = k' := by
  induction rs generalizing rs' with
  | nil =>
    cases rs' with
    | nil => exact ⟨rfl, h⟩
    | cons r' rs' =>
      rw [List.flatMap_nil, List.nil_append] at h
      exact absurd (by rw [h]; rfl) (hk r'.op)
  | cons r rs ih =>
    cases rs' with
    | nil =>
      rw [List.flatMap_nil, List.nil_append] at h
      exact absurd (by rw [← h]; rfl) (hk' r.op)
    | cons r' rs' =>
      obtain ⟨hop, hrest⟩ := List.cons.inj h
      obtain ⟨hfile, hrest⟩ := List.cons.inj hrest
      obtain ⟨rfl, rfl⟩ := ih hrest
      have hr : r = r' := by
        cases r
        cases r'
        rw [Redir.mk.injEq]
        exact ⟨redirOp_token_inj hop, Token.word.inj hfile⟩
      rw [hr]
      exact ⟨rfl, rfl⟩

theorem noRedir_args {args : List Arg} (hk : NoRedir k) :
    NoRedir (args.flatMap Arg.yield ++ k) := by
  cases args with
  | nil => exact hk
  | cons a args =>
    intro op hop
    cases op <;> simp [Arg.yield, RedirOp.token] at hop

theorem args_unique {as bs : List Arg} {k k' : List Token}
    (h : as.flatMap Arg.yield ++ k = bs.flatMap Arg.yield ++ k') (hr : NoRedir k)
    (hr' : NoRedir k') (hw : NoWord k) (hw' : NoWord k') : as = bs ∧ k = k' := by
  induction as generalizing bs with
  | nil =>
    cases bs with
    | nil => exact ⟨rfl, h⟩
    | cons b bs =>
      rw [List.flatMap_nil, List.nil_append] at h
      exact absurd (by rw [h]; rfl) (hw b.word)
  | cons a as ih =>
    cases bs with
    | nil =>
      rw [List.flatMap_nil, List.nil_append] at h
      exact absurd (by rw [← h]; rfl) (hw' a.word)
    | cons b bs =>
      rw [List.flatMap_cons, List.flatMap_cons, List.append_assoc, List.append_assoc] at h
      obtain ⟨h1, h2⟩ := List.cons.inj h
      obtain ⟨h3, h4⟩ := redirs_unique h2 (noRedir_args hr) (noRedir_args hr')
      obtain ⟨rfl, rfl⟩ := ih h4
      have hab : a = b := by
        cases a
        cases b
        rw [Arg.mk.injEq]
        exact ⟨Token.word.inj h1, h3⟩
      rw [hab]
      exact ⟨rfl, rfl⟩

theorem amps_unique {m n : Nat} {k k' : List Token}
    (h : List.replicate m Token.amp ++ k = List.replicate n Token.amp ++ k')
    (hk : k.head? ≠ some .amp) (hk' : k'.head? ≠ some .amp) : m = n ∧ k = k' := by
  induction m generalizing n with
  | zero =>
    cases n with
    | zero => exact ⟨rfl, h⟩
    | succ n => exact absurd (by rw [show k = _ from h]; rfl) hk
  | succ m ih =>
    cases n with
    | zero => exact absurd (by rw [← show _ = k' from h]; rfl) hk'
    | succ n =>
      obtain ⟨rfl, rfl⟩ := ih (List.cons.inj h).2
      exact ⟨rfl, rfl⟩

/-- A simple command does not start with a parenthesis. -/
theorem simple_ne_lparen {redirs : List Redir} {args : List Arg} {k ts : List Token}
    (hk : Ends .exec k) : (Tree.simple redirs args).yield ++ k ≠ .lparen :: ts := by
  intro h
  cases redirs with
  | cons r redirs =>
    have hr := (List.cons.inj h).1
    cases hop : r.op <;> rw [hop] at hr <;> cases hr
  | nil =>
    cases args with
    | cons a args => cases (List.cons.inj h).1
    | nil =>
      have := hk .lparen (by rw [show k = _ from h]; rfl)
      simp [NT.follow] at this

theorem Ends.mono {n n' : NT} (h : Ends n k) (hsub : n.follow ⊆ n'.follow) :
    Ends n' k := fun t ht => hsub (h t ht)

theorem Ends.head_ne {t : Token} (h : Ends n k) (ht : t ∉ n.follow) :
    k.head? ≠ some t := fun he => ht (h t he)

theorem ends_amps (hk : Ends .line k ∨ ∃ ts, k = .semi :: ts) (m : Nat) :
    Ends .pipe (List.replicate m .amp ++ k) := by
  cases m with
  | succ m => exact ends_cons.mpr (by decide)
  | zero =>
    rcases hk with hk | ⟨ts, rfl⟩
    · exact hk.mono (by decide)
    · exact ends_cons.mpr (by decide)

/-- **The grammar is unambiguous.** -/
theorem Tree.unique (t : Tree n) (t' : Tree n) {k k' : List Token}
    (h : t.yield ++ k = t'.yield ++ k') (hk : Ends n k) (hk' : Ends n k') : t = t' ∧ k = k' := by
  induction t generalizing k k' with
  | block l redirs ih =>
    cases t' with
    | simple redirs' args' => exact absurd h.symm (simple_ne_lparen hk')
    | block l' redirs' =>
      simp only [yield, List.cons_append, List.append_assoc, List.cons.injEq, true_and] at h
      obtain ⟨rfl, hrest⟩ := ih l' h (ends_cons.mpr (by decide)) (ends_cons.mpr (by decide))
      obtain ⟨rfl, rfl⟩ := redirs_unique (List.cons.inj hrest).2 hk.noRedir hk'.noRedir
      exact ⟨rfl, rfl⟩
  | simple redirs args =>
    cases t' with
    | block l' redirs' => exact absurd h (simple_ne_lparen hk)
    | simple redirs' args' =>
      simp only [yield, List.append_assoc] at h
      obtain ⟨rfl, hrest⟩ := redirs_unique h (noRedir_args hk.noRedir)
        (noRedir_args hk'.noRedir)
      obtain ⟨rfl, rfl⟩ := args_unique hrest hk.noRedir hk'.noRedir hk.noWord hk'.noWord
      exact ⟨rfl, rfl⟩
  | one e ih =>
    cases t' with
    | one e' =>
      obtain ⟨rfl, rfl⟩ := ih e' h (hk.mono (by decide)) (hk'.mono (by decide))
      exact ⟨rfl, rfl⟩
    | pipe e' p' =>
      simp only [yield, List.append_assoc, List.cons_append] at h
      obtain ⟨-, rfl⟩ := ih e' h (hk.mono (by decide)) (ends_cons.mpr (by decide))
      exact absurd (ends_cons.mp hk) (by decide)
  | pipe e p ihe ihp =>
    cases t' with
    | one e' =>
      simp only [yield, List.append_assoc, List.cons_append] at h
      obtain ⟨-, rfl⟩ := ihe e' h (ends_cons.mpr (by decide)) (hk'.mono (by decide))
      exact absurd (ends_cons.mp hk') (by decide)
    | pipe e' p' =>
      simp only [yield, List.append_assoc, List.cons_append] at h
      obtain ⟨rfl, hrest⟩ := ihe e' h (ends_cons.mpr (by decide)) (ends_cons.mpr (by decide))
      obtain ⟨rfl, rfl⟩ := ihp p' (List.cons.inj hrest).2 hk hk'
      exact ⟨rfl, rfl⟩
  | last p amps ih =>
    cases t' with
    | last p' amps' =>
      simp only [yield, List.append_assoc] at h
      obtain ⟨rfl, hrest⟩ := ih p' h (ends_amps (Or.inl hk) _) (ends_amps (Or.inl hk') _)
      obtain ⟨rfl, rfl⟩ := amps_unique hrest (hk.head_ne (by decide)) (hk'.head_ne (by decide))
      exact ⟨rfl, rfl⟩
    | seq p' amps' l' =>
      simp only [yield, List.append_assoc, List.cons_append] at h
      obtain ⟨-, hrest⟩ := ih p' h (ends_amps (Or.inl hk) _) (ends_amps (Or.inr ⟨_, rfl⟩) _)
      obtain ⟨-, rfl⟩ := amps_unique hrest (hk.head_ne (by decide)) (by simp)
      exact absurd (ends_cons.mp hk) (by decide)
  | seq p amps l ihp ihl =>
    cases t' with
    | last p' amps' =>
      simp only [yield, List.append_assoc, List.cons_append] at h
      obtain ⟨-, hrest⟩ := ihp p' h (ends_amps (Or.inr ⟨_, rfl⟩) _) (ends_amps (Or.inl hk') _)
      obtain ⟨-, rfl⟩ := amps_unique hrest (by simp) (hk'.head_ne (by decide))
      exact absurd (ends_cons.mp hk') (by decide)
    | seq p' amps' l' =>
      simp only [yield, List.append_assoc, List.cons_append] at h
      obtain ⟨rfl, hrest⟩ := ihp p' h (ends_amps (Or.inr ⟨_, rfl⟩) _)
        (ends_amps (Or.inr ⟨_, rfl⟩) _)
      obtain ⟨rfl, htail⟩ := amps_unique hrest (by simp) (by simp)
      obtain ⟨rfl, rfl⟩ := ihl l' (List.cons.inj htail).2 hk hk'
      exact ⟨rfl, rfl⟩

end StrideXv6.Shell
