import StrideXv6.Shell.Words

set_option autoImplicit false

/-! # The parser accepts the grammar

The fuel of `need` is enough for every line, and what the parser accepts is derived by a tree whose
command it returns (`sound`). It accepts whatever a tree derives (`Tree.complete`). `parsecmd_iff`
puts it together.
-/

namespace StrideXv6.Shell

open Hoare

/-! ## Looking at the next token -/

theorem startsIn_redir {t : Token} : t.startsIn [60, 62] = true ↔ ∃ op : RedirOp, t = op.token := by
  constructor
  · intro h
    cases t <;> first | (cases h; done) | exact ⟨.lt, rfl⟩ | exact ⟨.gt, rfl⟩ | exact ⟨.append, rfl⟩
  · rintro ⟨op, rfl⟩
    cases op <;> rfl

/-- The tokens from the cursor on are `ts`, and there are at most `n` characters. -/
def At (ts : List Token) (n : Nat) (s : Text) : Prop := tokens s = ts ∧ s.length ≤ n

variable {ts k : List Token} {n : Nat} {t : Token}

theorem peek_spec {toks : List UInt8} (htoks : toks.all symbols.contains = true) :
    Triple (At ts n) (peek toks)
      (fun b s => b = ts.head?.any (Token.startsIn toks) ∧ At ts n s) fun _ => False := by
  refine triple_of_forall fun s hs => triple_exact (peek_eq htoks s) ?_
  exact ⟨by rw [hs.1], (tokens_skip s).trans hs.1, (length_skip_le s).trans hs.2⟩

theorem token_spec_nil :
    Triple (At [] n) token (fun r s => r = none ∧ At [] n s) fun _ => False := by
  refine triple_of_forall fun s hs => triple_exact (token_nil hs.1).1 ?_
  exact ⟨rfl, rfl, Nat.zero_le n⟩

theorem token_spec :
    Triple (At (t :: ts) n) token (fun r s => r = some t ∧ At ts (n - 1) s ∧ 0 < n)
      fun _ => False := by
  refine triple_of_forall fun s hs => ?_
  obtain ⟨s', h, htok, hlen⟩ := token_cons hs.1
  have hle := hs.2
  exact triple_exact h ⟨rfl, ⟨htok, by omega⟩, by omega⟩

section Rules

variable {α : Type} {Q : α → Text → Prop} {E : Stop → Prop}

/-- A test of the next token, with a branch for each outcome. -/
theorem triple_peek {toks : List UInt8} {yes no : ParseM α}
    (htoks : toks.all symbols.contains = true)
    (hyes : ∀ t ts', ts = t :: ts' → t.startsIn toks = true → Triple (At (t :: ts') n) yes Q E)
    (hno : ts.head?.any (Token.startsIn toks) = false → Triple (At ts n) no Q E) :
    Triple (At ts n) (peek toks >>= fun b => if b = true then yes else no) Q E := by
  refine triple_bind (triple_conseq (peek_spec htoks) (fun _ h => h) (fun _ _ h => h)
    fun _ h => h.elim) fun b => ?_
  refine triple_of_forall fun s hs => ?_
  obtain ⟨hb, hat⟩ := hs
  cases hts : ts.head?.any (Token.startsIn toks) with
  | false =>
    rw [hb, hts, if_neg Bool.false_ne_true]
    exact triple_conseq (hno hts) (fun x hx => hx ▸ hat) (fun _ _ h => h) fun _ h => h
  | true =>
    cases ts with
    | nil => cases hts
    | cons t ts' =>
      rw [hb, hts, if_pos rfl]
      exact triple_conseq (hyes t ts' rfl hts) (fun x hx => hx ▸ hat) (fun _ _ h => h)
        fun _ h => h

/-- Taking a token that is there. -/
theorem triple_token {f : Option Token → ParseM α}
    (h : 0 < n → Triple (At ts (n - 1)) (f (some t)) Q E) :
    Triple (At (t :: ts) n) (token >>= f) Q E := by
  refine triple_bind (triple_conseq token_spec (fun _ h => h) (fun _ _ h => h)
    fun _ h => h.elim) fun r => ?_
  refine triple_of_forall fun s hs => ?_
  obtain ⟨rfl, hat, hn⟩ := hs
  exact triple_conseq (h hn) (fun x hx => hx ▸ hat) (fun _ _ h => h) fun _ h => h

/-- Taking a token at the end. -/
theorem triple_token_nil {f : Option Token → ParseM α}
    (h : Triple (At [] n) (f none) Q E) : Triple (At [] n) (token >>= f) Q E := by
  refine triple_bind (triple_conseq token_spec_nil (fun _ h => h) (fun _ _ h => h)
    fun _ h => h.elim) fun r => ?_
  refine triple_of_forall fun s hs => ?_
  obtain ⟨rfl, hat⟩ := hs
  exact triple_conseq h (fun x hx => hx ▸ hat) (fun _ _ h => h) fun _ h => h

theorem triple_return {a : α} (h : ∀ s, At ts n s → Q a s) :
    Triple (At ts n) (pure a : ParseM α) Q E :=
  triple_of_forall fun s hs => triple_exact rfl (h s hs)

theorem triple_throw {e : Stop} (h : E e) : Triple (At ts n) (throw e : ParseM α) Q E :=
  triple_of_forall fun _ _ => triple_fail rfl h

end Rules

/-! ## What is accepted is derived -/

/-- The command of a redirection is built by the `switch` of `parseredirs`. -/
theorem redircmd_token (c : Cmd) (r : Redir) : redircmd c r.file (some r.op.token) = r.cmd c := by
  cases r with
  | mk op file => cases op <;> rfl

theorem parseredirs_sound (fuel : Nat) (cmd : Cmd) (ts : List Token) (n : Nat) (h : n < fuel) :
    Triple (At ts n) (parseredirs fuel cmd)
      (fun c s => ∃ rs : List Redir, ∃ k, ts = rs.flatMap Redir.yield ++ k ∧ At k n s ∧
        c = rs.foldl Redir.cmd cmd) (· ≠ .outOfFuel) := by
  induction fuel generalizing cmd ts n with
  | zero => omega
  | succ fuel ih =>
    refine triple_peek rfl ?_ fun _ => triple_return fun s hs => ⟨[], ts, rfl, hs, rfl⟩
    rintro t ts' rfl ht
    obtain ⟨op, rfl⟩ := startsIn_redir.mp ht
    refine triple_token fun hn => ?_
    cases ts' with
    | nil => exact triple_token_nil (triple_throw (by decide))
    | cons t' ts' =>
      refine triple_token fun hn' => ?_
      cases t' with
      | word w =>
        refine (ih _ ts' (n - 1 - 1) (by omega)).post ?_
        rintro c s ⟨rs, k, rfl, hat, rfl⟩
        refine ⟨⟨op, w⟩ :: rs, k, rfl, ⟨hat.1, by have := hat.2; omega⟩, ?_⟩
        rw [List.foldl_cons, ← redircmd_token]
      | _ => exact triple_throw (by decide)

/-- A word is stored and the redirections behind it are put around the command. -/
def Arg.cmd (c : Cmd) (a : Arg) : Cmd := a.redirs.foldl Redir.cmd (c.addArg a.word)

theorem addArg_redirs (rs : List Redir) (c : Cmd) (w : Word) :
    (rs.foldl Redir.cmd c).addArg w = rs.foldl Redir.cmd (c.addArg w) := by
  induction rs generalizing c with
  | nil => rfl
  | cons r rs ih =>
    rw [List.foldl_cons, List.foldl_cons, ih]
    cases r with
    | mk op file => cases op <;> rfl

/-- The command that `parseexec` builds word by word. -/
theorem foldl_args (args : List Arg) (rs : List Redir) (ws : List Word) :
    args.foldl Arg.cmd (rs.foldl Redir.cmd (.exec ws))
      = (rs ++ args.flatMap Arg.redirs).foldl Redir.cmd (.exec (ws ++ args.map Arg.word)) := by
  induction args generalizing rs ws with
  | nil => rw [List.flatMap_nil, List.map_nil, List.append_nil, List.append_nil]; rfl
  | cons a args ih =>
    have ha : Arg.cmd (rs.foldl Redir.cmd (.exec ws)) a
        = (rs ++ a.redirs).foldl Redir.cmd (.exec (ws ++ [a.word])) := by
      rw [Arg.cmd, addArg_redirs, List.foldl_append]
      rfl
    rw [List.foldl_cons, ha, ih, List.flatMap_cons, List.map_cons, List.append_assoc,
      List.append_assoc]
    rfl

theorem parseargs_sound (fuel argc : Nat) (ret : Cmd) (ts : List Token) (n : Nat) (h : n < fuel)
    (hargc : argc < MAXARGS) :
    Triple (At ts n) (parseargs fuel argc ret)
      (fun c s => ∃ args : List Arg, ∃ k, ts = args.flatMap Arg.yield ++ k ∧ At k n s ∧
        argc + args.length < MAXARGS ∧ c = args.foldl Arg.cmd ret) (· ≠ .outOfFuel) := by
  induction fuel generalizing argc ret ts n with
  | zero => omega
  | succ fuel ih =>
    have hstop : ∀ (n : Nat) (ts : List Token) (s : Text), At ts n s →
        ∃ args : List Arg, ∃ k, ts = args.flatMap Arg.yield ++ k ∧ At k n s ∧
          argc + args.length < MAXARGS ∧ ret = args.foldl Arg.cmd ret :=
      fun n ts s hs => ⟨[], ts, rfl, hs, hargc, rfl⟩
    refine triple_peek rfl ?_ fun _ => ?_
    · rintro t ts' rfl -
      exact triple_return (hstop n _)
    cases ts with
    | nil => exact triple_token_nil (triple_return (hstop n _))
    | cons t ts =>
      refine triple_token fun hn => ?_
      cases t with
      | word w =>
        by_cases hmany : argc + 1 ≥ MAXARGS
        · dsimp only
          rw [if_pos hmany]
          exact triple_throw (by decide)
        · dsimp only
          rw [if_neg hmany]
          refine triple_bind (parseredirs_sound fuel _ ts (n - 1) (by omega)) fun c => ?_
          refine triple_of_forall fun s hs => ?_
          obtain ⟨rs, k, rfl, hat, rfl⟩ := hs
          refine triple_conseq (ih (argc + 1) _ k (n - 1) (by omega) (by omega))
            (fun x hx => hx ▸ hat) ?_ fun _ he => he
          rintro c s ⟨args, k', rfl, hat', hle, rfl⟩
          refine ⟨⟨w, rs⟩ :: args, k', ?_, ⟨hat'.1, by have := hat'.2; omega⟩, ?_, rfl⟩
          · rw [List.flatMap_cons, List.append_assoc]
            rfl
          · rw [List.length_cons]
            omega
      | _ => exact triple_throw (by decide)

theorem startsIn_amp {t : Token} : t.startsIn [38] = true ↔ t = .amp := by
  cases t <;> simp [Token.startsIn, Token.first]

theorem parseamps_sound (fuel : Nat) (cmd : Cmd) (ts : List Token) (n : Nat) (h : n < fuel) :
    Triple (At ts n) (parseamps fuel cmd)
      (fun c s => ∃ m k, ts = List.replicate m .amp ++ k ∧ At k n s ∧ c = Cmd.back^[m] cmd)
      (· ≠ .outOfFuel) := by
  induction fuel generalizing cmd ts n with
  | zero => omega
  | succ fuel ih =>
    refine triple_peek rfl ?_ fun _ => triple_return fun s hs => ⟨0, ts, rfl, hs, rfl⟩
    rintro t ts' rfl ht
    obtain rfl := startsIn_amp.mp ht
    refine triple_token fun hn => ?_
    refine (ih _ ts' (n - 1) (by omega)).post ?_
    rintro c s ⟨m, k, rfl, hat, rfl⟩
    exact ⟨m + 1, k, rfl, ⟨hat.1, by have := hat.2; omega⟩, rfl⟩

/-- The function for each kind of part. -/
def parse : NT → Nat → ParseM Cmd
  | .line => parseline
  | .pipe => parsepipe
  | .exec => parseexec

/-- The fuel that is enough for `n` characters: after four calls one is taken. -/
def need : NT → Nat → Nat
  | .line, n => 4 * n + 4
  | .pipe, n => 4 * n + 3
  | .exec, n => 4 * n + 2

/-- The cursor has been moved over what a tree derives. -/
def Parsed (nt : NT) (ts : List Token) (n : Nat) (c : Cmd) (s : Text) : Prop :=
  ∃ t : Tree nt, ∃ k, ts = t.yield ++ k ∧ At k n s ∧ t.Fits ∧ c = t.cmd

theorem startsIn_semi {t : Token} : t.startsIn [59] = true ↔ t = .semi := by
  cases t <;> simp [Token.startsIn, Token.first]

theorem startsIn_pipe {t : Token} : t.startsIn [124] = true ↔ t = .pipe := by
  cases t <;> simp [Token.startsIn, Token.first]

theorem startsIn_lparen {t : Token} : t.startsIn [40] = true ↔ t = .lparen := by
  cases t <;> simp [Token.startsIn, Token.first]

theorem startsIn_rparen {t : Token} : t.startsIn [41] = true ↔ t = .rparen := by
  cases t <;> simp [Token.startsIn, Token.first]

/-- A part of kind `nt` is read first, and the rest goes on from there. -/
theorem Parsed.bind {nt : NT} {ts : List Token} {n fuel : Nat} {α : Type} {f : Cmd → ParseM α}
    {Q : α → Text → Prop}
    (h : Triple (At ts n) (parse nt fuel) (Parsed nt ts n) (· ≠ .outOfFuel))
    (hf : ∀ (t : Tree nt) k, ts = t.yield ++ k → t.Fits →
      Triple (At k n) (f t.cmd) Q (· ≠ .outOfFuel)) :
    Triple (At ts n) (parse nt fuel >>= f) Q (· ≠ .outOfFuel) := by
  refine triple_bind h fun c => triple_of_forall fun s hs => ?_
  obtain ⟨t, k, hts, hat, hfit, rfl⟩ := hs
  exact triple_conseq (hf t k hts hfit) (fun x hx => hx ▸ hat) (fun _ _ h => h) fun _ h => h

theorem at_mono {ts : List Token} {m n : Nat} (h : m ≤ n) (s : Text) (hs : At ts m s) : At ts n s :=
  ⟨hs.1, hs.2.trans h⟩

section Sound

variable {fuel : Nat} {ts : List Token} {n : Nat}

/-- Every part that needs at most `fuel` is read soundly. -/
def Sound (fuel : Nat) : Prop :=
  ∀ nt ts n, need nt n ≤ fuel →
    Triple (At ts n) (parse nt fuel) (Parsed nt ts n) (· ≠ .outOfFuel)

theorem parseblock_sound (ih : Sound fuel) (h : 4 * n ≤ fuel) :
    Triple (At ts n) (parseblock (fuel + 1)) (Parsed .exec ts n) (· ≠ .outOfFuel) := by
  rw [parseblock]
  refine triple_peek rfl ?_ fun _ => triple_throw (by decide)
  rintro t ts' rfl ht
  obtain rfl := startsIn_lparen.mp ht
  refine triple_token fun hn => ?_
  refine Parsed.bind (ih .line ts' (n - 1) (by simp only [need]; omega)) fun l k hts hfit => ?_
  refine triple_peek rfl ?_ fun _ => triple_throw (by decide)
  rintro t k' rfl ht'
  obtain rfl := startsIn_rparen.mp ht'
  refine triple_token fun hn' => ?_
  refine triple_conseq (parseredirs_sound fuel _ k' (n - 1 - 1) (by omega)) (fun _ h => h) ?_
    fun _ h => h
  rintro c s ⟨rs, k, rfl, hat, rfl⟩
  refine ⟨.block l rs, k, ?_, at_mono (by omega) s hat, hfit, rfl⟩
  rw [hts, Tree.yield, List.cons_append, List.cons_append, List.append_assoc, List.cons_append]

theorem parseexec_sound (ih : Sound fuel) (h : need .exec n ≤ fuel + 2) :
    Triple (At ts n) (parseexec (fuel + 2)) (Parsed .exec ts n) (· ≠ .outOfFuel) := by
  simp only [need] at h
  rw [parseexec]
  refine triple_peek rfl ?_ fun _ => ?_
  · rintro t ts' rfl -
    exact parseblock_sound ih (by omega)
  refine triple_bind (parseredirs_sound (fuel + 1) _ ts n (by omega)) fun c => ?_
  refine triple_of_forall fun s hs => ?_
  obtain ⟨rs, k, rfl, hat, rfl⟩ := hs
  refine triple_conseq (parseargs_sound (fuel + 1) 0 _ k n (by omega) (by decide))
    (fun x hx => hx ▸ hat) ?_ fun _ h => h
  rintro c s ⟨args, k', rfl, hat', hle, rfl⟩
  refine ⟨.simple rs args, k', ?_, hat', ?_, foldl_args args rs []⟩
  · rw [Tree.yield, List.append_assoc]
  · simp only [Tree.Fits]
    omega

theorem parsepipe_sound (ih : Sound fuel) (h : need .pipe n ≤ fuel + 1) :
    Triple (At ts n) (parsepipe (fuel + 1)) (Parsed .pipe ts n) (· ≠ .outOfFuel) := by
  simp only [need] at h
  rw [parsepipe]
  refine Parsed.bind (ih .exec ts n (by simp only [need]; omega)) fun e k hts hfit => ?_
  refine triple_peek rfl ?_ fun _ =>
    triple_return fun s hs => ⟨.one e, k, hts, hs, hfit, rfl⟩
  rintro t k' rfl ht
  obtain rfl := startsIn_pipe.mp ht
  refine triple_token fun hn => ?_
  refine Parsed.bind (ih .pipe k' (n - 1) (by simp only [need]; omega)) fun p k hk hfit' => ?_
  refine triple_return fun s hs =>
    ⟨.pipe e p, k, ?_, at_mono (by omega) s hs, ⟨hfit, hfit'⟩, rfl⟩
  rw [hts, hk, Tree.yield, List.append_assoc, List.cons_append]

theorem parseline_sound (ih : Sound fuel) (h : need .line n ≤ fuel + 1) :
    Triple (At ts n) (parseline (fuel + 1)) (Parsed .line ts n) (· ≠ .outOfFuel) := by
  simp only [need] at h
  rw [parseline]
  refine Parsed.bind (ih .pipe ts n (by simp only [need]; omega)) fun p k hts hfit => ?_
  refine triple_bind (parseamps_sound fuel _ k n (by omega)) fun c => ?_
  refine triple_of_forall fun s hs => ?_
  obtain ⟨m, k', rfl, hat, rfl⟩ := hs
  refine triple_conseq (P := At k' n) ?_ (fun x hx => hx ▸ hat) (fun _ _ h => h) fun _ h => h
  refine triple_peek rfl ?_ fun _ =>
    triple_return fun s hs => ⟨.last p m, k', ?_, hs, hfit, rfl⟩
  · rintro t k'' rfl ht
    obtain rfl := startsIn_semi.mp ht
    refine triple_token fun hn => ?_
    refine Parsed.bind (ih .line k'' (n - 1) (by simp only [need]; omega)) fun l k hk hfit' => ?_
    refine triple_return fun s hs =>
      ⟨.seq p m l, k, ?_, at_mono (by omega) s hs, ⟨hfit, hfit'⟩, rfl⟩
    rw [hts, hk, Tree.yield, List.append_assoc, List.append_assoc, List.cons_append]
  · rw [hts, Tree.yield, List.append_assoc]

theorem sound (fuel : Nat) : Sound fuel := by
  induction fuel using Nat.strong_induction_on with
  | _ fuel ih =>
    intro nt ts n h
    cases fuel with
    | zero => cases nt <;> cases h
    | succ fuel =>
      cases nt with
      | line => exact parseline_sound (ih fuel (by omega)) h
      | pipe => exact parsepipe_sound (ih fuel (by omega)) h
      | exec =>
        obtain ⟨f, rfl⟩ : ∃ f, fuel = f + 1 := ⟨fuel - 1, by simp only [need] at h; omega⟩
        exact parseexec_sound (ih f (by omega)) h

end Sound

/-! ## What is derived is accepted -/

section Complete

variable {α : Type} {ts k : List Token} {t : Token} {n : Nat} {Q : α → Text → Prop}
  {E : Stop → Prop} {toks : List UInt8} {yes no : ParseM α}

theorem triple_peek_yes (htoks : toks.all symbols.contains = true) (ht : t.startsIn toks = true)
    (h : Triple (At (t :: ts) n) yes Q E) :
    Triple (At (t :: ts) n) (peek toks >>= fun b => if b = true then yes else no) Q E := by
  refine triple_peek htoks (fun t' ts' heq _ => ?_) fun hno => ?_
  · cases heq
    exact h
  · exact absurd (ht.symm.trans hno) (by decide)

theorem triple_peek_no (htoks : toks.all symbols.contains = true)
    (ht : ∀ t ∈ ts.head?, t.startsIn toks ≠ true) (h : Triple (At ts n) no Q E) :
    Triple (At ts n) (peek toks >>= fun b => if b = true then yes else no) Q E := by
  refine triple_peek htoks (fun t ts' heq hyes => ?_) fun _ => h
  exact absurd hyes (ht t (by rw [heq]; rfl))

theorem parseredirs_complete (rs : List Redir) (fuel : Nat) (cmd : Cmd) (k : List Token) (n : Nat)
    (hk : NoRedir k) (h : n < fuel) :
    Triple (At (rs.flatMap Redir.yield ++ k) n) (parseredirs fuel cmd)
      (fun c s => c = rs.foldl Redir.cmd cmd ∧ At k n s) fun _ => False := by
  induction rs generalizing fuel cmd n with
  | nil =>
    obtain ⟨fuel, rfl⟩ : ∃ f, fuel = f + 1 := ⟨fuel - 1, by omega⟩
    refine triple_peek_no rfl (fun t ht hop => ?_) (triple_return fun s hs => ⟨rfl, hs⟩)
    obtain ⟨op, rfl⟩ := startsIn_redir.mp hop
    exact hk op ht
  | cons r rs ih =>
    obtain ⟨fuel, rfl⟩ : ∃ f, fuel = f + 1 := ⟨fuel - 1, by omega⟩
    refine triple_peek_yes rfl (startsIn_redir.mpr ⟨r.op, rfl⟩) ?_
    refine triple_token fun hn => triple_token fun hn' => ?_
    refine (ih fuel _ (n - 1 - 1) (by omega)).post ?_
    rintro c s ⟨rfl, hat⟩
    exact ⟨by rw [redircmd_token]; rfl, at_mono (by omega) s hat⟩

theorem parseargs_complete (args : List Arg) (fuel argc : Nat) (ret : Cmd) (k : List Token)
    (n : Nat) (hk : Ends .exec k) (hargc : argc + args.length < MAXARGS) (h : n < fuel) :
    Triple (At (args.flatMap Arg.yield ++ k) n) (parseargs fuel argc ret)
      (fun c s => c = args.foldl Arg.cmd ret ∧ At k n s) fun _ => False := by
  induction args generalizing fuel argc ret n with
  | nil =>
    obtain ⟨fuel, rfl⟩ : ∃ f, fuel = f + 1 := ⟨fuel - 1, by omega⟩
    cases k with
    | nil =>
      refine triple_peek_no rfl (fun t ht => absurd ht (by simp)) ?_
      exact triple_token_nil (triple_return fun s hs => ⟨rfl, hs⟩)
    | cons t k =>
      have ht : ∀ t ∈ NT.exec.follow, t.startsIn [124, 41, 38, 59] = true := by decide
      refine triple_peek_yes rfl (ht t (ends_cons.mp hk)) ?_
      exact triple_return fun s hs => ⟨rfl, hs⟩
  | cons a args ih =>
    obtain ⟨fuel, rfl⟩ : ∃ f, fuel = f + 1 := ⟨fuel - 1, by omega⟩
    rw [List.length_cons] at hargc
    have hmany : ¬ argc + 1 ≥ MAXARGS := by omega
    rw [List.flatMap_cons, List.append_assoc]
    refine triple_peek_no rfl (fun t ht => ?_) (triple_token fun hn => ?_)
    · cases ht
      exact Bool.false_ne_true
    dsimp only
    rw [if_neg hmany]
    refine triple_bind (parseredirs_complete a.redirs fuel _ _ (n - 1)
      (noRedir_args hk.noRedir) (by omega)) fun c => ?_
    refine triple_of_forall fun s hs => ?_
    obtain ⟨rfl, hat⟩ := hs
    refine triple_conseq (ih fuel (argc + 1) _ (n - 1) (by omega) (by omega))
      (fun x hx => hx ▸ hat) ?_ fun _ he => he
    rintro c s ⟨rfl, hat'⟩
    exact ⟨rfl, at_mono (by omega) s hat'⟩

theorem parseamps_complete (m fuel : Nat) (cmd : Cmd) (k : List Token) (n : Nat)
    (hk : k.head? ≠ some .amp) (h : n < fuel) :
    Triple (At (List.replicate m .amp ++ k) n) (parseamps fuel cmd)
      (fun c s => c = Cmd.back^[m] cmd ∧ At k n s) fun _ => False := by
  induction m generalizing fuel cmd n with
  | zero =>
    obtain ⟨fuel, rfl⟩ : ∃ f, fuel = f + 1 := ⟨fuel - 1, by omega⟩
    refine triple_peek_no rfl (fun t ht hop => ?_) (triple_return fun s hs => ⟨rfl, hs⟩)
    obtain rfl := startsIn_amp.mp hop
    exact hk ht
  | succ m ih =>
    obtain ⟨fuel, rfl⟩ : ∃ f, fuel = f + 1 := ⟨fuel - 1, by omega⟩
    refine triple_peek_yes rfl (startsIn_amp.mpr rfl) (triple_token fun hn => ?_)
    refine (ih fuel _ (n - 1) (by omega)).post ?_
    rintro c s ⟨rfl, hat⟩
    exact ⟨rfl, at_mono (by omega) s hat⟩

/-- A part with a known result is read first, and the rest goes on from there. -/
theorem triple_part {m : ParseM Cmd} {f : Cmd → ParseM α} {c : Cmd}
    (h : Triple (At ts n) m (fun c' s => c' = c ∧ At k n s) fun _ => False)
    (hf : Triple (At k n) (f c) Q fun _ => False) :
    Triple (At ts n) (m >>= f) Q fun _ => False := by
  refine triple_bind h fun c' => triple_of_forall fun s hs => ?_
  obtain ⟨rfl, hat⟩ := hs
  exact triple_conseq hf (fun x hx => hx ▸ hat) (fun _ _ h => h) fun _ h => h

theorem Tree.complete {nt : NT} (t : Tree nt) (k : List Token) (n fuel : Nat) (hfit : t.Fits)
    (hk : Ends nt k) (h : need nt n ≤ fuel) :
    Triple (At (t.yield ++ k) n) (parse nt fuel) (fun c s => c = t.cmd ∧ At k n s)
      fun _ => False := by
  induction t generalizing k n fuel with
  | block l rs ih =>
    obtain ⟨fuel, rfl⟩ : ∃ f, fuel = f + 2 := ⟨fuel - 2, by simp only [need] at h; omega⟩
    simp only [need] at h
    rw [parse, parseexec, parseblock, Tree.yield, List.cons_append, List.cons_append,
      List.append_assoc, List.cons_append]
    refine triple_peek_yes rfl (startsIn_lparen.mpr rfl) ?_
    refine triple_peek_yes rfl (startsIn_lparen.mpr rfl) (triple_token fun hn => ?_)
    refine triple_part (ih _ (n - 1) fuel hfit (ends_cons.mpr (by decide))
      (by simp only [need]; omega)) ?_
    refine triple_peek_yes rfl (startsIn_rparen.mpr rfl) (triple_token fun hn' => ?_)
    refine triple_conseq (parseredirs_complete rs fuel _ k (n - 1 - 1) hk.noRedir (by omega))
      (fun _ h => h) ?_ fun _ h => h
    rintro c s ⟨rfl, hat⟩
    exact ⟨rfl, at_mono (by omega) s hat⟩
  | simple rs args =>
    obtain ⟨fuel, rfl⟩ : ∃ f, fuel = f + 1 := ⟨fuel - 1, by simp only [need] at h; omega⟩
    simp only [need] at h
    rw [parse, parseexec]
    refine triple_peek_no rfl (fun t ht hop => ?_) ?_
    · obtain rfl := startsIn_lparen.mp hop
      obtain ⟨ts, hts⟩ := List.head?_eq_some_iff.mp ht
      exact simple_ne_lparen hk hts
    rw [Tree.yield, List.append_assoc]
    refine triple_part (parseredirs_complete rs fuel _ _ n (noRedir_args hk.noRedir)
      (by omega)) ?_
    simp only [Tree.Fits, MAXARGS] at hfit
    refine triple_conseq (parseargs_complete args fuel 0 _ k n hk
      (by simp only [MAXARGS]; omega) (by omega)) (fun _ h => h) ?_ fun _ h => h
    rintro c s ⟨rfl, hat⟩
    exact ⟨foldl_args args rs [], hat⟩
  | one e ih =>
    obtain ⟨fuel, rfl⟩ : ∃ f, fuel = f + 1 := ⟨fuel - 1, by simp only [need] at h; omega⟩
    simp only [need] at h
    rw [parse, parsepipe]
    refine triple_part (ih k n fuel hfit (hk.mono (by decide)) (by simp only [need]; omega)) ?_
    refine triple_peek_no rfl (fun t ht hop => ?_) (triple_return fun s hs => ⟨rfl, hs⟩)
    obtain rfl := startsIn_pipe.mp hop
    exact hk.head_ne (by decide) ht
  | pipe e p ihe ihp =>
    obtain ⟨fuel, rfl⟩ : ∃ f, fuel = f + 1 := ⟨fuel - 1, by simp only [need] at h; omega⟩
    simp only [need] at h
    rw [parse, parsepipe, Tree.yield, List.append_assoc, List.cons_append]
    refine triple_part (ihe _ n fuel hfit.1 (ends_cons.mpr (by decide))
      (by simp only [need]; omega)) ?_
    refine triple_peek_yes rfl (startsIn_pipe.mpr rfl) (triple_token fun hn => ?_)
    refine triple_part (ihp k (n - 1) fuel hfit.2 hk (by simp only [need]; omega)) ?_
    exact triple_return fun s hs => ⟨rfl, at_mono (by omega) s hs⟩
  | last p m ih =>
    obtain ⟨fuel, rfl⟩ : ∃ f, fuel = f + 1 := ⟨fuel - 1, by simp only [need] at h; omega⟩
    simp only [need] at h
    rw [parse, parseline, Tree.yield, List.append_assoc]
    refine triple_part (ih _ n fuel hfit (ends_amps (Or.inl hk) m)
      (by simp only [need]; omega)) ?_
    refine triple_part (parseamps_complete m fuel _ k n (hk.head_ne (by decide)) (by omega)) ?_
    refine triple_peek_no rfl (fun t ht hop => ?_) (triple_return fun s hs => ⟨rfl, hs⟩)
    obtain rfl := startsIn_semi.mp hop
    exact hk.head_ne (by decide) ht
  | seq p m l ihp ihl =>
    obtain ⟨fuel, rfl⟩ : ∃ f, fuel = f + 1 := ⟨fuel - 1, by simp only [need] at h; omega⟩
    simp only [need] at h
    rw [parse, parseline, Tree.yield, List.append_assoc, List.append_assoc, List.cons_append]
    refine triple_part (ihp _ n fuel hfit.1 (ends_amps (Or.inr ⟨_, rfl⟩) m)
      (by simp only [need]; omega)) ?_
    refine triple_part (parseamps_complete m fuel _ _ n (by simp) (by omega)) ?_
    refine triple_peek_yes rfl (startsIn_semi.mpr rfl) (triple_token fun hn => ?_)
    refine triple_part (ihl k (n - 1) fuel hfit.2 hk (by simp only [need]; omega)) ?_
    exact triple_return fun s hs => ⟨rfl, at_mono (by omega) s hs⟩

end Complete

/-! ## The result -/

/-- The line is derived, and no command of it has too many words. -/
def Derives (t : Tree .line) (buf : Text) : Prop := t.yield = tokens buf ∧ t.Fits

theorem parsecmd_complete {buf : Text} {t : Tree .line} (h : Derives t buf) :
    parsecmd buf = .ok (t.cmd, nulterminate t.cmd buf) := by
  have hat : At (t.yield ++ []) buf.length buf := ⟨by rw [List.append_nil, h.1], le_rfl⟩
  obtain ⟨c, s, hrun, rfl, hs⟩ :=
    (t.complete [] buf.length _ h.2 (ends_nil .line) le_rfl).exists_ok hat
  have hparse : parseline (4 * buf.length + 4) buf = .ok (t.cmd, s) := hrun
  have hnil : skip s = [] := (token_nil hs.1).2
  rw [parsecmd, hparse]
  dsimp only [bind, Except.bind]
  rw [if_pos hnil]
  rfl

theorem parsecmd_sound {buf : Text} : parsecmd buf ≠ .error .outOfFuel ∧
    ∀ r, parsecmd buf = .ok r → ∃ t, Derives t buf := by
  have hat : At (tokens buf) buf.length buf := ⟨rfl, le_rfl⟩
  have hsound := sound (4 * buf.length + 4) .line (tokens buf) buf.length le_rfl
  unfold parsecmd
  cases hrun : parseline (4 * buf.length + 4) buf with
  | error e =>
    have he : e ≠ .outOfFuel := hsound.error hat hrun
    dsimp only [bind, Except.bind]
    refine ⟨fun h => he (Except.error.inj h), fun r hr => ?_⟩
    cases hr
  | ok x =>
    have hok : parse .line (4 * buf.length + 4) buf = .ok (x.1, x.2) := hrun
    obtain ⟨t, k, hts, hk, hfit, -⟩ := hsound.ok hat hok
    dsimp only [bind, Except.bind]
    by_cases hnil : skip x.2 = []
    · rw [if_pos hnil]
      have hk0 : k = [] := hk.1.symm.trans (tokens_eq_nil hnil)
      refine ⟨fun h => (by cases h), fun r _ => ⟨t, ?_, hfit⟩⟩
      rw [hts, hk0, List.append_nil]
    · rw [if_neg hnil]
      refine ⟨fun h => (by cases h), fun r hr => ?_⟩
      cases hr

/-- **The parser accepts exactly its grammar**, with the command of the one derivation, whose words
are strings in the line; and it stops on every line. -/
theorem parsecmd_iff (buf : Text) (h0 : 0 ∉ buf) :
    parsecmd buf ≠ .error .outOfFuel ∧
    ((∃ r, parsecmd buf = .ok r) ↔ ∃ t, Derives t buf) ∧
    ∀ t, Derives t buf →
      (∀ t' : Tree .line, t'.yield = tokens buf → t' = t) ∧
      ∃ buf', parsecmd buf = .ok (t.cmd, buf') ∧
        ∀ w ∈ t.cmd.words, cstring buf' w.q = w.text buf := by
  refine ⟨parsecmd_sound.1, ⟨fun ⟨r, hr⟩ => parsecmd_sound.2 r hr, fun ⟨t, ht⟩ =>
    ⟨_, parsecmd_complete ht⟩⟩, fun t ht => ⟨fun t' ht' => ?_, ?_⟩⟩
  · have hyield : t'.yield ++ [] = t.yield ++ [] := by rw [ht', ht.1]
    exact (Tree.unique t' t hyield (ends_nil .line) (ends_nil .line)).1
  · refine ⟨_, parsecmd_complete ht, fun w hw => ?_⟩
    rw [nulterminate_eq]
    refine cstring_terminate h0 (fun w' hw' => ?_) hw
    exact isWord_of_mem (ht.1 ▸ Tree.word_mem_yield hw')

/-- `(a>b|c)&` -/
def backgroundBlock : Text := [40, 97, 62, 98, 124, 99, 41, 38]

def backgroundBlockTree : Tree .line :=
  .last (.one (.block (.last (.pipe (.simple [] [⟨⟨7, 6⟩, [⟨.gt, ⟨5, 4⟩⟩]⟩])
    (.one (.simple [] [⟨⟨3, 2⟩, []⟩]))) 0) [])) 1

theorem parsecmd_backgroundBlock :
    0 ∉ backgroundBlock ∧ Derives backgroundBlockTree backgroundBlock ∧
    backgroundBlockTree.cmd
      = .back (.pipe (.redir (.exec [⟨7, 6⟩]) ⟨5, 4⟩ (Fs.O_WRONLY ||| Fs.O_CREATE) 1)
          (.exec [⟨3, 2⟩])) ∧
    ∃ buf', parsecmd backgroundBlock = .ok (backgroundBlockTree.cmd, buf') ∧
      ∀ w ∈ backgroundBlockTree.cmd.words, cstring buf' w.q = w.text backgroundBlock := by
  have h0 : 0 ∉ backgroundBlock := by decide
  have hd : Derives backgroundBlockTree backgroundBlock := by
    refine ⟨by decide, ?_⟩
    simp [backgroundBlockTree, Tree.Fits, MAXARGS]
  exact ⟨h0, hd, rfl, ((parsecmd_iff backgroundBlock h0).2.2 _ hd).2⟩

end StrideXv6.Shell
