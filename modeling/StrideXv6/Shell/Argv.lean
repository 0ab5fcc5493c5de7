import StrideXv6.Shell.Correct

set_option autoImplicit false

/-! # The arrays of an `execcmd`

`Cmd` has the words of a simple command as a list. In the shell they are two arrays of `MAXARGS`
pointers, cleared by `execcmd`, filled by `parseexec` and read by `nulterminate` up to the first
null pointer. `Execcmd.of` is what `parseexec` makes of a list of words, and `terminateCmd` is
`nulterminate` on the arrays: it stays inside of them and does what `nulterminate` does to the list
(`terminateCmd_eq`).

`parsecmd_words` says of every line that the parser accepts that all pointers of the command are
strings then, each the word that `gettoken` found.
-/

namespace StrideXv6.Shell

open Function

/-! ## The arrays -/

/-- `argv` and `eargv`; `none` is a null pointer. -/
structure Execcmd where
  argv : Nat → Option Nat
  eargv : Nat → Option Nat

namespace Execcmd

/-- `execcmd()` -/
def empty : Execcmd := ⟨fun _ => none, fun _ => none⟩

/-- `cmd->argv[argc] = q; cmd->eargv[argc] = eq;` -/
def store (e : Execcmd) (argc : Nat) (w : Word) : Execcmd :=
  ⟨Function.update e.argv argc (some w.q), Function.update e.eargv argc (some w.eq)⟩

/-- `cmd->argv[argc] = 0; cmd->eargv[argc] = 0;` -/
def close (e : Execcmd) (argc : Nat) : Execcmd :=
  ⟨Function.update e.argv argc none, Function.update e.eargv argc none⟩

/-- The words are stored one after the other, the first at `argc`. -/
def storeAll (e : Execcmd) (argc : Nat) : List Word → Execcmd
  | [] => e.close argc
  | w :: ws => (e.store argc w).storeAll (argc + 1) ws

/-- What `parseexec` leaves for the words `ws`. -/
def of (ws : List Word) : Execcmd := empty.storeAll 0 ws

theorem storeAll_below (e : Execcmd) (argc : Nat) (ws : List Word) {i : Nat} (hi : i < argc) :
    (e.storeAll argc ws).argv i = e.argv i ∧ (e.storeAll argc ws).eargv i = e.eargv i := by
  have hne : i ≠ argc := by omega
  induction ws generalizing e argc with
  | nil => exact ⟨update_of_ne hne .., update_of_ne hne ..⟩
  | cons w ws ih =>
    obtain ⟨h₁, h₂⟩ := ih (e.store argc w) (argc + 1) (by omega) (by omega)
    rw [storeAll, h₁, h₂]
    exact ⟨update_of_ne hne .., update_of_ne hne ..⟩

theorem storeAll_at (e : Execcmd) (argc : Nat) (ws : List Word) {i : Nat} (hi : i ≤ ws.length) :
    (e.storeAll argc ws).argv (argc + i) = ws[i]?.map Word.q ∧
      (e.storeAll argc ws).eargv (argc + i) = ws[i]?.map Word.eq := by
  induction ws generalizing e argc i with
  | nil =>
    obtain rfl : i = 0 := by simpa using hi
    exact ⟨update_self .., update_self ..⟩
  | cons w ws ih =>
    cases i with
    | zero =>
      obtain ⟨h₁, h₂⟩ := (e.store argc w).storeAll_below (argc + 1) ws (Nat.lt_succ_self argc)
      exact ⟨h₁.trans (update_self ..), h₂.trans (update_self ..)⟩
    | succ i =>
      rw [storeAll, show argc + (i + 1) = argc + 1 + i by omega]
      exact ih (e.store argc w) (argc + 1) (Nat.le_of_succ_le_succ hi)

theorem of_at (ws : List Word) {i : Nat} (hi : i ≤ ws.length) :
    (of ws).argv i = ws[i]?.map Word.q ∧ (of ws).eargv i = ws[i]?.map Word.eq := by
  have h := empty.storeAll_at 0 ws hi
  rwa [Nat.zero_add] at h

/-- `for(i=0; ecmd->argv[i]; i++) *ecmd->eargv[i] = 0;` with `n` elements of the arrays left;
`none` if the loop leaves the array or follows a null pointer. -/
def terminateFrom (e : Execcmd) : Nat → Nat → Text → Option Text
  | 0, _, _ => none
  | n + 1, i, buf =>
    match e.argv i with
    | none => some buf
    | some _ => (e.eargv i).bind fun eq => e.terminateFrom n (i + 1) (buf.set (buf.length - eq) 0)

theorem terminateFrom_eq {e : Execcmd} {ws : List Word} {i n : Nat} (buf : Text)
    (h : ∀ j ≤ ws.length, e.argv (i + j) = ws[j]?.map Word.q ∧ e.eargv (i + j) = ws[j]?.map Word.eq)
    (hn : ws.length < n) : e.terminateFrom n i buf = some (ws.foldl terminate buf) := by
  induction ws generalizing i n buf with
  | nil =>
    obtain ⟨n, rfl⟩ := Nat.exists_eq_succ_of_ne_zero (by omega : n ≠ 0)
    have h0 : e.argv i = none := (h 0 le_rfl).1
    rw [terminateFrom, h0]
    rfl
  | cons w ws ih =>
    obtain ⟨n, rfl⟩ := Nat.exists_eq_succ_of_ne_zero (by omega : n ≠ 0)
    obtain ⟨h₁, h₂⟩ := h 0 (Nat.zero_le _)
    rw [Nat.add_zero] at h₁ h₂
    rw [terminateFrom, h₁, h₂]
    refine ih (i := i + 1) (n := n) (terminate buf w) (fun j hj => ?_) (Nat.lt_of_succ_lt_succ hn)
    have hnext := h (j + 1) (Nat.succ_le_succ hj)
    rwa [show i + (j + 1) = i + 1 + j by omega] at hnext

end Execcmd

/-! ## The whole command -/

/-- The words of the simple commands. -/
def Cmd.execs : Cmd → List (List Word)
  | .exec argv => [argv]
  | .redir cmd _ _ _ => cmd.execs
  | .pipe left right => left.execs ++ right.execs
  | .list left right => left.execs ++ right.execs
  | .back cmd => cmd.execs

/-- The files of the redirections. -/
def Cmd.files : Cmd → List Word
  | .exec _ => []
  | .redir cmd file _ _ => file :: cmd.files
  | .pipe left right => left.files ++ right.files
  | .list left right => left.files ++ right.files
  | .back cmd => cmd.files

theorem mem_words_of_execs {c : Cmd} {ws : List Word} {w : Word} (h : ws ∈ c.execs) (hw : w ∈ ws) :
    w ∈ c.words := by
  induction c with
  | exec argv =>
    rw [List.mem_singleton.mp h] at hw
    exact hw
  | redir cmd file mode fd ih => exact List.mem_append_left _ (ih h)
  | pipe left right ihl ihr =>
    exact List.mem_append.mpr ((List.mem_append.mp h).imp ihl ihr)
  | list left right ihl ihr =>
    exact List.mem_append.mpr ((List.mem_append.mp h).imp ihl ihr)
  | back cmd ih => exact ih h

theorem mem_words_of_files {c : Cmd} {w : Word} (h : w ∈ c.files) : w ∈ c.words := by
  induction c with
  | exec argv => cases h
  | redir cmd file mode fd ih =>
    rcases List.mem_cons.mp h with rfl | h
    · exact List.mem_append_right _ (List.mem_singleton_self _)
    · exact List.mem_append_left _ (ih h)
  | pipe left right ihl ihr =>
    exact List.mem_append.mpr ((List.mem_append.mp h).imp ihl ihr)
  | list left right ihl ihr =>
    exact List.mem_append.mpr ((List.mem_append.mp h).imp ihl ihr)
  | back cmd ih => exact ih h

/-- `nulterminate` on the arrays. -/
def terminateCmd : Cmd → Text → Option Text
  | .exec argv, buf => (Execcmd.of argv).terminateFrom MAXARGS 0 buf
  | .redir cmd file _ _, buf => (terminateCmd cmd buf).map fun buf => terminate buf file
  | .pipe left right, buf => (terminateCmd left buf).bind (terminateCmd right)
  | .list left right, buf => (terminateCmd left buf).bind (terminateCmd right)
  | .back cmd, buf => terminateCmd cmd buf

/-- No simple command fills its arrays. -/
def Cmd.Room (c : Cmd) : Prop := ∀ ws ∈ c.execs, ws.length < MAXARGS

theorem terminateCmd_eq {c : Cmd} (h : c.Room) (buf : Text) :
    terminateCmd c buf = some (nulterminate c buf) := by
  induction c generalizing buf with
  | exec argv =>
    refine Execcmd.terminateFrom_eq buf (fun j hj => ?_) (h argv (List.mem_singleton_self _))
    rw [Nat.zero_add]
    exact Execcmd.of_at argv hj
  | redir cmd file mode fd ih =>
    rw [terminateCmd, ih h]
    rfl
  | pipe left right ihl ihr =>
    have hl : left.Room := fun ws hws => h ws (List.mem_append_left _ hws)
    have hr : right.Room := fun ws hws => h ws (List.mem_append_right _ hws)
    rw [terminateCmd, ihl hl, Option.bind_some, ihr hr]
    rfl
  | list left right ihl ihr =>
    have hl : left.Room := fun ws hws => h ws (List.mem_append_left _ hws)
    have hr : right.Room := fun ws hws => h ws (List.mem_append_right _ hws)
    rw [terminateCmd, ihl hl, Option.bind_some, ihr hr]
    rfl
  | back cmd ih => exact ih h buf

/-! ## Accepted lines -/

theorem execs_redirs (rs : List Redir) (c : Cmd) : (rs.foldl Redir.cmd c).execs = c.execs := by
  induction rs generalizing c with
  | nil => rfl
  | cons r rs ih =>
    rw [List.foldl_cons, ih]
    cases r with
    | mk op file => cases op <;> rfl

theorem execs_back (m : Nat) (c : Cmd) : (Cmd.back^[m] c).execs = c.execs := by
  induction m generalizing c with
  | zero => rfl
  | succ m ih =>
    rw [iterate_succ_apply, ih]
    rfl

theorem Tree.room {nt : NT} {t : Tree nt} (h : t.Fits) : t.cmd.Room := by
  intro ws hws
  induction t with
  | block l rs ih =>
    rw [Tree.cmd, execs_redirs] at hws
    exact ih h hws
  | simple rs args =>
    rw [Tree.cmd, execs_redirs] at hws
    rw [List.mem_singleton.mp hws, List.length_map]
    have hlen : args.length ≤ MAXARGS - 1 := h
    simp only [MAXARGS] at *
    omega
  | one e ih => exact ih h hws
  | pipe e p ihe ihp =>
    rcases List.mem_append.mp hws with hws | hws
    · exact ihe h.1 hws
    · exact ihp h.2 hws
  | last p m ih =>
    rw [Tree.cmd, execs_back] at hws
    exact ih h hws
  | seq p m l ihp ihl =>
    rcases List.mem_append.mp hws with hws | hws
    · rw [execs_back] at hws
      exact ihp h.1 hws
    · exact ihl h.2 hws

/-- The pointer `w.q` is a string in `buf'`: the word of the line `buf` that `gettoken` found. -/
structure Kept (buf buf' : Text) (w : Word) : Prop where
  token : .word w ∈ tokens buf
  text : cstring buf' w.q = w.text buf
  word : ∃ a c, IsWord buf w a (w.text buf) c

/-- **`nulterminate` keeps every word.** -/
theorem parsecmd_words {buf buf' : Text} {c : Cmd} (h0 : 0 ∉ buf)
    (h : parsecmd buf = .ok (c, buf')) :
    terminateCmd c buf = some buf' ∧
    (∀ ws ∈ c.execs, ws.length < MAXARGS ∧ (Execcmd.of ws).argv ws.length = none ∧
      ∀ (i : Nat) (hi : i < ws.length), (Execcmd.of ws).argv i = some (ws.get ⟨i, hi⟩).q ∧
        Kept buf buf' (ws.get ⟨i, hi⟩)) ∧
    ∀ w ∈ c.files, Kept buf buf' w := by
  obtain ⟨t, ht⟩ := parsecmd_sound.2 _ h
  rw [parsecmd_complete ht] at h
  obtain ⟨rfl, rfl⟩ : t.cmd = c ∧ nulterminate t.cmd buf = buf' := by
    have heq := Except.ok.inj h
    exact ⟨congrArg Prod.fst heq, congrArg Prod.snd heq⟩
  have hroom := Tree.room ht.2
  have htok : ∀ w ∈ t.cmd.words, .word w ∈ tokens buf := fun w hw =>
    ht.1 ▸ Tree.word_mem_yield hw
  have hkept : ∀ w ∈ t.cmd.words, Kept buf (nulterminate t.cmd buf) w := by
    intro w hw
    refine ⟨htok w hw, ?_, ?_⟩
    · rw [nulterminate_eq]
      exact cstring_terminate h0 (fun w' hw' => isWord_of_mem (htok w' hw')) hw
    · obtain ⟨a, b, c, hword⟩ := isWord_of_mem (htok w hw)
      rw [hword.text_eq]
      exact ⟨a, c, hword⟩
  refine ⟨terminateCmd_eq hroom buf, fun ws hws => ⟨hroom ws hws, ?_, fun i hi => ⟨?_, ?_⟩⟩,
    fun w hw => hkept w (mem_words_of_files hw)⟩
  · rw [(Execcmd.of_at ws le_rfl).1, List.getElem?_eq_none le_rfl]
    rfl
  · rw [(Execcmd.of_at ws hi.le).1, List.getElem?_eq_getElem hi]
    rfl
  · exact hkept _ (mem_words_of_execs hws (List.get_mem ws ⟨i, hi⟩))

/-- `echo>b x` -/
def echoLine : Text := [101, 99, 104, 111, 62, 98, 32, 120]

/-- The terminators are written over the `>` and the blank. -/
theorem parsecmd_words_echo :
    parsecmd echoLine = .ok (.redir (.exec [⟨8, 4⟩, ⟨1, 0⟩]) ⟨3, 2⟩ (Fs.O_WRONLY ||| Fs.O_CREATE) 1,
      [101, 99, 104, 111, 0, 98, 0, 120]) ∧
    (Execcmd.of [⟨8, 4⟩, ⟨1, 0⟩]).argv 2 = none ∧
    Kept echoLine [101, 99, 104, 111, 0, 98, 0, 120] ⟨8, 4⟩ ∧
    Kept echoLine [101, 99, 104, 111, 0, 98, 0, 120] ⟨3, 2⟩ := by
  have h : parsecmd echoLine
      = .ok (.redir (.exec [⟨8, 4⟩, ⟨1, 0⟩]) ⟨3, 2⟩ (Fs.O_WRONLY ||| Fs.O_CREATE) 1,
        [101, 99, 104, 111, 0, 98, 0, 120]) := by
    rfl
  obtain ⟨-, hexecs, hfiles⟩ := parsecmd_words (by decide) h
  obtain ⟨-, hnull, hargs⟩ := hexecs _ (List.mem_singleton_self _)
  exact ⟨h, hnull, (hargs 0 (by decide)).2, hfiles _ List.mem_cons_self⟩

end StrideXv6.Shell
