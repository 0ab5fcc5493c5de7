import StrideXv6.Console.Locking

set_option autoImplicit false

/-! # `ptable.lock` and `cons.lock`

`wait` prints a line about the child it found, so it takes `cons.lock` with `ptable.lock` held;
`consoleintr` wakes up a reader and `consoleread` goes to sleep, so they take `ptable.lock`
with `cons.lock` held. `Nested` lists every nesting of the code, with these two under a
switch each: `z` allows the first, `g` the second. Every program of the system keeps to it
(`always_*`), hence every run does; a run that uses only one of the two nestings cannot
deadlock (`nested_upward`), and a run that uses both has taken the locks in both orders
(`no_lock_cycle_iff`). `lock_cycle` is a deadlock of two CPUs.
-/

namespace StrideXv6.Console

open Locks Runs
open Sched (Kernel Slot Chan)

variable {ι : Type}

/-! ## Nestings -/

/-- The work of an action that does not lead to one of the two nestings that are switched
off: no `ZOMBIE` child found, no line completed, no reader put to sleep. -/
def Quiet (z g : Prop) : Act → Data ι → Prop
  | .waitScan me, d => z ∨ Sched.zombieChild d.kernel me = none
  | .getc ch, d => g ∨ ¬ d.input.CompletesLine ch
  | .readTest me, d => g ∨ ¬ (d.input.r = d.input.w ∧ (d.kernel.ptable me).killed = false)
  | _, _ => True

/-- Which locks are held in front of an `acquire`, and in front of the three actions that
lead to nested locks. -/
def Nested (z g : Prop) (H : Set Lock) : Prog ι → Prop
  | .acquire .ptable _ => H = ∅ ∨ (g ∧ H = {.cons}) ∨ ∃ l, H = {.fs l}
  | .acquire .cons _ => H = ∅ ∨ (z ∧ H = {.ptable})
  | .acquire .kmem _ => H = ∅ ∨ H = {.ptable}
  | .acquire (.fs _) _ => H = ∅
  | .act (.point _ _) _ _ => H = ∅
  | .act (.waitScan me) _ next => H = {.ptable} ∧
      ∀ d, Sched.zombieChild d.kernel me ≠ none → ∃ k, next d = .acquire .cons k
  | .act (.getc ch) _ next => H = {.cons} ∧
      ∀ d, d.input.CompletesLine ch → ∃ k, next d = .acquire .ptable k
  | .act (.readTest me) _ next => H = {.cons} ∧
      ∀ d, d.input.r = d.input.w → (d.kernel.ptable me).killed = false →
        ∃ k, next d = .acquire .ptable k
  | _ => True

/-- The rank of a lock when `ptable.lock` is taken after `cons.lock`. -/
def rankPtableLast : Lock → Fin 4
  | .fs _ => 0
  | .cons => 1
  | .ptable => 2
  | .kmem => 3

/-- The rank of a lock when `cons.lock` is taken after `ptable.lock`. -/
def rankConsLast : Lock → Fin 4
  | .fs _ => 0
  | .ptable => 1
  | .cons => 2
  | .kmem => 3

/-- The lock `l` is asked for with `l'` held in four places only. -/
theorem nested_pairs {z g : Prop} {H : Set Lock} {l l' : Lock} {k : Prog ι}
    (h : Nested z g H (.acquire l k)) (hl : l' ∈ H) :
    (g ∧ l' = .cons ∧ l = .ptable) ∨ ((∃ f, l' = .fs f) ∧ l = .ptable) ∨
      (z ∧ l' = .ptable ∧ l = .cons) ∨ (l' = .ptable ∧ l = .kmem) := by
  cases l with
  | ptable =>
    rcases h with rfl | ⟨hg, rfl⟩ | ⟨f, rfl⟩
    · simp at hl
    · exact Or.inl ⟨hg, hl, rfl⟩
    · exact Or.inr (Or.inl ⟨⟨f, hl⟩, rfl⟩)
  | cons =>
    rcases h with rfl | ⟨hz, rfl⟩
    · simp at hl
    · exact Or.inr (Or.inr (Or.inl ⟨hz, hl, rfl⟩))
  | kmem =>
    rcases h with rfl | rfl
    · simp at hl
    · exact Or.inr (Or.inr (Or.inr ⟨hl, rfl⟩))
  | fs f =>
    obtain rfl : H = ∅ := h
    simp at hl

/-- With at most one of the two nestings switched on, there is an order of the locks. -/
theorem nested_upward {z g : Prop} (h : ¬ (z ∧ g)) :
    ∃ rank : Lock → Fin 4, ∀ (H : Set Lock) (k : Prog ι), Nested z g H k → Upward rank H k := by
  by_cases hz : z
  · refine ⟨rankConsLast, fun H k hk => ?_⟩
    cases k with
    | acquire l k =>
      intro l' hl'
      rcases nested_pairs hk hl' with ⟨hg, -⟩ | ⟨⟨f, rfl⟩, rfl⟩ | ⟨-, rfl, rfl⟩ | ⟨rfl, rfl⟩
      · exact absurd ⟨hz, hg⟩ h
      all_goals simp [rankConsLast]
    | _ => trivial
  · refine ⟨rankPtableLast, fun H k hk => ?_⟩
    cases k with
    | acquire l k =>
      intro l' hl'
      rcases nested_pairs hk hl' with ⟨-, rfl, rfl⟩ | ⟨⟨f, rfl⟩, rfl⟩ | ⟨hz', -⟩ | ⟨rfl, rfl⟩
      · simp [rankPtableLast]
      · simp [rankPtableLast]
      · exact absurd hz' hz
      · simp [rankPtableLast]
    | _ => trivial

/-! ## The rules -/

section Rules

variable {z g : Prop} {H : Set Lock} {k : Prog ι}

/-- From here on, with the locks `H` held, the code keeps to the nestings. -/
abbrev Keeps (z g : Prop) (H : Set Lock) (k : Prog ι) : Prop := Always (Quiet z g) (Nested z g) H k

theorem keeps_done : Keeps z g ∅ (.done : Prog ι) := ⟨trivial, rfl⟩

theorem keeps_release (l : Lock) (hk : Keeps z g ∅ k) : Keeps z g {l} (.release l k) :=
  ⟨trivial, rfl, by rwa [sdiff_self]⟩

theorem keeps_section {l : Lock} (hl : l ∉ H) (hn : Nested z g H (.acquire l (.release l k)))
    (hk : Keeps z g H k) : Keeps z g H (.acquire l (.release l k)) :=
  ⟨hn, trivial, Set.mem_insert l H, by rwa [Set.insert_sdiff_self_of_notMem hl]⟩

theorem keeps_onKernel (f : Kernel ι → Kernel ι) (hk : Keeps z g H k) :
    Keeps z g H (onKernel f k) :=
  ⟨trivial, fun _ _ => hk⟩

variable (ws : List Work) (cont : Cont)

theorem keeps_point (hk : Keeps z g ∅ k) :
    Keeps z g ∅ (point ws cont k) :=
  ⟨rfl, fun _ _ => hk⟩

theorem keeps_cprintf (hH : H = ∅ ∨ (z ∧ H = {.ptable})) (hk : Keeps z g H k) :
    Keeps z g H (cprintf k) := by
  refine keeps_section ?_ hH hk
  rcases hH with rfl | ⟨-, rfl⟩ <;> simp

theorem keeps_kfree (hH : H = ∅ ∨ H = {.ptable}) (hk : Keeps z g H k) :
    Keeps z g H (kfree k) := by
  refine keeps_section ?_ hH hk
  rcases hH with rfl | rfl <;> simp

theorem keeps_freevm (hH : H = ∅ ∨ H = {.ptable}) (pages : Nat) (hk : Keeps z g H k) :
    Keeps z g H (freevm pages k) := by
  induction pages with
  | zero => exact hk
  | succ pages ih => exact keeps_kfree hH ih

/-- Where `wakeup` and `sleep` may be called. -/
theorem keeps_wakeup (chan : Chan) (hH : H = ∅ ∨ (g ∧ H = {.cons}) ∨ ∃ l, H = {.fs l})
    (hk : Keeps z g H k) : Keeps z g H (wakeup chan k) := by
  have hl : Lock.ptable ∉ H := by rcases hH with rfl | ⟨-, rfl⟩ | ⟨l, rfl⟩ <;> simp
  exact ⟨hH, trivial, fun _ _ => ⟨trivial, Set.mem_insert _ H,
    by rwa [Set.insert_sdiff_self_of_notMem hl]⟩⟩

theorem keeps_sched : Keeps z g {.ptable} (sched : Prog ι) := keeps_release _ keeps_done

variable [DecidableEq ι] {c : ι} {me : Slot}

theorem keeps_goToSleep (chan : Chan) (r : Resume) :
    Keeps z g {.ptable} (goToSleep c me chan r) :=
  ⟨trivial, fun _ _ => keeps_sched⟩

theorem keeps_sleep (chan : Chan) {lk : Lock} (hlk : (g ∧ lk = .cons) ∨ ∃ l, lk = .fs l)
    (r : Resume) : Keeps z g {lk} (sleep c me chan lk r) := by
  have hne : lk ≠ .ptable := by rcases hlk with ⟨-, rfl⟩ | ⟨l, rfl⟩ <;> simp
  have hset : (insert .ptable {lk} : Set Lock) \ {lk} = {.ptable} := by
    rw [Set.pair_comm, Set.insert_sdiff_self_of_notMem (by simpa using hne)]
  refine ⟨?_, trivial, by simp, hset ▸ keeps_goToSleep chan r⟩
  rcases hlk with ⟨hg, rfl⟩ | ⟨l, rfl⟩
  · exact Or.inr (Or.inl ⟨hg, rfl⟩)
  · exact Or.inr (Or.inr ⟨l, rfl⟩)

theorem keeps_inner (l : FsLock) (ws : List Work) (cont : Cont) (hk : Keeps z g ∅ k)
    (body : List Inner) : Keeps z g {.fs l} (inner c me l ws cont k body) := by
  induction body with
  | nil => exact keeps_release _ hk
  | cons i body ih =>
    cases i with
    | wakeup chan => exact keeps_wakeup chan (Or.inr (Or.inr ⟨l, rfl⟩)) ih
    | sleep chan => exact keeps_sleep chan (Or.inr ⟨l, rfl⟩) _

theorem keeps_works (hk : Keeps z g ∅ k) (ws : List Work) :
    Keeps z g ∅ (works c me cont k ws) := by
  induction ws with
  | nil => exact hk
  | cons w ws ih =>
    cases w with
    | kmem => exact keeps_point _ _ (keeps_kfree (Or.inl rfl) ih)
    | cons => exact keeps_point _ _ (keeps_cprintf (Or.inl rfl) ih)
    | fs l body =>
      exact keeps_point _ _ ⟨rfl, by simpa using keeps_inner l ws cont ih body⟩

/-- The loop of `consoleread` asks for `ptable.lock` only when it has a reason to sleep. -/
theorem keeps_readLoop (target n : Nat) :
    Keeps z g {.cons} (readLoop c me ws target n) := by
  have hend : Keeps z g {.cons} (.release .cons (works c me .user .done ws)) :=
    keeps_release _ (keeps_works _ keeps_done ws)
  induction n with
  | zero => exact hend
  | succ n ih =>
    refine ⟨⟨rfl, fun d hrw hk => ?_⟩, fun d hok => ?_⟩
    · simp only [hrw, hk, if_true]
      exact ⟨_, rfl⟩
    · beta_reduce
      split
      · rename_i hrw
        split
        · exact hend
        · rename_i hkilled
          refine keeps_sleep _ (Or.inl ⟨?_, rfl⟩) _
          rcases hok with hg | hno
          · exact hg
          · exact absurd ⟨hrw, by simpa using hkilled⟩ hno
      · split
        · exact hend
        · exact ih

theorem keeps_contCode : Keeps z g ∅ (contCode c me cont) := by
  have hrun : Keeps z g ∅ (contCode.forkRunnable me : Prog ι) :=
    ⟨Or.inl rfl, by simpa using keeps_onKernel _ (keeps_release _ keeps_done)⟩
  induction cont with
  | user => exact keeps_done
  | exit => exact keeps_point _ _ ⟨Or.inl rfl, by simpa using keeps_onKernel _ keeps_sched⟩
  | forkFail => exact keeps_point _ _ (keeps_onKernel _ keeps_done)
  | forkPrint => exact keeps_point _ _ (keeps_cprintf (Or.inl rfl) (keeps_point _ _ hrun))
  | forkRunnable => exact keeps_point _ _ hrun
  | consoleread target n ws =>
    exact keeps_point _ _ ⟨Or.inl rfl, by simpa using keeps_readLoop ws target n⟩
  | inner l body ws cont ih =>
    exact keeps_point _ _
      ⟨rfl, by simpa using keeps_inner l ws cont (keeps_works cont ih ws) body⟩

theorem keeps_run : Keeps z g ∅ (run c me ws cont) :=
  keeps_works cont (keeps_contCode cont) ws

/-- `wait` asks for `cons.lock` only when it has found a `ZOMBIE`. -/
theorem keeps_waitLoop (pages : Nat) : Keeps z g {.ptable} (waitLoop c me pages) := by
  refine ⟨⟨rfl, fun d hd => ?_⟩, fun d hok => ?_⟩
  · obtain ⟨p, hp⟩ := Option.ne_none_iff_exists'.mp hd
    simp only [hp]
    exact ⟨_, rfl⟩
  · beta_reduce
    split
    · rename_i p hp
      have hz : z := by
        rcases hok with hz | hno
        · exact hz
        · simp [hp] at hno
      exact keeps_cprintf (Or.inr ⟨hz, rfl⟩) (keeps_kfree (Or.inr rfl)
        (keeps_freevm (Or.inr rfl) pages (keeps_onKernel _ (keeps_release _ keeps_done))))
    · split
      · exact keeps_release _ keeps_done
      · exact keeps_goToSleep _ _

theorem keeps_resumeCode (r : Resume) : Keeps z g {.ptable} (resumeCode c me r) := by
  cases r with
  | wait pages => exact keeps_waitLoop pages
  | run ws cont => exact keeps_release _ (keeps_run ws cont)

theorem keeps_scheduler : Keeps z g ∅ (scheduler c) := by
  refine ⟨Or.inl rfl, ?_⟩
  rw [insert_empty_eq]
  refine ⟨trivial, fun d _ => ?_⟩
  beta_reduce
  split
  · exact keeps_release _ keeps_done
  · exact keeps_resumeCode _

theorem keeps_yield : Keeps z g ∅ (yield c me ws cont) := by
  refine ⟨Or.inl rfl, ?_⟩
  rw [insert_empty_eq]
  exact ⟨trivial, fun _ _ => keeps_sched⟩

theorem keeps_callCode (f : Call) : Keeps z g ∅ (callCode c me f) := by
  cases f with
  | wait pages => exact ⟨Or.inl rfl, by simpa using keeps_waitLoop pages⟩
  | fork stride ok ws =>
    refine ⟨Or.inl rfl, ?_⟩
    rw [insert_empty_eq]
    refine ⟨trivial, fun d _ => keeps_release _ ?_⟩
    split
    · exact keeps_run ws _
    · exact keeps_done
  | exit ws => exact keeps_run ws _
  | kill pid =>
    exact ⟨Or.inl rfl, by simpa using keeps_onKernel _ (keeps_release _ keeps_done)⟩
  | consoleread n iunlock ilock => exact keeps_run iunlock _
  | other ws => exact keeps_run ws _

omit [DecidableEq ι] in
theorem keeps_procdump (hk : Keeps z g ∅ k) (prints : Nat) : Keeps z g ∅ (procdump prints k) := by
  induction prints with
  | zero => exact hk
  | succ prints ih => exact keeps_cprintf (Or.inl rfl) ih

omit [DecidableEq ι] in
/-- The loop of `consoleintr` asks for `ptable.lock` only when a line is complete. -/
theorem keeps_intrLoop (prints : Nat) (hk : Keeps z g ∅ k) (dp : Bool) (chs : List Nat) :
    Keeps z g {.cons} (intrLoop prints k dp chs) := by
  induction chs generalizing dp with
  | nil =>
    refine keeps_release _ ?_
    split
    · exact keeps_procdump hk prints
    · exact hk
  | cons ch chs ih =>
    refine ⟨⟨rfl, fun d hd => ?_⟩, fun d hok => ?_⟩
    · beta_reduce
      rw [if_pos ((handle_wakes d.input ch).mpr hd)]
      exact ⟨_, rfl⟩
    · beta_reduce
      split
      · rename_i hw
        refine keeps_wakeup _ (Or.inr (Or.inl ⟨?_, rfl⟩)) (ih _)
        rcases hok with hg | hno
        · exact hg
        · exact absurd ((handle_wakes d.input ch).mp hw) hno
      · exact ih _

omit [DecidableEq ι] in
theorem keeps_consoleintr (chs : List Nat) (prints : Nat) (hk : Keeps z g ∅ k) :
    Keeps z g ∅ (consoleintr chs prints k) :=
  ⟨Or.inl rfl, by simpa using keeps_intrLoop prints hk false chs⟩

end Rules

/-! ## Runs -/

section Runs

variable {z g : Prop}

theorem held_of_done {s : System ι} {c : ι} (h : AlwaysAll (Quiet z g) (Nested z g) s)
    (hc : s.code c = .done) : s.held c = ∅ := by
  have := h c
  rw [hc] at this
  exact this.2

theorem held_of_point {s : System ι} {c : ι} {ws : List Work} {cont : Cont}
    {upd : Data ι → Data ι} {next : Data ι → Prog ι} (h : AlwaysAll (Quiet z g) (Nested z g) s)
    (hc : s.code c = .act (.point ws cont) upd next) : s.held c = ∅ := by
  have := h c
  rw [hc] at this
  exact this.1

theorem keeps_boot (minProc : ι → Option Slot) :
    AlwaysAll (Quiet z g) (Nested z g) (boot minProc) := by
  intro c
  have : (boot minProc).held c = ∅ := by simp [State.held, boot]
  rw [this]
  exact keeps_done

variable [DecidableEq ι]

/-- What an event starts keeps to the nestings: it starts with no lock held. -/
theorem keeps_started {s : System ι} {e : Event ι} {k : Prog ι}
    (h : AlwaysAll (Quiet z g) (Nested z g) s) (hk : started s e = some k) :
    Keeps z g (s.held e.cpu) k := by
  cases e with
  | advance c => simp [started] at hk
  | scheduler c =>
    simp only [started] at hk
    split at hk
    · rename_i hcode _
      obtain rfl := Option.some.inj hk
      exact held_of_done h hcode ▸ keeps_scheduler
    · simp at hk
  | call c f =>
    simp only [started] at hk
    split at hk
    · rename_i me hcode _
      simp only [Option.ite_none_left_eq_some, Option.some.injEq] at hk
      obtain ⟨-, rfl⟩ := hk
      exact held_of_done h hcode ▸ keeps_callCode f
    · simp at hk
  | interrupt c chs prints =>
    simp only [started] at hk
    split at hk
    · rename_i hcode
      obtain rfl := Option.some.inj hk
      exact held_of_done h hcode ▸ keeps_consoleintr chs prints keeps_done
    · rename_i ws cont upd next hcode
      obtain rfl := Option.some.inj hk
      -- the handler returns to the code it interrupted
      have hcur := h c
      rw [hcode, held_of_point h hcode] at hcur
      exact held_of_point h hcode ▸ keeps_consoleintr chs prints hcur
    · simp at hk
  | timer c =>
    simp only [started] at hk
    split at hk
    · rename_i me hcode _
      obtain rfl := Option.some.inj hk
      exact held_of_done h hcode ▸ keeps_yield [] .user
    · rename_i ws cont _ _ me hcode _
      obtain rfl := Option.some.inj hk
      exact held_of_point h hcode ▸ keeps_yield ws cont
    · simp at hk

/-- The action of an `advance` event leads to no nesting that is switched off. -/
def QuietStep (z g : Prop) (x : Trans (System ι) (Event ι)) : Prop :=
  ∀ c, x.ev = .advance c → x.pre.OkAt (Quiet z g) c

theorem keeps_step {x : Trans (System ι) (Event ι)} (hst : step x.pre x.ev = some x.post)
    (hq : QuietStep z g x) (h : AlwaysAll (Quiet z g) (Nested z g) x.pre) :
    AlwaysAll (Quiet z g) (Nested z g) x.post := by
  have hnew : ∀ {e : Event ι} {t : System ι},
      (started x.pre e).map (x.pre.setCode e.cpu) = some t →
        AlwaysAll (Quiet z g) (Nested z g) t := by
    intro e t ht
    obtain ⟨k, hk, rfl⟩ := Option.map_eq_some_iff.mp ht
    exact h.setCode (keeps_started h hk)
  obtain ⟨s, e, t⟩ := x
  cases e with
  | advance c => exact h.advance hst (hq c rfl)
  | scheduler c => exact hnew hst
  | call c f => exact hnew hst
  | interrupt c chs prints => exact hnew hst
  | timer c => exact hnew hst

end Runs

/-! ## When there is no lock cycle -/

/-- A CPU asks for `l'` while it holds `l`. -/
def Requests (s : System ι) (l l' : Lock) : Prop := ∃ c, s.holder l = some c ∧ s.Waits c l'

/-- The run asks for `ptable.lock` and `cons.lock` in both orders. -/
def BothOrders (tr : List (Trans (System ι) (Event ι))) : Prop :=
  (∃ x ∈ tr, Requests x.post .ptable .cons) ∧ ∃ x ∈ tr, Requests x.post .cons .ptable

/-- In this transition the scan of a `wait` has a `ZOMBIE` child to find. -/
def FindsZombie (x : Trans (System ι) (Event ι)) : Prop :=
  ∃ c me upd next, x.ev = .advance c ∧ x.pre.code c = .act (.waitScan me) upd next ∧
    Sched.zombieChild x.pre.data.kernel me ≠ none

/-- In this transition `consoleintr` handles a character that completes a line, or a
`consoleread` that has not been killed finds no complete line in the buffer. -/
def Signals (x : Trans (System ι) (Event ι)) : Prop :=
  (∃ c ch upd next, x.ev = .advance c ∧ x.pre.code c = .act (.getc ch) upd next ∧
    x.pre.data.input.CompletesLine ch) ∨
  ∃ c me upd next, x.ev = .advance c ∧ x.pre.code c = .act (.readTest me) upd next ∧
    x.pre.data.input.r = x.pre.data.input.w ∧ (x.pre.data.kernel.ptable me).killed = false

/-- Every transition is quiet when the switches are as the run needs them. -/
theorem quietStep (tr : List (Trans (System ι) (Event ι))) :
    ∀ x ∈ tr, QuietStep (∃ x ∈ tr, FindsZombie x) (∃ x ∈ tr, Signals x) x := by
  intro x hx c he a upd next hcode
  cases a with
  | waitScan me =>
    by_cases hz : Sched.zombieChild x.pre.data.kernel me = none
    · exact Or.inr hz
    · exact Or.inl ⟨x, hx, c, me, upd, next, he, hcode, hz⟩
  | getc ch =>
    by_cases hl : x.pre.data.input.CompletesLine ch
    · exact Or.inl ⟨x, hx, Or.inl ⟨c, ch, upd, next, he, hcode, hl⟩⟩
    · exact Or.inr hl
  | readTest me =>
    by_cases hr : x.pre.data.input.r = x.pre.data.input.w ∧
        (x.pre.data.kernel.ptable me).killed = false
    · exact Or.inl ⟨x, hx, Or.inr ⟨c, me, upd, next, he, hcode, hr⟩⟩
    · exact Or.inr hr
  | point ws cont => trivial
  | other => trivial

variable [DecidableEq ι]

/-- An action that goes on to an `acquire` of `l'` under `l` makes the request. -/
theorem requests_of_act {s t : System ι} {c : ι} {a : Act} {upd : Data ι → Data ι}
    {next : Data ι → Prog ι} {l l' : Lock} (hst : s.advance c = some t)
    (hcode : s.code c = .act a upd next) (hl : s.held c = {l})
    (hnext : ∃ k, next s.data = .acquire l' k) : Requests t l l' := by
  rw [State.advance, hcode] at hst
  obtain rfl := Option.some.inj hst
  obtain ⟨k, hk⟩ := hnext
  have hmem : l ∈ s.held c := by rw [hl]; rfl
  exact ⟨c, hmem, k, by simpa [State.setCode] using hk⟩

theorem advance_of_mem {s : System ι} {tr : List (Trans (System ι) (Event ι))}
    (hrun : IsRun step s tr) {x : Trans (System ι) (Event ι)} (hx : x ∈ tr) {c : ι}
    (he : x.ev = .advance c) : x.pre.advance c = some x.post := by
  have hst := hrun.step_of_mem hx
  rwa [he] at hst

/-- **When `ptable.lock` and `cons.lock` are safe.** In any interleaving on any number of CPUs:
no set of CPUs is ever waiting for locks held within the set and the two locks are not asked
for in both orders, if and only if the run does not have both a `wait` that finds a `ZOMBIE`
and a completed line or a `consoleread` with nothing to read. -/
theorem no_lock_cycle_iff (minProc : ι → Option Slot) (tr : List (Trans (System ι) (Event ι)))
    (hrun : IsRun step (boot minProc) tr) :
    ((∀ x ∈ tr, ∀ S, ¬ Deadlocked x.post S) ∧ ¬ BothOrders tr) ↔
      ¬ ((∃ x ∈ tr, FindsZombie x) ∧ ∃ x ∈ tr, Signals x) := by
  set z := ∃ x ∈ tr, FindsZombie x with hz
  set g := ∃ x ∈ tr, Signals x with hg
  have hall := hrun.invariant (I := AlwaysAll (Quiet z g) (Nested z g)) (C := QuietStep z g)
    (keeps_boot minProc) (fun x hst hC hI => keeps_step hst hC hI) (quietStep tr)
  constructor
  · rintro ⟨-, hboth⟩ ⟨⟨x, hx, c, me, upd, next, he, hcode, hzombie⟩, y, hy, hsig⟩
    refine hboth ⟨⟨x, hx, ?_⟩, y, hy, ?_⟩
    · have hn := ((hall x hx).1 c).here
      rw [hcode] at hn
      exact requests_of_act (advance_of_mem hrun hx he) hcode hn.1 (hn.2 _ hzombie)
    · rcases hsig with ⟨c, ch, upd, next, he, hcode, hl⟩ | ⟨c, me, upd, next, he, hcode, hr, hk⟩
      · have hn := ((hall y hy).1 c).here
        rw [hcode] at hn
        exact requests_of_act (advance_of_mem hrun hy he) hcode hn.1 (hn.2 _ hl)
      · have hn := ((hall y hy).1 c).here
        rw [hcode] at hn
        exact requests_of_act (advance_of_mem hrun hy he) hcode hn.1 (hn.2 _ hr hk)
  · intro h
    -- which of the two nestings a request shows
    have hreq : ∀ x ∈ tr, ∀ l l', Requests x.post l l' → _ := fun x hx l l' ⟨c, hc, k, hk⟩ =>
      nested_pairs (hk ▸ ((hall x hx).2 c).here) hc
    refine ⟨fun x hx S => ?_, ?_⟩
    · obtain ⟨rank, hrank⟩ := nested_upward (ι := ι) h
      exact not_deadlocked (fun c => hrank _ _ ((hall x hx).2 c).here) S
    · rintro ⟨⟨x, hx, h1⟩, y, hy, h2⟩
      refine h ⟨?_, ?_⟩
      · simpa using hreq x hx _ _ h1
      · simpa using hreq y hy _ _ h2

/-- `init` on CPU 0 is dispatched and prints nothing, CPU 1 is idle. -/
theorem no_lock_cycle_iff_init :
    (trace step (boot fun _ : Fin 2 => none)
        [.scheduler 0, .advance 0, .advance 0, .advance 0]).length = 4 ∧
      (((∀ x ∈ trace step (boot fun _ : Fin 2 => none)
              [.scheduler 0, .advance 0, .advance 0, .advance 0], ∀ S, ¬ Deadlocked x.post S) ∧
          ¬ BothOrders (trace step (boot fun _ : Fin 2 => none)
              [.scheduler 0, .advance 0, .advance 0, .advance 0])) ↔
        ¬ ((∃ x ∈ trace step (boot fun _ : Fin 2 => none)
              [.scheduler 0, .advance 0, .advance 0, .advance 0], FindsZombie x) ∧
            ∃ x ∈ trace step (boot fun _ : Fin 2 => none)
              [.scheduler 0, .advance 0, .advance 0, .advance 0], Signals x)) :=
  ⟨by decide +kernel, no_lock_cycle_iff _ _ (isRun_trace _ _ _)⟩

/-- On CPU 0 `init` forks, its child exits, and `init` waits for it; then a newline is typed
and CPU 1 takes the interrupt. -/
def newlineDuringWait : List (Event (Fin 2)) :=
  .scheduler 0 :: List.replicate 3 (.advance 0) ++
    .call 0 (.fork 50 true []) :: List.replicate 10 (.advance 0) ++
    .timer 0 :: List.replicate 3 (.advance 0) ++
    .scheduler 0 :: List.replicate 3 (.advance 0) ++
    .call 0 (.exit []) :: List.replicate 4 (.advance 0) ++
    .scheduler 0 :: List.replicate 3 (.advance 0) ++
    .call 0 (.wait 0) :: List.replicate 2 (.advance 0) ++
    .interrupt 1 [10] 0 :: List.replicate 2 (.advance 1)

/-- Then CPU 0 holds `ptable.lock` and waits for `cons.lock`, CPU 1 the other way round. -/
theorem lock_cycle :
    ¬ ∀ tr : List (Trans (System (Fin 2)) (Event (Fin 2))), IsRun step (boot fun _ => none) tr →
      (∀ x ∈ tr, ∀ S, ¬ Deadlocked x.post S) ∧ ¬ BothOrders tr := by
  intro h
  have hend : (exec step (boot fun _ => none) newlineDuringWait).map
      (fun s => (s.waitsFor 0, s.waitsFor 1, s.holder .cons, s.holder .ptable))
        = some (some .cons, some .ptable, some 1, some 0) := by decide +kernel
  obtain ⟨t, ht, hsnap⟩ := Option.map_eq_some_iff.mp hend
  simp only [Prod.mk.injEq] at hsnap
  obtain ⟨h0, h1, hcons, hptable⟩ := hsnap
  obtain ⟨tr, hrun, hlast, hev⟩ := isRun_of_exec ht
  have hne : tr ≠ [] := by
    rintro rfl
    simp [newlineDuringWait] at hev
  obtain ⟨x, hx, hpost⟩ := exists_post_eq_last (boot fun _ => none) hne
  rw [hlast] at hpost
  refine (h tr hrun).1 x hx Set.univ ⟨⟨0, trivial⟩, fun c _ => ?_⟩
  rw [hpost]
  fin_cases c
  · exact ⟨.cons, waits_of_waitsFor h0, 1, trivial, by decide, hcons⟩
  · exact ⟨.ptable, waits_of_waitsFor h1, 0, trivial, by decide, hptable⟩

end StrideXv6.Console
