import StrideXv6.Lib.Monitor
import StrideXv6.Pipes.Fifo

set_option autoImplicit false

/-! # Sleepers on a pipe

A process that sleeps on `&p->nread` should find the pipe empty and its write end open, and one
that sleeps on `&p->nwrite` should find it full and its read end open. Every path through the
critical sections sees to that with a `wakeup`, except one: a `pipewrite` that finds the pipe full
and its caller killed (or the read end closed) returns `-1` at once, and leaves asleep the
readers it has stored bytes for. `no_stranded_iff` says that nothing else goes wrong, and
`reader_stranded` is such a run.
-/

namespace StrideXv6.Pipes

open Runs Function

variable {ι : Type}
variable {pc : Pc}

/-- `SLEEPING` on `&p->nread`. -/
def Pc.sleepsOnRead : Pc → Bool
  | .read .sleeping _ _ => true
  | _ => false

/-- `SLEEPING` on `&p->nwrite`. -/
def Pc.sleepsOnWrite : Pc → Bool
  | .write .sleeping _ _ _ => true
  | _ => false

/-- Readers sleep while the pipe is empty and may still be written. -/
def ReadersOk (s : PipeState ι) : Prop :=
  ∀ i, (s.pc i).sleepsOnRead = true → s.pipe.empty ∧ s.pipe.writeopen = true

/-- Writers sleep while the pipe is full and may still be read. -/
def WritersOk (s : PipeState ι) : Prop :=
  ∀ i, (s.pc i).sleepsOnWrite = true → s.pipe.full ∧ s.pipe.readopen = true

/-- Nobody sleeps who has something to do. -/
structure SleepersOk (s : PipeState ι) : Prop where
  readers : ReadersOk s
  writers : WritersOk s

/-- A `pipewrite` gives up while a reader is asleep. -/
def GivesUp (s : PipeState ι) : PipeEvent ι → Prop
  | .run i => (∃ addr n k, s.pc i = .write .fail addr n k) ∧ ∃ j, (s.pc j).sleepsOnRead = true
  | _ => False

/-! ## The critical sections -/

def WritePc.holds : WritePc → Bool
  | .acquire | .reacquire | .sleeping => false
  | _ => true

def ReadPc.holds : ReadPc → Bool
  | .acquire | .sleeping => false
  | _ => true

def Pc.holds : Pc → Bool
  | .user _ => false
  | .write w _ _ _ => w.holds
  | .read r _ _ => r.holds
  | .close c _ => c ≠ .acquire

def view : Monitor.View (PipeState ι) ι Pc := ⟨PipeState.lock, PipeState.pc, Pc.holds⟩

/-- What holds at each place of the critical sections. A writer may have stored bytes since the
readers fell asleep, and a reader may have taken some since the writers did. -/
def At : Pc → PipeState ι → Prop
  | .write w _ _ _, s =>
    match w with
    | .loop | .test | .done => WritersOk s
    | .full | .fail => s.pipe.full ∧ WritersOk s
    | .wake => s.pipe.full ∧ s.pipe.readopen = true ∧ WritersOk s
    | .sleep => s.pipe.full ∧ s.pipe.readopen = true ∧ SleepersOk s
    | _ => SleepersOk s
  | .read r _ _, s =>
    match r with
    | .empty | .sleep => s.pipe.empty ∧ s.pipe.writeopen = true ∧ SleepersOk s
    | .copy | .wake => ReadersOk s
    | _ => SleepersOk s
  | .close c writable, s =>
    match c with
    | .wake => if writable then WritersOk s else ReadersOk s
    | _ => SleepersOk s
  | .user _, _ => True

abbrev Inv (s : PipeState ι) : Prop := Monitor.Inv view At SleepersOk s

variable {s t : PipeState ι} {me : ι}

@[simp] theorem holds_wakeRead (pc : Pc) : pc.wakeRead.holds = pc.holds := by
  unfold Pc.wakeRead
  split <;> rfl

@[simp] theorem holds_wakeWrite (pc : Pc) : pc.wakeWrite.holds = pc.holds := by
  unfold Pc.wakeWrite
  split <;> rfl

@[simp] theorem sleepsOnRead_wakeRead (pc : Pc) : pc.wakeRead.sleepsOnRead = false := by
  unfold Pc.wakeRead
  split
  · rfl
  · rename_i hne
    unfold Pc.sleepsOnRead
    split
    · exact absurd rfl (hne _ _)
    · rfl

@[simp] theorem sleepsOnWrite_wakeWrite (pc : Pc) : pc.wakeWrite.sleepsOnWrite = false := by
  unfold Pc.wakeWrite
  split
  · rfl
  · rename_i hne
    unfold Pc.sleepsOnWrite
    split
    · exact absurd rfl (hne _ _ _)
    · rfl

@[simp] theorem sleepsOnWrite_wakeRead (pc : Pc) :
    pc.wakeRead.sleepsOnWrite = pc.sleepsOnWrite := by
  unfold Pc.wakeRead
  split <;> rfl

@[simp] theorem sleepsOnRead_wakeWrite (pc : Pc) :
    pc.wakeWrite.sleepsOnRead = pc.sleepsOnRead := by
  unfold Pc.wakeWrite
  split <;> rfl

/-- A state with the same pipe and no new sleepers. -/
theorem ReadersOk.mono (h : ReadersOk s) (he : s.pipe.empty → t.pipe.empty)
    (hw : s.pipe.writeopen = true → t.pipe.writeopen = true)
    (hpc : ∀ i, (t.pc i).sleepsOnRead = true → (s.pc i).sleepsOnRead = true) : ReadersOk t :=
  fun i hi => (h i (hpc i hi)).imp he hw

theorem WritersOk.mono (h : WritersOk s) (hf : s.pipe.full → t.pipe.full)
    (hr : s.pipe.readopen = true → t.pipe.readopen = true)
    (hpc : ∀ i, (t.pc i).sleepsOnWrite = true → (s.pc i).sleepsOnWrite = true) : WritersOk t :=
  fun i hi => (h i (hpc i hi)).imp hf hr

theorem SleepersOk.mono (h : SleepersOk s) (hp : t.pipe = s.pipe)
    (hr : ∀ i, (t.pc i).sleepsOnRead = true → (s.pc i).sleepsOnRead = true)
    (hw : ∀ i, (t.pc i).sleepsOnWrite = true → (s.pc i).sleepsOnWrite = true) : SleepersOk t :=
  ⟨h.readers.mono (by rw [hp]; exact id) (by rw [hp]; exact id) hr,
    h.writers.mono (by rw [hp]; exact id) (by rw [hp]; exact id) hw⟩

theorem At.mono (h : At pc s) (hp : t.pipe = s.pipe)
    (hr : ∀ i, (t.pc i).sleepsOnRead = true → (s.pc i).sleepsOnRead = true)
    (hw : ∀ i, (t.pc i).sleepsOnWrite = true → (s.pc i).sleepsOnWrite = true) : At pc t := by
  have hR : ReadersOk s → ReadersOk t := fun h =>
    h.mono (by rw [hp]; exact id) (by rw [hp]; exact id) hr
  have hW : WritersOk s → WritersOk t := fun h =>
    h.mono (by rw [hp]; exact id) (by rw [hp]; exact id) hw
  have hS : SleepersOk s → SleepersOk t := fun h => h.mono hp hr hw
  cases pc with
  | user r => trivial
  | write w addr n i =>
    cases w with
    | loop | test | done => exact hW h
    | full | fail => exact ⟨hp ▸ h.1, hW h.2⟩
    | wake => exact ⟨hp ▸ h.1, hp ▸ h.2.1, hW h.2.2⟩
    | sleep => exact ⟨hp ▸ h.1, hp ▸ h.2.1, hS h.2.2⟩
    | _ => exact hS h
  | read r n i =>
    cases r with
    | empty | sleep => exact ⟨hp ▸ h.1, hp ▸ h.2.1, hS h.2.2⟩
    | copy | wake => exact hR h
    | _ => exact hS h
  | close c writable =>
    cases c with
    | wake =>
      cases writable with
      | true => exact hW h
      | false => exact hR h
    | _ => exact hS h

theorem Inv.lock_eq (h : Inv s) (hme : (s.pc me).holds = true) : s.lock = some me :=
  (h.excl me).mp hme

theorem full_ne_empty {p : Pipe} (h : p.full) : ¬ p.empty := by
  rw [p.empty_iff, p.full_iff.mp h]
  decide

variable [DecidableEq ι]

/-- A process that moves to a place where it does not sleep. -/
theorem sleeps_update {f : Pc → Bool} {g : ι → Pc} (hpc : f pc = false) (i : ι)
    (hi : f (Function.update g me pc i) = true) : f (g i) = true := by
  by_cases hme : i = me
  · subst hme
    rw [update_self, hpc] at hi
    exact absurd hi (by simp)
  · rwa [update_of_ne hme] at hi

theorem ReadersOk.setPc (h : ReadersOk s) (hpc : pc.sleepsOnRead = false)
    (hp : t.pipe = s.pipe) (ht : t.pc = Function.update s.pc me pc) : ReadersOk t :=
  h.mono (by rw [hp]; exact id) (by rw [hp]; exact id) (by rw [ht]; exact sleeps_update hpc)

theorem WritersOk.setPc (h : WritersOk s) (hpc : pc.sleepsOnWrite = false)
    (hp : t.pipe = s.pipe) (ht : t.pc = Function.update s.pc me pc) : WritersOk t :=
  h.mono (by rw [hp]; exact id) (by rw [hp]; exact id) (by rw [ht]; exact sleeps_update hpc)

theorem SleepersOk.setPc (h : SleepersOk s)
    (hpc : pc.sleepsOnRead = false ∧ pc.sleepsOnWrite = false) (hp : t.pipe = s.pipe)
    (ht : t.pc = Function.update s.pc me pc) : SleepersOk t :=
  ⟨h.readers.setPc hpc.1 hp ht, h.writers.setPc hpc.2 hp ht⟩

/-- After `wakeup(&p->nread)` no reader sleeps. -/
theorem readersOk_wakeupRead (hpc : pc.sleepsOnRead = false) :
    ReadersOk ((wakeupRead s).setPc me pc) := fun i hi => by
  have := sleeps_update hpc i hi
  simp [wakeupRead] at this

theorem writersOk_wakeupWrite (hpc : pc.sleepsOnWrite = false) :
    WritersOk ((wakeupWrite s).setPc me pc) := fun i hi => by
  have := sleeps_update hpc i hi
  simp [wakeupWrite] at this

theorem WritersOk.wakeupRead (h : WritersOk s) (hpc : pc.sleepsOnWrite = false) :
    WritersOk ((wakeupRead s).setPc me pc) :=
  h.mono id id fun i hi => by
    have := sleeps_update hpc i hi
    simpa [Pipes.wakeupRead] using this

theorem ReadersOk.wakeupWrite (h : ReadersOk s) (hpc : pc.sleepsOnRead = false) :
    ReadersOk ((wakeupWrite s).setPc me pc) :=
  h.mono id id fun i hi => by
    have := sleeps_update hpc i hi
    simpa [Pipes.wakeupWrite] using this

section Rules

variable {g : Pc → Pc} {q pc : Pc}

theorem holds_others (hg : ∀ pc, (g pc).holds = pc.holds)
    (ht : t.pc = Function.update (fun j => g (s.pc j)) me pc) (i : ι) (hi : i ≠ me) :
    (t.pc i).holds = (s.pc i).holds := by
  rw [ht, update_of_ne hi, hg]

theorem pc_self {f : ι → Pc} (ht : t.pc = Function.update f me pc) : t.pc me = pc := by
  rw [ht, update_self]

/-- The holder of the lock goes on from `q` to `pc`, and may wake others. -/
theorem Inv.goto (h : Inv s) (hq : s.pc me = q) (hg : ∀ pc, (g pc).holds = pc.holds)
    (hl : t.lock = s.lock) (ht : t.pc = Function.update (fun j => g (s.pc j)) me pc)
    (hold : q.holds = true ∧ pc.holds = true) (hA : At q s → At pc t) : Inv t := by
  subst hq
  have hs := h.lock_eq hold.1
  exact Monitor.Inv.inside h hs (hl.trans hs) (holds_others hg ht) (pc_self ht) hold.2 hA

theorem Inv.setPc (h : Inv s) (hq : s.pc me = q) (hold : q.holds = true ∧ pc.holds = true)
    (hA : At q s → At pc (s.setPc me pc)) : Inv (s.setPc me pc) :=
  h.goto (g := id) hq (fun _ => rfl) rfl rfl hold hA

/-- The holder of the lock gives it up. -/
theorem Inv.release (h : Inv s) (hq : s.pc me = q) (hold : q.holds = true ∧ pc.holds = false)
    (hA : At q s → SleepersOk (release s me pc)) :
    Inv (release s me pc) := by
  subst hq
  exact Monitor.Inv.drop h (h.lock_eq hold.1) rfl
    (holds_others (t := Pipes.release s me pc) (g := id) (fun _ => rfl) rfl)
    (pc_self (t := Pipes.release s me pc) rfl) hold.2 hA

theorem Inv.acquire (h : Inv s) (ht : acquire s me pc = some t) (hpc : pc.holds = true)
    (hsl : pc.sleepsOnRead = false ∧ pc.sleepsOnWrite = false) (hA : SleepersOk t → At pc t) :
    Inv t := by
  unfold Pipes.acquire at ht
  split at ht
  · rename_i hl
    obtain rfl := Option.some.inj ht
    refine Monitor.Inv.take h hl rfl
      (holds_others (t := { s.setPc me pc with lock := some me }) (g := id) (fun _ => rfl) rfl)
      (pc_self (t := { s.setPc me pc with lock := some me }) rfl) hpc fun hJ => hA ?_
    exact hJ.setPc hsl rfl rfl
  · simp at ht

end Rules

/-! ## The steps -/

/-- A writer that stores a byte leaves no writer behind. -/
theorem WritersOk.store (h : WritersOk s) (hfull : ¬ s.pipe.full) {a : UInt8}
    (hpc : pc.sleepsOnWrite = false) : WritersOk ((store s a).setPc me pc) := fun i hi =>
  absurd (h i (sleeps_update hpc i hi)).1 hfull

theorem ReadersOk.fetch (h : ReadersOk s) (hempty : ¬ s.pipe.empty)
    (hpc : pc.sleepsOnRead = false) : ReadersOk ((fetch s).setPc me pc) := fun i hi =>
  absurd (h i (sleeps_update hpc i hi)).1 hempty

theorem inv_pipewrite (h : Inv s) {addr : Nat → UInt8} {n : Int} {i : Nat} {w : WritePc}
    (hpc : s.pc me = .write w addr n i) (hst : pipewrite s me addr n i w = some t)
    (hC : w = .fail → ∀ j, (s.pc j).sleepsOnRead = false) : Inv t := by
  cases w with
  | acquire | reacquire => exact h.acquire hst rfl ⟨rfl, rfl⟩ fun hJ => hJ.writers
  | sleeping => simp [pipewrite] at hst
  | loop =>
    obtain rfl := Option.some.inj hst
    refine h.setPc hpc ⟨rfl, ?_⟩ fun hA => ?_
    · split <;> rfl
    · split <;> exact WritersOk.setPc hA rfl rfl rfl
  | test =>
    simp only [pipewrite] at hst
    split at hst <;> obtain rfl := Option.some.inj hst
    · rename_i hfull
      exact h.setPc hpc ⟨rfl, rfl⟩ fun hA => ⟨hfull, WritersOk.setPc hA rfl rfl rfl⟩
    · rename_i hfull
      exact h.goto (g := id) hpc (fun _ => rfl) rfl rfl ⟨rfl, rfl⟩ fun hA =>
        WritersOk.store hA hfull rfl
  | full =>
    simp only [pipewrite] at hst
    split at hst <;> obtain rfl := Option.some.inj hst
    · exact h.setPc hpc ⟨rfl, rfl⟩ fun hA => ⟨hA.1, hA.2.setPc rfl rfl rfl⟩
    · rename_i hgo
      have hopen : s.pipe.readopen = true := by simpa using fun h0 => hgo (Or.inl h0)
      exact h.setPc hpc ⟨rfl, rfl⟩ fun hA => ⟨hA.1, hopen, hA.2.setPc rfl rfl rfl⟩
  | fail =>
    obtain rfl := Option.some.inj hst
    refine h.release hpc ⟨rfl, rfl⟩ fun hA => ⟨fun j hj => ?_, hA.2.setPc rfl rfl rfl⟩
    have := sleeps_update (f := Pc.sleepsOnRead) rfl j hj
    simp [hC rfl j] at this
  | wake =>
    obtain rfl := Option.some.inj hst
    exact h.goto hpc holds_wakeRead rfl rfl ⟨rfl, rfl⟩ fun hA =>
      ⟨hA.1, hA.2.1, readersOk_wakeupRead rfl, hA.2.2.wakeupRead rfl⟩
  | sleep =>
    obtain rfl := Option.some.inj hst
    exact h.release hpc ⟨rfl, rfl⟩ fun hA =>
      ⟨hA.2.2.readers.setPc rfl rfl rfl, fun _ _ => ⟨hA.1, hA.2.1⟩⟩
  | done =>
    obtain rfl := Option.some.inj hst
    exact h.goto hpc holds_wakeRead rfl rfl ⟨rfl, rfl⟩ fun hA =>
      ⟨readersOk_wakeupRead rfl, WritersOk.wakeupRead hA rfl⟩
  | release =>
    obtain rfl := Option.some.inj hst
    exact h.release hpc ⟨rfl, rfl⟩ fun hA =>
      hA.setPc ⟨rfl, rfl⟩ rfl rfl

theorem inv_piperead (h : Inv s) {n : Int} {i : Nat} {r : ReadPc}
    (hpc : s.pc me = .read r n i) (hst : piperead s me n i r = some t) : Inv t := by
  cases r with
  | acquire => exact h.acquire hst rfl ⟨rfl, rfl⟩ id
  | sleeping => simp [piperead] at hst
  | test =>
    simp only [piperead] at hst
    split at hst <;> obtain rfl := Option.some.inj hst
    · rename_i he
      exact h.setPc hpc ⟨rfl, rfl⟩ fun hA => ⟨he.1, he.2, hA.setPc ⟨rfl, rfl⟩ rfl rfl⟩
    · exact h.setPc hpc ⟨rfl, rfl⟩ fun hA => hA.readers.setPc rfl rfl rfl
  | empty =>
    simp only [piperead] at hst
    split at hst <;> obtain rfl := Option.some.inj hst
    · exact h.setPc hpc ⟨rfl, rfl⟩ fun hA => hA.2.2.setPc ⟨rfl, rfl⟩ rfl rfl
    · exact h.setPc hpc ⟨rfl, rfl⟩ fun hA => ⟨hA.1, hA.2.1, hA.2.2.setPc ⟨rfl, rfl⟩ rfl rfl⟩
  | sleep =>
    obtain rfl := Option.some.inj hst
    exact h.release hpc ⟨rfl, rfl⟩ fun hA =>
      ⟨fun _ _ => ⟨hA.1, hA.2.1⟩, hA.2.2.writers.setPc rfl rfl rfl⟩
  | copy =>
    simp only [piperead] at hst
    split at hst <;> obtain rfl := Option.some.inj hst
    · rename_i hc
      exact h.goto (g := id) hpc (fun _ => rfl) rfl rfl ⟨rfl, rfl⟩ fun hA =>
        ReadersOk.fetch hA hc.2 rfl
    · exact h.setPc hpc ⟨rfl, rfl⟩ fun hA => ReadersOk.setPc hA rfl rfl rfl
  | wake =>
    obtain rfl := Option.some.inj hst
    exact h.goto hpc holds_wakeWrite rfl rfl ⟨rfl, rfl⟩ fun hA =>
      ⟨ReadersOk.wakeupWrite hA rfl, writersOk_wakeupWrite rfl⟩
  | fail | release =>
    obtain rfl := Option.some.inj hst
    exact h.release hpc ⟨rfl, rfl⟩ fun hA =>
      hA.setPc ⟨rfl, rfl⟩ rfl rfl

theorem inv_pipeclose (h : Inv s) {writable : Bool} {c : ClosePc}
    (hpc : s.pc me = .close c writable) (hst : pipeclose s me writable c = some t) : Inv t := by
  cases c with
  | acquire => exact h.acquire hst rfl ⟨rfl, rfl⟩ id
  | clear =>
    obtain rfl := Option.some.inj hst
    refine h.goto (g := id) hpc (fun _ => rfl) rfl rfl ⟨rfl, rfl⟩ fun hA => ?_
    cases writable with
    | true => exact hA.writers.mono id id (sleeps_update rfl)
    | false => exact hA.readers.mono id id (sleeps_update rfl)
  | wake =>
    obtain rfl := Option.some.inj hst
    cases writable with
    | true =>
      exact h.goto hpc holds_wakeRead rfl rfl ⟨rfl, rfl⟩ fun hA =>
        ⟨readersOk_wakeupRead rfl, WritersOk.wakeupRead hA rfl⟩
    | false =>
      exact h.goto hpc holds_wakeWrite rfl rfl ⟨rfl, rfl⟩ fun hA =>
        ⟨ReadersOk.wakeupWrite hA rfl, writersOk_wakeupWrite rfl⟩
  | release =>
    obtain rfl := Option.some.inj hst
    have hr : Inv (release s me (.user 0)) :=
      h.release hpc ⟨rfl, rfl⟩ fun hA => hA.setPc ⟨rfl, rfl⟩ rfl rfl
    have hfree : SleepersOk (release s me (.user 0)) := hr.free rfl
    exact ⟨hr.excl, fun _ => ⟨hfree.readers, hfree.writers⟩, fun i hi => by
      simp [view, release] at hi⟩

/-- A process outside of its critical section moves, and does not fall asleep. -/
theorem Inv.elsewhere (h : Inv s) {i : ι} {c : Pc} (hl : t.lock = s.lock) (hp : t.pipe = s.pipe)
    (ht : t.pc = Function.update s.pc i c) (hold : c.holds = (s.pc i).holds)
    (hsame : (s.pc i).holds = true → c = s.pc i)
    (hr : c.sleepsOnRead = true → (s.pc i).sleepsOnRead = true)
    (hw : c.sleepsOnWrite = true → (s.pc i).sleepsOnWrite = true) : Inv t := by
  have hpc : ∀ j, t.pc j = if j = i then c else s.pc j := fun j => by
    rw [ht, update_apply]
  refine Monitor.Inv.outside h hl (fun j => ?_) (fun j hj => ?_) (fun hJ => hJ.mono hp ?_ ?_)
    fun j _ hA => hA.mono hp ?_ ?_
  · show (t.pc j).holds = (s.pc j).holds
    rw [hpc]
    split
    · rename_i hji; rw [hold, hji]
    · rfl
  · show t.pc j = s.pc j
    rw [hpc]
    split
    · rename_i hji; subst hji; exact hsame hj
    · rfl
  all_goals
    intro j
    rw [hpc]
    split
    · rename_i hji; subst hji; assumption
    · exact id

theorem inv_kill (h : Inv s) (i : ι) : Inv (kill s i) := by
  refine h.elsewhere (i := i) (c := (s.pc i).wakeRead.wakeWrite) rfl rfl rfl (by simp) ?_ ?_ ?_
  · intro hh
    unfold Pc.wakeRead
    split
    · rename_i hpc; simp [hpc, Pc.holds, ReadPc.holds] at hh
    · unfold Pc.wakeWrite
      split
      · rename_i hpc; simp [hpc, Pc.holds, WritePc.holds] at hh
      · rfl
  · simp
  · simp

/-- **The step lemma.** -/
theorem inv_step {e : PipeEvent ι} (h : Inv s) (hst : pipeStep s e = some t)
    (hC : ¬ GivesUp s e) : Inv t := by
  cases e with
  | call i c =>
    simp only [pipeStep] at hst
    split at hst
    · rename_i r hpc
      split at hst
      · simp at hst
      · obtain rfl := Option.some.inj hst
        refine h.elsewhere (i := i) (c := c.pc) rfl rfl rfl ?_ ?_ ?_ ?_ <;> rw [hpc]
        all_goals cases c <;> simp [Call.pc, Pc.holds, WritePc.holds, ReadPc.holds,
          Pc.sleepsOnRead, Pc.sleepsOnWrite]
    · simp at hst
  | run i =>
    simp only [pipeStep, advance] at hst
    split at hst
    · simp at hst
    · split at hst
      · simp at hst
      · rename_i w addr n k hpc
        refine inv_pipewrite h hpc hst fun hw j => ?_
        subst hw
        by_contra hj
        exact hC ⟨⟨addr, n, k, hpc⟩, j, by simpa using hj⟩
      · exact inv_piperead h ‹_› hst
      · exact inv_pipeclose h ‹_› hst
  | kill i =>
    obtain rfl := Option.some.inj hst
    exact inv_kill h i

/-- A writer that gives up leaves the reader asleep on a full pipe. -/
theorem stranded_of_givesUp {e : PipeEvent ι} (h : Inv s) (hst : pipeStep s e = some t)
    (hC : GivesUp s e) : t.lock = none ∧ ¬ SleepersOk t := by
  cases e with
  | call i c => exact hC.elim
  | kill i => exact hC.elim
  | run i =>
    obtain ⟨⟨addr, n, k, hpc⟩, j, hj⟩ := hC
    simp only [pipeStep, advance, hpc] at hst
    split at hst
    · simp at hst
    · obtain rfl := Option.some.inj hst
      have hA : s.pipe.full ∧ WritersOk s := by
        have := h.held i (h.lock_eq (by rw [hpc]; rfl))
        rwa [show view.pc s i = .write .fail addr n k from hpc] at this
      have hne : j ≠ i := by
        rintro rfl
        rw [hpc] at hj
        simp [Pc.sleepsOnRead] at hj
      refine ⟨rfl, fun hok => full_ne_empty hA.1 (hok.readers j ?_).1⟩
      show (Function.update s.pc i (.user (-1)) j).sleepsOnRead = true
      rwa [update_of_ne hne]

omit [DecidableEq ι] in
theorem inv_pipealloc (data : Nat → UInt8) (killed : ι → Bool) : Inv (pipealloc data killed) :=
  ⟨fun i => by simp [view, pipealloc, Pc.holds],
    fun _ => ⟨fun i hi => by simp [pipealloc, Pc.sleepsOnRead] at hi,
      fun i hi => by simp [pipealloc, Pc.sleepsOnWrite] at hi⟩,
    fun i hi => by simp [view, pipealloc] at hi⟩

/-- **When no sleeper is stranded.** In every run, with any number of processes in `pipewrite`,
`piperead` and `pipeclose`, and killed at any time: whenever the lock is free nobody sleeps on
`&p->nread` while the pipe is not empty or its write end is closed, nor on `&p->nwrite` while it
is not full or its read end is closed, if and only if no `pipewrite` returns `-1` while a
process sleeps on `&p->nread`. -/
theorem no_stranded_iff (data : Nat → UInt8) (killed : ι → Bool)
    (tr : List (Trans (PipeState ι) (PipeEvent ι)))
    (hrun : IsRun pipeStep (pipealloc data killed) tr) :
    (∀ x ∈ tr, x.post.lock = none → SleepersOk x.post) ↔ ∀ x ∈ tr, ¬ GivesUp x.pre x.ev := by
  refine hrun.forall_iff (I := Inv) (Q := fun s => s.lock = none → SleepersOk s)
    (inv_pipealloc data killed) (fun x hst hI hC => ?_) (fun x hst hI hC hQ => ?_)
  · have hpost := inv_step hI hst hC
    exact ⟨hpost, hpost.free⟩
  · obtain ⟨hfree, hno⟩ := stranded_of_givesUp hI hst (not_not.mp hC)
    exact hno (hQ hfree)

theorem no_stranded_iff_twoBytes :
    (trace pipeStep (pipealloc (fun _ => 0) fun _ => false) twoBytes).length = 14 ∧
      ((∀ x ∈ trace pipeStep (pipealloc (fun _ => 0) fun _ => false) twoBytes,
          x.post.lock = none → SleepersOk x.post) ↔
        ∀ x ∈ trace pipeStep (pipealloc (fun _ => 0) fun _ => false) twoBytes,
          ¬ GivesUp x.pre x.ev) :=
  ⟨by decide, no_stranded_iff _ _ _ (isRun_trace _ _ _)⟩

/-- A reader goes to sleep on the empty pipe; then a writer of 513 bytes, killed during the call,
fills the pipe and gives up. -/
def killedWriter : List (PipeEvent Bool) :=
  [.call false (.read 1)] ++ List.replicate 4 (.run false)
    ++ [.call true (.write (fun _ => 0) 513), .kill true] ++ List.replicate 1029 (.run true)

/-- The reader sleeps on, with 512 bytes to read. -/
theorem reader_stranded :
    ¬ ∀ tr : List (Trans (PipeState Bool) (PipeEvent Bool)),
      IsRun pipeStep (pipealloc (fun _ => 0) fun _ => false) tr →
        ∀ x ∈ tr, x.post.lock = none → SleepersOk x.post := by
  intro h
  have hend : ((exec pipeStep (pipealloc (fun _ => 0) fun _ => false) killedWriter).map fun s =>
      (s.lock, (s.pc false).sleepsOnRead, decide s.pipe.empty)) = some (none, true, false) := by
    decide +kernel
  obtain ⟨s, hs, hlast⟩ := Option.map_eq_some_iff.mp hend
  simp only [Prod.mk.injEq, decide_eq_false_iff_not] at hlast
  obtain ⟨tr, hrun, x, hx, rfl⟩ := exists_post_of_exec hs (List.cons_ne_nil _ _)
  exact hlast.2.2 ((h tr hrun x hx hlast.1).readers false hlast.2.1).1

end StrideXv6.Pipes
