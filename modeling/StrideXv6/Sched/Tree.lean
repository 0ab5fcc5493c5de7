import StrideXv6.Sched.Lifecycle

set_option autoImplicit false

/-! # The process tree

What holds of the process table whatever the interleaving. `TreeOk`: every process but `init`
has a parent that is alive, a slot that is free has none, and the slots of unfinished `fork`s are
held by one process each. `WaitOk`: only `wait` sleeps on a slot, and never over a zombie child
(`no_lost_exit`).

Most events only make a process run, sleep or wake up (`Gentle`). The three steps of a `fork` are
one kind of step (`ForkStep`); `exit` and the reaping `wait` are treated by themselves.
-/

namespace StrideXv6.Sched

open Runs

variable {ι : Type} [DecidableEq ι] {k k' : Kernel ι}
variable {me : Slot}

/-- The process can run again. -/
def ProcState.Alive (s : ProcState) : Prop := s = .sleeping ∨ s = .runnable ∨ s = .running

attribute [simp] ProcState.Alive

/-- A CPU's current process is `RUNNING`, and no other CPU's. -/
structure CpuOk (k : Kernel ι) : Prop where
  running : ∀ c p, (k.cpu c).proc = some p → (k.ptable p).state = .running
  unique : ∀ c d p, (k.cpu c).proc = some p → (k.cpu d).proc = some p → c = d

/-- The tree of processes, with the slots that unfinished `fork`s hold. -/
structure TreeOk (k : Kernel ι) : Prop where
  cpu : CpuOk k
  np_embryo : ∀ p j, (k.ptable p).np = some j → (k.ptable j).state = .embryo
  np_forker : ∀ p j, (k.ptable p).np = some j →
    (k.ptable p).state = .running ∨ (k.ptable p).state = .runnable
  np_unique : ∀ p q j, (k.ptable p).np = some j → (k.ptable q).np = some j → p = q
  init_alive : (k.ptable k.initproc).state.Alive
  init_parent : (k.ptable k.initproc).parent = none
  parent_alive : ∀ q, q ≠ k.initproc → (k.ptable q).state.Alive ∨ (k.ptable q).state = .zombie →
    ∃ p, (k.ptable q).parent = some p ∧ p ≠ q ∧ (k.ptable p).state.Alive
  parent_none : ∀ q, (k.ptable q).state = .unused ∨ (k.ptable q).state = .embryo →
    (k.ptable q).parent = none

section

omit [DecidableEq ι]

theorem CpuOk.keep (h : CpuOk k) (hcpu : ∀ d, (k'.cpu d).proc = (k.cpu d).proc)
    (hrun : ∀ q, (k.ptable q).state = .running → (k'.ptable q).state = .running) : CpuOk k' :=
  ⟨fun c p hc => hrun p (h.running c p (hcpu c ▸ hc)),
    fun c d p hc hd => h.unique c d p (hcpu c ▸ hc) (hcpu d ▸ hd)⟩

/-- The process of `c` has left it. -/
theorem CpuOk.leave [DecidableEq ι] (h : CpuOk k) {c : ι} {me : Slot}
    (hc : (k.cpu c).proc = some me)
    (hcpu : ∀ d, (k'.cpu d).proc = if d = c then none else (k.cpu d).proc)
    (hrun : ∀ q ≠ me, (k.ptable q).state = .running → (k'.ptable q).state = .running) :
    CpuOk k' := by
  have hold : ∀ d p, (k'.cpu d).proc = some p → d ≠ c ∧ (k.cpu d).proc = some p := by
    intro d p hd
    rw [hcpu d] at hd
    split at hd
    · simp at hd
    · exact ⟨‹_›, hd⟩
  refine ⟨fun d p hd => ?_, fun d e p hd he => h.unique d e p (hold d p hd).2 (hold e p he).2⟩
  obtain ⟨hdc, hd⟩ := hold d p hd
  refine hrun p ?_ (h.running d p hd)
  rintro rfl
  exact hdc (h.unique d c p hd hc)

/-- Nothing changes in the tree, and a process stays alive if it was. -/
structure Gentle (k k' : Kernel ι) : Prop where
  pid : ∀ q, (k'.ptable q).pid = (k.ptable q).pid
  parent : ∀ q, (k'.ptable q).parent = (k.ptable q).parent
  np : ∀ q, (k'.ptable q).np = (k.ptable q).np
  state : ∀ q, (k'.ptable q).state = (k.ptable q).state ∨
    ((k.ptable q).state.Alive ∧ (k'.ptable q).state.Alive ∧
      ((k'.ptable q).state = .sleeping → (k.ptable q).np = none))
  initproc : k'.initproc = k.initproc

theorem Gentle.alive_iff (h : Gentle k k') (q : Slot) :
    (k'.ptable q).state.Alive ↔ (k.ptable q).state.Alive := by
  rcases h.state q with hq | ⟨h1, h2, -⟩
  · rw [hq]
  · exact iff_of_true h2 h1

theorem Gentle.state_eq (h : Gentle k k') {q : Slot} {s : ProcState} (hs : ¬ s.Alive)
    (hq : (k'.ptable q).state = s) : (k.ptable q).state = s := by
  rcases h.state q with h' | ⟨-, h', -⟩
  · rwa [← h']
  · exact absurd (hq ▸ h') hs

theorem TreeOk.gentle (h : TreeOk k) (hg : Gentle k k') (hcpu : CpuOk k') : TreeOk k' := by
  refine ⟨hcpu, fun p j hp => ?_, fun p j hp => ?_, fun p q j hp hq => ?_, ?_, ?_,
    fun q hq hs => ?_, fun q hs => ?_⟩
  · have hj := h.np_embryo p j (hg.np p ▸ hp)
    rcases hg.state j with h' | ⟨h', -⟩
    · rwa [h']
    · rw [hj] at h'
      simp at h'
  · have hp' := hg.np p ▸ hp
    rcases hg.state p with h' | ⟨-, h', hnp⟩
    · rw [h']
      exact h.np_forker p j hp'
    · rcases h' with h' | h' | h'
      · simp [hnp h'] at hp'
      · exact Or.inr h'
      · exact Or.inl h'
  · exact h.np_unique p q j (hg.np p ▸ hp) (hg.np q ▸ hq)
  · rw [hg.initproc, hg.alive_iff]
    exact h.init_alive
  · rw [hg.initproc, hg.parent]
    exact h.init_parent
  · rw [hg.initproc] at hq
    rw [hg.alive_iff] at hs
    obtain ⟨p, hp, hpq, hal⟩ := h.parent_alive q hq
      (hs.imp_right (hg.state_eq (by simp)))
    exact ⟨p, by rw [hg.parent, hp], hpq, (hg.alive_iff p).mpr hal⟩
  · rw [hg.parent]
    exact h.parent_none q (hs.imp (hg.state_eq (by simp))
      (hg.state_eq (by simp)))

/-- Only slot `p` changes. -/
theorem gentle_row {p : Slot} {r : Proc} (ht : k'.ptable = Function.update k.ptable p r)
    (hinit : k'.initproc = k.initproc) (hpid : r.pid = (k.ptable p).pid)
    (hparent : r.parent = (k.ptable p).parent)
    (hnp : r.np = (k.ptable p).np)
    (hstate : r.state = (k.ptable p).state ∨ ((k.ptable p).state.Alive ∧ r.state.Alive ∧
      (r.state = .sleeping → (k.ptable p).np = none))) : Gentle k k' := by
  refine ⟨fun q => ?_, fun q => ?_, fun q => ?_, fun q => ?_, hinit⟩ <;> rw [ht] <;>
    by_cases hq : q = p
  · subst hq; simpa using hpid
  · simp [hq]
  · subst hq; simpa using hparent
  · simp [hq]
  · subst hq; simpa using hnp
  · simp [hq]
  · subst hq; simpa using hstate
  · simp [hq]

theorem gentle_wakeup1 (k : Kernel ι) (chan : Option Chan) : Gentle k (wakeup1 k chan) := by
  refine ⟨by simp, by simp, by simp, fun q => ?_, rfl⟩
  rw [wakeup1_ptable, Proc.wakeup1_state]
  split
  · rename_i h
    exact Or.inr ⟨Or.inl h.1, Or.inr (Or.inl rfl), by simp⟩
  · exact Or.inl rfl

theorem gentle_kill (k : Kernel ι) (p : Slot) : Gentle k (k.setProc p (k.ptable p).kill) := by
  refine gentle_row rfl rfl rfl rfl rfl ?_
  by_cases hs : (k.ptable p).state = .sleeping
  · exact Or.inr ⟨Or.inl hs, by simp [Proc.kill, hs], by simp [Proc.kill, hs]⟩
  · exact Or.inl (by simp [Proc.kill, hs])

end

omit [DecidableEq ι] in
theorem gentle_refl (k : Kernel ι) : Gentle k k :=
  ⟨fun _ => rfl, fun _ => rfl, fun _ => rfl, fun _ => Or.inl rfl, rfl⟩

omit [DecidableEq ι] in
theorem gentle_fault (k : Kernel ι) (me : Slot) : Gentle k (fault k me) :=
  gentle_row (p := me) rfl rfl rfl rfl rfl (Or.inl rfl)

section

variable {c : ι} {me p : Slot}

theorem gentle_sleep (hrun : (k.ptable me).state = .running) (hnp : (k.ptable me).np = none)
    (chan : Option Chan) : Gentle k (sleep k c me chan) :=
  gentle_row (p := me) rfl rfl rfl rfl rfl
    (Or.inr ⟨by simp [hrun], by simp, fun _ => hnp⟩)

theorem gentle_yield (hrun : (k.ptable me).state = .running) : Gentle k (yield k c me) :=
  gentle_row (p := me) rfl rfl rfl rfl rfl
    (Or.inr ⟨by simp [hrun], by simp, by simp⟩)

theorem gentle_dispatchTo (hp : (k.ptable p).state = .runnable) : Gentle k (dispatchTo k c p) :=
  gentle_row (p := p) rfl rfl rfl rfl rfl
    (Or.inr ⟨by simp [hp], by simp [Proc.dispatch],
      by simp [Proc.dispatch]⟩)

omit [DecidableEq ι] in
theorem TreeOk.running (h : TreeOk k) (hc : caller k c = some me) :
    (k.ptable me).state = .running :=
  h.cpu.running c me (caller_eq_some hc).1

theorem TreeOk.sleep (h : TreeOk k) (hc : caller k c = some me) (chan : Option Chan) :
    TreeOk (sleep k c me chan) := by
  obtain ⟨hcur, hnp⟩ := caller_eq_some hc
  refine h.gentle (gentle_sleep (h.running hc) hnp chan)
    (h.cpu.leave hcur (fun d => sched_cpu_proc _ c d) fun q hq hs => ?_)
  simpa [Sched.sleep, hq] using hs

theorem TreeOk.yield (h : TreeOk k) (hcur : (k.cpu c).proc = some me) : TreeOk (yield k c me) := by
  refine h.gentle (gentle_yield (h.cpu.running c me hcur))
    (h.cpu.leave hcur (fun d => sched_cpu_proc _ c d) fun q hq hs => ?_)
  simpa [Sched.yield, hq] using hs

theorem TreeOk.dispatchTo (h : TreeOk k) (hp : (k.ptable p).state = .runnable) :
    TreeOk (dispatchTo k c p) := by
  -- a runnable process is not current anywhere
  have hidle : ∀ d, (k.cpu d).proc ≠ some p := fun d hd => by
    simp [h.cpu.running d p hd] at hp
  have hcpu : ∀ d q, ((Sched.dispatchTo k c p).cpu d).proc = some q →
      (d = c ∧ q = p) ∨ (d ≠ c ∧ (k.cpu d).proc = some q) := by
    intro d q hd
    by_cases hdc : d = c
    · subst hdc
      exact Or.inl ⟨rfl, by simpa [Sched.dispatchTo] using hd.symm⟩
    · exact Or.inr ⟨hdc, by simpa [Sched.dispatchTo, hdc] using hd⟩
  refine h.gentle (gentle_dispatchTo hp) ⟨fun d q hd => ?_, fun d e q hd he => ?_⟩
  · rcases hcpu d q hd with ⟨-, rfl⟩ | ⟨-, hd⟩
    · simp [Sched.dispatchTo, Proc.dispatch]
    · have hqp : q ≠ p := fun hqp => hidle d (hqp ▸ hd)
      simpa [Sched.dispatchTo, hqp] using h.cpu.running d q hd
  · rcases hcpu d q hd with ⟨hdc, hq⟩ | ⟨-, hd'⟩ <;> rcases hcpu e q he with ⟨hec, hq'⟩ | ⟨-, he'⟩
    · rw [hdc, hec]
    · exact absurd (hq ▸ he') (hidle e)
    · exact absurd (hq' ▸ hd') (hidle d)
    · exact h.cpu.unique d e q hd' he'

end

/-! A step of the `fork` of `me`: its slot `j` becomes `r`, and `me` has `np` in its local. -/

section Fork

omit [DecidableEq ι]

structure ForkStep (k : Kernel ι) (me j : Slot) (r : Proc) (np : Option Slot) (k' : Kernel ι) :
    Prop where
  ptable : k'.ptable =
    Function.update (Function.update k.ptable j r) me { k.ptable me with np := np }
  cpu : k'.cpu = k.cpu
  initproc : k'.initproc = k.initproc

variable {me j : Slot} {r : Proc} {np : Option Slot}

theorem forkStep_setNp {k₁ : Kernel ι} (hne : me ≠ j)
    (ht : k₁.ptable = Function.update k.ptable j r) (hcpu : k₁.cpu = k.cpu)
    (hinit : k₁.initproc = k.initproc) : ForkStep k me j r np (setNp k₁ me np) := by
  refine ⟨?_, hcpu, hinit⟩
  rw [setNp, setProc_ptable, ht, Function.update_of_ne hne]

/-- A field other than `np` changes in slot `j` only. -/
theorem ForkStep.field {α : Type} (hf : ForkStep k me j r np k') (hne : me ≠ j) (f : Proc → α)
    (hnp : ∀ (x : Proc) (n : Option Slot), f { x with np := n } = f x) (q : Slot) :
    f (k'.ptable q) = if q = j then f r else f (k.ptable q) := by
  rw [hf.ptable]
  by_cases hq : q = me
  · subst hq; simp [hne, hnp]
  · by_cases hqj : q = j
    · subst hqj; simp [hq]
    · simp [hq, hqj]

theorem ForkStep.np_me (hf : ForkStep k me j r np k') : (k'.ptable me).np = np := by
  simp [hf.ptable]

theorem ForkStep.np_of_ne (hf : ForkStep k me j r np k') {q : Slot} (hq : q ≠ me) :
    (k'.ptable q).np = if q = j then r.np else (k.ptable q).np := by
  rw [hf.ptable, Function.update_of_ne hq]
  by_cases hqj : q = j
  · subst hqj; simp
  · simp [hqj]

theorem TreeOk.forkStep (h : TreeOk k) (hf : ForkStep k me j r np k')
    (hrun : (k.ptable me).state = .running)
    (hj : (k.ptable j).state = .unused ∨ (k.ptable j).state = .embryo)
    (hother : ∀ p, p ≠ me → (k.ptable p).np ≠ some j)
    (hrnp : r.np = none)
    (hr : (r.state = .embryo ∧ np = some j ∧ r.parent = none) ∨
      (r.state = .unused ∧ np = none ∧ r.parent = none) ∨
      (r.state = .runnable ∧ np = none ∧ r.parent = some me)) : TreeOk k' := by
  have hdead : ¬ (k.ptable j).state.Alive := by
    rcases hj with hj | hj <;> simp [hj]
  have hne : me ≠ j := by
    rintro rfl
    exact hdead (Or.inr (Or.inr hrun))
  have hstate := hf.field hne Proc.state fun _ _ => rfl
  have hparent := hf.field hne Proc.parent fun _ _ => rfl
  have halive : ∀ q, (k.ptable q).state.Alive → q ≠ j ∧ (k'.ptable q).state = (k.ptable q).state := by
    intro q hq
    have hqj : q ≠ j := by
      rintro rfl
      exact hdead hq
    exact ⟨hqj, by rw [hstate, if_neg hqj]⟩
  have hold : ∀ q i, q ≠ me → (k'.ptable q).np = some i → (k.ptable q).np = some i := by
    intro q i hq hi
    rw [hf.np_of_ne hq] at hi
    split at hi
    · simp [hrnp] at hi
    · exact hi
  -- only the first kind of step leaves a slot in the local of `me`
  have hme : ∀ i, (k'.ptable me).np = some i → i = j ∧ r.state = .embryo := by
    intro i hi
    rw [hf.np_me] at hi
    rcases hr with ⟨hs, rfl, -⟩ | ⟨-, rfl, -⟩ | ⟨-, rfl, -⟩
    · exact ⟨by simpa using hi.symm, hs⟩
    · simp at hi
    · simp at hi
  refine ⟨h.cpu.keep (fun d => by rw [hf.cpu]) fun q hq => ?_, fun p i hp => ?_, fun p i hp => ?_,
    fun p q i hp hq => ?_, ?_, ?_, fun q hq hs => ?_, fun q hs => ?_⟩
  · rw [(halive q (by simp [hq])).2, hq]
  · by_cases hpm : p = me
    · subst hpm
      obtain ⟨rfl, hs⟩ := hme i hp
      rw [hstate, if_pos rfl, hs]
    · have hpi := hold p i hpm hp
      have hij : i ≠ j := by
        rintro rfl
        exact hother p hpm hpi
      rw [hstate, if_neg hij]
      exact h.np_embryo p i hpi
  · by_cases hpm : p = me
    · subst hpm
      rw [hstate, if_neg hne]
      exact Or.inl hrun
    · have hforker := h.np_forker p i (hold p i hpm hp)
      rw [(halive p (by rcases hforker with hs | hs <;> simp [hs])).2]
      exact hforker
  · by_cases hpm : p = me <;> by_cases hqm : q = me
    · rw [hpm, hqm]
    · subst hpm
      obtain ⟨rfl, -⟩ := hme i hp
      exact absurd (hold q _ hqm hq) (hother q hqm)
    · subst hqm
      obtain ⟨rfl, -⟩ := hme i hq
      exact absurd (hold p _ hpm hp) (hother p hpm)
    · exact h.np_unique p q i (hold p i hpm hp) (hold q i hqm hq)
  · rw [hf.initproc, (halive _ h.init_alive).2]
    exact h.init_alive
  · rw [hf.initproc, hparent, if_neg (halive _ h.init_alive).1]
    exact h.init_parent
  · rw [hf.initproc] at hq
    by_cases hqj : q = j
    · subst hqj
      rw [hstate, if_pos rfl] at hs
      rcases hr with ⟨hs', -⟩ | ⟨hs', -⟩ | ⟨-, -, hp⟩
      · simp [hs'] at hs
      · simp [hs'] at hs
      · have hal : (k.ptable me).state.Alive := Or.inr (Or.inr hrun)
        exact ⟨me, by rw [hparent, if_pos rfl, hp], hne, by rw [(halive me hal).2]; exact hal⟩
    · rw [hstate, if_neg hqj] at hs
      obtain ⟨p, hp, hpq, hal⟩ := h.parent_alive q hq hs
      exact ⟨p, by rw [hparent, if_neg hqj, hp], hpq, by rw [(halive p hal).2]; exact hal⟩
  · by_cases hqj : q = j
    · subst hqj
      rw [hstate, if_pos rfl] at hs
      rw [hparent, if_pos rfl]
      rcases hr with ⟨-, -, hp⟩ | ⟨-, -, hp⟩ | ⟨hs', -⟩
      · exact hp
      · exact hp
      · simp [hs'] at hs
    · rw [hstate, if_neg hqj] at hs
      rw [hparent, if_neg hqj]
      exact h.parent_none q hs

end Fork

section

omit [DecidableEq ι]

theorem zombieChild_eq_some {me p : Slot} (h : zombieChild k me = some p) :
    (k.ptable p).parent = some me ∧ (k.ptable p).state = .zombie := by
  simpa using List.find?_some h

theorem zombieChild_eq_none {me : Slot} (h : zombieChild k me = none) (p : Slot)
    (hp : (k.ptable p).parent = some me) : (k.ptable p).state ≠ .zombie := by
  intro hz
  have := List.find?_eq_none.mp h p (List.mem_finRange p)
  simp [hp, hz] at this

theorem TreeOk.np_none_of_embryo (h : TreeOk k) {j : Slot} (hj : (k.ptable j).state = .embryo) :
    (k.ptable j).np = none := by
  cases hn : (k.ptable j).np with
  | none => rfl
  | some i => rcases h.np_forker j i hn with hs | hs <;> simp [hj] at hs

variable {me j : Slot} {c : ι}

/-- A caller of `fork` is not the slot it takes, -/
theorem TreeOk.ne_of_unused (h : TreeOk k) (hc : caller k c = some me)
    (hj : findUnused k.ptable = some j) : me ≠ j := by
  rintro rfl
  have hrun := h.running hc
  simp [findUnused_state hj] at hrun

/-- nor the slot it holds. -/
theorem TreeOk.ne_of_forker (h : TreeOk k) (hc : forker k c = some (me, j)) : me ≠ j := by
  rintro rfl
  obtain ⟨hcur, hnp⟩ := forker_eq_some hc
  have hrun := h.cpu.running c me hcur
  simp [h.np_embryo me me hnp] at hrun

theorem TreeOk.forkStep_fork (h : TreeOk k) (hc : caller k c = some me)
    (hj : findUnused k.ptable = some j) (stride : Int) :
    ForkStep k me j (allocated k stride j) (some j)
      (setNp (allocprocAt k stride j) me (some j)) :=
  forkStep_setNp (h.ne_of_unused hc hj) rfl rfl rfl

theorem TreeOk.forkStep_fail (h : TreeOk k) (hc : forker k c = some (me, j)) :
    ForkStep k me j { k.ptable j with state := .unused } none (forkFail k me j) :=
  forkStep_setNp (h.ne_of_forker hc) rfl rfl rfl

theorem TreeOk.forkStep_runnable (h : TreeOk k) (hc : forker k c = some (me, j)) :
    ForkStep k me j { k.ptable j with state := .runnable, parent := some me } none
      (forkRunnable k me j) :=
  forkStep_setNp (h.ne_of_forker hc) rfl rfl rfl

/-- The end of a `fork`, either way. -/
theorem TreeOk.forkEnd (h : TreeOk k) (hc : forker k c = some (me, j))
    {r : Proc} (hnp : r.np = (k.ptable j).np)
    (hr : (r.state = .unused ∧ r.parent = (k.ptable j).parent) ∨
      (r.state = .runnable ∧ r.parent = some me)) : TreeOk (setNp (k.setProc j r) me none) := by
  obtain ⟨hcur, hmej⟩ := forker_eq_some hc
  have hem := h.np_embryo me j hmej
  refine h.forkStep (forkStep_setNp (h.ne_of_forker hc) rfl rfl rfl) (h.cpu.running c me hcur)
    (Or.inr hem) (fun p hp hpj => hp (h.np_unique p me j hpj hmej))
    (hnp.trans (h.np_none_of_embryo hem)) ?_
  rcases hr with ⟨hs, hp⟩ | ⟨hs, hp⟩
  · exact Or.inr (Or.inl ⟨hs, rfl, hp.trans (h.parent_none j (Or.inr hem))⟩)
  · exact Or.inr (Or.inr ⟨hs, rfl, hp⟩)

theorem TreeOk.reap (h : TreeOk k) {p : Slot} (hp : (k.ptable p).state = .zombie) :
    TreeOk (k.setProc p (k.ptable p).reap) := by
  have hdead : ¬ (k.ptable p).state.Alive := by simp [hp]
  have hsame : ∀ q, q ≠ p → (k.setProc p (k.ptable p).reap).ptable q = k.ptable q :=
    fun q hq => by simp [hq]
  have halive : ∀ q, (k.ptable q).state.Alive → q ≠ p := by
    rintro q hq rfl
    exact hdead hq
  have hnp : ∀ q, ((k.setProc p (k.ptable p).reap).ptable q).np = (k.ptable q).np := by
    intro q
    by_cases hq : q = p
    · subst hq; simp [Proc.reap]
    · rw [hsame q hq]
  refine ⟨h.cpu.keep (fun _ => rfl) fun q hq => ?_, fun q i hq => ?_, fun q i hq => ?_,
    fun q q' i hq hq' => h.np_unique q q' i (hnp q ▸ hq) (hnp q' ▸ hq'), ?_, ?_,
    fun q hq hs => ?_, fun q hs => ?_⟩
  · rw [hsame q (halive q (by simp [hq])), hq]
  · have hi := h.np_embryo q i (hnp q ▸ hq)
    rw [hsame i (by rintro rfl; simp [hp] at hi), hi]
  · have hf := h.np_forker q i (hnp q ▸ hq)
    rwa [hsame q (by rintro rfl; simp [hp] at hf)]
  · rw [setProc_initproc, hsame _ (halive _ h.init_alive)]
    exact h.init_alive
  · rw [setProc_initproc, hsame _ (halive _ h.init_alive)]
    exact h.init_parent
  · have hqp : q ≠ p := by
      rintro rfl
      simp [Proc.reap] at hs
    rw [hsame q hqp] at hs ⊢
    obtain ⟨i, hi, hiq, hal⟩ := h.parent_alive q hq hs
    exact ⟨i, hi, hiq, by rwa [hsame i (halive i hal)]⟩
  · by_cases hqp : q = p
    · subst hqp
      simp [Proc.reap]
    · rw [hsame q hqp] at hs ⊢
      exact h.parent_none q hs

/-- `exit` leaves every process but the caller as alive as it was. -/
theorem Exited.alive_iff {me : Slot} [DecidableEq ι] (hx : Exited k c me k') {q : Slot}
    (hq : q ≠ me) : (k'.ptable q).state.Alive ↔ (k.ptable q).state.Alive := by
  rw [hx.state q, if_neg hq]
  split
  · rename_i hw
    exact iff_of_true (by simp) (Or.inl hw.1)
  · rfl

/-- A process that cannot be woken by an exit. -/
theorem Exited.state_of_ne {me : Slot} [DecidableEq ι] (hx : Exited k c me k') {q : Slot}
    (hq : q ≠ me) (hs : (k'.ptable q).state ≠ .runnable) :
    (k'.ptable q).state = (k.ptable q).state := by
  have := hx.state q
  rw [if_neg hq] at this
  split at this
  · exact absurd this hs
  · exact this

end

theorem TreeOk.exit (h : TreeOk k) {c : ι} (hc : caller k c = some me)
    (hme : me ≠ k.initproc) (hx : Exited k c me k') : TreeOk k' := by
  obtain ⟨hcur, hnp⟩ := caller_eq_some hc
  have hrun := h.running hc
  have hnps : ∀ q, (k'.ptable q).np = (k.ptable q).np := fun q => (hx.rest q).2.2.2
  have hkeep : ∀ q, (k.ptable q).state ≠ .sleeping → q ≠ me →
      (k'.ptable q).state = (k.ptable q).state := by
    intro q hs hq
    rw [hx.state q, if_neg hq, if_neg fun hw => hs hw.1]
  -- whoever was a child of `me` is one of `init` now
  have hparent : ∀ q p, (k.ptable q).parent = some p → p ≠ q → (k.ptable p).state.Alive →
      q ≠ k.initproc → ∃ i, (k'.ptable q).parent = some i ∧ i ≠ q ∧ (k'.ptable i).state.Alive := by
    intro q p hp hpq hal hq
    by_cases hpm : p = me
    · subst hpm
      exact ⟨k.initproc, by rw [hx.parent, if_pos hp], hq.symm,
        (hx.alive_iff hme.symm).mpr h.init_alive⟩
    · exact ⟨p, by rw [hx.parent, if_neg (by simp [hp, hpm]), hp], hpq,
        (hx.alive_iff hpm).mpr hal⟩
  refine ⟨h.cpu.leave hcur hx.cpu fun q hq hs => ?_, fun q i hq => ?_, fun q i hq => ?_,
    fun q q' i hq hq' => h.np_unique q q' i (hnps q ▸ hq) (hnps q' ▸ hq'), ?_, ?_,
    fun q hq hs => ?_, fun q hs => ?_⟩
  · rw [hkeep q (by simp [hs]) hq, hs]
  · have hi := h.np_embryo q i (hnps q ▸ hq)
    rw [hkeep i (by simp [hi]) (by rintro rfl; simp [hrun] at hi), hi]
  · have hf := h.np_forker q i (hnps q ▸ hq)
    have hqm : q ≠ me := by
      rintro rfl
      simp [hnps, hnp] at hq
    rwa [hkeep q (by rcases hf with hs | hs <;> simp [hs]) hqm]
  · rw [hx.initproc, hx.alive_iff hme.symm]
    exact h.init_alive
  · rw [hx.initproc, hx.parent, h.init_parent, if_neg (by simp)]
  · rw [hx.initproc] at hq
    have hs' : (k.ptable q).state.Alive ∨ (k.ptable q).state = .zombie := by
      by_cases hqm : q = me
      · rw [hqm]
        exact Or.inl (Or.inr (Or.inr hrun))
      · exact hs.imp (hx.alive_iff hqm).mp fun hz => by
          rw [← hx.state_of_ne hqm (by simp [hz]), hz]
    obtain ⟨p, hp, hpq, hal⟩ := h.parent_alive q hq hs'
    exact hparent q p hp hpq hal hq
  · have hqm : q ≠ me := by
      rintro rfl
      simp [hx.state q] at hs
    rw [hx.state_of_ne hqm (by rcases hs with hs | hs <;> simp [hs])] at hs
    rw [hx.parent, h.parent_none q hs, if_neg (by simp)]

/-- **The step lemma**: every event keeps the tree. -/
theorem TreeOk.step (h : TreeOk k) {e : LifeEvent ι} (hs : LifeSteps k e k') : TreeOk k' := by
  cases hs with
  | dispatch hc hp => exact h.dispatchTo hp
  | @fault c me hc =>
    refine h.gentle (gentle_fault k me) (h.cpu.keep (fun _ => rfl) fun q hq => ?_)
    by_cases hqm : q = me
    · subst hqm; simpa [Sched.fault] using hq
    · simpa [Sched.fault, hqm] using hq
  | forkFull => exact h
  | @fork c me j stride hc hj =>
    have hun := findUnused_state hj
    refine h.forkStep (h.forkStep_fork hc hj _) (h.running hc) (Or.inl hun) (fun p _ hp => ?_) rfl
      (Or.inl ⟨rfl, rfl, h.parent_none j (Or.inl hun)⟩)
    simp [h.np_embryo p j hp] at hun
  | forkFail hc => exact h.forkEnd hc rfl (Or.inl ⟨rfl, rfl⟩)
  | forkRunnable hc => exact h.forkEnd hc rfl (Or.inr ⟨rfl, rfl⟩)
  | exit hc hme hk' => exact h.exit hc hme hk'
  | waitReap hc hp => exact h.reap (zombieChild_eq_some hp).2
  | waitReturn => exact h
  | waitSleep hc hz => exact h.sleep hc _
  | sleep hc => exact h.sleep hc _
  | yield hc => exact h.yield hc
  | killNone => exact h
  | @kill c pid p hp =>
    refine h.gentle (gentle_kill k p) (h.cpu.keep (fun _ => rfl) fun q hq => ?_)
    by_cases hqp : q = p
    · subst hqp; simp [Proc.kill, hq]
    · simpa [hqp] using hq
  | wakeup =>
    refine h.gentle (gentle_wakeup1 k _) (h.cpu.keep (fun _ => rfl) fun q hq => ?_)
    rw [wakeup1_ptable, Proc.wakeup1_state, if_neg (by simp [hq]), hq]

omit [DecidableEq ι] in
theorem boot_row (minProc : ι → Option Slot) {q : Slot} (hq : q ≠ firstSlot) :
    (boot minProc).ptable q = Proc.zero := by
  simp [boot, hq]

omit [DecidableEq ι] in
theorem treeOk_boot (minProc : ι → Option Slot) : TreeOk (boot minProc) := by
  have hnp : ∀ q i, ((boot minProc).ptable q).np ≠ some i := by
    intro q i
    by_cases hq : q = firstSlot
    · subst hq; simp [boot, Proc.zero]
    · simp [boot_row minProc hq, Proc.zero]
  refine ⟨⟨by simp [boot], by simp [boot]⟩, fun p j hp => absurd hp (hnp p j),
    fun p j hp => absurd hp (hnp p j), fun p q j hp => absurd hp (hnp p j),
    by simp [boot], by simp [boot, Proc.zero], fun q hq hs => ?_, fun q _ => ?_⟩
  · rw [boot_row minProc hq] at hs
    simp [Proc.zero] at hs
  · by_cases hq : q = firstSlot
    · subst hq; simp [boot, Proc.zero]
    · simp [boot_row minProc hq, Proc.zero]

/-- **The run lemma.** -/
theorem treeOk_run {minProc : ι → Option Slot} {tr : List (Trans (Kernel ι) (LifeEvent ι))}
    (h : IsRun lifeStep (boot minProc) tr) : ∀ x ∈ tr, TreeOk x.pre ∧ TreeOk x.post :=
  h.invariant (C := fun _ => True) (treeOk_boot minProc)
    (fun _ hx _ hok => hok.step (lifeSteps_of_step hx)) fun _ _ => trivial

/-! ## Waiting -/

/-- Only a process in `wait` sleeps on a slot of the table, its own, and it has no zombie
child then. -/
structure WaitOk (k : Kernel ι) : Prop where
  own : ∀ q p, (k.ptable q).state = .sleeping → (k.ptable q).chan = some (.slot p) → p = q
  quiet : ∀ q z, (k.ptable q).state = .sleeping → (k.ptable q).chan = some (.slot q) →
    (k.ptable z).parent = some q → (k.ptable z).state ≠ .zombie

omit [DecidableEq ι] in
/-- Nobody goes to sleep, and no zombie appears. -/
theorem WaitOk.calm (h : WaitOk k) (hsleep : ∀ q, (k'.ptable q).state = .sleeping →
      (k.ptable q).state = .sleeping ∧ (k'.ptable q).chan = (k.ptable q).chan)
    (hzombie : ∀ q, (k'.ptable q).state = .zombie →
      (k.ptable q).state = .zombie ∧ (k'.ptable q).parent = (k.ptable q).parent) : WaitOk k' := by
  refine ⟨fun q p hs hch => ?_, fun q z hs hch hpar hz => ?_⟩
  · obtain ⟨hs', hch'⟩ := hsleep q hs
    exact h.own q p hs' (hch' ▸ hch)
  · obtain ⟨hs', hch'⟩ := hsleep q hs
    obtain ⟨hz', hpar'⟩ := hzombie z hz
    exact h.quiet q z hs' (hch' ▸ hch) (hpar' ▸ hpar) hz'

omit [DecidableEq ι] in
/-- The same when only slot `p` changes. -/
theorem WaitOk.row (h : WaitOk k) {p : Slot} {r : Proc}
    (ht : k'.ptable = Function.update k.ptable p r)
    (hsleep : r.state = .sleeping → (k.ptable p).state = .sleeping ∧ r.chan = (k.ptable p).chan)
    (hzombie : r.state = .zombie →
      (k.ptable p).state = .zombie ∧ r.parent = (k.ptable p).parent) : WaitOk k' := by
  refine h.calm (fun q hs => ?_) fun q hz => ?_
  · rw [ht] at hs ⊢
    by_cases hq : q = p
    · subst hq
      simpa using hsleep (by simpa using hs)
    · simpa [hq] using hs
  · rw [ht] at hz ⊢
    by_cases hq : q = p
    · subst hq
      simpa using hzombie (by simpa using hz)
    · simpa [hq] using hz

omit [DecidableEq ι] in
theorem WaitOk.forkStep (h : WaitOk k) {me j : Slot} {r : Proc} {np : Option Slot}
    (hf : ForkStep k me j r np k') (hne : me ≠ j) (hs : r.state ≠ .sleeping)
    (hz : r.state ≠ .zombie) : WaitOk k' := by
  have hstate := hf.field hne Proc.state fun _ _ => rfl
  have hparent := hf.field hne Proc.parent fun _ _ => rfl
  have hchan := hf.field hne Proc.chan fun _ _ => rfl
  refine h.calm (fun q hq => ?_) fun q hq => ?_
  · rw [hstate] at hq
    split at hq
    · exact absurd hq hs
    · rename_i hqj
      exact ⟨hq, by rw [hchan, if_neg hqj]⟩
  · rw [hstate] at hq
    split at hq
    · exact absurd hq hz
    · rename_i hqj
      exact ⟨hq, by rw [hparent, if_neg hqj]⟩

theorem WaitOk.sleep (h : WaitOk k) {c : ι} {chan : Chan} (hown : ∀ p, chan = .slot p → p = me)
    (hquiet : chan = .slot me → ∀ z, (k.ptable z).parent = some me →
      (k.ptable z).state ≠ .zombie) : WaitOk (sleep k c me (some chan)) := by
  have hrow : ∀ q, (Sched.sleep k c me (some chan)).ptable q =
      if q = me then { k.ptable me with chan := some chan, state := .sleeping }
      else k.ptable q := by
    intro q
    by_cases hq : q = me
    · subst hq; simp [Sched.sleep]
    · simp [Sched.sleep, hq]
  refine ⟨fun q p hs hch => ?_, fun q z hs hch hpar hz => ?_⟩
  · rw [hrow] at hs hch
    split at hch
    · rename_i hq
      rw [hq]
      exact hown p (by simpa using hch)
    · rename_i hq
      exact h.own q p (by simpa [hq] using hs) hch
  · rw [hrow] at hs hch hpar hz
    have hzm : z ≠ me := by
      rintro rfl
      simp at hz
    rw [if_neg hzm] at hpar hz
    split at hch
    · rename_i hq
      subst hq
      exact hquiet (by simpa using hch) z hpar hz
    · rename_i hq
      exact h.quiet q z (by simpa [hq] using hs) hch hpar hz

/-- `exit` wakes the parent before there is a zombie, and `init` if it gets one. -/
theorem WaitOk.exit (h : WaitOk k) (ht : TreeOk k) {c : ι}
    (hc : caller k c = some me) (hme : me ≠ k.initproc) (hx : Exited k c me k') : WaitOk k' := by
  have hrun := ht.running hc
  have hsleep : ∀ q, (k'.ptable q).state = .sleeping →
      (k.ptable q).state = .sleeping ∧ ¬ WokenByExit k me q := by
    intro q hs
    rw [hx.state q] at hs
    split at hs
    · simp at hs
    · split at hs
      · simp at hs
      · exact ⟨hs, ‹_›⟩
  refine ⟨fun q p hs hch => h.own q p (hsleep q hs).1 ((hx.rest q).2.1 ▸ hch),
    fun q z hs hch hpar hz => ?_⟩
  obtain ⟨hs', hw⟩ := hsleep q hs
  have hch' : (k.ptable q).chan = some (.slot q) := (hx.rest q).2.1 ▸ hch
  by_cases hzm : z = me
  · -- the new zombie: its parent has been woken
    subst hzm
    obtain ⟨p, hp, hpz, -⟩ := ht.parent_alive z hme (Or.inl (Or.inr (Or.inr hrun)))
    rw [hx.parent, hp, if_neg (by simpa using hpz)] at hpar
    exact hw ⟨hs', Or.inl (by rw [hch', hp, Option.some.inj hpar]; rfl)⟩
  · have hz' : (k.ptable z).state = .zombie := by
      rw [← hx.state_of_ne hzm (by simp [hz]), hz]
    rw [hx.parent] at hpar
    split at hpar
    · -- a zombie passed to `init`
      rename_i hzp
      obtain rfl : k.initproc = q := Option.some.inj hpar
      exact hw ⟨hs', Or.inr ⟨hch', z, hzp, hz'⟩⟩
    · exact h.quiet q z hs' hch' hpar hz'

theorem WaitOk.step (h : WaitOk k) (ht : TreeOk k) {e : LifeEvent ι} (hs : LifeSteps k e k') :
    WaitOk k' := by
  cases hs with
  | dispatch hc hp => exact h.row rfl (by simp [Proc.dispatch]) (by simp [Proc.dispatch])
  | fault hc => exact h.row rfl (fun hs => ⟨hs, rfl⟩) fun hz => ⟨hz, rfl⟩
  | forkFull => exact h
  | fork hc hj =>
    have hne := ht.ne_of_unused hc hj
    exact h.forkStep (ht.forkStep_fork hc hj _) hne (by simp [allocated]) (by simp [allocated])
  | forkFail hc => exact h.forkStep (ht.forkStep_fail hc) (ht.ne_of_forker hc) (by simp) (by simp)
  | forkRunnable hc =>
    exact h.forkStep (ht.forkStep_runnable hc) (ht.ne_of_forker hc) (by simp) (by simp)
  | exit hc hme hk' => exact h.exit ht hc hme hk'
  | waitReap hc hp => exact h.row rfl (by simp [Proc.reap]) (by simp [Proc.reap])
  | waitReturn => exact h
  | waitSleep hc hz => exact h.sleep (by simp) fun _ => zombieChild_eq_none hz
  | sleep hc => exact h.sleep (by simp) (by simp)
  | yield hc => exact h.row rfl (by simp) (by simp)
  | killNone => exact h
  | @kill c pid p hp =>
    refine h.row rfl (fun hs => ?_) fun hz => ?_ <;>
      by_cases hsl : (k.ptable p).state = .sleeping
    · simp [Proc.kill, hsl] at hs
    · simp [Proc.kill, hsl] at hs
    · simp [Proc.kill, hsl] at hz
    · exact ⟨by simpa [Proc.kill, hsl] using hz, rfl⟩
  | wakeup =>
    refine h.calm (fun q hq => ?_) fun q hq => ?_
    · rw [wakeup1_ptable, Proc.wakeup1_state] at hq
      split at hq
      · simp at hq
      · exact ⟨hq, by simp⟩
    · exact ⟨(Proc.wakeup1_zombie _ _).mp hq, by simp⟩

omit [DecidableEq ι] in
theorem waitOk_boot (minProc : ι → Option Slot) : WaitOk (boot minProc) := by
  have hs : ∀ q, ((boot minProc).ptable q).state ≠ .sleeping := by
    intro q
    by_cases hq : q = firstSlot
    · subst hq; simp [boot]
    · simp [boot_row minProc hq, Proc.zero]
  exact ⟨fun q p h => absurd h (hs q), fun q z h => absurd h (hs q)⟩

/-- **No lost exit**: whatever the interleaving, nobody sleeps in `wait` while a zombie has it
as its parent. -/
theorem no_lost_exit {minProc : ι → Option Slot} {tr : List (Trans (Kernel ι) (LifeEvent ι))}
    (h : IsRun lifeStep (boot minProc) tr) :
    ∀ x ∈ tr, ¬ ∃ q z, (x.post.ptable q).state = .sleeping ∧
      (x.post.ptable q).chan = some (.slot q) ∧ (x.post.ptable z).state = .zombie ∧
      (x.post.ptable z).parent = some q := by
  intro x hx
  have hinv := h.invariant (I := fun k => TreeOk k ∧ WaitOk k) (C := fun _ => True)
    ⟨treeOk_boot minProc, waitOk_boot minProc⟩
    (fun _ hy _ hok => ⟨hok.1.step (lifeSteps_of_step hy), hok.2.step hok.1 (lifeSteps_of_step hy)⟩)
    (fun _ _ => trivial) x hx
  rintro ⟨q, z, hs, hch, hz, hpar⟩
  exact hinv.2.2.quiet q z hs hch hpar hz

/-- `init` forks and waits, the child exits, and `init` collects it. -/
def forkAndWait : List (LifeEvent Unit) :=
  [.dispatch () 0, .call (.fork () 0), .call (.forkRunnable ()), .call (.wait ()),
    .dispatch () 1, .call (.exit ()), .dispatch () 0, .call (.wait ())]

theorem no_lost_exit_forkAndWait :
    (trace lifeStep (boot fun _ => none) forkAndWait).length = 8 ∧
    ∀ x ∈ trace lifeStep (boot fun _ => none) forkAndWait,
      ¬ ∃ q z, (x.post.ptable q).state = .sleeping ∧
        (x.post.ptable q).chan = some (.slot q) ∧ (x.post.ptable z).state = .zombie ∧
        (x.post.ptable z).parent = some q :=
  ⟨by decide +kernel, no_lost_exit (isRun_trace _ _ _)⟩

end StrideXv6.Sched
