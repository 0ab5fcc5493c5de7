import StrideXv6.Sched.Steps

set_option autoImplicit false

/-! # The life of a process

The critical sections of `Table` as a system of their own: any `RUNNABLE` process may be
dispatched, whatever the scheduler's order, a process may trap with a fault, and the processes
sleep on channels other than the slots of the table, as all the code but `wait` does.

`Exited` computes what the loop of `exit` does to each slot, and `LifeSteps` says exactly what
each event does (`lifeSteps_of_step`).
-/

namespace StrideXv6.Sched

variable {ι : Type} [DecidableEq ι] {k k' : Kernel ι}

/-! ## The system -/

inductive LifeEvent (ι : Type) where
  | dispatch (c : ι) (p : Slot)
  | fault (c : ι)
  | call (op : Op ι)
  deriving DecidableEq

/-- The scheduler switches to the process `p`. -/
def dispatchTo (k : Kernel ι) (c : ι) (p : Slot) : Kernel ι :=
  (k.setProc p (k.ptable p).dispatch).setCpu c { proc := some p, minProc := some p }

/-- The default case of `trap()` in user space. -/
def fault (k : Kernel ι) (me : Slot) : Kernel ι :=
  k.setProc me { k.ptable me with killed := true }

/-- The operations that take part: dispatches are events of their own, and only `wait` sleeps on
a slot of the table. -/
def Op.takesPart : Op ι → Bool
  | .scheduler _ => false
  | .sleep _ (.slot _) => false
  | _ => true

def lifeStep (k : Kernel ι) : LifeEvent ι → Option (Kernel ι)
  | .dispatch c p =>
    if (k.cpu c).proc = none ∧ (k.ptable p).state = .runnable then some (dispatchTo k c p)
    else none
  | .fault c => (caller k c).map (fault k)
  | .call op => if op.takesPart then step k op else none

/-! ## Reading back an update -/

section

omit [DecidableEq ι]

@[simp] theorem setProc_initproc (k : Kernel ι) (p : Slot) (r : Proc) :
    (k.setProc p r).initproc = k.initproc := rfl

@[simp] theorem wakeup1_ptable (k : Kernel ι) (chan : Option Chan) (p : Slot) :
    (wakeup1 k chan).ptable p = (k.ptable p).wakeup1 chan := rfl

@[simp] theorem wakeup1_initproc (k : Kernel ι) (chan : Option Chan) :
    (wakeup1 k chan).initproc = k.initproc := rfl

variable (r : Proc) (chan : Option Chan)

@[simp] theorem Proc.wakeup1_pid :
    (r.wakeup1 chan).pid = r.pid := by unfold Proc.wakeup1; split <;> rfl

@[simp] theorem Proc.wakeup1_parent :
    (r.wakeup1 chan).parent = r.parent := by unfold Proc.wakeup1; split <;> rfl

@[simp] theorem Proc.wakeup1_chan :
    (r.wakeup1 chan).chan = r.chan := by unfold Proc.wakeup1; split <;> rfl

@[simp] theorem Proc.wakeup1_killed :
    (r.wakeup1 chan).killed = r.killed := by unfold Proc.wakeup1; split <;> rfl

@[simp] theorem Proc.wakeup1_np :
    (r.wakeup1 chan).np = r.np := by unfold Proc.wakeup1; split <;> rfl

theorem Proc.wakeup1_state :
    (r.wakeup1 chan).state =
      if r.state = .sleeping ∧ r.chan = chan then .runnable else r.state := by
  unfold Proc.wakeup1
  split <;> rfl

theorem Proc.wakeup1_zombie :
    (r.wakeup1 chan).state = .zombie ↔ r.state = .zombie := by
  rw [Proc.wakeup1_state]
  split
  · rename_i h; simp [h.1]
  · rfl

end

/-! ## What `exit` does to a slot -/

section

omit [DecidableEq ι]

/-- The loop of `exit` has gone through the slots of `l`. -/
structure Reparented (k : Kernel ι) (me : Slot) (l : List Slot) (k' : Kernel ι) : Prop where
  parent : ∀ q, (k'.ptable q).parent =
    if q ∈ l ∧ (k.ptable q).parent = some me then some k.initproc else (k.ptable q).parent
  state : ∀ q, (k'.ptable q).state =
    if (k.ptable q).state = .sleeping ∧ (k.ptable q).chan = some (.slot k.initproc) ∧
        ∃ p ∈ l, (k.ptable p).parent = some me ∧ (k.ptable p).state = .zombie
    then .runnable else (k.ptable q).state
  rest : ∀ q, (k'.ptable q).pid = (k.ptable q).pid ∧ (k'.ptable q).chan = (k.ptable q).chan ∧
    (k'.ptable q).killed = (k.ptable q).killed ∧ (k'.ptable q).np = (k.ptable q).np
  cpu : k'.cpu = k.cpu
  initproc : k'.initproc = k.initproc
  nextpid : k'.nextpid = k.nextpid

theorem reparented_one (k : Kernel ι) (me p : Slot) : Reparented k me [p] (reparent me k p) := by
  unfold reparent
  by_cases hp : (k.ptable p).parent = some me
  · rw [if_pos hp]
    dsimp only
    by_cases hz : (k.ptable p).state = .zombie
    · rw [if_pos (by simpa using hz)]
      refine ⟨fun q => ?_, fun q => ?_, fun q => ?_, rfl, rfl, rfl⟩ <;>
        by_cases hq : q = p <;> simp [hp, hz, hq, Proc.wakeup1_state]
    · rw [if_neg (by simpa using hz)]
      refine ⟨fun q => ?_, fun q => ?_, fun q => ?_, rfl, rfl, rfl⟩ <;>
        by_cases hq : q = p <;> simp [hp, hz, hq]
  · rw [if_neg hp]
    refine ⟨fun q => ?_, fun q => ?_, fun _ => ⟨rfl, rfl, rfl, rfl⟩, rfl, rfl, rfl⟩
    · rw [if_neg]
      rintro ⟨hq, h⟩
      obtain rfl := List.mem_singleton.mp hq
      exact hp h
    · rw [if_neg]
      rintro ⟨-, -, p', hp', h, -⟩
      obtain rfl := List.mem_singleton.mp hp'
      exact hp h

/-- A slot passed on is no child of `me` any more, so that the rest of the loop sees the other
children as they were. -/
theorem Reparented.trans {me : Slot} {l₁ l₂ : List Slot} {k₁ k₂ k₃ : Kernel ι}
    (h : Reparented k₁ me l₁ k₂) (h' : Reparented k₂ me l₂ k₃) (hme : me ≠ k₁.initproc) :
    Reparented k₁ me (l₁ ++ l₂) k₃ := by
  have hparent : ∀ q, (k₂.ptable q).parent = some me ↔ q ∉ l₁ ∧ (k₁.ptable q).parent = some me := by
    intro q
    rw [h.parent q]
    split
    · rename_i hq; simp [hq.1, hme.symm]
    · rename_i hq; tauto
  have hzombie : ∀ q, (k₂.ptable q).state = .zombie ↔ (k₁.ptable q).state = .zombie := by
    intro q
    rw [h.state q]
    split
    · rename_i hq; simp [hq.1]
    · rfl
  refine ⟨fun q => ?_, fun q => ?_, fun q => ?_, h'.cpu.trans h.cpu,
    h'.initproc.trans h.initproc, h'.nextpid.trans h.nextpid⟩
  · rw [h'.parent q, h.initproc]
    simp only [h.parent q, List.mem_append]
    by_cases h1 : q ∈ l₁ <;> by_cases h2 : (k₁.ptable q).parent = some me <;> simp [h1, h2]
  · have hex : (∃ p ∈ l₁ ++ l₂, (k₁.ptable p).parent = some me ∧ (k₁.ptable p).state = .zombie) ↔
        (∃ p ∈ l₁, (k₁.ptable p).parent = some me ∧ (k₁.ptable p).state = .zombie) ∨
          ∃ p ∈ l₂, (k₂.ptable p).parent = some me ∧ (k₂.ptable p).state = .zombie := by
      constructor
      · rintro ⟨p, hp, hpar, hz⟩
        by_cases hp₁ : p ∈ l₁
        · exact Or.inl ⟨p, hp₁, hpar, hz⟩
        · exact Or.inr ⟨p, (List.mem_append.mp hp).resolve_left hp₁, (hparent p).mpr ⟨hp₁, hpar⟩,
            (hzombie p).mpr hz⟩
      · rintro (⟨p, hp, hpar, hz⟩ | ⟨p, hp, hpar, hz⟩)
        · exact ⟨p, List.mem_append_left _ hp, hpar, hz⟩
        · exact ⟨p, List.mem_append_right _ hp, ((hparent p).mp hpar).2, (hzombie p).mp hz⟩
    rw [h'.state q, h.state q, (h.rest q).2.1, h.initproc]
    simp only [hex]
    by_cases h1 : (k₁.ptable q).state = .sleeping ∧
        (k₁.ptable q).chan = some (.slot k₁.initproc) ∧
        ∃ p ∈ l₁, (k₁.ptable p).parent = some me ∧ (k₁.ptable p).state = .zombie
    · rw [if_pos h1, if_neg (by simp), if_pos ⟨h1.1, h1.2.1, Or.inl h1.2.2⟩]
    · rw [if_neg h1]
      refine if_congr (and_congr_right fun hs => and_congr_right fun hch => ?_) rfl rfl
      exact (or_iff_right fun h3 => h1 ⟨hs, hch, h3⟩).symm
  · obtain ⟨h1, h2, h3, h4⟩ := h.rest q
    obtain ⟨h1', h2', h3', h4'⟩ := h'.rest q
    exact ⟨h1'.trans h1, h2'.trans h2, h3'.trans h3, h4'.trans h4⟩

theorem reparented_all {me : Slot} (l : List Slot) (k : Kernel ι) (hme : me ≠ k.initproc) :
    Reparented k me l (l.foldl (reparent me) k) := by
  induction l generalizing k with
  | nil => exact ⟨by simp, by simp, fun _ => ⟨rfl, rfl, rfl, rfl⟩, rfl, rfl, rfl⟩
  | cons p l ih =>
    have h := reparented_one k me p
    exact h.trans (ih _ (h.initproc ▸ hme)) hme

/-- `exit` of `me` wakes the process in slot `q`: its child has exited, or it is `init` and gets a
zombie of `me`. -/
def WokenByExit (k : Kernel ι) (me q : Slot) : Prop :=
  (k.ptable q).state = .sleeping ∧
    ((k.ptable q).chan = (k.ptable me).parent.map Chan.slot ∨
      (k.ptable q).chan = some (.slot k.initproc) ∧
        ∃ p, (k.ptable p).parent = some me ∧ (k.ptable p).state = .zombie)

instance (k : Kernel ι) (me q : Slot) : Decidable (WokenByExit k me q) := by
  unfold WokenByExit; infer_instance

end

/-- What `exit` of `me` leaves behind. -/
structure Exited (k : Kernel ι) (c : ι) (me : Slot) (k' : Kernel ι) : Prop where
  parent : ∀ q, (k'.ptable q).parent =
    if (k.ptable q).parent = some me then some k.initproc else (k.ptable q).parent
  state : ∀ q, (k'.ptable q).state =
    if q = me then .zombie else if WokenByExit k me q then .runnable else (k.ptable q).state
  rest : ∀ q, (k'.ptable q).pid = (k.ptable q).pid ∧ (k'.ptable q).chan = (k.ptable q).chan ∧
    (k'.ptable q).killed = (k.ptable q).killed ∧ (k'.ptable q).np = (k.ptable q).np
  cpu : ∀ d, (k'.cpu d).proc = if d = c then none else (k.cpu d).proc
  initproc : k'.initproc = k.initproc
  nextpid : k'.nextpid = k.nextpid

theorem exited_exit (k : Kernel ι) (c : ι) {me : Slot} (hme : me ≠ k.initproc) :
    Exited k c me (exit k c me) := by
  have h := reparented_all (List.finRange NPROC) (wakeup1 k ((k.ptable me).parent.map Chan.slot))
    hme
  unfold exit
  dsimp only
  generalize List.foldl (reparent me) _ _ = k₁ at h ⊢
  refine ⟨fun q => ?_, fun q => ?_, fun q => ?_, fun d => ?_, h.initproc, h.nextpid⟩
  · have hq := h.parent q
    simp only [List.mem_finRange, true_and, wakeup1_ptable, wakeup1_initproc,
      Proc.wakeup1_parent] at hq
    by_cases hqm : q = me
    · subst hqm; simpa using hq
    · simpa [hqm] using hq
  · by_cases hqm : q = me
    · subst hqm; simp
    · have hq := h.state q
      simp only [List.mem_finRange, true_and, wakeup1_ptable, Proc.wakeup1_parent,
        Proc.wakeup1_chan, Proc.wakeup1_zombie] at hq
      rw [sched_ptable, setProc_ptable, Function.update_of_ne hqm, hq, if_neg hqm,
        Proc.wakeup1_state]
      by_cases hs : (k.ptable q).state = .sleeping
      · by_cases hch : (k.ptable q).chan = (k.ptable me).parent.map Chan.slot
        · simp [WokenByExit, hs, hch]
        · simp [WokenByExit, hs, hch, wakeup1]
      · simp [WokenByExit, hs]
  · have hq := h.rest q
    simp only [wakeup1_ptable, Proc.wakeup1_pid, Proc.wakeup1_chan, Proc.wakeup1_killed,
      Proc.wakeup1_np] at hq
    by_cases hqm : q = me
    · subst hqm; simpa using hq
    · simpa [hqm] using hq
  · rw [sched_cpu_proc, setProc_cpu, h.cpu]
    rfl

/-! ## The relation -/

/-- The slot `kill(pid)` finds. -/
def killTarget (k : Kernel ι) (pid : Int) : Option Slot :=
  (List.finRange NPROC).find? fun p => decide ((k.ptable p).pid = pid)

/-- What each event does, and when it is possible. -/
inductive LifeSteps (k : Kernel ι) : LifeEvent ι → Kernel ι → Prop
  | dispatch {c : ι} {p : Slot} (hc : (k.cpu c).proc = none)
      (hp : (k.ptable p).state = .runnable) : LifeSteps k (.dispatch c p) (dispatchTo k c p)
  | fault {c : ι} {me : Slot} (hc : caller k c = some me) : LifeSteps k (.fault c) (fault k me)
  | forkFull {c : ι} {me : Slot} {stride : Int} (hc : caller k c = some me)
      (hj : findUnused k.ptable = none) : LifeSteps k (.call (.fork c stride)) k
  | fork {c : ι} {me j : Slot} {stride : Int} (hc : caller k c = some me)
      (hj : findUnused k.ptable = some j) :
      LifeSteps k (.call (.fork c stride))
        (setNp (allocprocAt k (clampTickets stride) j) me (some j))
  | forkFail {c : ι} {me j : Slot} (hc : forker k c = some (me, j)) :
      LifeSteps k (.call (.forkFail c)) (forkFail k me j)
  | forkRunnable {c : ι} {me j : Slot} (hc : forker k c = some (me, j)) :
      LifeSteps k (.call (.forkRunnable c)) (forkRunnable k me j)
  | exit {c : ι} {me : Slot} {k' : Kernel ι} (hc : caller k c = some me)
      (hme : me ≠ k.initproc) (hk' : Exited k c me k') : LifeSteps k (.call (.exit c)) k'
  | waitReap {c : ι} {me p : Slot} (hc : caller k c = some me) (hp : zombieChild k me = some p) :
      LifeSteps k (.call (.wait c)) (k.setProc p (k.ptable p).reap)
  | waitReturn {c : ι} {me : Slot} (hc : caller k c = some me) (hz : zombieChild k me = none) :
      LifeSteps k (.call (.wait c)) k
  | waitSleep {c : ι} {me : Slot} (hc : caller k c = some me) (hz : zombieChild k me = none) :
      LifeSteps k (.call (.wait c)) (sleep k c me (some (.slot me)))
  | sleep {c : ι} {me : Slot} {a : Nat} (hc : caller k c = some me) :
      LifeSteps k (.call (.sleep c (.addr a))) (sleep k c me (some (.addr a)))
  | yield {c : ι} {me : Slot} (hc : (k.cpu c).proc = some me) :
      LifeSteps k (.call (.yield c)) (yield k c me)
  | killNone {c : ι} {pid : Int} (hp : killTarget k pid = none) :
      LifeSteps k (.call (.kill c pid)) k
  | kill {c : ι} {pid : Int} {p : Slot} (hp : killTarget k pid = some p) :
      LifeSteps k (.call (.kill c pid)) (k.setProc p (k.ptable p).kill)
  | wakeup {chan : Chan} : LifeSteps k (.call (.wakeup chan)) (wakeup1 k (some chan))

theorem lifeSteps_of_call {op : Op ι} (hop : op.takesPart = true) (h : step k op = some k') :
    LifeSteps k (.call op) k' := by
  cases op with
  | scheduler c => simp [Op.takesPart] at hop
  | fork c stride =>
    obtain ⟨me, hme, rfl⟩ := Option.map_eq_some_iff.mp h
    cases hf : findUnused k.ptable with
    | none =>
      rw [show Sched.fork k me stride = k by simp [Sched.fork, allocproc, hf]]
      exact .forkFull hme hf
    | some j =>
      rw [show Sched.fork k me stride
          = setNp (allocprocAt k (clampTickets stride) j) me (some j) by
        simp [Sched.fork, allocproc, hf]]
      exact .fork hme hf
  | forkFail c =>
    obtain ⟨⟨me, j⟩, hme, rfl⟩ := Option.map_eq_some_iff.mp h
    exact .forkFail hme
  | forkRunnable c =>
    obtain ⟨⟨me, j⟩, hme, rfl⟩ := Option.map_eq_some_iff.mp h
    exact .forkRunnable hme
  | exit c =>
    obtain ⟨me, hme, h⟩ := Option.bind_eq_some_iff.mp h
    split at h
    · exact absurd h (by simp)
    · rename_i hne
      obtain rfl := Option.some.inj h
      exact .exit hme hne (exited_exit k c hne)
  | wait c =>
    obtain ⟨me, hme, rfl⟩ := Option.map_eq_some_iff.mp h
    unfold Sched.wait
    split
    · rename_i p hp; exact .waitReap hme hp
    · rename_i hz
      split
      · exact .waitReturn hme hz
      · exact .waitSleep hme hz
  | sleep c chan =>
    obtain ⟨me, hme, rfl⟩ := Option.map_eq_some_iff.mp h
    cases chan with
    | slot p => simp [Op.takesPart] at hop
    | addr a => exact .sleep hme
  | yield c =>
    obtain ⟨me, hc, h⟩ := Option.bind_eq_some_iff.mp h
    split at h
    · obtain rfl := Option.some.inj h
      exact .yield hc
    · exact absurd h (by simp)
  | kill c pid =>
    obtain ⟨me, -, rfl⟩ := Option.map_eq_some_iff.mp h
    unfold Sched.kill
    split
    · rename_i p hp; exact .kill hp
    · rename_i hp; exact .killNone hp
  | wakeup chan =>
    obtain rfl := Option.some.inj h
    exact .wakeup

/-- **Inversion of `lifeStep`.** -/
theorem lifeSteps_of_step {e : LifeEvent ι} (h : lifeStep k e = some k') : LifeSteps k e k' := by
  cases e with
  | dispatch c p =>
    simp only [lifeStep] at h
    split at h
    · rename_i hc
      obtain rfl := Option.some.inj h
      exact .dispatch hc.1 hc.2
    · exact absurd h (by simp)
  | fault c =>
    obtain ⟨me, hme, rfl⟩ := Option.map_eq_some_iff.mp h
    exact .fault hme
  | call op =>
    simp only [lifeStep] at h
    split at h
    · rename_i hop; exact lifeSteps_of_call hop h
    · exact absurd h (by simp)

end StrideXv6.Sched
