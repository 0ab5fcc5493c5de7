import StrideXv6.Sched.Tree

set_option autoImplicit false

/-! # Who reaps whom

The history of a slot: a process is created in it at the end of a `fork` (`Creates`), exits
(`Exits`), and is reaped by a `wait` (`Reaps`). `Born` relates a process of the table to its
creation and to what has happened since; `lifecycle` is what follows for every run.

The result of `wait` is ambiguous for one process only, the one that `allocproc` gives the pid
`-1` after `nextpid` has overflowed (`wait_minus_one`).
-/

namespace StrideXv6.Sched

open Runs

variable {ι : Type} [DecidableEq ι] {k k' : Kernel ι} {e : LifeEvent ι}

abbrev LifeTrans (ι : Type) := Trans (Kernel ι) (LifeEvent ι)

/-! ## Events in the life of a process -/

section

omit [DecidableEq ι]

/-- `q` finishes the `fork` that creates the process in slot `j`. -/
def Creates (k : Kernel ι) (e : LifeEvent ι) (q j : Slot) : Prop :=
  ∃ c, e = .call (.forkRunnable c) ∧ forker k c = some (q, j)

/-- The process in slot `q` exits. -/
def Exits (k : Kernel ι) (e : LifeEvent ι) (q : Slot) : Prop :=
  ∃ c, e = .call (.exit c) ∧ caller k c = some q

/-- `wait` of the process in slot `q` finds its child in slot `j`. -/
def Reaps (k : Kernel ι) (e : LifeEvent ι) (q j : Slot) : Prop :=
  ∃ c, e = .call (.wait c) ∧ caller k c = some q ∧ zombieChild k q = some j

/-- The slot holds a process that has been created and not been reaped. -/
def ProcState.Present (s : ProcState) : Prop := s.Alive ∨ s = .zombie

/-- The process in slot `j` was there before the event. -/
structure Kept (k : Kernel ι) (e : LifeEvent ι) (k' : Kernel ι) (j : Slot) : Prop where
  present : (k.ptable j).state.Present
  pid : (k'.ptable j).pid = (k.ptable j).pid
  parent : ((k'.ptable j).parent = (k.ptable j).parent ∧
      ∀ q, (k.ptable j).parent = some q → ¬ Exits k e q) ∨
    ∃ q, (k.ptable j).parent = some q ∧ Exits k e q ∧ (k'.ptable j).parent = some k.initproc
  zombie : (k'.ptable j).state = .zombie ↔ (k.ptable j).state = .zombie ∨ Exits k e j
  not_created : ∀ q, ¬ Creates k e q j
  not_reaped : ∀ q, ¬ Reaps k e q j

/-- None of the three. -/
def LifeEvent.Plain : LifeEvent ι → Prop
  | .call (.forkRunnable _) | .call (.exit _) | .call (.wait _) => False
  | _ => True

variable {j : Slot}

theorem LifeEvent.Plain.not_creates (he : e.Plain) (q : Slot) : ¬ Creates k e q j := by
  rintro ⟨c, rfl, -⟩
  exact he

theorem LifeEvent.Plain.not_exits (he : e.Plain) (q : Slot) : ¬ Exits k e q := by
  rintro ⟨c, rfl, -⟩
  exact he

theorem LifeEvent.Plain.not_reaps (he : e.Plain) (q : Slot) : ¬ Reaps k e q j := by
  rintro ⟨c, rfl, -⟩
  exact he

/-- An event that changes nothing in the tree. -/
theorem Gentle.kept (hg : Gentle k k') (hpost : (k'.ptable j).state.Present)
    (hexit : ∀ q, ¬ Exits k e q) (hcreate : ∀ q, ¬ Creates k e q j)
    (hreap : ∀ q, ¬ Reaps k e q j) : Kept k e k' j := by
  have hzombie : (k'.ptable j).state = .zombie ↔ (k.ptable j).state = .zombie := by
    rcases hg.state j with h | ⟨h1, h2, -⟩
    · rw [h]
    · refine iff_of_false ?_ ?_
      · rintro h; simp [h] at h2
      · rintro h; simp [h] at h1
  exact ⟨hpost.imp (hg.alive_iff j).mp hzombie.mp, hg.pid j, Or.inl ⟨hg.parent j, fun q _ => hexit q⟩,
    by simp [hzombie, hexit j], hcreate, hreap⟩

theorem Gentle.kept_plain (hg : Gentle k k') (hpost : (k'.ptable j).state.Present)
    (he : e.Plain) : Kept k e k' j :=
  hg.kept hpost he.not_exits he.not_creates he.not_reaps

/-- A step of a `fork` leaves the other processes alone. -/
theorem ForkStep.kept {me i : Slot} {r : Proc} {np : Option Slot}
    (hf : ForkStep k me i r np k') (hne : me ≠ i) (hj : j ≠ i)
    (hpost : (k'.ptable j).state.Present) (hexit : ∀ q, ¬ Exits k e q)
    (hcreate : ∀ q, ¬ Creates k e q j) (hreap : ∀ q, ¬ Reaps k e q j) : Kept k e k' j := by
  have hstate := hf.field hne Proc.state (fun _ _ => rfl) j
  have hparent := hf.field hne Proc.parent (fun _ _ => rfl) j
  have hpid := hf.field hne Proc.pid (fun _ _ => rfl) j
  rw [if_neg hj] at hstate hparent hpid
  rw [hstate] at hpost
  exact ⟨hpost, hpid, Or.inl ⟨hparent, fun q _ => hexit q⟩, by simp [hstate, hexit j], hcreate,
    hreap⟩

end

theorem Exited.kept {c : ι} {me j : Slot} (hx : Exited k c me k') (hc : caller k c = some me)
    (hrun : (k.ptable me).state = .running) (hpost : (k'.ptable j).state.Present) :
    Kept k (.call (.exit c)) k' j := by
  have hexits : ∀ q, Exits k (.call (.exit c)) q ↔ q = me := by
    intro q
    constructor
    · rintro ⟨d, hd, hq⟩
      obtain rfl : c = d := by simpa using hd
      exact Option.some.inj (hq.symm.trans hc)
    · rintro rfl
      exact ⟨c, rfl, hc⟩
  refine ⟨?_, (hx.rest j).1, ?_, ?_, by rintro q ⟨d, hd, -⟩; simp at hd,
    by rintro q ⟨d, hd, -⟩; simp at hd⟩
  · by_cases hj : j = me
    · rw [hj, hrun]
      exact Or.inl (Or.inr (Or.inr rfl))
    · exact hpost.imp (hx.alive_iff hj).mp fun hz => by
        rw [← hx.state_of_ne hj (by simp [hz]), hz]
  · rw [hx.parent j]
    by_cases hp : (k.ptable j).parent = some me
    · exact Or.inr ⟨me, hp, (hexits me).mpr rfl, by rw [if_pos hp]⟩
    · refine Or.inl ⟨by rw [if_neg hp], fun q hq he => hp ?_⟩
      rw [hq, (hexits q).mp he]
  · rw [hexits, hx.state j]
    by_cases hj : j = me
    · simp [hj]
    · rw [if_neg hj]
      split
      · rename_i hw
        simp [hw.1, hj]
      · simp [hj]

omit [DecidableEq ι] in
/-- The `wait` of `me` reaps the child its scan finds. -/
theorem reaps_wait {c : ι} {me q j : Slot} (hc : caller k c = some me)
    (h : Reaps k (.call (.wait c)) q j) : zombieChild k me = some j := by
  obtain ⟨d, hd, hq, hz⟩ := h
  obtain rfl : c = d := by simpa using hd
  obtain rfl := Option.some.inj (hq.symm.trans hc)
  exact hz

/-- **How a slot comes to hold a process**: it held it before, or the process has just been
created. -/
theorem LifeSteps.created_or_kept (hs : LifeSteps k e k') (ht : TreeOk k) {j : Slot}
    (hpost : (k'.ptable j).state.Present) :
    (∃ q, Creates k e q j ∧ (k'.ptable j).pid = (k.ptable j).pid ∧
      (k'.ptable j).parent = some q ∧ (k'.ptable j).state = .runnable) ∨ Kept k e k' j := by
  cases hs with
  | dispatch hc hp => exact Or.inr ((gentle_dispatchTo hp).kept_plain hpost trivial)
  | fault hc => exact Or.inr ((gentle_fault k _).kept_plain hpost trivial)
  | forkFull hc hj => exact Or.inr ((gentle_refl k).kept_plain hpost trivial)
  | @fork c me i stride hc hi =>
    have hne := ht.ne_of_unused hc hi
    have hf := ht.forkStep_fork hc hi (clampTickets stride)
    have hj : j ≠ i := by
      rintro rfl
      rw [hf.field hne Proc.state (fun _ _ => rfl), if_pos rfl] at hpost
      simp [allocated, ProcState.Present] at hpost
    exact Or.inr (hf.kept hne hj hpost (by simp [Exits]) (by simp [Creates]) (by simp [Reaps]))
  | @forkFail c me i hc =>
    have hne := ht.ne_of_forker hc
    have hf := ht.forkStep_fail hc
    have hj : j ≠ i := by
      rintro rfl
      rw [hf.field hne Proc.state (fun _ _ => rfl), if_pos rfl] at hpost
      simp [ProcState.Present] at hpost
    exact Or.inr (hf.kept hne hj hpost (by simp [Exits]) (by simp [Creates]) (by simp [Reaps]))
  | @forkRunnable c me i hc =>
    have hne := ht.ne_of_forker hc
    have hf := ht.forkStep_runnable hc
    by_cases hj : j = i
    · subst hj
      refine Or.inl ⟨me, ⟨c, rfl, hc⟩, ?_, ?_, ?_⟩
      · rw [hf.field hne Proc.pid (fun _ _ => rfl), if_pos rfl]
      · rw [hf.field hne Proc.parent (fun _ _ => rfl), if_pos rfl]
      · rw [hf.field hne Proc.state (fun _ _ => rfl), if_pos rfl]
    · refine Or.inr (hf.kept hne hj hpost (by simp [Exits]) ?_ (by simp [Reaps]))
      rintro q ⟨d, hd, hq⟩
      obtain rfl : c = d := by simpa using hd
      exact hj (Prod.mk.inj (Option.some.inj (hq.symm.trans hc))).2
  | exit hc hme hk' => exact Or.inr (hk'.kept hc (ht.running hc) hpost)
  | @waitReap c me p hc hp =>
    have hj : j ≠ p := by
      rintro rfl
      simp [Proc.reap, ProcState.Present] at hpost
    rw [setProc_ptable, Function.update_of_ne hj] at hpost
    refine Or.inr ⟨hpost, by simp [hj], Or.inl ⟨by simp [hj], by simp [Exits]⟩,
      by simp [hj, Exits], by simp [Creates], fun q hq => hj ?_⟩
    exact Option.some.inj ((reaps_wait hc hq).symm.trans hp)
  | @waitReturn c me hc hz =>
    refine Or.inr ((gentle_refl k).kept hpost (by simp [Exits]) (by simp [Creates])
      fun q hq => ?_)
    have := reaps_wait hc hq
    simp [hz] at this
  | @waitSleep c me hc hz =>
    refine Or.inr ((gentle_sleep (ht.running hc) (caller_eq_some hc).2 _).kept hpost
      (by simp [Exits]) (by simp [Creates]) fun q hq => ?_)
    have := reaps_wait hc hq
    simp [hz] at this
  | sleep hc =>
    exact Or.inr ((gentle_sleep (ht.running hc) (caller_eq_some hc).2 _).kept_plain hpost trivial)
  | @yield c me hc =>
    exact Or.inr ((gentle_yield (ht.cpu.running c me hc)).kept_plain hpost trivial)
  | killNone hp => exact Or.inr ((gentle_refl k).kept_plain hpost trivial)
  | kill hp => exact Or.inr ((gentle_kill k _).kept_plain hpost trivial)
  | wakeup => exact Or.inr ((gentle_wakeup1 k _).kept_plain hpost trivial)

/-! ## Histories -/

section

omit [DecidableEq ι]

/-- The process in slot `j` of `k` was created by `q` in the transition `x`, after which `l` has
happened. -/
structure Born (k : Kernel ι) (j q : Slot) (x : LifeTrans ι) (l : List (LifeTrans ι)) : Prop where
  creates : Creates x.pre x.ev q j
  pid : (k.ptable j).pid = (x.pre.ptable j).pid
  parent : ((k.ptable j).parent = some q ∧ ∀ y ∈ l, ¬ Exits y.pre y.ev q) ∨
    ((k.ptable j).parent = some k.initproc ∧ ∃ y ∈ l, Exits y.pre y.ev q)
  zombie : (k.ptable j).state = .zombie ↔ ∃ y ∈ l, Exits y.pre y.ev j
  once : ∀ y ∈ l, ∀ p, ¬ Creates y.pre y.ev p j ∧ ¬ Reaps y.pre y.ev p j

theorem Born.snoc {k k' : Kernel ι} {e : LifeEvent ι} {j q : Slot} {x : LifeTrans ι}
    {l : List (LifeTrans ι)} (h : Born k j q x l) (hk : Kept k e k' j)
    (hinit : k'.initproc = k.initproc) (hstay : ¬ Exits k e k.initproc) :
    Born k' j q x (l ++ [⟨k, e, k'⟩]) := by
  refine ⟨h.creates, hk.pid.trans h.pid, ?_, ?_, ?_⟩
  · rcases h.parent with ⟨hp, hno⟩ | ⟨hp, y, hy, hex⟩
    · rcases hk.parent with ⟨hp', hno'⟩ | ⟨p, hp', hex, hnew⟩
      · refine Or.inl ⟨hp'.trans hp, fun y hy => ?_⟩
        rcases List.mem_append.mp hy with hy | hy
        · exact hno y hy
        · obtain rfl := List.mem_singleton.mp hy
          exact hno' q hp
      · obtain rfl := Option.some.inj (hp.symm.trans hp')
        exact Or.inr ⟨by rw [hnew, hinit], ⟨k, e, k'⟩, by simp, hex⟩
    · refine Or.inr ⟨?_, y, by simp [hy], hex⟩
      rcases hk.parent with ⟨hp', -⟩ | ⟨p, hp', hex', -⟩
      · rw [hp', hp, hinit]
      · obtain rfl := Option.some.inj (hp.symm.trans hp')
        exact absurd hex' hstay
  · rw [hk.zombie, h.zombie]
    constructor
    · rintro (⟨y, hy, hex⟩ | hex)
      · exact ⟨y, by simp [hy], hex⟩
      · exact ⟨⟨k, e, k'⟩, by simp, hex⟩
    · rintro ⟨y, hy, hex⟩
      rcases List.mem_append.mp hy with hy | hy
      · exact Or.inl ⟨y, hy, hex⟩
      · obtain rfl := List.mem_singleton.mp hy
        exact Or.inr hex
  · intro y hy p
    rcases List.mem_append.mp hy with hy | hy
    · exact h.once y hy p
    · obtain rfl := List.mem_singleton.mp hy
      exact ⟨hk.not_created p, hk.not_reaped p⟩

end

theorem LifeSteps.initproc_eq (hs : LifeSteps k e k') : k'.initproc = k.initproc := by
  cases hs with
  | exit hc hme hk' => exact hk'.initproc
  | dispatch | fault | forkFull | fork | forkFail | forkRunnable | waitReap | waitReturn
  | waitSleep | sleep | yield | killNone | kill | wakeup => rfl

/-- `init` does not exit. -/
theorem LifeSteps.init_stays (hs : LifeSteps k e k') : ¬ Exits k e k.initproc := by
  rintro ⟨c, rfl, hc⟩
  cases hs with
  | exit hc' hme hk' => exact hme (Option.some.inj (hc'.symm.trans hc))

/-- Every process but `init` has a history. -/
theorem born_run {minProc : ι → Option Slot} {tr : List (LifeTrans ι)}
    (h : IsRun lifeStep (boot minProc) tr) :
    TreeOk (last (boot minProc) tr) ∧
    ∀ j, j ≠ (last (boot minProc) tr).initproc →
      ((last (boot minProc) tr).ptable j).state.Present →
      ∃ q x l l₀, tr = l₀ ++ x :: l ∧ Born (last (boot minProc) tr) j q x l := by
  refine h.past (J := fun tr k => TreeOk k ∧ ∀ j, j ≠ k.initproc → (k.ptable j).state.Present →
    ∃ q x l l₀, tr = l₀ ++ x :: l ∧ Born k j q x l) ⟨treeOk_boot minProc, fun j hj hs => ?_⟩ ?_
  · rw [boot_row minProc hj] at hs
    simp [Proc.zero, ProcState.Present] at hs
  · rintro tr x hx ⟨ht, hborn⟩
    have hs := lifeSteps_of_step hx
    refine ⟨ht.step hs, fun j hj hpost => ?_⟩
    rcases hs.created_or_kept ht hpost with ⟨q, hc, hpid, hpar, hst⟩ | hk
    · refine ⟨q, x, [], tr, rfl, hc, hpid, Or.inl ⟨hpar, by simp⟩, ?_, by simp⟩
      simp [hst]
    · obtain ⟨q, y, l, l₀, rfl, hb⟩ := hborn j (hs.initproc_eq ▸ hj) hk.present
      exact ⟨q, y, l ++ [x], l₀, by simp, hb.snoc hk hs.initproc_eq hs.init_stays⟩

/-! ## The life cycle -/

omit [DecidableEq ι] in
theorem havekids_eq_false {me : Slot} :
    havekids k me = false ↔ ∀ p, (k.ptable p).parent ≠ some me := by
  simp [havekids]

/-- When `wait` returns `-1`. -/
theorem wait_eq_minus_one (k : Kernel ι) (c : ι) (me : Slot) :
    (wait k c me).2 = some (-1) ↔
      (∃ j, zombieChild k me = some j ∧ (k.ptable j).pid = -1) ∨
      (zombieChild k me = none ∧
        ((∀ p, (k.ptable p).parent ≠ some me) ∨ (k.ptable me).killed = true)) := by
  unfold wait
  cases hz : zombieChild k me with
  | some j => simp
  | none =>
    by_cases hkids : havekids k me = false
    · simp [hkids, havekids_eq_false.mp hkids]
    · have : ¬ ∀ p, (k.ptable p).parent ≠ some me := fun hp => hkids (havekids_eq_false.mpr hp)
      by_cases hk : (k.ptable me).killed = true <;> simp [hkids, this, hk]

/-- The result of `wait` is right: `-1` only for a process without children, or a killed one. -/
def WaitRight (k : Kernel ι) (c : ι) (me : Slot) : Prop :=
  (wait k c me).2 = some (-1) →
    (∀ p, (k.ptable p).parent ≠ some me) ∨ (k.ptable me).killed = true

theorem waitRight_iff (k : Kernel ι) (c : ι) (me : Slot) :
    WaitRight k c me ↔ ¬ ((k.ptable me).killed = false ∧
      ∃ j, zombieChild k me = some j ∧ (k.ptable j).pid = -1) := by
  rw [WaitRight, wait_eq_minus_one]
  constructor
  · rintro h ⟨hk, j, hz, hpid⟩
    rcases h (Or.inl ⟨j, hz, hpid⟩) with hno | hk'
    · exact hno j (zombieChild_eq_some hz).1
    · simp [hk] at hk'
  · rintro h (⟨j, hz, hpid⟩ | ⟨-, h'⟩)
    · right
      by_contra hk
      exact h ⟨by simpa using hk, j, hz, hpid⟩
    · exact h'

section

variable {minProc : ι → Option Slot} {tr l₁ l₂ : List (LifeTrans ι)} {y : LifeTrans ι} {me j : Slot}

/-- A `wait` that reaps is made by the parent, of a process that has exited. -/
theorem reaps_born (h : IsRun lifeStep (boot minProc) (l₁ ++ y :: l₂))
    (hy : Reaps y.pre y.ev me j) :
    ∃ q x l l₀, l₁ = l₀ ++ x :: l ∧ Born y.pre j q x l ∧ ∃ z ∈ l, Exits z.pre z.ev j := by
  obtain ⟨hrun, hpre, -⟩ := h.split
  obtain ⟨ht, hborn⟩ := born_run hrun
  rw [← hpre] at ht hborn
  obtain ⟨c, -, -, hz⟩ := hy
  obtain ⟨-, hzombie⟩ := zombieChild_eq_some hz
  have hj : j ≠ y.pre.initproc := by
    rintro rfl
    have := ht.init_alive
    simp [hzombie] at this
  obtain ⟨q, x, l, l₀, hl, hb⟩ := hborn j hj (Or.inr hzombie)
  exact ⟨q, x, l, l₀, hl, hb, hb.zombie.mp hzombie⟩

/-- Between two reapings of a slot a process is created in it. -/
theorem creates_between {l₃ : List (LifeTrans ι)} {z : LifeTrans ι} {p p' : Slot}
    (h : IsRun lifeStep (boot minProc) (l₁ ++ y :: (l₂ ++ z :: l₃)))
    (hy : Reaps y.pre y.ev p j) (hz : Reaps z.pre z.ev p' j) :
    ∃ x ∈ l₂, ∃ q, Creates x.pre x.ev q j := by
  rw [show l₁ ++ y :: (l₂ ++ z :: l₃) = (l₁ ++ y :: l₂) ++ z :: l₃ by simp] at h
  obtain ⟨q, x, l, l₀, hl, hb, -⟩ := reaps_born h hz
  have hxy : x ≠ y := by
    rintro rfl
    obtain ⟨c, hc, -⟩ := hb.creates
    obtain ⟨d, hd, -⟩ := hy
    simp [hc] at hd
  rcases List.append_eq_append_iff.mp hl with ⟨a, -, ha⟩ | ⟨a, -, ha⟩
  · cases a with
    | nil => exact absurd (List.cons.inj ha).1.symm hxy
    | cons b a => exact ⟨x, by rw [(List.cons.inj ha).2]; simp, q, hb.creates⟩
  · cases a with
    | nil => exact absurd (List.cons.inj ha).1 hxy
    | cons b a =>
      have hmem : y ∈ l := by rw [(List.cons.inj ha).2]; simp
      exact absurd hy (hb.once y hmem p).2

end

/-- **The life cycle**, for every run. Every process but `init` has a parent that is neither free
nor a zombie, and a free slot has none. A process that has exited is reaped by its parent: its
creator, or `init` if that has exited; `wait` returns the pid it was created with, and no process
is reaped twice. The result of a `wait` is right exactly if it does not reap a process with the
pid `-1` (or its caller has been killed). -/
theorem lifecycle {minProc : ι → Option Slot} {tr : List (LifeTrans ι)}
    (h : IsRun lifeStep (boot minProc) tr) :
    (∀ x ∈ tr, ∀ q, q ≠ x.post.initproc → (x.post.ptable q).state.Present →
      ∃ p, (x.post.ptable q).parent = some p ∧ (x.post.ptable p).state ≠ .unused ∧
        (x.post.ptable p).state ≠ .zombie) ∧
    (∀ x ∈ tr, ∀ q, (x.post.ptable q).state = .unused → (x.post.ptable q).parent = none) ∧
    (∀ l₁ y l₂ me j, tr = l₁ ++ y :: l₂ → Reaps y.pre y.ev me j →
      (y.pre.ptable j).parent = some me ∧
      (∀ c, (wait y.pre c me).2 = some (y.pre.ptable j).pid) ∧
      ∃ q x l l₀, l₁ = l₀ ++ x :: l ∧ Born y.pre j q x l ∧ ∃ z ∈ l, Exits z.pre z.ev j) ∧
    (∀ l₁ y l₂ z l₃ p p' j, tr = l₁ ++ y :: (l₂ ++ z :: l₃) → Reaps y.pre y.ev p j →
      Reaps z.pre z.ev p' j → ∃ x ∈ l₂, ∃ q, Creates x.pre x.ev q j) ∧
    ∀ x ∈ tr, ∀ c me, x.ev = .call (.wait c) → caller x.pre c = some me →
      (WaitRight x.pre c me ↔ ¬ ((x.pre.ptable me).killed = false ∧
        ∃ j, zombieChild x.pre me = some j ∧ (x.pre.ptable j).pid = -1)) := by
  refine ⟨fun x hx q hq hs => ?_, fun x hx q hs => ?_, ?_, ?_,
    fun x _ c me _ _ => waitRight_iff x.pre c me⟩
  · obtain ⟨p, hp, -, hal⟩ := (treeOk_run h x hx).2.parent_alive q hq hs
    refine ⟨p, hp, ?_, ?_⟩ <;> rintro h' <;> simp [h'] at hal
  · exact (treeOk_run h x hx).2.parent_none q (Or.inl hs)
  · rintro l₁ y l₂ me j rfl hy
    obtain ⟨c, -, -, hz⟩ := id hy
    exact ⟨(zombieChild_eq_some hz).1, fun c => by simp [wait, hz], reaps_born h hy⟩
  · rintro l₁ y l₂ z l₃ p p' j rfl hy hz
    exact creates_between h hy hz

theorem lifecycle_forkAndWait :
    (trace lifeStep (boot fun _ => none) forkAndWait).length = 8 ∧
    ∀ x ∈ trace lifeStep (boot fun _ => none) forkAndWait, ∀ c me, x.ev = .call (.wait c) →
      caller x.pre c = some me → (WaitRight x.pre c me ↔ ¬ ((x.pre.ptable me).killed = false ∧
        ∃ j, zombieChild x.pre me = some j ∧ (x.pre.ptable j).pid = -1)) :=
  ⟨by decide +kernel, (lifecycle (isRun_trace _ _ _)).2.2.2.2⟩

/-! ## A pid that is `-1`

`init` has a child in slot 1. Its next `fork`s take slot 2 and fail for lack of memory, each of
them using up a pid, until `nextpid` is `-1`. The child created then exits. -/

/-- `init` and its first child. -/
def forked : Kernel Unit :=
  forkRunnable (fork (dispatchTo (boot fun _ => none) () 0) 0 0) 0 1

/-- Slot 2 holds `r`, and `nextpid` is `next`. -/
def tried (r : Proc) (next : Int) : Kernel Unit :=
  { forked with ptable := Function.update forked.ptable 2 r, nextpid := next }

/-- A free slot, with what a failed `fork` has left in it. -/
def leftover (pid passo : Int) : Proc := { Proc.zero with pid := pid, passo := passo }

theorem exec_forked :
    exec lifeStep (boot fun _ => none) [.dispatch () 0, .call (.fork () 0), .call (.forkRunnable ())]
      = some forked := rfl

theorem forked_eq : forked = tried (leftover 0 0) 3 := by
  have h : Function.update forked.ptable 2 (forked.ptable 2) = forked.ptable :=
    Function.update_eq_self 2 forked.ptable
  exact congrArg (fun t => { forked with ptable := t }) h.symm

theorem exec_failedFork (pid passo next : Int) :
    exec lifeStep (tried (leftover pid passo) next) [.call (.fork () 0), .call (.forkFail ())] =
      some (tried (leftover next 200) (int32 (next + 1))) := by
  have h : exec lifeStep (tried (leftover pid passo) next)
      [.call (.fork () 0), .call (.forkFail ())] =
      some (forkFail (setNp (allocprocAt (tried (leftover pid passo) next) 50 2) 0 (some 2)) 0 2) :=
    rfl
  rw [h]
  refine congrArg some (congrArg (fun t => { tried (leftover next 200) (int32 (next + 1)) with
    ptable := t }) (funext fun q => ?_))
  by_cases h0 : q = 0
  · subst h0; rfl
  · by_cases h2 : q = 2
    · subst h2; rfl
    · simp [setNp, allocprocAt, tried, h0, h2]

theorem int32_int32_add (x y : Int) : int32 (int32 x + y) = int32 (x + y) :=
  Int.bmod_add_bmod ..

/-- A number of failed `fork`s. -/
def failedForks (n : Nat) : List (LifeEvent Unit) :=
  (List.replicate n [.call (.fork () 0), .call (.forkFail ())]).flatten

theorem failedForks_succ (n : Nat) :
    failedForks (n + 1) = failedForks n ++ [.call (.fork () 0), .call (.forkFail ())] := by
  simp [failedForks, List.replicate_succ']

theorem exec_failedForks (n : Nat) :
    exec lifeStep forked (failedForks (n + 1)) =
      some (tried (leftover (int32 (3 + n)) 200) (int32 (4 + n))) := by
  induction n with
  | zero =>
    rw [forked_eq]
    exact exec_failedFork 0 0 3
  | succ n ih =>
    have h3 : (3 : Int) + ((n + 1 : Nat) : Int) = 4 + n := by omega
    have h4 : (4 : Int) + ((n + 1 : Nat) : Int) = 4 + n + 1 := by omega
    rw [failedForks_succ, exec_append, ih, Option.bind_some, exec_failedFork, int32_int32_add,
      h3, h4]

/-- The child with the pid `-1`. -/
def lastChild : List (LifeEvent Unit) :=
  [.call (.fork () 0), .call (.forkRunnable ()), .call (.yield ()), .dispatch () 2,
    .call (.exit ()), .dispatch () 0]

/-- After `2 ^ 32 - 4` failed `fork`s the next child has the pid `-1`. `wait` returns it to
`init`, which has another child and has not been killed. -/
theorem wait_minus_one :
    ∃ tr : List (LifeTrans Unit), IsRun lifeStep (boot fun _ => none) tr ∧
      ∃ x ∈ tr, x.ev = .call (.wait ()) ∧ caller x.pre () = some 0 ∧
        (wait x.pre () 0).2 = some (-1) ∧ (x.pre.ptable 0).killed = false ∧
        (x.post.ptable 1).parent = some 0 ∧ (x.post.ptable 1).state = .runnable := by
  have hend : (exec lifeStep (tried (leftover (-2) 200) (-1)) lastChild).any (fun t =>
      caller t () = some 0 ∧ (wait t () 0).2 = some (-1) ∧ (t.ptable 0).killed = false ∧
        (lifeStep t (.call (.wait ()))).any fun u =>
          (u.ptable 1).parent = some 0 ∧ (u.ptable 1).state = .runnable) = true := by
    decide +kernel
  simp only [Option.any_eq_true, decide_eq_true_eq] at hend
  obtain ⟨t, ht, hcaller, hret, hkilled, u, hu, hpar, hst⟩ := hend
  have hforks := exec_failedForks (2 ^ 32 - 5)
  rw [show int32 (3 + ((2 ^ 32 - 5 : Nat) : Int)) = -2 by decide,
    show int32 (4 + ((2 ^ 32 - 5 : Nat) : Int)) = -1 by decide] at hforks
  have hexec : exec lifeStep (boot fun _ => none)
      ([.dispatch () 0, .call (.fork () 0), .call (.forkRunnable ())] ++
        (failedForks (2 ^ 32 - 5 + 1) ++ lastChild)) = some t := by
    rw [exec_append, exec_forked, Option.bind_some, exec_append, hforks, Option.bind_some, ht]
  obtain ⟨tr, hrun, hmem, -⟩ := isRun_of_exec_snoc hexec hu
  exact ⟨tr, hrun, _, hmem, rfl, hcaller, hret, hkilled, hpar, hst⟩

end StrideXv6.Sched
