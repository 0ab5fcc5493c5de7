import StrideXv6.Sched.Scan

set_option autoImplicit false

/-! # The steps of the process table, one constructor each

`Steps k e k'` spells out what `step` does for each event, with the guard under which the
event is possible; `steps_of_step` says that every step is one of these. Every invariant of the
table is proved by cases on it.

Most operations change a slot only a little. `Touch` covers all of those at once: `wakeup1`,
`kill` and the loop of `exit` may wake a sleeper and rewrite `killed` and `parent`, and leave
the stride fields, `np` and every CPU alone.
-/

namespace StrideXv6.Sched

open Function

variable {ι : Type} {k : Kernel ι}

/-! ## Reading back an update -/

section

@[simp] theorem setProc_ptable (k : Kernel ι) (p : Slot) (r : Proc) :
    (k.setProc p r).ptable = Function.update k.ptable p r := rfl

@[simp] theorem setProc_cpu (k : Kernel ι) (p : Slot) (r : Proc) :
    (k.setProc p r).cpu = k.cpu := rfl

variable [DecidableEq ι]

@[simp] theorem setCpu_ptable (k : Kernel ι) (c : ι) (r : Cpu) :
    (k.setCpu c r).ptable = k.ptable := rfl

@[simp] theorem setCpu_cpu (k : Kernel ι) (c : ι) (r : Cpu) :
    (k.setCpu c r).cpu = Function.update k.cpu c r := rfl

@[simp] theorem sched_ptable (k : Kernel ι) (c : ι) : (sched k c).ptable = k.ptable := rfl

theorem sched_cpu_proc (k : Kernel ι) (c d : ι) :
    ((sched k c).cpu d).proc = if d = c then none else (k.cpu d).proc := by
  simp only [sched, setCpu_cpu, update_apply]
  split <;> rfl

theorem sched_cpu_minProc (k : Kernel ι) (c d : ι) :
    ((sched k c).cpu d).minProc = (k.cpu d).minProc := by
  simp only [sched, setCpu_cpu, update_apply]
  split
  · rename_i h; rw [h]
  · rfl

end

/-! ## Updates that leave scheduling alone -/

/-- `r'` is `r`, perhaps woken up, perhaps with another `parent`, `killed` or `pid`. -/
structure Proc.Touched (r r' : Proc) : Prop where
  state : r'.state = r.state ∨ (r.state = .sleeping ∧ r'.state = .runnable)
  passo : r'.passo = r.passo
  passada : r'.passada = r.passada
  despachos : r'.despachos = r.despachos
  np : r'.np = r.np

theorem Proc.Touched.refl (r : Proc) : r.Touched r := ⟨Or.inl rfl, rfl, rfl, rfl, rfl⟩

theorem Proc.Touched.trans {r s t : Proc} (h : r.Touched s) (h' : s.Touched t) : r.Touched t := by
  refine ⟨?_, h'.passo.trans h.passo, h'.passada.trans h.passada,
    h'.despachos.trans h.despachos, h'.np.trans h.np⟩
  rcases h.state with h1 | ⟨h1, h2⟩
  · rcases h'.state with h3 | ⟨h3, h4⟩
    · exact Or.inl (h3.trans h1)
    · exact Or.inr ⟨h1 ▸ h3, h4⟩
  · rcases h'.state with h3 | ⟨h3, h4⟩
    · exact Or.inr ⟨h1, h3.trans h2⟩
    · exact Or.inr ⟨h1, h4⟩

theorem Proc.touched_wakeup1 (r : Proc) (chan : Option Chan) : r.Touched (r.wakeup1 chan) := by
  unfold Proc.wakeup1
  split
  · rename_i h; exact ⟨Or.inr ⟨h.1, rfl⟩, rfl, rfl, rfl, rfl⟩
  · exact .refl r

theorem Proc.touched_kill (r : Proc) : r.Touched r.kill := by
  refine ⟨?_, rfl, rfl, rfl, rfl⟩
  by_cases h : r.state = .sleeping
  · exact Or.inr ⟨h, by simp [Proc.kill, h]⟩
  · exact Or.inl (by simp [Proc.kill, h])

/-- Every slot is touched at most, and no CPU changes. -/
structure Touch (k k' : Kernel ι) : Prop where
  slot : ∀ p, (k.ptable p).Touched (k'.ptable p)
  cpu : k'.cpu = k.cpu

theorem Touch.refl (k : Kernel ι) : Touch k k := ⟨fun _ => .refl _, rfl⟩

theorem Touch.trans {k₁ k₂ k₃ : Kernel ι} (h : Touch k₁ k₂) (h' : Touch k₂ k₃) : Touch k₁ k₃ :=
  ⟨fun p => (h.slot p).trans (h'.slot p), h'.cpu.trans h.cpu⟩

theorem touch_wakeup1 (k : Kernel ι) (chan : Option Chan) : Touch k (wakeup1 k chan) :=
  ⟨fun p => (k.ptable p).touched_wakeup1 chan, rfl⟩

theorem touch_setProc (k : Kernel ι) {p : Slot} {r : Proc} (h : (k.ptable p).Touched r) :
    Touch k (k.setProc p r) := by
  refine ⟨fun q => ?_, rfl⟩
  by_cases hq : q = p
  · subst hq; simpa using h
  · simpa [hq] using Proc.Touched.refl _

theorem touch_kill (k : Kernel ι) (pid : Int) : Touch k (kill k pid).1 := by
  unfold kill
  split
  · exact touch_setProc k (k.ptable _).touched_kill
  · exact .refl k

theorem touch_reparent (me : Slot) (k : Kernel ι) (p : Slot) : Touch k (reparent me k p) := by
  unfold reparent
  split
  · have h : Touch k (k.setProc p { k.ptable p with parent := some k.initproc }) :=
      touch_setProc k ⟨Or.inl rfl, rfl, rfl, rfl, rfl⟩
    dsimp only
    split
    · exact h.trans (touch_wakeup1 _ _)
    · exact h
  · exact .refl k

theorem touch_reparent_all (me : Slot) (l : List Slot) (k : Kernel ι) :
    Touch k (l.foldl (reparent me) k) := by
  induction l generalizing k with
  | nil => exact .refl k
  | cons p l ih => exact (touch_reparent me k p).trans (ih _)

/-- `exit` up to its last assignment touches the table; then the caller becomes a zombie. -/
theorem exit_eq [DecidableEq ι] (k : Kernel ι) (c : ι) (me : Slot) :
    ∃ k₁, Touch k k₁ ∧
      exit k c me = sched (k₁.setProc me { k₁.ptable me with state := .zombie }) c :=
  ⟨_, (touch_wakeup1 k _).trans (touch_reparent_all me (List.finRange NPROC) _), rfl⟩

/-! ## The relation -/

section

theorem caller_eq_some {c : ι} {me : Slot} (h : caller k c = some me) :
    (k.cpu c).proc = some me ∧ (k.ptable me).np = none := by
  simpa [caller, Option.filter_eq_some_iff] using h

theorem forker_eq_some {c : ι} {me j : Slot} (h : forker k c = some (me, j)) :
    (k.cpu c).proc = some me ∧ (k.ptable me).np = some j := by
  simp only [forker, Option.bind_eq_some_iff, Option.map_eq_some_iff, Prod.mk.injEq] at h
  obtain ⟨p, hp, q, hq, rfl, rfl⟩ := h
  exact ⟨hp, hq⟩

theorem findUnused_state {t : Slot → Proc} {p : Slot} (h : findUnused t = some p) :
    (t p).state = .unused := by
  simpa using List.find?_some h

variable [DecidableEq ι]

/-- What each event does, and when it is possible. -/
inductive Steps (k : Kernel ι) : Op ι → Kernel ι → Prop
  | idle {c : ι} (hc : (k.cpu c).proc = none) (hch : chosen k c = none) :
      Steps k (.scheduler c) k
  | dispatch {c : ι} {p : Slot} (hc : (k.cpu c).proc = none) (hch : chosen k c = some p) :
      Steps k (.scheduler c)
        ((k.setProc p (k.ptable p).dispatch).setCpu c { proc := some p, minProc := some p })
  | forkFull {c : ι} {me : Slot} {stride : Int} (hc : (k.cpu c).proc = some me) :
      Steps k (.fork c stride) k
  | fork {c : ι} {me j : Slot} {stride : Int} (hc : (k.cpu c).proc = some me)
      (hnp : (k.ptable me).np = none) (hj : (k.ptable j).state = .unused) :
      Steps k (.fork c stride) (setNp (allocprocAt k (clampTickets stride) j) me (some j))
  | forkFail {c : ι} {me j : Slot} (hc : (k.cpu c).proc = some me)
      (hnp : (k.ptable me).np = some j) : Steps k (.forkFail c) (forkFail k me j)
  | forkRunnable {c : ι} {me j : Slot} (hc : (k.cpu c).proc = some me)
      (hnp : (k.ptable me).np = some j) : Steps k (.forkRunnable c) (forkRunnable k me j)
  | exit {c : ι} {me : Slot} {k₁ : Kernel ι} (hc : (k.cpu c).proc = some me)
      (hnp : (k.ptable me).np = none) (hk₁ : Touch k k₁) :
      Steps k (.exit c) (sched (k₁.setProc me { k₁.ptable me with state := .zombie }) c)
  | waitReap {c : ι} {me p : Slot} (hc : (k.cpu c).proc = some me)
      (hp : (k.ptable p).state = .zombie) :
      Steps k (.wait c) (k.setProc p (k.ptable p).reap)
  | waitReturn {c : ι} {me : Slot} (hc : (k.cpu c).proc = some me) : Steps k (.wait c) k
  | waitSleep {c : ι} {me : Slot} (hc : (k.cpu c).proc = some me)
      (hnp : (k.ptable me).np = none) :
      Steps k (.wait c) (sleep k c me (some (.slot me)))
  | sleep {c : ι} {me : Slot} {chan : Chan} (hc : (k.cpu c).proc = some me)
      (hnp : (k.ptable me).np = none) :
      Steps k (.sleep c chan) (sleep k c me (some chan))
  | yield {c : ι} {me : Slot} (hc : (k.cpu c).proc = some me) :
      Steps k (.yield c) (yield k c me)
  | kill {c : ι} {pid : Int} {k₁ : Kernel ι} (hk₁ : Touch k k₁) : Steps k (.kill c pid) k₁
  | wakeup {chan : Chan} : Steps k (.wakeup chan) (wakeup1 k (some chan))

theorem steps_fork {c : ι} {me : Slot} {stride : Int} (hc : (k.cpu c).proc = some me)
    (hnp : (k.ptable me).np = none) : Steps k (.fork c stride) (fork k me stride) := by
  cases hf : findUnused k.ptable with
  | none =>
    have : fork k me stride = k := by simp [fork, allocproc, hf]
    rw [this]; exact .forkFull hc
  | some j =>
    rw [show fork k me stride = setNp (allocprocAt k (clampTickets stride) j) me (some j) by
      simp [fork, allocproc, hf]]
    exact .fork hc hnp (findUnused_state hf)

theorem steps_wait {c : ι} {me : Slot} (hc : (k.cpu c).proc = some me)
    (hnp : (k.ptable me).np = none) : Steps k (.wait c) (wait k c me).1 := by
  unfold wait
  split
  · rename_i p hp
    have hz : (k.ptable p).state = .zombie := (by simpa using List.find?_some hp : _ ∧ _).2
    exact .waitReap hc hz
  · split
    · exact .waitReturn hc
    · exact .waitSleep hc hnp

/-- **Inversion of `step`.** -/
theorem steps_of_step {k' : Kernel ι} {e : Op ι} (h : step k e = some k') : Steps k e k' := by
  cases e with
  | scheduler c =>
    simp only [step] at h
    split at h
    · rename_i hc
      obtain rfl := Option.some.inj h
      unfold Sched.scheduler
      split
      · rename_i hch; exact .idle hc hch
      · rename_i p hch; exact .dispatch hc hch
    · exact absurd h (by simp)
  | fork c stride =>
    obtain ⟨me, hme, rfl⟩ := Option.map_eq_some_iff.mp h
    obtain ⟨hc, hnp⟩ := caller_eq_some hme
    exact steps_fork hc hnp
  | forkFail c =>
    obtain ⟨⟨me, j⟩, hme, rfl⟩ := Option.map_eq_some_iff.mp h
    obtain ⟨hc, hnp⟩ := forker_eq_some hme
    exact .forkFail hc hnp
  | forkRunnable c =>
    obtain ⟨⟨me, j⟩, hme, rfl⟩ := Option.map_eq_some_iff.mp h
    obtain ⟨hc, hnp⟩ := forker_eq_some hme
    exact .forkRunnable hc hnp
  | exit c =>
    obtain ⟨me, hme, h⟩ := Option.bind_eq_some_iff.mp h
    obtain ⟨hc, hnp⟩ := caller_eq_some hme
    split at h
    · exact absurd h (by simp)
    · obtain rfl := Option.some.inj h
      obtain ⟨k₁, hk₁, he⟩ := exit_eq k c me
      rw [he]; exact .exit hc hnp hk₁
  | wait c =>
    obtain ⟨me, hme, rfl⟩ := Option.map_eq_some_iff.mp h
    obtain ⟨hc, hnp⟩ := caller_eq_some hme
    exact steps_wait hc hnp
  | sleep c chan =>
    obtain ⟨me, hme, rfl⟩ := Option.map_eq_some_iff.mp h
    obtain ⟨hc, hnp⟩ := caller_eq_some hme
    exact .sleep hc hnp
  | yield c =>
    obtain ⟨me, hc, h⟩ := Option.bind_eq_some_iff.mp h
    split at h
    · obtain rfl := Option.some.inj h
      exact .yield hc
    · exact absurd h (by simp)
  | kill c pid =>
    obtain ⟨me, -, rfl⟩ := Option.map_eq_some_iff.mp h
    exact .kill (touch_kill k pid)
  | wakeup chan =>
    obtain rfl := Option.some.inj h
    exact .wakeup

end

/-! ## What a step can do to a slot

Four readings of `Steps` from which the invariants of the stride fields are derived: how the
fields themselves change, and how a slot can come to be in use, current, or the slot of an
unfinished `fork`. -/

theorem clampTickets_mem (stride : Int) :
    25 ≤ clampTickets stride ∧ clampTickets stride ≤ 2000 := by
  unfold clampTickets DEFAULT_TICKETS MIN_TICKETS MAX_TICKETS
  split
  · omega
  · split
    · omega
    · split <;> omega

/-- The stride `allocproc` computes from a clamped number of tickets. -/
theorem passo_mem (stride : Int) :
    5 ≤ Int.tdiv 10000 (clampTickets stride) ∧ Int.tdiv 10000 (clampTickets stride) ≤ 400 := by
  obtain ⟨h1, h2⟩ := clampTickets_mem stride
  rw [Int.tdiv_eq_ediv_of_nonneg (by omega)]
  constructor
  · rw [Int.le_ediv_iff_mul_le (by omega)]
    omega
  · refine Int.lt_add_one_iff.mp ?_
    rw [Int.ediv_lt_iff_lt_mul (by omega)]
    omega

/-- The stride fields of a slot `allocproc` has just filled in. -/
structure Proc.Fresh (r : Proc) : Prop where
  five_le : 5 ≤ r.passo
  le_400 : r.passo ≤ 400
  passada : r.passada = 0
  despachos : r.despachos = 0

structure Proc.SameStride (r r' : Proc) : Prop where
  passo : r'.passo = r.passo
  passada : r'.passada = r.passada
  despachos : r'.despachos = r.despachos

theorem Proc.SameStride.refl (r : Proc) : r.SameStride r := ⟨rfl, rfl, rfl⟩

theorem Proc.SameStride.trans {r s t : Proc} (h : r.SameStride s) (h' : s.SameStride t) :
    r.SameStride t :=
  ⟨h'.passo.trans h.passo, h'.passada.trans h.passada, h'.despachos.trans h.despachos⟩

theorem Proc.Touched.sameStride {r r' : Proc} (h : r.Touched r') : r.SameStride r' :=
  ⟨h.passo, h.passada, h.despachos⟩

theorem sameStride_update {t : Slot → Proc} {p : Slot} {r : Proc} (h : (t p).SameStride r)
    (q : Slot) : (t q).SameStride (Function.update t p r q) := by
  by_cases hq : q = p
  · subst hq; simpa using h
  · simpa [hq] using Proc.SameStride.refl _

/-- Either end of a `fork`: the slot `j` gets a new state, the forker forgets it. -/
theorem sameStride_forkEnd {t : Slot → Proc} {me j : Slot} {r r' : Proc} (h : (t j).SameStride r)
    (h' : (Function.update t j r me).SameStride r') (q : Slot) :
    (t q).SameStride (Function.update (Function.update t j r) me r' q) :=
  (sameStride_update h q).trans (sameStride_update h' q)

/-- The slot a `fork` has just taken. -/
theorem fresh_fork (k : Kernel ι) (me j : Slot) (stride : Int) :
    ((setNp (allocprocAt k (clampTickets stride) j) me (some j)).ptable j).Fresh := by
  obtain ⟨h5, h400⟩ := passo_mem stride
  have hj : (allocprocAt k (clampTickets stride) j).ptable j
      = allocated k (clampTickets stride) j := by simp [allocprocAt]
  have h := sameStride_update (t := (allocprocAt k (clampTickets stride) j).ptable) (p := me)
    (r := { (allocprocAt k (clampTickets stride) j).ptable me with np := some j })
    ⟨rfl, rfl, rfl⟩ j
  rw [hj] at h
  exact ⟨h.passo ▸ h5, h.passo ▸ h400, h.passada, h.despachos⟩

/-- How the step `e` from `k` to `k'` changes the stride fields of slot `p`. -/
inductive StrideStep (k : Kernel ι) (e : Op ι) (k' : Kernel ι) (p : Slot) : Prop
  | same (h : (k.ptable p).SameStride (k'.ptable p))
  | fresh (hs : (k.ptable p).state = .unused) (h : (k'.ptable p).Fresh)
  | charged (c : ι) (he : e = .scheduler c) (hch : chosen k c = some p)
      (h : k'.ptable p = (k.ptable p).dispatch)

section

variable [DecidableEq ι] {k' : Kernel ι} {e : Op ι}

theorem Steps.stride (hs : Steps k e k') (q : Slot) : StrideStep k e k' q := by
  cases hs with
  | idle hc hch => exact .same (.refl _)
  | @dispatch c p hc hch =>
    by_cases hq : q = p
    · subst hq; exact .charged c rfl hch (by simp)
    · exact .same (by simpa [hq] using Proc.SameStride.refl _)
  | forkFull hc => exact .same (.refl _)
  | @fork c me j stride hc hnp hj =>
    by_cases hq : q = j
    · subst hq; exact .fresh hj (fresh_fork k me q stride)
    · refine .same ?_
      have h := sameStride_update (t := (allocprocAt k (clampTickets stride) j).ptable) (p := me)
        (r := { (allocprocAt k (clampTickets stride) j).ptable me with np := some j })
        ⟨rfl, rfl, rfl⟩ q
      have hk : (allocprocAt k (clampTickets stride) j).ptable q = k.ptable q := by
        simp [allocprocAt, hq]
      rwa [hk] at h
  | forkFail hc hnp =>
    exact .same (sameStride_forkEnd (by exact ⟨rfl, rfl, rfl⟩) (by exact ⟨rfl, rfl, rfl⟩) q)
  | forkRunnable hc hnp =>
    exact .same (sameStride_forkEnd (by exact ⟨rfl, rfl, rfl⟩) (by exact ⟨rfl, rfl, rfl⟩) q)
  | exit hc hnp hk₁ =>
    exact .same ((hk₁.slot q).sameStride.trans (sameStride_update (by exact ⟨rfl, rfl, rfl⟩) q))
  | waitReap hc hp => exact .same (sameStride_update (by exact ⟨rfl, rfl, rfl⟩) q)
  | waitReturn hc => exact .same (.refl _)
  | waitSleep hc hnp => exact .same (sameStride_update (by exact ⟨rfl, rfl, rfl⟩) q)
  | sleep hc hnp => exact .same (sameStride_update (by exact ⟨rfl, rfl, rfl⟩) q)
  | yield hc => exact .same (sameStride_update (by exact ⟨rfl, rfl, rfl⟩) q)
  | kill hk₁ => exact .same (hk₁.slot q).sameStride
  | wakeup => exact .same ((touch_wakeup1 k _).slot q).sameStride

/-- What a slot in use after a step owes its being in use to. -/
inductive UsedStep (k : Kernel ι) (e : Op ι) (k' : Kernel ι) (q : Slot) : Prop
  | used (h : (k.ptable q).state ≠ .unused)
  | cur (c : ι) (h : (k.cpu c).proc = some q)
  | np (p : Slot) (h : (k.ptable p).np = some q)
  | chosen (c : ι) (he : e = .scheduler c) (h : chosen k c = some q)
  | fresh (h : (k'.ptable q).Fresh)

theorem Steps.used (hs : Steps k e k') {q : Slot} (hq : (k'.ptable q).state ≠ .unused) :
    UsedStep k e k' q := by
  have hupd : ∀ {t : Slot → Proc} {p : Slot} {r : Proc},
      (Function.update t p r q).state ≠ .unused → q = p ∨ (t q).state ≠ .unused := by
    intro t p r h
    by_cases hqp : q = p
    · exact Or.inl hqp
    · exact Or.inr (by simpa [hqp] using h)
  have htouch : ∀ {k₁ : Kernel ι}, Touch k k₁ → (k₁.ptable q).state ≠ .unused →
      (k.ptable q).state ≠ .unused := by
    intro k₁ ht h
    rcases (ht.slot q).state with h1 | ⟨h1, -⟩
    · rwa [← h1]
    · simp [h1]
  -- the current process gives up the CPU; other slots are as they were
  have hleave : ∀ {c : ι} {me : Slot} {r : Proc}, (k.cpu c).proc = some me →
      (Function.update k.ptable me r q).state ≠ .unused → UsedStep k e k' q := by
    intro c me r hc h
    rcases hupd h with rfl | h
    · exact .cur c hc
    · exact .used h
  cases hs with
  | idle hc hch => exact .used hq
  | @dispatch c p hc hch =>
    rcases hupd hq with rfl | h
    · exact .chosen c rfl hch
    · exact .used h
  | forkFull hc => exact .used hq
  | @fork c me j stride hc hnp hj =>
    by_cases hqj : q = j
    · subst hqj; exact .fresh (fresh_fork k me q stride)
    · rcases hupd hq with rfl | h
      · exact .cur c hc
      · exact .used ((hupd h).resolve_left hqj)
  | @forkFail c me j hc hnp =>
    rcases hupd hq with rfl | h
    · exact .cur c hc
    · rcases hupd h with rfl | h
      · exact .np me hnp
      · exact .used h
  | @forkRunnable c me j hc hnp =>
    rcases hupd hq with rfl | h
    · exact .cur c hc
    · rcases hupd h with rfl | h
      · exact .np me hnp
      · exact .used h
  | @exit c me k₁ hc hnp hk₁ =>
    rcases hupd hq with rfl | h
    · exact .cur c hc
    · exact .used (htouch hk₁ h)
  | waitReap hc hp =>
    rcases hupd hq with rfl | h
    · exact .used (by simp [hp])
    · exact .used h
  | waitReturn hc => exact .used hq
  | waitSleep hc hnp => exact hleave hc hq
  | sleep hc hnp => exact hleave hc hq
  | yield hc => exact hleave hc hq
  | kill hk₁ => exact .used (htouch hk₁ hq)
  | wakeup => exact .used (htouch (touch_wakeup1 k _) hq)

/-- A current process was current before, unless it has just been dispatched. -/
theorem Steps.cur (hs : Steps k e k') {d : ι} {q : Slot} (hd : (k'.cpu d).proc = some q) :
    (k.cpu d).proc = some q ∨ (e = .scheduler d ∧ chosen k d = some q) := by
  have hsched : ∀ {k₁ : Kernel ι} {c : ι}, k₁.cpu = k.cpu →
      ((sched k₁ c).cpu d).proc = some q → (k.cpu d).proc = some q := by
    intro k₁ c hk h
    rw [sched_cpu_proc] at h
    split at h
    · simp at h
    · rwa [hk] at h
  cases hs with
  | @dispatch c p hc hch =>
    by_cases hdc : d = c
    · subst hdc
      obtain rfl : p = q := by simpa using hd
      exact Or.inr ⟨rfl, hch⟩
    · exact Or.inl (by simpa [hdc] using hd)
  | exit hc hnp hk₁ => exact Or.inl (hsched hk₁.cpu hd)
  | waitSleep hc hnp => exact Or.inl (hsched rfl hd)
  | sleep hc hnp => exact Or.inl (hsched rfl hd)
  | yield hc => exact Or.inl (hsched rfl hd)
  | kill hk₁ => exact Or.inl (hk₁.cpu ▸ hd)
  | idle | forkFull | fork | forkFail | forkRunnable | waitReap | waitReturn | wakeup =>
    exact Or.inl hd

/-- The slot of an unfinished `fork` was one before, unless it has just been taken. -/
theorem Steps.np (hs : Steps k e k') {p q : Slot} (hq : (k'.ptable p).np = some q) :
    (k.ptable p).np = some q ∨ (k'.ptable q).Fresh := by
  have hupd : ∀ {t : Slot → Proc} {i : Slot} {r : Proc}, r.np = (t i).np →
      (Function.update t i r p).np = some q → (t p).np = some q := by
    intro t i r hr h
    by_cases hpi : p = i
    · subst hpi; rwa [update_self, hr] at h
    · rwa [update_of_ne hpi] at h
  -- `np` is cleared in one slot
  have hclear : ∀ {t : Slot → Proc} {i : Slot} {r : Proc}, r.np = none →
      (Function.update t i r p).np = some q → (t p).np = some q := by
    intro t i r hr h
    by_cases hpi : p = i
    · subst hpi; simp [hr] at h
    · rwa [update_of_ne hpi] at h
  cases hs with
  | idle hc hch => exact Or.inl hq
  | dispatch hc hch => exact Or.inl (hupd (by rfl) hq)
  | forkFull hc => exact Or.inl hq
  | @fork c me j stride hc hnp hj =>
    by_cases hp : p = me
    · subst hp
      obtain rfl : j = q := by simpa [setNp] using hq
      exact Or.inr (fresh_fork k p j stride)
    · have hq' : ((allocprocAt k (clampTickets stride) j).ptable p).np = some q := by
        simpa [setNp, hp] using hq
      exact Or.inl (hclear (by rfl) hq')
  | forkFail hc hnp => exact Or.inl (hupd (by rfl) (hclear (by rfl) hq))
  | forkRunnable hc hnp => exact Or.inl (hupd (by rfl) (hclear (by rfl) hq))
  | exit hc hnp hk₁ => exact Or.inl ((hk₁.slot p).np ▸ hupd (by rfl) hq)
  | waitReap hc hp => exact Or.inl (hupd (by rfl) hq)
  | waitReturn hc => exact Or.inl hq
  | waitSleep hc hnp => exact Or.inl (hupd (by rfl) hq)
  | sleep hc hnp => exact Or.inl (hupd (by rfl) hq)
  | yield hc => exact Or.inl (hupd (by rfl) hq)
  | kill hk₁ => exact Or.inl ((hk₁.slot p).np ▸ hq)
  | wakeup => exact Or.inl (((touch_wakeup1 k _).slot p).np ▸ hq)

end

end StrideXv6.Sched
