import StrideXv6.Sched.Dispatch
import StrideXv6.Sched.Accounting

set_option autoImplicit false

/-! # Proportional share

On one CPU, with a fixed set `S` of processes that are all `RUNNABLE` whenever the scheduler
looks, each dispatch moves the smallest `passada` of the set up by that process' `passo`.
Two `passada`s that were within `M` of each other stay so when no `passo` exceeds `M`
(`Share.dispatch`), and the number of dispatches of a process is its progress divided by its
`passo` (`passada_last`). Together they bound how far the shares of two processes can be
from the ratio of their tickets, over runs of any length (`proportional_share`).
-/

namespace StrideXv6.Sched

open Runs

variable {ι : Type} [DecidableEq ι] {k k' : Kernel ι}
variable {tr : List (Trans (Kernel ι) (Op ι))} {p : Slot} {e : Op Unit}

/-! ## Counting dispatches -/

/-- The process the transition dispatches, if it does. -/
def dispatched (x : Trans (Kernel ι) (Op ι)) : Option Slot :=
  match x.ev with
  | .scheduler c => (x.post.cpu c).proc
  | _ => none

/-- How many times the run dispatches `p`. -/
def dispatches (p : Slot) (tr : List (Trans (Kernel ι) (Op ι))) : Nat :=
  tr.countP fun x => decide (dispatched x = some p)

omit [DecidableEq ι] in
theorem dispatches_cons_of_pos {x : Trans (Kernel ι) (Op ι)} (h : dispatched x = some p) :
    dispatches p (x :: tr) = dispatches p tr + 1 :=
  List.countP_cons_of_pos (by simpa)

omit [DecidableEq ι] in
theorem dispatches_cons_of_neg {x : Trans (Kernel ι) (Op ι)} (h : dispatched x ≠ some p) :
    dispatches p (x :: tr) = dispatches p tr :=
  List.countP_cons_of_neg (by simpa)

theorem dispatched_eq_some {e : Op ι} (h : step k e = some k') :
    dispatched ⟨k, e, k'⟩ = some p ↔ ∃ c, e = .scheduler c ∧ chosen k c = some p := by
  cases e with
  | scheduler c =>
    rw [show dispatched ⟨k, .scheduler c, k'⟩ = (k'.cpu c).proc from rfl, scheduler_proc h]
    simp
  | _ => simp [dispatched]

/-- A slot in use is charged when it is dispatched and otherwise keeps its stride fields. -/
theorem step_passada {e : Op ι} (h : step k e = some k') (hp : (k.ptable p).state ≠ .unused) :
    (k'.ptable p).passo = (k.ptable p).passo ∧
      (k'.ptable p).passada = if dispatched ⟨k, e, k'⟩ = some p
        then int32 ((k.ptable p).passada + (k.ptable p).passo) else (k.ptable p).passada := by
  cases (steps_of_step h).stride p with
  | same h' =>
    refine ⟨h'.passo, ?_⟩
    rw [if_neg, h'.passada]
    -- a dispatch would have counted
    intro hd
    obtain ⟨c, rfl, hch⟩ := (dispatched_eq_some h).mp hd
    cases steps_of_step h with
    | idle hc hch' => simp [hch'] at hch
    | dispatch hc hch' =>
      obtain rfl := Option.some.inj (hch'.symm.trans hch)
      have := h'.despachos
      simp [Proc.dispatch] at this
  | fresh hs _ => exact absurd hs hp
  | charged c he hch h' =>
    rw [h', if_pos ((dispatched_eq_some h).mpr ⟨c, he, hch⟩)]
    exact ⟨rfl, rfl⟩

/-- **The progress of a process is the price of its dispatches**, over a run in which its
slot stays in use and no charge overflows. -/
theorem passada_last {s : Kernel ι}
    (hrun : IsRun step s tr) (hlive : ∀ x ∈ tr, (x.pre.ptable p).state ≠ .unused)
    (hint : ∀ x ∈ tr, dispatched x = some p →
      0 ≤ (x.pre.ptable p).passada + (x.pre.ptable p).passo ∧
        (x.pre.ptable p).passada + (x.pre.ptable p).passo ≤ INT_MAX) :
    ((last s tr).ptable p).passo = (s.ptable p).passo ∧
      ((last s tr).ptable p).passada
        = (s.ptable p).passada + dispatches p tr * (s.ptable p).passo := by
  induction hrun with
  | nil s => exact ⟨rfl, by simp [dispatches, last]⟩
  | @cons s t e tr hst _ ih =>
    obtain ⟨hpasso, hpass⟩ := step_passada hst (hlive ⟨s, e, t⟩ (by simp))
    obtain ⟨ih1, ih2⟩ := ih (fun x hx => hlive x (by simp [hx])) (fun x hx => hint x (by simp [hx]))
    refine ⟨ih1.trans hpasso, ?_⟩
    show ((last t tr).ptable p).passada = _
    rw [ih2, hpasso, hpass]
    by_cases hd : dispatched ⟨s, e, t⟩ = some p
    · obtain ⟨h0, hle⟩ := hint ⟨s, e, t⟩ (by simp) hd
      rw [if_pos hd, int32_eq h0 hle, dispatches_cons_of_pos hd]
      push_cast
      ring
    · rw [if_neg hd, dispatches_cons_of_neg hd]

/-! ## A process that waits keeps waiting -/

/-- A `RUNNABLE` process stays so until it is dispatched. -/
theorem Inv.stays_runnable {e : Op ι} (h : Inv k) (hs : Steps k e k')
    (hp : (k.ptable p).state = .runnable)
    (hnd : ∀ c, e = .scheduler c → chosen k c ≠ some p) : (k'.ptable p).state = .runnable := by
  have hcur : ∀ {c me}, (k.cpu c).proc = some me → p ≠ me := by
    rintro c me hc rfl
    simp [h.cur c p hc] at hp
  have htouch : ∀ {k₁ : Kernel ι}, Touch k k₁ → (k₁.ptable p).state = .runnable := by
    intro k₁ ht
    rcases (ht.slot p).state with h1 | ⟨h1, -⟩
    · rw [h1, hp]
    · simp [h1] at hp
  have hemb : ∀ {q j}, (k.ptable q).np = some j → p ≠ j := by
    rintro q j hq rfl
    simp [h.np q p hq] at hp
  cases hs with
  | idle hc hch => exact hp
  | @dispatch c q hc hch =>
    have hne : p ≠ q := by rintro rfl; exact hnd c rfl hch
    simpa [hne] using hp
  | forkFull hc => exact hp
  | @fork c me j stride hc hnp hj =>
    have hne : p ≠ j := by rintro rfl; simp [hj] at hp
    simpa [setNp, allocprocAt, hcur hc, hne] using hp
  | forkFail hc hnp => simpa [forkFail, setNp, hcur hc, hemb hnp] using hp
  | forkRunnable hc hnp => simpa [forkRunnable, setNp, hcur hc, hemb hnp] using hp
  | exit hc hnp hk₁ => simpa [hcur hc] using htouch hk₁
  | @waitReap c me q hc hq =>
    have hne : p ≠ q := by rintro rfl; simp [hq] at hp
    simpa [hne] using hp
  | waitReturn hc => exact hp
  | waitSleep hc hnp => simpa [sleep, hcur hc] using hp
  | sleep hc hnp => simpa [sleep, hcur hc] using hp
  | yield hc => simpa [yield, hcur hc] using hp
  | kill hk₁ => exact htouch hk₁
  | wakeup => exact htouch (touch_wakeup1 k _)

/-! ## The steady state -/

/-- The conditions on a transition of the steady state of `S`: exactly `S` is `RUNNABLE` at a
scan, the CPU is given up by `yield` only, and a charge stays within an `int`. -/
structure Steady (S : Finset Slot) (x : Trans (Kernel Unit) (Op Unit)) : Prop where
  scan : x.ev = .scheduler () → ∀ p, (x.pre.ptable p).state = .runnable ↔ p ∈ S
  leave : (x.pre.cpu ()).proc ≠ none → (x.post.cpu ()).proc = none → x.ev = .yield ()
  noWrap : ∀ p, dispatched x = some p →
    (x.pre.ptable p).passada + (x.pre.ptable p).passo ≤ INT_MAX

/-- The `passada`s of `S` are within `M` of one another. -/
def Within (S : Finset Slot) (M : Int) (k : Kernel Unit) : Prop :=
  ∀ p ∈ S, ∀ q ∈ S, |(k.ptable p).passada - (k.ptable q).passada| ≤ M

/-- The invariant of the steady state. -/
structure Share (S : Finset Slot) (M : Int) (k : Kernel Unit) : Prop where
  inv : Inv k
  ready : ∀ p ∈ S, (k.ptable p).state = .runnable ∨ (k.cpu ()).proc = some p
  pos : ∀ p ∈ S, 0 < (k.ptable p).passada
  passo_pos : ∀ p ∈ S, 0 < (k.ptable p).passo
  passo_le : ∀ p ∈ S, (k.ptable p).passo ≤ M
  within : Within S M k

variable {S : Finset Slot} {M : Int} {s t : Kernel Unit}

theorem Share.live (h : Share S M s) (hp : p ∈ S) :
    (s.ptable p).state ≠ .unused := by
  rcases h.ready p hp with h1 | h1
  · simp [h1]
  · simp [h.inv.cur () p h1]

/-- Members of `S` are `RUNNABLE` or current after a step, too. -/
theorem Share.ready_step (h : Share S M s) (hst : step s e = some t)
    (hc : Steady S ⟨s, e, t⟩) (hp : p ∈ S) :
    (t.ptable p).state = .runnable ∨ (t.cpu ()).proc = some p := by
  have hs := steps_of_step hst
  rcases h.ready p hp with hr | hcur
  · by_cases hd : dispatched ⟨s, e, t⟩ = some p
    · -- dispatched: current now
      obtain ⟨c, rfl, hch⟩ := (dispatched_eq_some hst).mp hd
      exact Or.inr ((scheduler_proc hst).mpr hch)
    · refine Or.inl (h.inv.stays_runnable hs hr fun c he hch => hd ?_)
      exact (dispatched_eq_some hst).mpr ⟨c, he, hch⟩
  · -- current: it still is, unless this is the `yield`
    cases hs with
    | idle hn | dispatch hn => simp [hcur] at hn
    | forkFull | fork | forkFail | forkRunnable | waitReap | waitReturn | wakeup =>
      exact Or.inr hcur
    | kill hk₁ => exact Or.inr (by rw [hk₁.cpu]; exact hcur)
    | yield hn =>
      obtain rfl := Option.some.inj (hcur.symm.trans hn)
      exact Or.inl (by simp [yield])
    | exit hn | waitSleep hn | sleep hn =>
      have := hc.leave (by simp [hcur]) (by
        first | exact (sched_cpu_proc _ _ _).trans (if_pos rfl))
      simp at this

/-- The effect of a transition on the stride fields of a member of `S`. -/
theorem Share.stride (h : Share S M s) (hst : step s e = some t)
    (hc : Steady S ⟨s, e, t⟩) (hp : p ∈ S) :
    (t.ptable p).passo = (s.ptable p).passo ∧
      (t.ptable p).passada = if dispatched ⟨s, e, t⟩ = some p
        then (s.ptable p).passada + (s.ptable p).passo else (s.ptable p).passada := by
  obtain ⟨h1, h2⟩ := step_passada hst (h.live hp)
  refine ⟨h1, ?_⟩
  rw [h2]
  by_cases hd : dispatched ⟨s, e, t⟩ = some p
  · have hpos := h.pos p hp
    have hpasso := h.passo_pos p hp
    have hle : (s.ptable p).passada + (s.ptable p).passo ≤ INT_MAX := hc.noWrap p hd
    rw [if_pos hd, if_pos hd, int32_eq (by omega) hle]
  · rw [if_neg hd, if_neg hd]

/-- What is dispatched has the smallest `passada` of `S`. -/
theorem Share.dispatched_min (h : Share S M s) (hst : step s e = some t)
    (hc : Steady S ⟨s, e, t⟩) {p q : Slot} (hd : dispatched ⟨s, e, t⟩ = some p) (hq : q ∈ S) :
    p ∈ S ∧ (s.ptable p).passada ≤ (s.ptable q).passada := by
  obtain ⟨c, rfl, hch⟩ := (dispatched_eq_some hst).mp hd
  have hscan := hc.scan rfl
  have hqr : (s.ptable q).state = .runnable := (hscan q).mpr hq
  have hmin : (s.ptable p).passada ≤ (s.ptable q).passada :=
    scan_min (fun r hr => h.pos r ((hscan r).mp hr)) hch hqr
  have hpr := chosen_runnable hch (Or.inl ⟨q, hqr⟩)
  exact ⟨(hscan p).mp hpr, hmin⟩

/-- **The step.** Moving the smallest `passada` up by at most `M` keeps all within `M`. -/
theorem Share.step (h : Share S M s) (hne : S.Nonempty) (hst : step s e = some t)
    (hc : Steady S ⟨s, e, t⟩) : Share S M t := by
  refine ⟨?_, fun p hp => h.ready_step hst hc hp, fun p hp => ?_, fun p hp => ?_, fun p hp => ?_,
    fun p hp q hq => ?_⟩
  · refine h.inv.step (steps_of_step hst) fun c he => Or.inl ?_
    obtain ⟨p, hp⟩ := hne
    exact ⟨p, (hc.scan he p).mpr hp⟩
  · obtain ⟨-, h2⟩ := h.stride hst hc hp
    have := h.pos p hp
    have := h.passo_pos p hp
    rw [h2]
    split <;> omega
  · rw [(h.stride hst hc hp).1]; exact h.passo_pos p hp
  · rw [(h.stride hst hc hp).1]; exact h.passo_le p hp
  · rw [(h.stride hst hc hp).2, (h.stride hst hc hq).2]
    have hw := abs_le.mp (h.within p hp q hq)
    by_cases hdp : dispatched ⟨s, e, t⟩ = some p
    · by_cases hdq : dispatched ⟨s, e, t⟩ = some q
      · obtain rfl : p = q := Option.some.inj (hdp.symm.trans hdq)
        simpa using h.within p hp p hp
      · have hmin := (h.dispatched_min hst hc hdp hq).2
        have h1 := h.passo_pos p hp
        have h2 := h.passo_le p hp
        rw [if_pos hdp, if_neg hdq, abs_le]
        constructor <;> omega
    · by_cases hdq : dispatched ⟨s, e, t⟩ = some q
      · have hmin := (h.dispatched_min hst hc hdq hp).2
        have h1 := h.passo_pos q hq
        have h2 := h.passo_le q hq
        rw [if_neg hdp, if_pos hdq, abs_le]
        constructor <;> omega
      · rw [if_neg hdp, if_neg hdq, abs_le]
        exact hw

/-! ## The run -/

/-- Two progresses that end as close together as they started are close to each other. -/
theorem abs_progress_le {a a' b b' M : Int} (h : |a - b| ≤ M) (h' : |a' - b'| ≤ M) :
    |(a' - a) - (b' - b)| ≤ 2 * M := by
  rw [abs_le] at *
  constructor <;> omega

/-- **Proportional share.** Take processes `S` with positive `passada`s that differ by at
most `M`, where `M` bounds every `passo` of the set, all `RUNNABLE` with the CPU in the
scheduler. In every run of the steady state of `S` the `passada`s still differ by at most `M`
after every transition, and the dispatch counts of any two processes of `S`, weighted by
their `passo`s, differ by at most `2 * M`. -/
theorem proportional_share (S : Finset Slot) (M : Int) (k : Kernel Unit)
    (tr : List (Trans (Kernel Unit) (Op Unit))) (hinv : Inv k) (hrun : IsRun step k tr)
    (hready : ∀ p ∈ S, (k.ptable p).state = .runnable)
    (hpos : ∀ p ∈ S, 0 < (k.ptable p).passada) (hpasso : ∀ p ∈ S, 0 < (k.ptable p).passo)
    (hM : ∀ p ∈ S, (k.ptable p).passo ≤ M) (hwithin : Within S M k)
    (hsteady : ∀ x ∈ tr, Steady S x) :
    (∀ x ∈ tr, Within S M x.post) ∧
      ∀ p ∈ S, ∀ q ∈ S,
        |(dispatches p tr : Int) * (k.ptable p).passo - dispatches q tr * (k.ptable q).passo|
          ≤ 2 * M := by
  have hshare : Share S M k :=
    ⟨hinv, fun p hp => Or.inl (hready p hp), hpos, hpasso, hM, hwithin⟩
  have hstep : ∀ p ∈ S, ∀ x : Trans (Kernel Unit) (Op Unit), step x.pre x.ev = some x.post →
      Steady S x → Share S M x.pre → Share S M x.post :=
    fun p hp x hx hC hI => hI.step ⟨p, hp⟩ hx hC
  constructor
  · intro x hx p hp q hq
    exact (hrun.invariant hshare (hstep p hp) hsteady x hx).2.within p hp q hq
  · intro p hp q hq
    have hall := hrun.invariant hshare (hstep p hp) hsteady
    -- the progress of a member of `S` is the price of its dispatches
    have hprog : ∀ r ∈ S, ((last k tr).ptable r).passada - (k.ptable r).passada
        = dispatches r tr * (k.ptable r).passo := by
      intro r hr
      have h := (passada_last (p := r) hrun (fun x hx => (hall x hx).1.live hr)
        (fun x hx hd => ⟨?_, (hsteady x hx).noWrap r hd⟩)).2
      · rw [h]; ring
      · have h1 := (hall x hx).1.pos r hr
        have h2 := (hall x hx).1.passo_pos r hr
        omega
    rw [← hprog p hp, ← hprog q hq]
    refine abs_progress_le (hwithin p hp q hq) ?_
    exact (hrun.invariant_last hshare (hstep p hp) hsteady).within p hp q hq

/-- Two processes with 50 and 100 tickets, each dispatched once. -/
def duo : Kernel Unit :=
  { ptable := fun p =>
      if p = 0 then { Proc.zero with state := .runnable, pid := 1, passo := 200, passada := 200 }
      else if p = 1 then
        { Proc.zero with state := .runnable, pid := 2, passo := 100, passada := 100 }
      else Proc.zero,
    nextpid := 3, initproc := firstSlot, cpu := fun _ => ⟨none, none⟩ }

/-- Two rounds of `duo`. -/
def duoRun : List (Trans (Kernel Unit) (Op Unit)) :=
  trace step duo [.scheduler (), .yield (), .scheduler (), .yield ()]

theorem proportional_share_duo :
    duoRun.length = 4 ∧ (∀ x ∈ duoRun, Within {0, 1} 200 x.post) ∧
      |(dispatches 0 duoRun : Int) * 200 - dispatches 1 duoRun * 100| ≤ 2 * 200 := by
  have hnp : ∀ p, (duo.ptable p).np = none := by
    intro p
    simp only [duo, Proc.zero]
    split_ifs <;> rfl
  have hinv : Inv duo := by
    refine ⟨by simp [duo], fun _ _ _ _ _ => rfl, fun p q h => ?_, fun p q j h => ?_⟩ <;>
      simp [hnp] at h
  have hsteady : ∀ x ∈ duoRun, Steady {0, 1} x := by
    have h : ∀ x ∈ duoRun,
        (x.ev = .scheduler () → ∀ p, (x.pre.ptable p).state = .runnable ↔ p ∈ ({0, 1} : Finset Slot))
        ∧ ((x.pre.cpu ()).proc ≠ none → (x.post.cpu ()).proc = none → x.ev = .yield ())
        ∧ ∀ p, dispatched x = some p →
          (x.pre.ptable p).passada + (x.pre.ptable p).passo ≤ INT_MAX := by decide +kernel
    exact fun x hx => ⟨(h x hx).1, (h x hx).2.1, (h x hx).2.2⟩
  obtain ⟨h1, h2⟩ := proportional_share {0, 1} 200 duo duoRun hinv (isRun_trace _ _ _)
    (by decide) (by decide) (by decide) (by decide)
    (by unfold Within; decide) hsteady
  exact ⟨by decide +kernel, h1, h2 0 (by decide) 1 (by decide)⟩

end StrideXv6.Sched
