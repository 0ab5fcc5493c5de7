import StrideXv6.Sched.Stride

set_option autoImplicit false

/-! # How far a newcomer or a sleeper can lag behind

`allocproc` starts a process at `passada` `0` and `wakeup1` leaves a sleeper's `passada` as it
was, so two `RUNNABLE` processes can be any distance apart (`lag_exceeds_400`). What is
bounded is the price of the lag: while a process `q` stays `RUNNABLE`, a process `p` that is
behind it is dispatched only until it has caught up (`dispatches_until_caught_up`), that is
at most `(passada q - passada p) / passo p + 1` times.
-/

namespace StrideXv6.Sched

open Runs

variable {ι : Type} [DecidableEq ι] {k k' : Kernel ι}

/-- The `passada`s of any two `RUNNABLE` processes differ by at most `400`. -/
def LagBounded (k : Kernel ι) : Prop :=
  ∀ p q, (k.ptable p).state = .runnable → (k.ptable q).state = .runnable →
    (k.ptable p).passada - (k.ptable q).passada ≤ 400

/-- `init` runs three times before its first `fork`. -/
def lateFork : List (Op Unit) :=
  [.scheduler (), .yield (), .scheduler (), .yield (), .scheduler (), .fork () 50,
    .forkRunnable (), .yield ()]

/-- After its third dispatch `init` is at `600` when its child starts at `0`. -/
theorem lag_exceeds_400 :
    ¬ ∀ tr : List (Trans (Kernel Unit) (Op Unit)), IsRun step (boot fun _ => none) tr →
      LagBounded (last (boot fun _ => none) tr) := by
  intro h
  have hsome : (exec step (boot fun _ => none) lateFork).isSome = true := by decide
  obtain ⟨k, hk⟩ := Option.isSome_iff_exists.mp hsome
  obtain ⟨tr, hrun, hlast, -⟩ := isRun_of_exec hk
  have hk0 : (exec step (boot fun _ => none) lateFork).map
      (fun k => ((k.ptable 0).state, (k.ptable 0).passada, (k.ptable 1).state,
        (k.ptable 1).passada)) = some (.runnable, 600, .runnable, 0) := by decide
  rw [hk] at hk0
  simp only [Option.map_some, Option.some.injEq, Prod.mk.injEq] at hk0
  obtain ⟨h1, h2, h3, h4⟩ := hk0
  have hle := h tr hrun 0 1 (by rw [hlast]; exact h1) (by rw [hlast]; exact h3)
  rw [hlast, h2, h4] at hle
  omega

/-! ## The range of `passo` in every reachable state

With every `min_proc` null at the start, a `min_proc` only ever points to slots that have
been filled in, so that not even a stale one spoils `Filled`. -/

theorem Steps.minProc {e : Op ι} (hs : Steps k e k') {d : ι} {q : Slot}
    (hd : (k'.cpu d).minProc = some q) :
    (k.cpu d).minProc = some q ∨ (e = .scheduler d ∧ chosen k d = some q) := by
  cases hs with
  | @dispatch c p hc hch =>
    by_cases hdc : d = c
    · subst hdc
      obtain rfl : p = q := by simpa using hd
      exact Or.inr ⟨rfl, hch⟩
    · exact Or.inl (by simpa [hdc] using hd)
  | exit hc hnp hk₁ =>
    rw [sched_cpu_minProc, setProc_cpu, hk₁.cpu] at hd
    exact Or.inl hd
  | waitSleep | sleep | yield => exact Or.inl ((sched_cpu_minProc _ _ _).symm.trans hd)
  | kill hk₁ => exact Or.inl (hk₁.cpu ▸ hd)
  | idle | forkFull | fork | forkFail | forkRunnable | waitReap | waitReturn | wakeup =>
    exact Or.inl hd

/-- `Filled`, and every `min_proc` points to a slot that has been filled in. -/
structure MinFilled (k : Kernel ι) : Prop extends Filled k where
  minProc : ∀ c p, (k.cpu c).minProc = some p → (k.ptable p).passo ≠ 0

theorem MinFilled.step {e : Op ι} (h : MinFilled k) (hs : Steps k e k') : MinFilled k' := by
  have hch : ∀ c p, chosen k c = some p → (k.ptable p).passo ≠ 0 := by
    intro c p hch
    rcases scan_cases hch with hp | ⟨hm, -⟩
    · exact h.live p (by simp [hp])
    · exact h.minProc c p hm
  refine ⟨h.toFilled.step hs (fun c p _ => hch c p), fun c p hc => ?_⟩
  rcases hs.minProc hc with h' | ⟨-, h'⟩
  · exact hs.passo_ne (h.minProc c p h')
  · exact hs.passo_ne (hch c p h')

/-- Every process of a reachable state has a `passo` of at least `5`. -/
theorem five_le_passo {tr : List (Trans (Kernel ι) (Op ι))}
    (hrun : IsRun step (boot fun _ => none) tr) {p : Slot}
    (hp : ((last (boot fun _ => none) tr).ptable p).state ≠ .unused) :
    5 ≤ ((last (boot fun _ => none) tr).ptable p).passo := by
  have h0 : MinFilled (boot fun _ : ι => none) :=
    ⟨(ledger_boot _).toFilled, fun c p hc => by simp [boot] at hc⟩
  have h := hrun.invariant_last (I := MinFilled) (C := fun _ => True) h0
    (fun x hx _ hI => hI.step (steps_of_step hx)) (fun _ _ => trivial)
  rcases h.range p with h1 | h1
  · exact absurd h1 (h.live p hp)
  · exact h1.1

/-! ## The bound -/

omit [DecidableEq ι] in
/-- While `q` is `RUNNABLE`, and no `RUNNABLE` process but perhaps `p` is still at `0`, a
dispatch of `p` means that `p` has not passed `q`. -/
theorem chosen_le {c : ι} {p q : Slot} (hch : chosen k c = some p)
    (hq : (k.ptable q).state = .runnable)
    (hpos : ∀ r, r ≠ p → (k.ptable r).state = .runnable → 0 < (k.ptable r).passada) :
    (k.ptable p).passada ≤ (k.ptable q).passada := by
  by_cases hpq : q = p
  · rw [hpq]
  · have hqpos := hpos q hpq hq
    by_cases hp : 0 < (k.ptable p).passada
    · refine scan_min (fun r hr => ?_) hch hq
      by_cases hrp : r = p
      · rwa [hrp]
      · exact hpos r hrp hr
    · omega

/-- The conditions under which the price of a lag is counted: `q` waits, `p`'s slot stays in
use, no `RUNNABLE` process other than `p` is at `passada` `0` when the scheduler looks, and
the charges of `p` stay within an `int`. -/
structure CatchingUp (p q : Slot) (x : Trans (Kernel ι) (Op ι)) : Prop where
  waits : (x.pre.ptable q).state = .runnable
  live : (x.pre.ptable p).state ≠ .unused
  pos : ∀ c, x.ev = .scheduler c → ∀ r, r ≠ p → (x.pre.ptable r).state = .runnable →
    0 < (x.pre.ptable r).passada
  noWrap : dispatched x = some p →
    0 ≤ (x.pre.ptable p).passada + (x.pre.ptable p).passo ∧
      (x.pre.ptable p).passada + (x.pre.ptable p).passo ≤ INT_MAX

/-- A process that is found `RUNNABLE` after a step was not dispatched by it. -/
theorem not_dispatched {e : Op ι} {q : Slot} (hst : step k e = some k')
    (hq : (k'.ptable q).state = .runnable) : dispatched ⟨k, e, k'⟩ ≠ some q := by
  intro hd
  obtain ⟨c, rfl, hch⟩ := (dispatched_eq_some hst).mp hd
  cases steps_of_step hst with
  | idle hc hch' => simp [hch'] at hch
  | dispatch hc hch' =>
    obtain rfl := Option.some.inj (hch'.symm.trans hch)
    simp [Proc.dispatch] at hq

/-- The price of the dispatches of `p` while `q` waits, the last one apart, is at most the
lag. The induction is on the run: a dispatch of `p` takes its `passo` off the lag. -/
theorem lag_price {s : Kernel ι} {tr : List (Trans (Kernel ι) (Op ι))} {p q : Slot}
    (hrun : IsRun step s tr) (hx : ∀ x ∈ tr, CatchingUp p q x) :
    dispatches p tr = 0 ∨
      ((dispatches p tr : Int) - 1) * (s.ptable p).passo
        ≤ (s.ptable q).passada - (s.ptable p).passada := by
  induction hrun with
  | nil s => exact Or.inl rfl
  | @cons s t e tr hst hrun ih =>
    have hc := hx ⟨s, e, t⟩ (by simp)
    obtain ⟨hp1, hp2⟩ := step_passada hst hc.live
    -- what is left of the lag, when `p` is dispatched again later
    have ih : dispatches p tr = 0 ∨ ((dispatches p tr : Int) - 1) * (s.ptable p).passo
        ≤ (s.ptable q).passada - (t.ptable p).passada := by
      cases hrun with
      | nil t => exact Or.inl rfl
      | cons hst' hr' =>
        have hq := (hx _ (List.mem_cons_of_mem _ List.mem_cons_self)).waits
        have hlive : (s.ptable q).state ≠ .unused := by rw [hc.waits]; decide
        obtain ⟨-, hq2⟩ := step_passada hst hlive
        rw [if_neg (not_dispatched hst hq)] at hq2
        have := ih fun x hx' => hx x (List.mem_cons_of_mem _ hx')
        rwa [hp1, hq2] at this
    by_cases hp : dispatched ⟨s, e, t⟩ = some p
    · obtain ⟨h0, hle⟩ := hc.noWrap hp
      rw [if_pos hp, int32_eq h0 hle] at hp2
      obtain ⟨c, rfl, hch⟩ := (dispatched_eq_some hst).mp hp
      have hlag := chosen_le hch hc.waits (hc.pos c rfl)
      rw [dispatches_cons_of_pos hp]
      right
      push_cast
      rcases ih with ih | ih
      · simpa [ih] using hlag
      · linarith
    · rw [if_neg hp] at hp2
      rwa [dispatches_cons_of_neg hp, ← hp2]

/-- **A lag is paid off at the price of one `passo` a dispatch.** In every reachable state a
process has a `passo` of at least `5`; so while `q` waits, `p` is dispatched at most once
more than its `passo` goes into the distance to `q`, whatever the rest of the system does. -/
theorem dispatches_until_caught_up (tr₀ tr : List (Trans (Kernel ι) (Op ι))) (p q : Slot)
    (hrun₀ : IsRun step (boot fun _ => none) tr₀)
    (hrun : IsRun step (last (boot fun _ => none) tr₀) tr)
    (hp : ((last (boot fun _ => none) tr₀).ptable p).state ≠ .unused)
    (hx : ∀ x ∈ tr, CatchingUp p q x) :
    5 ≤ ((last (boot fun _ => none) tr₀).ptable p).passo ∧
      (dispatches p tr = 0 ∨
        ((dispatches p tr : Int) - 1) * ((last (boot fun _ => none) tr₀).ptable p).passo
          ≤ ((last (boot fun _ => none) tr₀).ptable q).passada
            - ((last (boot fun _ => none) tr₀).ptable p).passada) :=
  ⟨five_le_passo hrun₀ hp, lag_price hrun hx⟩

/-- After `lateFork` the child is dispatched until it is level with `init`. -/
def catchUp : List (Trans (Kernel Unit) (Op Unit)) :=
  trace step (last (boot fun _ => none) (trace step (boot fun _ => none) lateFork))
    [.scheduler (), .yield (), .scheduler (), .yield (), .scheduler (), .yield (), .scheduler ()]

/-- The child of `lateFork` is `600` behind `init`: it is dispatched four times. -/
theorem dispatches_until_caught_up_child :
    dispatches 1 catchUp = 4 ∧ 5 ≤ (200 : Int) ∧
      (dispatches 1 catchUp = 0 ∨ ((dispatches 1 catchUp : Int) - 1) * 200 ≤ 600 - 0) := by
  have hx : ∀ x ∈ catchUp, CatchingUp 1 0 x := by
    have h : ∀ x ∈ catchUp, (x.pre.ptable 0).state = .runnable ∧ (x.pre.ptable 1).state ≠ .unused
        ∧ (∀ c, x.ev = .scheduler c → ∀ r, r ≠ 1 → (x.pre.ptable r).state = .runnable →
          0 < (x.pre.ptable r).passada)
        ∧ (dispatched x = some 1 → 0 ≤ (x.pre.ptable 1).passada + (x.pre.ptable 1).passo ∧
          (x.pre.ptable 1).passada + (x.pre.ptable 1).passo ≤ INT_MAX) := by decide +kernel
    exact fun x hx => ⟨(h x hx).1, (h x hx).2.1, (h x hx).2.2.1, (h x hx).2.2.2⟩
  exact ⟨by decide +kernel, dispatches_until_caught_up (trace step (boot fun _ => none) lateFork)
    catchUp 1 0 (isRun_trace _ _ _) (isRun_trace _ _ _) (by decide +kernel) hx⟩

end StrideXv6.Sched
