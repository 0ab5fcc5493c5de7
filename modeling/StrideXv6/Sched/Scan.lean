import StrideXv6.Sched.Table

set_option autoImplicit false

/-! # What the scan of `scheduler()` finds

The scan keeps the smallest `passada` seen so far in `min` and uses `min == 0` as "nothing
found yet". Three facts describe it.

* With no `RUNNABLE` process it leaves `min_proc` as it was (`scan_of_none_runnable`).
* With one, it ends on a `RUNNABLE` process (`scan_runnable`).
* If moreover every `RUNNABLE` process has a positive `passada`, the sentinel is never
  mistaken for a value and the scan ends on a minimum (`scan_min`).

In general the value 0 of a process is forgotten as soon as another `RUNNABLE` process follows
(`scanOn_eq_zero_iff`), which gives the exact condition for a minimum (`scan_least_iff`).
-/

namespace StrideXv6.Sched

variable {t : Slot → Proc} {minProc : Option Slot}

/-- The scan over the slots of `l` only. -/
def scanOn (t : Slot → Proc) (minProc : Option Slot) (l : List Slot) : Int × Option Slot :=
  l.foldl (scanBody t) (0, minProc)

variable (l : List Slot)

theorem scanOn_snoc (p : Slot) :
    scanOn t minProc (l ++ [p]) = scanBody t (scanOn t minProc l) p := by
  simp [scanOn, List.foldl_append]

theorem scanOn_of_none_runnable (h : ∀ p ∈ l, (t p).state ≠ .runnable) :
    scanOn t minProc l = (0, minProc) := by
  induction l using List.reverseRecOn with
  | nil => rfl
  | append_singleton l p ih =>
    have hp : (t p).state ≠ .runnable := h p (by simp)
    rw [scanOn_snoc, ih (fun q hq => h q (by simp [hq])), scanBody, if_neg (fun hc => hp hc.1)]

/-- What the scan over `l` has found, when `l` has a `RUNNABLE` slot: a `RUNNABLE` slot of
`l`, with its `passada` in `min`. -/
theorem scanOn_runnable (minProc : Option Slot) (l : List Slot)
    (h : ∃ p ∈ l, (t p).state = .runnable) :
    ∃ q ∈ l, (t q).state = .runnable ∧ scanOn t minProc l = ((t q).passada, some q) := by
  induction l using List.reverseRecOn with
  | nil => simp at h
  | append_singleton l p ih =>
    rw [scanOn_snoc]
    by_cases hl : ∃ q ∈ l, (t q).state = .runnable
    · obtain ⟨q, hq, hqs, hscan⟩ := ih hl
      rw [hscan, scanBody]
      by_cases hp : (t p).state = .runnable ∧ ((t p).passada ≤ (t q).passada ∨ (t q).passada = 0)
      · exact ⟨p, by simp, hp.1, by rw [if_pos hp]⟩
      · exact ⟨q, by simp [hq], hqs, by rw [if_neg hp]⟩
    · have hp : (t p).state = .runnable := by
        obtain ⟨q, hq, hqs⟩ := h
        rcases List.mem_append.mp hq with hq | hq
        · exact absurd ⟨q, hq, hqs⟩ hl
        · rwa [List.mem_singleton.mp hq] at hqs
      rw [scanOn_of_none_runnable l (fun q hq hqs => hl ⟨q, hq, hqs⟩), scanBody,
        if_pos ⟨hp, Or.inr rfl⟩]
      exact ⟨p, by simp, hp, rfl⟩

/-- With positive `passada`s only, what the scan has found is minimal. -/
theorem scanOn_min (hpos : ∀ p ∈ l, (t p).state = .runnable → 0 < (t p).passada)
    {q : Slot} (hq : (scanOn t minProc l).2 = some q) {p : Slot} (hp : p ∈ l)
    (hps : (t p).state = .runnable) : (t q).passada ≤ (t p).passada := by
  induction l using List.reverseRecOn generalizing p q with
  | nil => simp at hp
  | append_singleton l a ih =>
    have hpos' : ∀ p ∈ l, (t p).state = .runnable → 0 < (t p).passada :=
      fun p hp => hpos p (by simp [hp])
    rw [scanOn_snoc, scanBody] at hq
    by_cases hl : ∃ q ∈ l, (t q).state = .runnable
    · obtain ⟨b, hb, hbs, hscan⟩ := scanOn_runnable minProc l hl
      have hbpos := hpos' b hb hbs
      have hmin : ∀ p ∈ l, (t p).state = .runnable → (t b).passada ≤ (t p).passada :=
        fun p hp hps => ih hpos' (by rw [hscan]) hp hps
      rw [hscan] at hq
      split at hq
      · -- `a` replaces the slot found so far
        rename_i hc
        obtain rfl : a = q := by simpa using hq
        have hab : (t a).passada ≤ (t b).passada := by
          rcases hc.2 with h | h
          · exact h
          · exact absurd h (by omega)
        rcases List.mem_append.mp hp with hp | hp
        · exact le_trans hab (hmin p hp hps)
        · rw [List.mem_singleton.mp hp]
      · -- `a` is not `RUNNABLE`, or its `passada` is larger
        rename_i hc
        obtain rfl : b = q := by simpa using hq
        rcases List.mem_append.mp hp with hp | hp
        · exact hmin p hp hps
        · obtain rfl := List.mem_singleton.mp hp
          by_contra hlt
          exact hc ⟨hps, Or.inl (by simp only; omega)⟩
    · have hpa : p = a := by
        rcases List.mem_append.mp hp with hp | hp
        · exact absurd ⟨p, hp, hps⟩ hl
        · exact List.mem_singleton.mp hp
      subst hpa
      rw [scanOn_of_none_runnable l (fun q hq hqs => hl ⟨q, hq, hqs⟩),
        if_pos ⟨hps, Or.inr rfl⟩] at hq
      obtain rfl : p = q := by simpa using hq
      exact le_refl _

/-- The last `RUNNABLE` slot of `l`. -/
def lastRunnable (t : Slot → Proc) (l : List Slot) : Option Slot :=
  l.reverse.find? fun p => decide ((t p).state = .runnable)

theorem lastRunnable_snoc (p : Slot) :
    lastRunnable t (l ++ [p])
      = if (t p).state = .runnable then some p else lastRunnable t l := by
  simp only [lastRunnable, List.reverse_append, List.reverse_singleton, List.singleton_append,
    List.find?_cons]
  by_cases hp : (t p).state = .runnable
  · simp [hp]
  · simp [hp]

theorem lastRunnable_eq_some_iff {p : Slot} (hl : l.Pairwise (· < ·)) :
    lastRunnable t l = some p ↔
      (p ∈ l ∧ (t p).state = .runnable) ∧ ∀ r ∈ l, p < r → (t r).state ≠ .runnable := by
  induction l using List.reverseRecOn with
  | nil => simp [lastRunnable]
  | append_singleton l a ih =>
    rw [List.pairwise_append] at hl
    obtain ⟨hsorted, -, hlt⟩ := hl
    have hla : ∀ r ∈ l, r < a := fun r hr => hlt r hr a (by simp)
    rw [lastRunnable_snoc]
    by_cases ha : (t a).state = .runnable
    · rw [if_pos ha, Option.some.injEq]
      constructor
      · rintro rfl
        refine ⟨⟨by simp, ha⟩, fun r hr har => absurd har (not_lt_of_ge ?_)⟩
        rcases List.mem_append.mp hr with hr | hr
        · exact (hla r hr).le
        · exact (List.mem_singleton.mp hr).le
      · rintro ⟨⟨hp, -⟩, hlast⟩
        rcases List.mem_append.mp hp with hp | hp
        · exact absurd ha (hlast a (by simp) (hla p hp))
        · exact (List.mem_singleton.mp hp).symm
    · rw [if_neg ha, ih hsorted]
      grind

theorem scanOn_nonneg (minProc : Option Slot) (l : List Slot)
    (h : ∀ p ∈ l, (t p).state = .runnable → 0 ≤ (t p).passada) :
    0 ≤ (scanOn t minProc l).1 := by
  by_cases hl : ∃ p ∈ l, (t p).state = .runnable
  · obtain ⟨q, hq, hqs, hscan⟩ := scanOn_runnable minProc l hl
    rw [hscan]
    exact h q hq hqs
  · rw [scanOn_of_none_runnable l (fun q hq hqs => hl ⟨q, hq, hqs⟩)]

/-- The scan holds the value 0 only right after a process that has it. -/
theorem scanOn_eq_zero_iff (minProc : Option Slot) (l : List Slot)
    (h : ∀ p ∈ l, (t p).state = .runnable → 0 ≤ (t p).passada) :
    (scanOn t minProc l).1 = 0 ↔ ∀ p, lastRunnable t l = some p → (t p).passada = 0 := by
  induction l using List.reverseRecOn with
  | nil => simp [scanOn, lastRunnable]
  | append_singleton l a ih =>
    have hl : ∀ p ∈ l, (t p).state = .runnable → 0 ≤ (t p).passada :=
      fun p hp => h p (by simp [hp])
    have hmin := scanOn_nonneg minProc l hl
    rw [scanOn_snoc, scanBody, lastRunnable_snoc]
    by_cases ha : (t a).state = .runnable
    · have ha0 := h a (by simp) ha
      simp only [ha, true_and, if_true, Option.some.injEq, forall_eq']
      split
      · exact Iff.rfl
      · rename_i hc
        rw [not_or] at hc
        omega
    · simp only [ha, false_and, if_false]
      exact ih hl

/-! ## The whole table -/

theorem scan_of_none_runnable (h : ∀ p, (t p).state ≠ .runnable) :
    (scan t minProc).2 = minProc := by
  rw [show scan t minProc = (0, minProc) from scanOn_of_none_runnable _ (fun p _ => h p)]

theorem scan_runnable (minProc : Option Slot) {p : Slot} (hp : (t p).state = .runnable) :
    ∃ q, (t q).state = .runnable ∧ (scan t minProc).2 = some q := by
  obtain ⟨q, -, hqs, hscan⟩ :=
    scanOn_runnable minProc (List.finRange NPROC) ⟨p, List.mem_finRange p, hp⟩
  exact ⟨q, hqs, by rw [show scan t minProc = _ from hscan]⟩

theorem scan_min (hpos : ∀ p, (t p).state = .runnable → 0 < (t p).passada) {p q : Slot}
    (hq : (scan t minProc).2 = some q) (hp : (t p).state = .runnable) :
    (t q).passada ≤ (t p).passada :=
  scanOn_min (List.finRange NPROC) (fun p _ => hpos p) hq (List.mem_finRange p) hp

theorem lastRunnable_finRange {p : Slot} :
    lastRunnable t (List.finRange NPROC) = some p ↔
      (t p).state = .runnable ∧ ∀ r, p < r → (t r).state ≠ .runnable := by
  rw [lastRunnable_eq_some_iff _ (List.pairwise_lt_finRange NPROC)]
  simp

/-- **When the scan ends on a minimum.** For a table with non-negative `passada`s that has a
`RUNNABLE` process, the scan ends on a `RUNNABLE` process with the smallest `passada` of all of them
if and only if no `RUNNABLE` process has a `passada` of 0, or the last one of the table has. -/
theorem scan_least_iff (minProc : Option Slot)
    (hnonneg : ∀ p, (t p).state = .runnable → 0 ≤ (t p).passada)
    (hex : ∃ p, (t p).state = .runnable) :
    (∃ q, (scan t minProc).2 = some q ∧ (t q).state = .runnable ∧
        ∀ p, (t p).state = .runnable → (t q).passada ≤ (t p).passada) ↔
      ((∃ z, (t z).state = .runnable ∧ (t z).passada = 0) →
        ∀ l, (t l).state = .runnable → (∀ r, l < r → (t r).state ≠ .runnable) →
          (t l).passada = 0) := by
  obtain ⟨p₀, hp₀⟩ := hex
  obtain ⟨q, -, hqs, hscan⟩ :=
    scanOn_runnable minProc (List.finRange NPROC) ⟨p₀, List.mem_finRange p₀, hp₀⟩
  have hres : scan t minProc = ((t q).passada, some q) := hscan
  have hzero := scanOn_eq_zero_iff minProc (List.finRange NPROC) fun p _ => hnonneg p
  rw [hscan] at hzero
  constructor
  · rintro ⟨q', hq', -, hmin⟩ ⟨z, hzs, hz0⟩
    obtain rfl : q = q' := by simpa [hres] using hq'
    have hq0 : (t q).passada = 0 := le_antisymm (hz0 ▸ hmin z hzs) (hnonneg q hqs)
    exact fun l hl hlast => hzero.mp hq0 l (lastRunnable_finRange.mpr ⟨hl, hlast⟩)
  · intro hcond
    refine ⟨q, by rw [hres], hqs, fun p hp => ?_⟩
    by_cases hz : ∃ z, (t z).state = .runnable ∧ (t z).passada = 0
    · have hq0 := hzero.mpr fun l hl => by
        obtain ⟨hls, hlast⟩ := lastRunnable_finRange.mp hl
        exact hcond hz l hls hlast
      have hq0' : (t q).passada = 0 := hq0
      rw [hq0']
      exact hnonneg p hp
    · have hq : (scan t minProc).2 = some q := by rw [hres]
      refine scan_min (fun r hr => ?_) hq hp
      exact lt_of_le_of_ne (hnonneg r hr) fun h0 => hz ⟨r, hr, h0.symm⟩

/-- A table with two `RUNNABLE` processes, in its first two slots. -/
def twoRunnable (a b : Int) : Slot → Proc := fun p =>
  if p.val = 0 then { Proc.zero with state := .runnable, passada := a }
  else if p.val = 1 then { Proc.zero with state := .runnable, passada := b }
  else Proc.zero

theorem scan_least_twoRunnable :
    ∃ q, (scan (twoRunnable 400 200) none).2 = some q ∧
      (twoRunnable 400 200 q).state = .runnable ∧
      ∀ p, (twoRunnable 400 200 p).state = .runnable →
        (twoRunnable 400 200 q).passada ≤ (twoRunnable 400 200 p).passada :=
  (scan_least_iff none (by decide +kernel) ⟨⟨0, by decide⟩, by decide +kernel⟩).mpr (by decide +kernel)

/-- A process that has never run comes first, one that has been charged once comes second: the scan
ends on the second. -/
theorem scan_twoRunnable_not_least :
    (∀ p, (twoRunnable 0 200 p).state = .runnable → 0 ≤ (twoRunnable 0 200 p).passada) ∧
      (twoRunnable 0 200 ⟨0, by decide⟩).state = .runnable ∧
      (scan (twoRunnable 0 200) none).2 = some ⟨1, by decide⟩ ∧
      (twoRunnable 0 200 ⟨0, by decide⟩).passada < (twoRunnable 0 200 ⟨1, by decide⟩).passada := by
  decide +kernel

/-- A slot the scan ends on is `RUNNABLE`, or it is the one `min_proc` already held and
nothing is `RUNNABLE`. -/
theorem scan_cases {q : Slot} (hq : (scan t minProc).2 = some q) :
    (t q).state = .runnable ∨ (minProc = some q ∧ ∀ p, (t p).state ≠ .runnable) := by
  by_cases h : ∃ p, (t p).state = .runnable
  · obtain ⟨p, hp⟩ := h
    obtain ⟨r, hr, hscan⟩ := scan_runnable minProc hp
    obtain rfl : r = q := by simpa [hscan] using hq
    exact Or.inl hr
  · have hn : ∀ p, (t p).state ≠ .runnable := fun p hp => h ⟨p, hp⟩
    exact Or.inr ⟨by rwa [scan_of_none_runnable hn] at hq, hn⟩

end StrideXv6.Sched
