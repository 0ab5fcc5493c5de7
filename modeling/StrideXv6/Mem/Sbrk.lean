import StrideXv6.Mem.Grow

set_option autoImplicit false

/-! # When growproc is all or nothing

`growproc(n)` should either succeed with the size `sz + n` or fail with nothing changed. There are
three ways in which it does not.

* The new size 0 is taken for the error value of `deallocuvm`: with `n = -sz` all pages are freed,
  and -1 is returned.
* `sz + n` is computed as an unsigned number: with `n < -sz` it wraps around, `deallocuvm` does
  nothing and returns the old size, and 0 is returned.
* `allocuvm` ignores the result of `mappages` (see `Grow`): a page for which there was no table is
  missing. If a later page cannot be allocated, `deallocuvm` may even skip pages that have been
  mapped, which then stay (`Reached` says when it does not).

`growproc_atomic_iff` shows that there are no others.
-/

namespace StrideXv6.Mem

open Hoare

variable {img : Image} {m m' m₁ : Memory} {d : Page} {a b v : Nat} {oks : List Bool}

/-! ## Pages that deallocuvm skips -/

/-- `deallocuvm` comes to every page that the loop of `allocuvm` has mapped from `a` on: it lies
behind `a` in its row, or there is a page mapped in a row before. -/
def Reached (a : Nat) (oks : List Bool) : Prop :=
  ∀ k, oks[k]? = some true →
    ptx a ≤ ptx (a + k) ∨ ∃ k' < k, pdx (a + k') < pdx (a + k) ∧ oks[k']? = some true

/-- The course never misses a table that exists. -/
theorem course_has (has : Present) (fails : List Bool) (free n v k : Nat)
    (h : has (pdx (v + k)) = true) : (course has fails free n v).tables[k]? ≠ some false := by
  induction n generalizing has fails free v k with
  | zero => simp [course]
  | succ n ih =>
    have hstep : ∀ (has' : Present) (fails' : List Bool) (free' : Nat) (b : Bool),
        has' (pdx (v + k)) = true → (b = false → k ≠ 0) →
        ((course has' fails' free' n (v + 1)).cons b).tables[k]? ≠ some false := by
      intro has' fails' free' b hhas hb
      cases k with
      | zero =>
        cases b with
        | false => exact absurd rfl (hb rfl)
        | true => simp [Course.cons]
      | succ k =>
        rw [Course.cons, List.getElem?_cons_succ]
        exact ih has' fails' free' (v + 1) k (by rwa [Nat.add_right_comm, Nat.add_assoc])
    rw [course]
    split_ifs with h1 h2 h3
    · simp
    · exact hstep _ _ _ true h fun hf => absurd hf (by decide)
    · refine hstep _ _ _ false h fun _ hk => h2 ?_
      rwa [hk] at h
    · refine hstep _ _ _ true ?_ fun hf => absurd hf (by decide)
      rw [mark, Function.update_apply]
      split
      · rfl
      · exact h

theorem Grown.skipped_iff (h : Grown d a m oks m₁) (hb : a + oks.length ≤ 0x80000)
    (hhas : ∀ k, hasTable d m (pdx (a + k)) = true → oks[k]? ≠ some false) {k : Nat}
    (hk : oks[k]? = some true) :
    Skipped m₁.pt d a (a + k) ↔
      ¬ (ptx a ≤ ptx (a + k) ∨ ∃ k' < k, pdx (a + k') < pdx (a + k) ∧ oks[k']? = some true) := by
  have hklen := (List.getElem?_eq_some_iff.mp hk).1
  rw [not_or, Nat.not_le, not_exists]
  constructor
  · rintro ⟨hlt, hrow, hnone⟩
    refine ⟨hlt, fun k' => ?_⟩
    rintro ⟨hk', hrow', htrue⟩
    have hle : pdx a ≤ pdx (a + k') := by
      simp only [pdx] at *
      omega
    have hsome := (h.dir (pdx (a + k'))).mpr (.inr ⟨k', htrue, rfl⟩)
    rw [hnone _ hrow' hle] at hsome
    cases hsome
  · rintro ⟨hlt, hbefore⟩
    refine ⟨hlt, ?_, fun i hi hai => ?_⟩
    · simp only [pdx, ptx] at *
      omega
    · by_contra hne
      rcases (h.dir i).mp (Option.isSome_iff_ne_none.mpr hne) with hold | ⟨k', hk', hrow⟩
      · -- a page of row `i` that the loop came to
        obtain ⟨k', hk'k, hrow⟩ : ∃ k' < k, pdx (a + k') = i := by
          refine ⟨max a (i * NPTENTRIES) - a, ?_, ?_⟩
          · simp only [pdx, NPTENTRIES] at *
            omega
          · simp only [pdx, NPTENTRIES] at *
            omega
        cases hget : oks[k']? with
        | none => rw [List.getElem?_eq_none_iff] at hget; omega
        | some c =>
          cases c with
          | true => exact hbefore k' ⟨hk'k, by rw [hrow]; exact hi, hget⟩
          | false => exact hhas k' (by rw [hrow]; exact hold) hget
      · refine hbefore k' ⟨?_, by rw [hrow]; exact hi, hk'⟩
        have := (List.getElem?_eq_some_iff.mp hk').1
        simp only [pdx] at *
        omega

/-! ## growproc -/

/-- Exactly the pages of `[0, sz)` are mapped in the user part. -/
def Covers (d : Page) (sz : Nat) (m : Memory) : Prop :=
  ∀ v < 0x80000, (entryAt m.pt d v).isSome = true ↔ v < pgroundup sz

/-- The user part is mapped as before. -/
def SameUser (d : Page) (m m' : Memory) : Prop :=
  ∀ v < 0x80000, entryAt m'.pt d v = entryAt m.pt d v

/-- `growproc` succeeds with the size `sz + n` and the pages for it, or fails and changes nothing. -/
def Atomic (img : Image) (p : Proc) (n : Int) (m : Memory) : Prop :=
  ∃ r m', growproc img p n m = .ok (r, m') ∧
    ((∃ sz, r = some sz ∧ (sz : Int) = p.sz + n ∧ Covers p.pgdir sz m') ∨
      (r = none ∧ SameUser p.pgdir m m'))

section Growproc

variable {p : Proc} {n : Int}

theorem Covers.none (h : Covers d v m) {u : Nat} (hu : pgroundup v ≤ u) (hlt : u < 0x80000) :
    entryAt m.pt d u = none := by
  have := (h u hlt).not.mpr (by omega)
  simpa using this

/-- A result that is given decides whether the call is all or nothing. -/
theorem atomic_iff_of_run {r : Option Nat} (hrun : growproc img p n m = .ok (r, m')) :
    Atomic img p n m ↔
      (∃ sz, r = some sz ∧ (sz : Int) = p.sz + n ∧ Covers p.pgdir sz m') ∨
        (r = none ∧ SameUser p.pgdir m m') := by
  constructor
  · rintro ⟨r', m'', heq, h⟩
    rw [hrun] at heq
    cases heq
    exact h
  · exact fun h => ⟨r, m', hrun, h⟩

theorem growproc_pos {r : Nat} (hn : 0 < n)
    (hrun : allocuvm img p.pgdir p.sz (p.sz + n.toNat) m = .ok (r, m')) :
    growproc img p n m = .ok (if r = 0 then none else some r, m') := by
  rw [growproc, if_pos hn, run_bind hrun]
  rfl

theorem growproc_neg {r : Nat} (hn : n < 0)
    (hrun : deallocuvm img p.pgdir p.sz ((p.sz + n) % 2 ^ 32).toNat m = .ok (r, m')) :
    growproc img p n m = .ok (if r = 0 then none else some r, m') := by
  rw [growproc, if_neg (by omega), if_pos hn, run_bind hrun]
  rfl

/-- Growing. -/
theorem atomic_grow_iff (hs : Sound img p.pgdir m) (hcov : Covers p.pgdir p.sz m) (hn : 0 < n)
    (hlt : p.sz + n.toNat < KERNBASE) :
    Atomic img p n m ↔
      false ∉ (allocCourse p.pgdir m p.sz (p.sz + n.toNat)).tables ∨
        ((allocCourse p.pgdir m p.sz (p.sz + n.toNat)).stopped = true ∧
          Reached (pgroundup p.sz) (allocCourse p.pgdir m p.sz (p.sz + n.toNat)).tables) := by
  obtain ⟨sz', hsz'⟩ : ∃ sz', sz' = p.sz + n.toNat := ⟨_, rfl⟩
  rw [← hsz'] at hlt ⊢
  have hb : pgroundup sz' ≤ 0x80000 := by
    simp only [pgroundup, PGSIZE, KERNBASE] at *
    omega
  have hmono : pgroundup p.sz ≤ pgroundup sz' := Nat.div_le_div_right (by omega)
  have hnone : ∀ u, pgroundup p.sz ≤ u → u < pgroundup sz' → entryAt m.pt p.pgdir u = none :=
    fun u hu hub => hcov.none hu (by omega)
  have hlen : pgroundup p.sz + (allocCourse p.pgdir m p.sz sz').tables.length ≤ pgroundup sz' := by
    have : (allocCourse p.pgdir m p.sz sz').tables.length ≤ _ := course_length_le ..
    omega
  obtain ⟨m₁, hgrown, hrun⟩ := allocuvm_run hs (show p.sz ≤ sz' by omega) hlt hnone
  cases hst : (allocCourse p.pgdir m p.sz sz').stopped with
  | true =>
    rw [hst, if_pos rfl] at hrun
    obtain ⟨m₂, hrun, hun⟩ := hrun
    rw [atomic_iff_of_run (growproc_pos hn (by rw [← hsz']; exact hrun)), if_pos rfl]
    have hskip : ∀ k, (allocCourse p.pgdir m p.sz sz').tables[k]? = some true → _ :=
      fun k hk => hgrown.skipped_iff (by omega)
        (fun k hhas => course_has _ _ _ _ _ k hhas) hk
    -- all entries are as before if and only if no page that was mapped is skipped
    have hsame : SameUser p.pgdir m m₂ ↔
        Reached (pgroundup p.sz) (allocCourse p.pgdir m p.sz sz').tables := by
      constructor
      · intro h k hk
        have hklen := (List.getElem?_eq_some_iff.mp hk).1
        by_contra hnot
        have hsk := (hskip k hk).mpr hnot
        have hu := h (pgroundup p.sz + k) (by omega)
        rw [hnone _ (by omega) (by omega),
          hgrown.unmapped_range hun hb hnone (by omega) (by omega)] at hu
        refine hu ⟨?_, hsk⟩
        rw [Nat.add_sub_cancel_left, hk]
      · intro h u hu
        by_cases hin : pgroundup p.sz ≤ u ∧ u < pgroundup sz'
        · rw [hnone u hin.1 hin.2, hgrown.unmapped_range hun hb hnone hin.1 hin.2]
          rintro ⟨hk, hsk⟩
          have hua : pgroundup p.sz + (u - pgroundup p.sz) = u := by omega
          have := hskip _ hk
          rw [hua] at this
          refine this.mp hsk ?_
          have := h _ hk
          rwa [hua] at this
        · exact hgrown.unmapped_rest hun hlen (by omega) (by omega)
    simp only [reduceCtorEq, false_and, exists_false, false_or, true_and, hsame]
    refine ⟨.inr, fun h => h.elim (fun hno => ?_) id⟩
    have hund := hgrown.undone hs hno hun hb hlen hnone
    refine hsame.mp fun u hu => ?_
    by_cases hin : pgroundup p.sz ≤ u ∧ u < pgroundup sz'
    · rw [hnone u hin.1 hin.2, hund.1 u hin.1 hin.2]
    · exact hgrown.unmapped_rest hun hlen (by omega) (by omega)
  | false =>
    rw [hst, if_neg Bool.false_ne_true] at hrun
    have hfull : (allocCourse p.pgdir m p.sz sz').tables.length
        = pgroundup sz' - pgroundup p.sz := course_length _ _ _ _ _ hst
    rw [atomic_iff_of_run (growproc_pos hn (by rw [← hsz']; exact hrun)), if_neg (by omega)]
    simp only [Option.some.injEq, reduceCtorEq, false_and, or_false, Bool.false_eq_true]
    constructor
    · rintro ⟨_, rfl, -, hcov'⟩ hlost
      obtain ⟨k, hk, hget⟩ := List.mem_iff_getElem.mp hlost
      have hgone := hgrown.lost k (List.getElem?_eq_some_iff.mpr ⟨hk, hget⟩)
      have := (hcov' (pgroundup p.sz + k) (by omega)).mpr (by omega)
      rw [hgone] at this
      cases this
    · intro hno
      have hdel := hgrown.delivered hs hno (b := pgroundup sz') (by omega) hb
      refine ⟨sz', rfl, by omega, fun v hv => ?_⟩
      by_cases hin : pgroundup p.sz ≤ v ∧ v < pgroundup sz'
      · obtain ⟨q, -, hent, -⟩ := hdel.1 v hin.1 hin.2
        simp [hent, hin.2]
      · rw [hgrown.kept v (by omega) (by omega), hcov v hv]
        omega

/-- Shrinking. -/
theorem atomic_shrink_iff (hs : Sound img p.pgdir m) (hcov : Covers p.pgdir p.sz m)
    (hsz : p.sz < KERNBASE) (hn : n < 0) (hint : -2 ^ 31 ≤ n) :
    Atomic img p n m ↔ -n < p.sz ∨ p.sz = 0 := by
  obtain ⟨sz', hsz'⟩ : ∃ sz', sz' = ((p.sz + n) % 2 ^ 32).toNat := ⟨_, rfl⟩
  have hb : pgroundup p.sz ≤ 0x80000 := by
    simp only [pgroundup, PGSIZE, KERNBASE] at *
    omega
  simp only [KERNBASE] at hsz
  by_cases hwrap : (p.sz : Int) + n < 0
  · -- the new size wraps around, and is too large for deallocuvm
    have hge : p.sz ≤ sz' := by omega
    have hrun : deallocuvm img p.pgdir p.sz sz' m = .ok (p.sz, m) := by
      rw [deallocuvm, if_pos hge]
      rfl
    rw [atomic_iff_of_run (growproc_neg hn (by rw [← hsz']; exact hrun))]
    by_cases h0 : p.sz = 0
    · rw [if_pos h0]
      exact ⟨fun _ => .inr h0, fun _ => .inr ⟨rfl, fun _ _ => rfl⟩⟩
    · rw [if_neg h0]
      simp only [Option.some.injEq, reduceCtorEq, false_and, or_false, h0]
      constructor
      · rintro ⟨_, rfl, heq, -⟩
        omega
      · omega
  · have hlt : sz' < p.sz := by omega
    obtain ⟨m', hrun, hun⟩ := deallocuvm_run hs.space hlt (by simp only [KERNBASE]; omega)
    rw [atomic_iff_of_run (growproc_neg hn (by rw [← hsz']; exact hrun))]
    by_cases h0 : sz' = 0
    · -- the pages are gone, but 0 is taken for an error
      rw [if_pos h0]
      simp only [reduceCtorEq, false_and, exists_false, false_or, true_and]
      constructor
      · intro hsame
        have hpage : 0 < pgroundup p.sz := by
          simp only [pgroundup, PGSIZE]
          omega
        have h1 := (hcov 0 (by omega)).mpr hpage
        have hgone := hun.gone 0 (by omega) ⟨by rw [h0]; decide, hpage, fun hsk => ?_⟩
        · rw [← hsame 0 (by omega), hgone] at h1
          cases h1
        · exact absurd hsk.2.1 (Nat.not_lt_zero _)
      · omega
    · rw [if_neg h0]
      simp only [Option.some.injEq, reduceCtorEq, false_and, or_false]
      refine ⟨fun _ => by omega, fun _ => ⟨sz', rfl, by omega, fun v hv => ?_⟩⟩
      -- the table of the first page that goes exists
      have hns : ∀ u, ¬ (pgroundup sz' < pgroundup p.sz ∧ Skipped m.pt p.pgdir (pgroundup sz') u) := by
        rintro u ⟨hlt', hsk⟩
        have hpage := (hcov (pgroundup sz') (by omega)).mpr hlt'
        cases he : m.pt p.pgdir (pdx (pgroundup sz')) with
        | none => rw [entryAt_of_none he] at hpage; cases hpage
        | some e => exact not_skipped he hsk
      have hmono : pgroundup sz' ≤ pgroundup p.sz := Nat.div_le_div_right (by omega)
      by_cases hin : pgroundup sz' ≤ v ∧ v < pgroundup p.sz
      · rw [hun.gone v (by omega) ⟨hin.1, hin.2, fun hsk => hns v ⟨by omega, hsk⟩⟩]
        simp only [Option.isSome_none, Bool.false_eq_true, false_iff]
        omega
      · rw [hun.kept v (by omega) (by omega), hcov v hv]
        omega

/-- **When `growproc` is all or nothing**, for a process with exactly the pages of `[0, sz)`: it must
not shrink by the whole size or more, and when it grows below `KERNBASE`, there must be memory for
every page table, or else a page that cannot be allocated after that and nothing that
`deallocuvm` skips. -/
theorem growproc_atomic_iff (hs : Sound img p.pgdir m) (hcov : Covers p.pgdir p.sz m)
    (hsz : p.sz < KERNBASE) (hint : -2 ^ 31 ≤ n ∧ n < 2 ^ 31) :
    Atomic img p n m ↔
      (n < 0 → -n < p.sz ∨ p.sz = 0) ∧
      (0 < n → p.sz + n.toNat < KERNBASE →
        false ∉ (allocCourse p.pgdir m p.sz (p.sz + n.toNat)).tables ∨
          ((allocCourse p.pgdir m p.sz (p.sz + n.toNat)).stopped = true ∧
            Reached (pgroundup p.sz) (allocCourse p.pgdir m p.sz (p.sz + n.toNat)).tables)) := by
  rcases lt_trichotomy n 0 with hn | rfl | hn
  · rw [atomic_shrink_iff hs hcov hsz hn hint.1]
    exact ⟨fun h => ⟨fun _ => h, fun hpos => by omega⟩, fun h => h.1 hn⟩
  · have hrun : growproc img p 0 m = .ok (some p.sz, m) := rfl
    rw [atomic_iff_of_run hrun]
    exact ⟨fun _ => ⟨fun h => by omega, fun h => by omega⟩,
      fun _ => .inl ⟨p.sz, rfl, by omega, hcov⟩⟩
  · by_cases hlt : p.sz + n.toNat < KERNBASE
    · rw [atomic_grow_iff hs hcov hn hlt]
      exact ⟨fun h => ⟨fun hneg => by omega, fun _ _ => h⟩, fun h => h.2 hn hlt⟩
    · have hrun : allocuvm img p.pgdir p.sz (p.sz + n.toNat) m = .ok (0, m) := by
        rw [allocuvm, if_pos (by omega)]
        rfl
      rw [atomic_iff_of_run (growproc_pos hn hrun), if_pos rfl]
      exact ⟨fun _ => ⟨fun hneg => by omega, fun _ h => absurd h hlt⟩,
        fun _ => .inr ⟨rfl, fun _ _ => rfl⟩⟩

end Growproc

/-- A process with a single page of memory. -/
def oneProc : Proc := ⟨.running, none, 0x403, 0x400, PGSIZE⟩

/-- Its memory, with nothing free. -/
def oneMemory : Memory := { Memory.start with pt := single 0x400 0x401 0x402 0 }

theorem sound_oneMemory : Sound smallImage oneProc.pgdir oneMemory := by
  have hspace : Space smallImage oneMemory.pt 0x400 :=
    space_single (by decide) (by decide) (by decide) (by decide) (by unfold Freeable; decide)
  refine ⟨fun x => ?_, hspace.given, fun p hp => absurd hp List.not_mem_nil⟩
  have : total (space 0x400) oneMemory x = 0 + tree oneMemory.pt 0x400 x := rfl
  rw [oneProc, this, Nat.zero_add]
  exact hspace.once x

theorem covers_oneMemory : Covers oneProc.pgdir oneProc.sz oneMemory := by
  intro v hv
  have hpages : pgroundup oneProc.sz = 1 := rfl
  have hent : entryAt oneMemory.pt oneProc.pgdir v
      = if pdx v = 0 ∧ ptx v = 0 then some ⟨0x402, true, true⟩ else none :=
    entryAt_single (by decide) v
  have hzero : pdx v = 0 ∧ ptx v = 0 ↔ v < 1 := by
    simp only [pdx, ptx]
    omega
  rw [hent, hpages]
  by_cases h0 : v < 1
  · rw [if_pos (hzero.mpr h0)]
    simp [h0]
  · rw [if_neg fun h => h0 (hzero.mp h)]
    simp [h0]

theorem growproc_atomic_half : Atomic smallImage oneProc (-2048) oneMemory :=
  (growproc_atomic_iff sound_oneMemory covers_oneMemory (by decide) (by decide)).mpr
    ⟨fun _ => .inl (by decide), fun h => absurd h (by decide)⟩

/-- `sbrk(-4096)` of a process with 4096 bytes fails, and its page is gone. -/
theorem growproc_fails_and_frees :
    Sound smallImage oneProc.pgdir oneMemory ∧ Covers oneProc.pgdir oneProc.sz oneMemory ∧
      ∃ m', growproc smallImage oneProc (-4096) oneMemory = .ok (none, m') ∧
        entryAt oneMemory.pt oneProc.pgdir 0 = some ⟨0x402, true, true⟩ ∧
        entryAt m'.pt oneProc.pgdir 0 = none :=
  ⟨sound_oneMemory, covers_oneMemory, _, rfl, by decide, by decide⟩

end StrideXv6.Mem
