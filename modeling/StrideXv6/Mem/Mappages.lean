import StrideXv6.Mem.Grow

set_option autoImplicit false

/-! # mappages on addresses

`mappages` is given an address and a size in bytes. It rounds both ends of the range down to pages
and stops when the cursor equals the last page, so that a range may end where the address space
does. Elsewhere in this development `mappages` counts pages; `mapLoop_eq` says that the two are the
same.

The directory may be any one whose tables are pages of their own (`Proper`). The physical pages do
not matter: they may be mapped more than once.
-/

namespace StrideXv6.Mem

open Hoare

variable {m m' m₁ : Memory} {d t : Page} {e : Pte} {v n : Nat}

/-! ## vm.c -/

/-- `PGROUNDDOWN` -/
def pgrounddown (a : Nat) : Nat := a / PGSIZE * PGSIZE

/-- The loop of `mappages` with at most `n` iterations: `some true` for 0, `some false` for -1, and
`none` if it has not ended. -/
def mapLoop (d : Page) (w u : Bool) : Nat → Nat → Nat → Nat → M (Option Bool)
  | 0, _, _, _ => return none
  | n + 1, a, last, pa => do
    match ← walkpgdir d (a / PGSIZE) true with
    | none => return some false
    | some (t, j) =>
      let m ← get
      if (m.pt t j).isSome then throw .remap
      setEntry t j (some ⟨pa / PGSIZE, w, u⟩)
      if a = last then return some true
      else mapLoop d w u n ((a + PGSIZE) % 2 ^ 32) last ((pa + PGSIZE) % 2 ^ 32)

/-- `mappages(d, va, size, pa, perm)` -/
def mapRange (d : Page) (w u : Bool) (n va size pa : Nat) : M (Option Bool) :=
  mapLoop d w u n (pgrounddown va) (pgrounddown ((va + size + 2 ^ 32 - 1) % 2 ^ 32)) pa

/-! ## Directories -/

/-- The directory and its tables are pages of their own, and are not free. -/
structure Proper (d : Page) (m : Memory) : Prop extends Tables m.pt d where
  nodup : m.freelist.Nodup
  dir : d ∉ m.freelist
  tables : ∀ i < NPTENTRIES, ∀ e, m.pt d i = some e → e.page ∉ m.freelist

/-- What `walkpgdir` finds or makes: a table for `v`, with all translations as they were. -/
structure Walked (d : Page) (v : Nat) (m : Memory) (e : Pte) (m₁ : Memory) : Prop
    extends Proper d m₁ where
  table : m₁.pt d (pdx v) = some e
  entry : ∀ u, entryAt m₁.pt d u = entryAt m.pt d u
  has : hasTable d m₁ = mark (hasTable d m) v
  plan : ∀ vs, firstFailure (need (hasTable d m) v ++ vs) m.fails m.freelist.length = none →
    firstFailure vs m₁.fails m₁.freelist.length = none

theorem firstFailure_cons {k : Kind} {ks : List Kind}
    (h : firstFailure (k :: ks) m.fails m.freelist.length = none) :
    ¬ Exhausted m.fails m.freelist.length ∧
      firstFailure ks m.fails.tail (m.freelist.length - 1) = none := by
  rw [firstFailure] at h
  split at h
  · cases h
  · rename_i hex
    exact ⟨hex, h⟩

/-- A page from the free list becomes the table. -/
theorem Proper.newTable {ps : List Page} (h : Proper d m) (hfree : m.freelist = t :: ps)
    (hnone : m.pt d (pdx v) = none) : Walked d v m ⟨t, true, true⟩ (Mem.newTable m d t v ps) := by
  have hmem : t ∈ m.freelist := by
    rw [hfree]
    exact List.mem_cons_self
  have hsub : ∀ x ∈ ps, x ∈ m.freelist := fun x hx => by
    rw [hfree]
    exact List.mem_cons_of_mem _ hx
  have hnd := h.nodup
  rw [hfree, List.nodup_cons] at hnd
  have hdt : d ≠ t := fun heq => h.dir (heq ▸ hmem)
  have htab : ∀ i < NPTENTRIES, ∀ e, m.pt d i = some e → e.page ≠ t :=
    fun i hi e he heq => h.tables i hi e he (heq ▸ hmem)
  have hdir : ∀ i, (Mem.newTable m d t v ps).pt d i
      = if i = pdx v then some ⟨t, true, true⟩ else m.pt d i := fun i => withTable_dir hdt i
  -- An entry of the directory is the new one, at its place, or one that was there.
  have look : ∀ i e, (Mem.newTable m d t v ps).pt d i = some e →
      (i = pdx v ∧ e.page = t) ∨ (i ≠ pdx v ∧ m.pt d i = some e) := by
    intro i e he
    rw [hdir] at he
    split at he
    · rename_i hi
      cases he
      exact .inl ⟨hi, rfl⟩
    · rename_i hi
      exact .inr ⟨hi, he⟩
  refine { ne_dir := ?_, inj := ?_, nodup := ?_, dir := ?_, tables := ?_, table := ?_, entry := ?_,
           has := ?_, plan := ?_ }
  · intro i hi e he
    rcases look i e he with ⟨-, hp⟩ | ⟨-, he⟩
    · rw [hp]
      exact hdt.symm
    · exact h.ne_dir i hi e he
  · intro i hi i' hi' e e' he he' heq
    rcases look i e he with ⟨hiv, hp⟩ | ⟨-, he⟩ <;> rcases look i' e' he' with ⟨hiv', hp'⟩ | ⟨-, he'⟩
    · rw [hiv, hiv']
    · exact absurd (heq.trans hp) (htab i' hi' e' he')
    · exact absurd (heq.symm.trans hp') (htab i hi e he)
    · exact h.inj i hi i' hi' e e' he he' heq
  · exact hnd.2
  · exact fun hd => h.dir (hsub d hd)
  · intro i hi e he
    rcases look i e he with ⟨-, hp⟩ | ⟨-, he⟩
    · rw [hp]
      exact hnd.1
    · exact fun hp => h.tables i hi e he (hsub _ hp)
  · rw [hdir, if_pos rfl]
  · exact h.toTables.entryAt_withTable hdt htab hnone
  · funext i
    rw [hasTable, hdir, apply_ite Option.isSome, mark, Function.update_apply]
    rfl
  · intro vs hvs
    have hhas : hasTable d m (pdx v) = false := by
      rw [hasTable, hnone]
      rfl
    rw [need, hhas] at hvs
    have hrest := (firstFailure_cons hvs).2
    rwa [hfree, List.length_cons, Nat.add_sub_cancel] at hrest

theorem walkpgdir_walked {ks : List Kind} (h : Proper d m)
    (hplan : firstFailure (need (hasTable d m) v ++ ks) m.fails m.freelist.length = none) :
    ∃ e m₁, walkpgdir d v true m = .ok (some (e.page, ptx v), m₁) ∧ Walked d v m e m₁ := by
  cases he : m.pt d (pdx v) with
  | some e =>
    have hhas : hasTable d m (pdx v) = true := by
      rw [hasTable, he]
      rfl
    refine ⟨e, m, ?_, h, he, fun _ => rfl, ?_, fun vs hvs => ?_⟩
    · rw [walkpgdir, run_get, he]
      rfl
    · rw [mark, ← hhas, Function.update_eq_self]
    · rwa [need, if_pos hhas] at hvs
  | none =>
    have hhas : hasTable d m (pdx v) = false := by
      rw [hasTable, he]
      rfl
    rw [need, hhas] at hplan
    obtain ⟨t, ps, hfree, hk⟩ := kalloc_some (firstFailure_cons hplan).1
    exact ⟨⟨t, true, true⟩, _, walkpgdir_new he hk, h.newTable hfree he⟩

/-- The entry is stored into the table that `walkpgdir` answered. -/
theorem Walked.store {c : Option Pte} {b : Page → Bytes} (h : Walked d v m e m₁) (hv : v < 2 ^ 20) :
    let m₂ := { m₁ with pt := setPte m₁.pt e.page (ptx v) c, bytes := b }
    Proper d m₂ ∧ hasTable d m₂ = mark (hasTable d m) v ∧
      ∀ u < 2 ^ 20, entryAt m₂.pt d u = if u = v then c else entryAt m.pt d u := by
  intro m₂
  have hdir : m₂.pt d = m₁.pt d := setPte_of_ne _ _ _ (h.ne_dir _ (pdx_lt v) e h.table).symm
  refine ⟨⟨⟨?_, ?_⟩, h.nodup, h.dir, ?_⟩, ?_, fun u hu => ?_⟩
  · rw [hdir]
    exact h.ne_dir
  · rw [hdir]
    exact h.inj
  · rw [hdir]
    exact h.tables
  · unfold hasTable
    rw [hdir]
    exact h.has
  · rw [h.toTables.entryAt_set_pte hv hu h.table, h.entry]

/-! ## The loop -/

section Loop

variable {w u : Bool} {q : Nat}

/-- One iteration, up to the test for the last page. -/
theorem mapLoop_succ {ks : List Kind} (last pa : Nat) (h : Proper d m) (hv : v < 2 ^ 20)
    (hplan : firstFailure (need (hasTable d m) v ++ ks) m.fails m.freelist.length = none)
    (hnone : entryAt m.pt d v = none) :
    ∃ m₂, mapLoop d w u (n + 1) (v * PGSIZE) last pa m
        = (if v * PGSIZE = last then return some true
          else mapLoop d w u n ((v * PGSIZE + PGSIZE) % 2 ^ 32) last ((pa + PGSIZE) % 2 ^ 32)) m₂ ∧
      Proper d m₂ ∧ hasTable d m₂ = mark (hasTable d m) v ∧
      firstFailure ks m₂.fails m₂.freelist.length = none ∧
      ∀ x < 2 ^ 20, entryAt m₂.pt d x
        = if x = v then some ⟨pa / PGSIZE, w, u⟩ else entryAt m.pt d x := by
  obtain ⟨e, m₁, hwalk, hw⟩ := walkpgdir_walked h hplan
  have hent : m₁.pt e.page (ptx v) = none := by
    rw [← entryAt_of_some hw.table, hw.entry, hnone]
  have hstore := hw.store (c := some ⟨pa / PGSIZE, w, u⟩)
    (b := Function.update m₁.bytes e.page
      (putWord (m₁.bytes e.page) (ptx v) (pteWord (some ⟨pa / PGSIZE, w, u⟩)))) hv
  refine ⟨_, ?_, hstore.1, hstore.2.1, hw.plan ks hplan, hstore.2.2⟩
  rw [mapLoop, Nat.mul_div_cancel _ (by decide : 0 < PGSIZE), run_bind hwalk]
  dsimp only
  rw [run_get, hent]
  rfl

theorem next_page (hv : v + 1 < 2 ^ 20) :
    (v * PGSIZE + PGSIZE) % 2 ^ 32 = (v + 1) * PGSIZE := by
  simp only [PGSIZE]
  omega

theorem next_frame (q : Nat) :
    (q % 2 ^ 20 * PGSIZE + PGSIZE) % 2 ^ 32 = (q + 1) % 2 ^ 20 * PGSIZE := by
  simp only [PGSIZE]
  omega

/-- The pages `v` to `v + n`, mapped to the physical pages from `q` on. -/
theorem mapLoop_maps (h : Proper d m) (hv : v + n < 2 ^ 20)
    (hplan : firstFailure (plan [] (hasTable d m) (List.range' v (n + 1))) m.fails
      m.freelist.length = none)
    (hnone : ∀ x, v ≤ x → x ≤ v + n → entryAt m.pt d x = none) :
    ∃ m', mapLoop d w u (n + 1) (v * PGSIZE) ((v + n) * PGSIZE) (q % 2 ^ 20 * PGSIZE) m
        = .ok (some true, m') ∧
      ∀ x < 2 ^ 20, entryAt m'.pt d x =
        if v ≤ x ∧ x ≤ v + n then some ⟨(q + (x - v)) % 2 ^ 20, w, u⟩ else entryAt m.pt d x := by
  -- The induction is on the pages after the first: the last page stays where it is.
  induction n generalizing m v q with
  | zero =>
    rw [List.range'_succ, plan, List.nil_append] at hplan
    obtain ⟨m₂, hrun, -, -, -, hent⟩ := mapLoop_succ (n := 0) (v := v) (w := w) (u := u)
      ((v + 0) * PGSIZE) (q % 2 ^ 20 * PGSIZE) h hv hplan
      (hnone v (le_refl v) (Nat.le_add_right ..))
    refine ⟨m₂, ?_, fun x hx => ?_⟩
    · rw [hrun, if_pos (by rw [Nat.add_zero])]
      rfl
    · rw [hent x hx, Nat.mul_div_cancel _ (by decide : 0 < PGSIZE)]
      by_cases hxv : x = v
      · rw [if_pos hxv, if_pos (by omega), hxv, Nat.sub_self, Nat.add_zero]
      · rw [if_neg hxv, if_neg (by omega)]
  | succ n ih =>
    rw [List.range'_succ, plan, List.nil_append] at hplan
    obtain ⟨m₂, hrun, hproper, hhas, hrest, hent⟩ := mapLoop_succ (n := n + 1) (v := v) (w := w)
      (u := u) ((v + (n + 1)) * PGSIZE) (q % 2 ^ 20 * PGSIZE) h (by omega) hplan
      (hnone v (le_refl v) (Nat.le_add_right ..))
    have hnone₂ : ∀ x, v + 1 ≤ x → x ≤ v + 1 + n → entryAt m₂.pt d x = none := by
      intro x h1 h2
      rw [hent x (by omega), if_neg (by omega)]
      exact hnone x (by omega) (by omega)
    rw [← hhas] at hrest
    obtain ⟨m', hloop, hent'⟩ := ih (v := v + 1) (q := q + 1) hproper (by omega) hrest hnone₂
    refine ⟨m', ?_, fun x hx => ?_⟩
    · have hne : v * PGSIZE ≠ (v + (n + 1)) * PGSIZE := by
        simp only [PGSIZE]
        omega
      rw [hrun, if_neg hne, next_page (by omega), next_frame, ← hloop]
      congr 2
      omega
    · rw [hent' x hx, hent x hx, Nat.mul_div_cancel _ (by decide : 0 < PGSIZE)]
      by_cases hxv : x = v
      · rw [if_neg (by omega), if_pos hxv, if_pos (by omega), hxv, Nat.sub_self, Nat.add_zero]
      · rw [if_neg hxv]
        by_cases hin : v + 1 ≤ x ∧ x ≤ v + 1 + n
        · rw [if_pos hin, if_pos (by omega), show q + 1 + (x - (v + 1)) = q + (x - v) by omega]
        · rw [if_neg hin, if_neg (by omega)]

/-- The loop is the one that counts pages, where the physical addresses do not wrap. -/
theorem mapLoop_eq (hv : v + n < 2 ^ 20) (hq : q + n < 2 ^ 20) :
    mapLoop d w u (n + 1) (v * PGSIZE) ((v + n) * PGSIZE) (q * PGSIZE)
      = some <$> mappages d w u (n + 1) v q := by
  have hdiv : ∀ x, x * PGSIZE / PGSIZE = x := fun x => Nat.mul_div_cancel x (by decide)
  induction n generalizing v q with
  | zero =>
    simp only [mapLoop, mappages, map_bind, hdiv, Nat.add_zero, if_true]
    refine bind_congr fun r => ?_
    cases r with
    | none => rfl
    | some r => simp only [map_bind, apply_ite (some <$> · : M Bool → M (Option Bool)), map_pure]
  | succ n ih =>
    have hne : v * PGSIZE ≠ (v + (n + 1)) * PGSIZE := by
      simp only [PGSIZE]
      omega
    have hih := ih (v := v + 1) (q := q + 1) (by omega) (by omega)
    rw [show v + 1 + n = v + (n + 1) by omega] at hih
    rw [mapLoop, mappages, map_bind, hdiv, hdiv]
    refine bind_congr fun r => ?_
    cases r with
    | none => rfl
    | some r =>
      simp only [map_bind, apply_ite (some <$> · : M Bool → M (Option Bool)), if_neg hne,
        next_page (v := v) (by omega), next_page (v := q) (by omega), hih]

end Loop

theorem mapLoop_eq_two : mapLoop 0x400 true false 2 (3 * PGSIZE) (4 * PGSIZE) (5 * PGSIZE)
    = some <$> mappages 0x400 true false 2 3 5 := mapLoop_eq (by decide) (by decide)

/-! ## The call -/

/-- The number of pages of `[va, va + size)`, without the first. -/
def morePages (va size : Nat) : Nat := (va + size - 1) / PGSIZE - va / PGSIZE

/-- The pages of `[va, va + size)`. -/
def pagesOf (va size : Nat) : List Nat := List.range' (va / PGSIZE) (morePages va size + 1)

theorem mem_pagesOf_iff {va size x : Nat} :
    x ∈ pagesOf va size ↔ va / PGSIZE ≤ x ∧ x ≤ va / PGSIZE + morePages va size := by
  rw [pagesOf, List.mem_range'_1]
  omega

theorem mapRange_exact {w u : Bool} {va size pa : Nat} (h : Proper d m) (hsize : 1 ≤ size)
    (htop : va + size ≤ 2 ^ 32) (hpa : PGSIZE ∣ pa) (hpa' : pa < 2 ^ 32)
    (hplan : firstFailure (plan [] (hasTable d m) (pagesOf va size)) m.fails m.freelist.length
      = none)
    (hnone : ∀ x ∈ pagesOf va size, entryAt m.pt d x = none) :
    ∃ n m', mapRange d w u n va size pa m = .ok (some true, m') ∧
      (∀ k, va / PGSIZE + k ∈ pagesOf va size → entryAt m'.pt d (va / PGSIZE + k)
        = some ⟨(pa + k * PGSIZE) % 2 ^ 32 / PGSIZE, w, u⟩) ∧
      ∀ x < 2 ^ 20, x ∉ pagesOf va size → entryAt m'.pt d x = entryAt m.pt d x := by
  obtain ⟨q, rfl⟩ := hpa
  have hlast : pgrounddown ((va + size + 2 ^ 32 - 1) % 2 ^ 32)
      = (va / PGSIZE + morePages va size) * PGSIZE := by
    simp only [pgrounddown, morePages, PGSIZE]
    omega
  have hq : PGSIZE * q = q % 2 ^ 20 * PGSIZE := by
    simp only [PGSIZE] at *
    omega
  have hv : va / PGSIZE + morePages va size < 2 ^ 20 := by
    simp only [morePages, PGSIZE]
    omega
  obtain ⟨m', hrun, hent⟩ := mapLoop_maps (w := w) (u := u) (q := q) h hv hplan
    fun x h1 h2 => hnone x (mem_pagesOf_iff.mpr ⟨h1, h2⟩)
  refine ⟨morePages va size + 1, m', ?_, fun k hk => ?_, fun x hx hx' => ?_⟩
  · rw [mapRange, hlast, hq]
    exact hrun
  · have hk' := mem_pagesOf_iff.mp hk
    have hframe : (q + k) % 2 ^ 20 = (PGSIZE * q + k * PGSIZE) % 2 ^ 32 / PGSIZE := by
      simp only [PGSIZE]
      omega
    rw [hent _ (by omega), if_pos hk', Nat.add_sub_cancel_left, hframe]
  · rw [hent x hx, if_neg fun hin => hx' (mem_pagesOf_iff.mpr hin)]

/-- An empty directory, and one free page. -/
def emptyDir : Memory :=
  { freelist := [0x401], pt := fun _ _ => none, bytes := fun _ _ => 0, fails := [] }

theorem proper_emptyDir : Proper 0x400 emptyDir where
  ne_dir := fun _ _ _ he => absurd he.symm (Option.some_ne_none _)
  inj := fun _ _ _ _ _ _ he => absurd he.symm (Option.some_ne_none _)
  nodup := by decide
  dir := by decide
  tables := fun _ _ _ he => absurd he.symm (Option.some_ne_none _)

/-- The last byte of a page and the page at the top of the address space. -/
theorem mapRange_top :
    ∃ n m', mapRange 0x400 true false n 0xffffefff 0x1001 0x3000 emptyDir = .ok (some true, m') ∧
      (∀ k, 0xffffefff / PGSIZE + k ∈ pagesOf 0xffffefff 0x1001 →
        entryAt m'.pt 0x400 (0xffffefff / PGSIZE + k)
          = some ⟨(0x3000 + k * PGSIZE) % 2 ^ 32 / PGSIZE, true, false⟩) ∧
      ∀ x < 2 ^ 20, x ∉ pagesOf 0xffffefff 0x1001 →
        entryAt m'.pt 0x400 x = entryAt emptyDir.pt 0x400 x :=
  mapRange_exact proper_emptyDir (by decide) (by decide) (by decide) (by decide) (by decide)
    fun _ _ => rfl

end StrideXv6.Mem
