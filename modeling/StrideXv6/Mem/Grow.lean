import StrideXv6.Mem.Mapping

set_option autoImplicit false

/-! # What allocuvm and growproc deliver

`allocuvm` ignores the result of `mappages`. A page for which there is no memory for a page table is
therefore neither mapped nor freed, and `allocuvm` goes on.

Which pages that concerns depends on the failures of `kalloc` alone (`course`). `allocLoop_run` says
what the loop of `allocuvm` does for every course, and from it follow when `allocuvm` does what it
reports (`allocuvm_delivers_iff`) and when `growproc` succeeds or changes nothing
(`growproc_atomic_iff`).
-/

namespace StrideXv6.Mem

open Hoare Function

/-! ## The course of the loop -/

/-- How the loop of `allocuvm` goes. -/
structure Course where
  /-- for each page that was allocated, whether there was a table to map it -/
  tables : List Bool
  /-- there was no memory for the next page -/
  stopped : Bool

def Course.cons (b : Bool) (c : Course) : Course := { c with tables := b :: c.tables }

/-- The course for `n` pages from `v` on: `has` are the tables that exist, and `fails` and the length
of the free list determine which calls of `kalloc` fail. -/
def course : Present → List Bool → Nat → Nat → Nat → Course
  | _, _, _, 0, _ => ⟨[], false⟩
  | has, fails, free, n + 1, v =>
    if Exhausted fails free then ⟨[], true⟩
    else if has (pdx v) then (course has fails.tail (free - 1) n (v + 1)).cons true
    else if Exhausted fails.tail (free - 1) then
      (course has fails.tail.tail (free - 1) n (v + 1)).cons false
    else (course (mark has v) fails.tail.tail (free - 1 - 1) n (v + 1)).cons true

variable {img : Image} {m₀ m m' : Memory} {d p : Page} {a v : Nat} {oks : List Bool}

/-- The tables that exist. -/
def hasTable (d : Page) (m : Memory) : Present := fun i => (m.pt d i).isSome

theorem course_length (has : Present) (fails : List Bool) (free n v : Nat)
    (h : (course has fails free n v).stopped = false) :
    (course has fails free n v).tables.length = n := by
  induction n generalizing has fails free v with
  | zero => rfl
  | succ n ih =>
    rw [course] at h ⊢
    split at h <;> rename_i h1
    · cases h
    · rw [if_neg h1]
      split at h <;> rename_i h2
      · rw [if_pos h2]
        exact congrArg Nat.succ (ih _ _ _ _ h)
      · rw [if_neg h2]
        split at h <;> rename_i h3
        · rw [if_pos h3]
          exact congrArg Nat.succ (ih _ _ _ _ h)
        · rw [if_neg h3]
          exact congrArg Nat.succ (ih _ _ _ _ h)

theorem course_length_le (has : Present) (fails : List Bool) (free n v : Nat) :
    (course has fails free n v).tables.length ≤ n := by
  induction n generalizing has fails free v with
  | zero => exact le_refl 0
  | succ n ih =>
    rw [course]
    split_ifs
    · exact Nat.zero_le _
    · exact Nat.succ_le_succ (ih _ _ _ _)
    · exact Nat.succ_le_succ (ih _ _ _ _)
    · exact Nat.succ_le_succ (ih _ _ _ _)

/-! ## A page from the free list -/

/-- The page `p` has been taken from the free list and filled. -/
def taken (m : Memory) (p : Page) (f : Nat → Option Pte) (b : Bytes) : Memory :=
  { m with
    fails := m.fails.tail
    freelist := m.freelist.tail
    pt := Function.update m.pt p f
    bytes := Function.update m.bytes p b }

section Taken

variable {ps : List Page} {f : Nat → Option Pte} {b : Bytes}

theorem taken_entry (hle : ∀ x, total (space d) m x ≤ 1) (hfree : m.freelist = p :: ps)
    (u : Nat) : entryAt (taken m p f b).pt d u = entryAt m.pt d u :=
  entryAt_update_free (free_not_in_tree hle (by rw [hfree]; exact List.mem_cons_self)) f u

theorem taken_dir (hle : ∀ x, total (space d) m x ≤ 1) (hfree : m.freelist = p :: ps) :
    (taken m p f b).pt d = m.pt d :=
  update_of_ne
    (page_ne_dir (free_not_in_tree hle (by rw [hfree]; exact List.mem_cons_self))) ..

theorem taken_total (hle : ∀ x, total (space d) m x ≤ 1) (hfree : m.freelist = p :: ps)
    (x : Page) : total (space d) (taken m p f b) x + one p x = total (space d) m x := by
  have hst : space d (Function.update m.pt p f) = space d m.pt :=
    stable_space d _ _ _ (free_not_in_tree hle (by rw [hfree]; exact List.mem_cons_self))
  simp only [total, taken, hst, hfree, List.tail_cons, List.count_cons, beq_iff_eq, one]
  omega

theorem taken_le_one (hle : ∀ x, total (space d) m x ≤ 1) (hfree : m.freelist = p :: ps)
    (x : Page) : total (space d) (taken m p f b) x ≤ 1 := by
  have := taken_total hle hfree (f := f) (b := b) x
  have := hle x
  omega

theorem taken_frame (hle : ∀ x, total (space d) m x ≤ 1) (hfree : m.freelist = p :: ps) {x : Page}
    (hx : Outside d m x) :
    Outside d (taken m p f b) x ∧ (taken m p f b).pt x = m.pt x ∧
      (taken m p f b).bytes x = m.bytes x := by
  have hne : x ≠ p := fun heq => hx.1 (by rw [heq, hfree]; exact List.mem_cons_self)
  refine ⟨⟨fun hmem => hx.1 (List.mem_of_mem_tail hmem), hx.2.1, fun i hi e he => ?_⟩,
    update_of_ne hne .., update_of_ne hne ..⟩
  rw [taken_dir hle hfree] at he
  exact hx.2.2 i hi e he

theorem taken_outside (hle : ∀ x, total (space d) m x ≤ 1) (hfree : m.freelist = p :: ps) :
    Outside d (taken m p f b) p := by
  have hzero : tree m.pt d p = 0 :=
    free_not_in_tree hle (by rw [hfree]; exact List.mem_cons_self)
  have htot := hle p
  simp only [total, space, hfree, List.count_cons_self] at htot
  refine ⟨fun hmem => ?_, (page_ne_dir hzero).symm, fun i hi e he => ?_⟩
  · have hmem : p ∈ ps := by simpa [taken, hfree] using hmem
    have := List.count_pos_iff.mpr hmem
    omega
  · rw [taken_dir hle hfree] at he
    exact page_ne_table hzero hi he

/-- The page `c.page` has been taken from the free list, filled with `b` and mapped by the entry
`c` at `v`. -/
structure Placed (d : Page) (v : Nat) (c : Pte) (b : Bytes) (m m' : Memory) : Prop where
  entry : ∀ u < 2 ^ 20, entryAt m'.pt d u = if u = v then some c else entryAt m.pt d u
  dir : ∀ i, (m'.pt d i).isSome = (decide (i = pdx v) || (m.pt d i).isSome)
  total : ∀ x, total (space d) m' x = total (space d) m x
  suffix : m'.freelist <:+ m.freelist
  fresh : c.page ∈ m.freelist
  bytes : m'.bytes c.page = b
  frame : ∀ x, Outside d m x → Outside d m' x ∧ m'.pt x = m.pt x ∧ m'.bytes x = m.bytes x

theorem Mapped.placed {c : Pte} (h : Mapped d v c (taken m c.page f b) m') (hv : v < 0x80000)
    (hle : ∀ x, Mem.total (space d) m x ≤ 1) (hfree : m.freelist = c.page :: ps) :
    Placed d v c b m m' := by
  have hu : pdx v < userEntries := by
    simp only [pdx, userEntries]
    omega
  refine ⟨fun u hu' => ?_, fun i => ?_, fun x => ?_, ?_, ?_, ?_, fun x hx => ?_⟩
  · rw [h.entry u hu', taken_entry hle hfree]
  · rw [h.dir, taken_dir hle hfree]
  · rw [h.total, if_pos hu, taken_total hle hfree]
  · exact h.suffix.trans (List.tail_suffix _)
  · rw [hfree]
    exact List.mem_cons_self
  · rw [(h.frame _ (taken_outside hle hfree)).2.2]
    exact update_self ..
  · obtain ⟨h1, h2, h3⟩ := taken_frame hle hfree (f := f) (b := b) hx
    obtain ⟨h4, h5, h6⟩ := h.frame x h1
    exact ⟨h4, h5.trans h2, h6.trans h3⟩

end Taken

/-! ## The loop -/

/-- The state of the loop of `allocuvm` that started with page `a` in `m₀` and for which `oks` says
which pages it could map. Pages that are neither free nor part of the address space have not been
touched. -/
structure Grown (d : Page) (a : Nat) (m₀ : Memory) (oks : List Bool) (m : Memory) : Prop where
  kept : ∀ u < 2 ^ 20, u < a ∨ a + oks.length ≤ u → entryAt m.pt d u = entryAt m₀.pt d u
  mapped : ∀ k, oks[k]? = some true → ∃ p ∈ m₀.freelist,
    entryAt m.pt d (a + k) = some ⟨p, true, true⟩ ∧ m.bytes p = fun _ => 0
  lost : ∀ k, oks[k]? = some false → entryAt m.pt d (a + k) = none
  dir : ∀ i, (m.pt d i).isSome = true ↔
    (m₀.pt d i).isSome = true ∨ ∃ k, oks[k]? = some true ∧ pdx (a + k) = i
  le : ∀ x, total (space d) m x ≤ total (space d) m₀ x
  same : false ∉ oks → ∀ x, total (space d) m x = total (space d) m₀ x
  leak : false ∈ oks → ∃ p ∈ m₀.freelist, total (space d) m p = 0
  suffix : m.freelist <:+ m₀.freelist
  frame : ∀ x, total (space d) m₀ x = 0 → m.pt x = m₀.pt x ∧ m.bytes x = m₀.bytes x

theorem Grown.refl (d : Page) (a : Nat) (m : Memory) : Grown d a m [] m where
  kept := fun _ _ _ => rfl
  mapped := fun k hk => by simp at hk
  lost := fun k hk => by simp at hk
  dir := fun i => by simp
  le := fun _ => le_refl _
  same := fun _ _ => rfl
  leak := fun h => by simp at h
  suffix := List.suffix_refl _
  frame := fun _ _ => ⟨rfl, rfl⟩

/-- Pages outside of the address space stay outside. -/
theorem Grown.outside (h : Grown d a m₀ oks m) {x : Page} (hx : total (space d) m₀ x = 0) :
    Outside d m x :=
  outside_of_total (Nat.le_zero.mp (hx ▸ h.le x))

theorem Grown.le_one (h : Grown d a m₀ oks m) (hle : ∀ x, total (space d) m₀ x ≤ 1) (x : Page) :
    total (space d) m x ≤ 1 := (h.le x).trans (hle x)

theorem getElem?_snoc {oks : List Bool} {b c : Bool} {k : Nat} (h : (oks ++ [b])[k]? = some c) :
    oks[k]? = some c ∨ (k = oks.length ∧ c = b) := by
  rw [List.getElem?_append] at h
  split at h
  · exact .inl h
  · rename_i hk
    right
    rw [List.getElem?_singleton] at h
    split at h
    · rename_i h0
      exact ⟨by omega, (Option.some.inj h).symm⟩
    · cases h

/-- A page that is mapped. -/
theorem Grown.snoc_true (h : Grown d a m₀ oks m) (hle : ∀ x, total (space d) m₀ x ≤ 1)
    (hv : a + oks.length < 0x80000)
    (hp : Placed d (a + oks.length) ⟨p, true, true⟩ (fun _ => 0) m m') :
    Grown d a m₀ (oks ++ [true]) m' := by
  have hlen : (oks ++ [true]).length = oks.length + 1 := by simp
  refine ⟨fun u hu hout => ?_, fun k hk => ?_, fun k hk => ?_, fun i => ?_, fun x => ?_,
    fun hno x => ?_, fun hmem => ?_, hp.suffix.trans h.suffix, fun x hx => ?_⟩
  · rw [hlen] at hout
    rw [hp.entry u hu, if_neg (by omega), h.kept u hu (by omega)]
  · rcases getElem?_snoc hk with hk | ⟨rfl, -⟩
    · have hlt := (List.getElem?_eq_some_iff.mp hk).1
      obtain ⟨q, hq, hent, hbytes⟩ := h.mapped k hk
      refine ⟨q, hq, ?_, ?_⟩
      · rw [hp.entry _ (by omega), if_neg (by omega), hent]
      · have hout := outside_of_entry (h.le_one hle) (show a + k < 0x80000 by omega) hent
        rw [(hp.frame q hout).2.2, hbytes]
    · exact ⟨p, h.suffix.subset hp.fresh, by rw [hp.entry _ (by omega), if_pos rfl], hp.bytes⟩
  · rcases getElem?_snoc hk with hk | ⟨-, hb⟩
    · have hlt := (List.getElem?_eq_some_iff.mp hk).1
      rw [hp.entry _ (by omega), if_neg (by omega), h.lost k hk]
    · cases hb
  · rw [hp.dir, Bool.or_eq_true, decide_eq_true_iff, h.dir]
    constructor
    · rintro (rfl | hi | ⟨k, hk, hki⟩)
      · exact .inr ⟨oks.length, by simp, rfl⟩
      · exact .inl hi
      · exact .inr ⟨k, by rw [List.getElem?_append_left (List.getElem?_eq_some_iff.mp hk).1, hk], hki⟩
    · rintro (hi | ⟨k, hk, hki⟩)
      · exact .inr (.inl hi)
      · rcases getElem?_snoc hk with hk | ⟨rfl, -⟩
        · exact .inr (.inr ⟨k, hk, hki⟩)
        · exact .inl hki.symm
  · rw [hp.total]
    exact h.le x
  · rw [hp.total]
    exact h.same (fun hf => hno (List.mem_append_left _ hf)) x
  · obtain ⟨q, hq, hq0⟩ := h.leak (by simpa using hmem)
    exact ⟨q, hq, by rw [hp.total, hq0]⟩
  · obtain ⟨-, h1, h2⟩ := hp.frame x (h.outside hx)
    exact ⟨h1.trans (h.frame x hx).1, h2.trans (h.frame x hx).2⟩

/-- A page for which there is no table. -/
theorem Grown.snoc_false {ps : List Page} (h : Grown d a m₀ oks m)
    (hle : ∀ x, total (space d) m₀ x ≤ 1) (hv : a + oks.length < 0x80000)
    (hnone : entryAt m₀.pt d (a + oks.length) = none) (hfree : m.freelist = p :: ps)
    (hpt : m'.pt = (taken m p (fun _ => none) fun _ => 0).pt)
    (hbytes : m'.bytes = (taken m p (fun _ => none) fun _ => 0).bytes)
    (hps : m'.freelist = m.freelist.tail) : Grown d a m₀ (oks ++ [false]) m' := by
  have hlen : (oks ++ [false]).length = oks.length + 1 := by simp
  have hle' := h.le_one hle
  have hent : ∀ u, entryAt m'.pt d u = entryAt m.pt d u := by
    intro u
    rw [hpt, taken_entry hle' hfree]
  have hdir : m'.pt d = m.pt d := by rw [hpt, taken_dir hle' hfree]
  have htot : ∀ x, total (space d) m' x + one p x = total (space d) m x := by
    intro x
    rw [← taken_total hle' hfree (f := fun _ => none) (b := fun _ => 0)]
    simp only [total, hpt, hps]
    rfl
  have hmem : p ∈ m₀.freelist := h.suffix.subset (by rw [hfree]; exact List.mem_cons_self)
  refine ⟨fun u hu hout => ?_, fun k hk => ?_, fun k hk => ?_, fun i => ?_, fun x => ?_,
    fun hno x => ?_, fun _ => ⟨p, hmem, ?_⟩, ?_, fun x hx => ?_⟩
  · rw [hlen] at hout
    rw [hent, h.kept u hu (by omega)]
  · rcases getElem?_snoc hk with hk | ⟨-, hb⟩
    · have hlt := (List.getElem?_eq_some_iff.mp hk).1
      obtain ⟨q, hq, hentq, hbytesq⟩ := h.mapped k hk
      refine ⟨q, hq, by rw [hent, hentq], ?_⟩
      have hout := outside_of_entry hle' (show a + k < 0x80000 by omega) hentq
      rw [hbytes, (taken_frame hle' hfree hout).2.2, hbytesq]
    · cases hb
  · rw [hent]
    rcases getElem?_snoc hk with hk | ⟨rfl, -⟩
    · exact h.lost k hk
    · rw [h.kept _ (by omega) (.inr (le_refl _)), hnone]
  · rw [hdir, h.dir]
    refine or_congr_right ⟨?_, ?_⟩
    · rintro ⟨k, hk, hki⟩
      exact ⟨k, by rw [List.getElem?_append_left (List.getElem?_eq_some_iff.mp hk).1, hk], hki⟩
    · rintro ⟨k, hk, hki⟩
      rcases getElem?_snoc hk with hk | ⟨-, hb⟩
      · exact ⟨k, hk, hki⟩
      · cases hb
  · have := htot x
    exact le_trans (by omega) (h.le x)
  · exact absurd (by simp) hno
  · have h1 := htot p
    have h2 := hle' p
    rw [one_self] at h1
    omega
  · rw [hps]
    exact (List.tail_suffix _).trans h.suffix
  · obtain ⟨-, h1, h2⟩ := taken_frame hle' hfree (f := fun _ => none) (b := fun _ => 0) (h.outside hx)
    rw [hpt, hbytes]
    exact ⟨h1.trans (h.frame x hx).1, h2.trans (h.frame x hx).2⟩

/-- One iteration of the loop of `allocuvm` for which there is a page. -/
theorem allocLoop_next (img : Image) (oldsz newsz n : Nat) (hle : ∀ x, total (space d) m₀ x ≤ 1)
    (h : Grown d a m₀ oks m) (hv : v = a + oks.length) (hlt : v < 0x80000)
    (hnone : entryAt m₀.pt d v = none) (hex : ¬ Exhausted m.fails m.freelist.length) :
    ∃ b m', allocLoop img d oldsz newsz (n + 1) v m = allocLoop img d oldsz newsz n (v + 1) m' ∧
      Grown d a m₀ (oks ++ [b]) m' ∧
      course (hasTable d m) m.fails m.freelist.length (n + 1) v
        = (course (hasTable d m') m'.fails m'.freelist.length n (v + 1)).cons b := by
  have hle' := h.le_one hle
  obtain ⟨p, ps, hfree, hk⟩ := kalloc_some hex
  have hrun : allocLoop img d oldsz newsz (n + 1) v m
      = (do
          let _ ← mappages d true true (0 + 1) v p
          allocLoop img d oldsz newsz n (v + 1)) (taken m p (fun _ => none) fun _ => 0) := by
    rw [allocLoop, run_bind hk]
    dsimp only
    rw [run_bind (a := ()) (t := taken m p (fun _ => none) fun _ => 0)]
    rw [taken, hfree]
    rfl
  have hlen : (taken m p (fun _ => none) fun _ => 0).freelist.length = m.freelist.length - 1 :=
    List.length_tail
  have hdir := taken_dir hle' hfree (f := fun _ => none) (b := fun _ => 0)
  have hent : entryAt (taken m p (fun _ => none) fun _ => 0).pt d v = none := by
    rw [taken_entry hle' hfree, h.kept v (by omega) (by omega), hnone]
  rw [hrun, course, if_neg hex]
  by_cases hstop : m.pt d (pdx v) = none ∧ Exhausted m.fails.tail (m.freelist.length - 1)
  · obtain ⟨hmiss, hstop⟩ := hstop
    refine ⟨false, _, run_bind (mappages_stop (by rw [hdir, hmiss]) ?_),
      h.snoc_false hle (by omega) (by rw [← hv, hnone]) hfree rfl rfl rfl, ?_⟩
    · rw [hlen]
      exact hstop
    · rw [if_neg (by simp [hasTable, hmiss]), if_pos hstop]
      congr 2
      · funext i
        simp only [hasTable]
        rw [hdir]
      · exact hlen.symm
  · have hok : ((taken m p (fun _ => none) fun _ => 0).pt d (pdx v)).isSome = true ∨
        ¬ Exhausted (taken m p (fun _ => none) fun _ => 0).fails
          (taken m p (fun _ => none) fun _ => 0).freelist.length := by
      rw [hdir, hlen]
      by_cases hsome : (m.pt d (pdx v)).isSome = true
      · exact .inl hsome
      · exact .inr fun hex' => hstop ⟨by simpa using hsome, hex'⟩
    obtain ⟨m', hmap, hm', hfails, hflist⟩ := mappages_next true true 0 p
      (taken_le_one hle' hfree) (by omega) hent hok
    have hplaced : Placed d v ⟨p, true, true⟩ (fun _ => 0) m m' := hm'.placed hlt hle' hfree
    refine ⟨true, m', run_bind (a := true) hmap, h.snoc_true hle (by omega) (hv ▸ hplaced), ?_⟩
    have hhas : (m.pt d (pdx v)).isSome = hasTable d m (pdx v) := rfl
    rw [hdir, hhas] at hfails hflist
    have hmark : hasTable d m' = mark (hasTable d m) v := by
      funext i
      rw [mark, update_apply, hasTable, hplaced.dir]
      by_cases hi : i = pdx v
      · simp [hi]
      · simp [hi, hasTable]
    by_cases hsome : hasTable d m (pdx v) = true
    · have hsame : mark (hasTable d m) v = hasTable d m := by
        rw [mark, ← hsome, update_eq_self]
      rw [if_pos hsome] at hfails hflist ⊢
      rw [hmark, hsame, hfails, hflist, hlen]
      rfl
    · have hnex : ¬ Exhausted m.fails.tail (m.freelist.length - 1) :=
        fun hex' => hstop ⟨by simpa [hasTable] using hsome, hex'⟩
      rw [if_neg hsome] at hfails hflist ⊢
      rw [if_neg hnex, hmark, hfails, hflist, List.length_tail, hlen]
      rfl

theorem Grown.of_fails (h : Grown d a m₀ oks m) (fs : List Bool) :
    Grown d a m₀ oks { m with fails := fs } :=
  ⟨h.kept, h.mapped, h.lost, h.dir, h.le, h.same, h.leak, h.suffix, h.frame⟩

/-- **The loop of `allocuvm`** follows its course; when it is stopped it hands over to
`deallocuvm`. -/
theorem allocLoop_run (img : Image) (oldsz newsz : Nat) (hle : ∀ x, total (space d) m₀ x ≤ 1) :
    ∀ (n v : Nat) (m : Memory) (oks : List Bool), Grown d a m₀ oks m → v = a + oks.length →
    v + n ≤ 0x80000 → (∀ u, v ≤ u → u < v + n → entryAt m₀.pt d u = none) →
    ∃ m', Grown d a m₀
        (oks ++ (course (hasTable d m) m.fails m.freelist.length n v).tables) m' ∧
      allocLoop img d oldsz newsz n v m =
        if (course (hasTable d m) m.fails m.freelist.length n v).stopped then
          (do
            let _ ← deallocuvm img d newsz oldsz
            return 0) m'
        else .ok (newsz, m') := by
  intro n
  induction n with
  | zero =>
    intro v m oks h _ _ _
    refine ⟨m, ?_, rfl⟩
    rw [course, List.append_nil]
    exact h
  | succ n ih =>
    intro v m oks h hv hn hnone
    by_cases hex : Exhausted m.fails m.freelist.length
    · refine ⟨{ m with fails := m.fails.tail }, ?_, ?_⟩
      · rw [course, if_pos hex, List.append_nil]
        exact h.of_fails _
      · rw [course, if_pos hex, if_pos rfl, allocLoop, run_bind (kalloc_none hex)]
    · obtain ⟨b, m₁, hrun, h₁, hcourse⟩ := allocLoop_next img oldsz newsz n hle h hv (by omega) (hnone v (by omega) (by omega)) hex
      obtain ⟨m', h', hrun'⟩ := ih (v + 1) m₁ (oks ++ [b]) h₁ (by simp [hv, Nat.add_assoc])
        (by omega) fun u hu hu' => hnone u (by omega) (by omega)
      refine ⟨m', ?_, ?_⟩
      · rw [hcourse, Course.cons]
        rwa [List.append_assoc] at h'
      · rw [hrun, hcourse, hrun']
        rfl

/-! ## allocuvm -/

/-- The memory of an address space in order: no page of it is used twice or free, the free list has
no page twice, and all these pages are ones that `kfree` accepts. -/
structure Sound (img : Image) (d : Page) (m : Memory) : Prop where
  once : ∀ x, total (space d) m x ≤ 1
  given : ∀ v < 0x80000, ∀ c, entryAt m.pt d v = some c → Freeable img c.page
  free : ∀ p ∈ m.freelist, Freeable img p

theorem Sound.space (h : Sound img d m) : Space img m.pt d :=
  ⟨fun x => le_trans (Nat.le_add_left ..) (h.once x), h.given⟩

theorem Grown.sound (h : Grown d a m₀ oks m) (hs : Sound img d m₀) : Sound img d m := by
  refine ⟨h.le_one hs.once, fun v hv c hc => ?_, fun p hp => hs.free p (h.suffix.subset hp)⟩
  by_cases hin : a ≤ v ∧ v < a + oks.length
  · have hk : v - a < oks.length := by omega
    have hva : a + (v - a) = v := by omega
    cases hb : oks[v - a]? with
    | none => rw [List.getElem?_eq_none_iff] at hb; omega
    | some b =>
      cases b with
      | false =>
        have := h.lost _ hb
        rw [hva, hc] at this
        cases this
      | true =>
        obtain ⟨p, hp, hent, -⟩ := h.mapped _ hb
        rw [hva, hc] at hent
        cases hent
        exact hs.free p hp
  · rw [h.kept v (by omega) (by omega)] at hc
    exact hs.given v hv c hc

/-- The course of the loop of `allocuvm`. -/
def allocCourse (d : Page) (m : Memory) (oldsz newsz : Nat) : Course :=
  course (hasTable d m) m.fails m.freelist.length (pgroundup newsz - pgroundup oldsz)
    (pgroundup oldsz)

theorem allocuvm_run {oldsz newsz : Nat} (hs : Sound img d m) (ho : oldsz ≤ newsz)
    (hk : newsz < KERNBASE)
    (hnone : ∀ u, pgroundup oldsz ≤ u → u < pgroundup newsz → entryAt m.pt d u = none) :
    ∃ m₁, Grown d (pgroundup oldsz) m (allocCourse d m oldsz newsz).tables m₁ ∧
      if (allocCourse d m oldsz newsz).stopped then
        ∃ m₂, allocuvm img d oldsz newsz m = .ok (0, m₂) ∧
          Unmapped d (fun u => pgroundup oldsz ≤ u ∧ u < pgroundup newsz ∧
              ¬ Skipped m₁.pt d (pgroundup oldsz) u)
            (swept m₁.pt d (pgroundup oldsz) (pgroundup newsz)) m₁ m₂
      else allocuvm img d oldsz newsz m = .ok (newsz, m₁) := by
  have hmono : pgroundup oldsz ≤ pgroundup newsz := Nat.div_le_div_right (by omega)
  have hb : pgroundup newsz ≤ 0x80000 := by
    simp only [pgroundup, PGSIZE, KERNBASE] at *
    omega
  obtain ⟨m₁, hgrown, hrun⟩ := allocLoop_run img oldsz newsz
    hs.once (pgroundup newsz - pgroundup oldsz) (pgroundup oldsz) m [] (.refl d _ m) rfl
    (by omega) fun u hu hu' => hnone u hu (by omega)
  rw [List.nil_append] at hgrown
  refine ⟨m₁, hgrown, ?_⟩
  have halloc : allocuvm img d oldsz newsz m = allocLoop img d oldsz newsz
      (pgroundup newsz - pgroundup oldsz) (pgroundup oldsz) m := by
    rw [allocuvm, if_neg (by omega), if_neg (by omega)]
  rw [halloc, hrun]
  split
  · rename_i hst
    have hlt : oldsz < newsz := by
      by_contra hge
      have : pgroundup newsz - pgroundup oldsz = 0 := by
        rw [show newsz = oldsz by omega, Nat.sub_self]
      rw [allocCourse, this, course] at hst
      cases hst
    obtain ⟨m₂, hdealloc, hun⟩ := deallocuvm_run (hgrown.sound hs).space hlt hk.le
    refine ⟨m₂, ?_, hun⟩
    rw [allocCourse] at hst
    rw [if_pos hst, run_bind hdealloc]
    rfl
  · rename_i hst
    rw [allocCourse] at hst
    rw [if_neg hst]

/-- The pages from `a` up to `b` are mapped for the user to read and write, each to a page of its own
that was free before and is filled with zeros now. -/
def Delivered (d : Page) (a b : Nat) (m m' : Memory) : Prop :=
  (∀ u, a ≤ u → u < b → ∃ p ∈ m.freelist, entryAt m'.pt d u = some ⟨p, true, true⟩ ∧
    (m'.bytes p = fun _ => 0) ∧ p ∉ m'.freelist) ∧
  ∀ u u', a ≤ u → u < b → a ≤ u' → u' < b → entryAt m'.pt d u' = entryAt m'.pt d u → u' = u

/-- No page from `a` up to `b` is mapped, and every page that was free is free again or has become a
page table. -/
def Undone (d : Page) (a b : Nat) (m m' : Memory) : Prop :=
  (∀ u, a ≤ u → u < b → entryAt m'.pt d u = none) ∧
  ∀ p ∈ m.freelist, p ∈ m'.freelist ∨ ∃ i < NPTENTRIES, ∃ e, m'.pt d i = some e ∧ e.page = p

section Outcome

variable {b : Nat}
variable {l : List Page} {m₁ : Memory}

theorem Grown.delivered (h : Grown d a m oks m') (hs : Sound img d m) (hno : false ∉ oks)
    (hlen : b ≤ a + oks.length) (hb : b ≤ 0x80000) : Delivered d a b m m' := by
  have hget : ∀ u, a ≤ u → u < b → ∃ p ∈ m.freelist, entryAt m'.pt d u = some ⟨p, true, true⟩ ∧
      m'.bytes p = fun _ => 0 := by
    intro u hu hub
    cases hk : oks[u - a]? with
    | none => rw [List.getElem?_eq_none_iff] at hk; omega
    | some c =>
      cases c with
      | false => exact absurd (List.mem_of_getElem? hk) hno
      | true =>
        have := h.mapped _ hk
        rwa [show a + (u - a) = u by omega] at this
  have hle := h.le_one hs.once
  refine ⟨fun u hu hub => ?_, fun u u' hu hub hu' hub' heq => ?_⟩
  · obtain ⟨p, hp, hent, hbytes⟩ := hget u hu hub
    exact ⟨p, hp, hent, hbytes, (outside_of_entry hle (by omega) hent).1⟩
  · obtain ⟨p, -, hent, -⟩ := hget u hu hub
    exact entry_inj (fun x => le_trans (Nat.le_add_left ..) (hle x)) (by omega) (by omega) hent
      (heq.trans hent) rfl

/-- Nothing is lost when no page has disappeared and no page has been mapped. -/
theorem undone_of_total (hs : Sound img d m)
    (htot : ∀ x, total (space d) m' x = total (space d) m x)
    (hrange : ∀ u, a ≤ u → u < b → entryAt m'.pt d u = none)
    (hrest : ∀ u < 2 ^ 20, u < a ∨ b ≤ u → entryAt m'.pt d u = entryAt m.pt d u) :
    Undone d a b m m' := by
  refine ⟨hrange, fun p hp => ?_⟩
  have hcount := List.count_pos_iff.mpr hp
  have hzero := free_not_in_tree hs.once hp
  by_contra hnot
  rw [not_or] at hnot
  have htree : 0 < tree m'.pt d p := by
    have h1 := htot p
    have h2 := List.count_eq_zero_of_not_mem hnot.1
    simp only [total, space] at h1
    omega
  rcases tree_pos_cases htree with hd | ht | ⟨v, hv, c, hc, rfl⟩
  · exact page_ne_dir hzero hd
  · exact hnot.2 ht
  · by_cases hin : a ≤ v ∧ v < b
    · rw [hrange v hin.1 hin.2] at hc
      cases hc
    · rw [hrest v (by omega) (by omega)] at hc
      have := tree_of_entry hv hc
      omega

/-- `deallocuvm` after the loop: it leaves exactly the pages that it skips. -/
theorem Grown.unmapped_range (h : Grown d a m oks m₁)
    (hun : Unmapped d (fun u => a ≤ u ∧ u < b ∧ ¬ Skipped m₁.pt d a u) l m₁ m')
    (hb : b ≤ 0x80000) (hnone : ∀ u, a ≤ u → u < b → entryAt m.pt d u = none) {u : Nat}
    (hu : a ≤ u) (hub : u < b) :
    entryAt m'.pt d u = none ↔ ¬ (oks[u - a]? = some true ∧ Skipped m₁.pt d a u) := by
  by_cases hsk : Skipped m₁.pt d a u
  · rw [hun.kept u (by omega) fun hS => hS.2.2 hsk]
    simp only [hsk, and_true]
    have hua : a + (u - a) = u := by omega
    cases hk : oks[u - a]? with
    | none =>
      rw [List.getElem?_eq_none_iff] at hk
      simp only [reduceCtorEq, not_false_eq_true, iff_true]
      rw [h.kept u (by omega) (by omega), hnone u hu hub]
    | some c =>
      cases c with
      | false =>
        have := h.lost _ hk
        rw [hua] at this
        simp [this]
      | true =>
        obtain ⟨p, -, hent, -⟩ := h.mapped _ hk
        rw [hua] at hent
        simp [hent]
  · simp only [hun.gone u (by omega) ⟨hu, hub, hsk⟩, hsk, and_false, not_false_eq_true]

theorem Grown.unmapped_rest (h : Grown d a m oks m₁)
    (hun : Unmapped d (fun u => a ≤ u ∧ u < b ∧ ¬ Skipped m₁.pt d a u) l m₁ m')
    (hlen : a + oks.length ≤ b) {u : Nat} (hu : u < 2 ^ 20) (hout : u < a ∨ b ≤ u) :
    entryAt m'.pt d u = entryAt m.pt d u := by
  rw [hun.kept u hu (by omega), h.kept u hu (by omega)]

/-- When there was a table for the first page, nothing is skipped. -/
theorem Grown.not_skipped (h : Grown d a m oks m') (hok : oks[0]? = some true) (u : Nat) :
    ¬ Skipped m'.pt d a u := by
  have hsome := (h.dir (pdx a)).mpr (.inr ⟨0, hok, rfl⟩)
  obtain ⟨e, he⟩ := Option.isSome_iff_exists.mp hsome
  exact Mem.not_skipped he

/-- When there was a table for every page, `deallocuvm` undoes what the loop has done. -/
theorem Grown.undone (h : Grown d a m oks m₁) (hs : Sound img d m) (hno : false ∉ oks)
    (hun : Unmapped d (fun u => a ≤ u ∧ u < b ∧ ¬ Skipped m₁.pt d a u) l m₁ m')
    (hb : b ≤ 0x80000) (hlen : a + oks.length ≤ b)
    (hnone : ∀ u, a ≤ u → u < b → entryAt m.pt d u = none) : Undone d a b m m' := by
  refine undone_of_total hs (fun x => (hun.total x).trans (h.same hno x)) (fun u hu hub => ?_)
    fun u hu hout => h.unmapped_rest hun hlen hu hout
  refine (h.unmapped_range hun hb hnone hu hub).mpr ?_
  rintro ⟨hk, hsk⟩
  have hpos := (List.getElem?_eq_some_iff.mp hk).1
  cases h0 : oks[0]? with
  | none => rw [List.getElem?_eq_none_iff] at h0; omega
  | some c =>
    cases c with
    | false => exact hno (List.mem_of_getElem? h0)
    | true => exact h.not_skipped h0 u hsk

/-- A page that has been lost does not come back. -/
theorem Grown.not_undone {S : Nat → Prop} (h : Grown d a m oks m₁)
    (hlost : false ∈ oks) (hun : Unmapped d S l m₁ m') : ¬ Undone d a b m m' := by
  rintro ⟨-, hback⟩
  obtain ⟨p, hp, hp0⟩ := h.leak hlost
  rw [← hun.total, total, Nat.add_eq_zero_iff] at hp0
  rcases hback p hp with hmem | ⟨i, hi, e, he, rfl⟩
  · have := List.count_pos_iff.mpr hmem
    omega
  · have := table_le_tree (x := e.page) hi he
    simp only [space, one_self] at hp0 this
    omega

end Outcome

/-- **When `allocuvm` does what it reports.** It returns `newsz` or 0; if and only if there is memory
for every page table that is missing, the result `newsz` means that the whole range is mapped to new
pages filled with zeros, and the result 0 that nothing of it is mapped and no page is missing. -/
theorem allocuvm_delivers_iff {oldsz newsz : Nat} (hs : Sound img d m) (ho : oldsz ≤ newsz)
    (hk : newsz < KERNBASE)
    (hnone : ∀ u, pgroundup oldsz ≤ u → u < pgroundup newsz → entryAt m.pt d u = none) :
    (∃ r m', allocuvm img d oldsz newsz m = .ok (r, m') ∧ (r = newsz ∨ r = 0) ∧
        (r = newsz → r ≠ 0 → Delivered d (pgroundup oldsz) (pgroundup newsz) m m') ∧
        (r = 0 → Undone d (pgroundup oldsz) (pgroundup newsz) m m')) ↔
      false ∉ (allocCourse d m oldsz newsz).tables := by
  have hb : pgroundup newsz ≤ 0x80000 := by
    simp only [pgroundup, PGSIZE, KERNBASE] at *
    omega
  have hmono : pgroundup oldsz ≤ pgroundup newsz := Nat.div_le_div_right (by omega)
  have hlen : pgroundup oldsz + (allocCourse d m oldsz newsz).tables.length ≤ pgroundup newsz := by
    have : (allocCourse d m oldsz newsz).tables.length ≤ _ := course_length_le ..
    omega
  obtain ⟨m₁, hgrown, hrun⟩ := allocuvm_run hs ho hk hnone
  cases hst : (allocCourse d m oldsz newsz).stopped with
  | true =>
    rw [hst, if_pos rfl] at hrun
    obtain ⟨m₂, hrun, hun⟩ := hrun
    rw [hrun]
    constructor
    · rintro ⟨r, m', heq, -, -, hzero⟩ hlost
      cases heq
      exact hgrown.not_undone hlost hun (hzero rfl)
    · intro hno
      exact ⟨0, m₂, rfl, .inr rfl, fun _ h0 => absurd rfl h0,
        fun _ => hgrown.undone hs hno hun hb hlen hnone⟩
  | false =>
    rw [hst, if_neg Bool.false_ne_true] at hrun
    have hfull : (allocCourse d m oldsz newsz).tables.length
        = pgroundup newsz - pgroundup oldsz := course_length _ _ _ _ _ hst
    rw [hrun]
    constructor
    · rintro ⟨r, m', heq, -, hdel, -⟩ hlost
      cases heq
      obtain ⟨k, hk', hget⟩ := List.mem_iff_getElem.mp hlost
      have hgone := hgrown.lost k (List.getElem?_eq_some_iff.mpr ⟨hk', hget⟩)
      have hpos : newsz ≠ 0 := by
        rintro rfl
        simp only [pgroundup, PGSIZE] at hfull
        omega
      obtain ⟨p, -, hent, -⟩ := (hdel rfl hpos).1 (pgroundup oldsz + k) (by omega) (by omega)
      rw [hgone] at hent
      cases hent
    · intro hno
      refine ⟨newsz, m₁, rfl, .inl rfl, fun _ _ => hgrown.delivered hs hno (by omega) hb, ?_⟩
      rintro rfl
      have hz : pgroundup 0 = 0 := by decide
      refine undone_of_total hs (hgrown.same hno) (fun u hu hub => by omega) fun u hu hout =>
        hgrown.kept u hu ?_
      omega

/-- A memory with nothing in it but the free list `l`. -/
def freePages (l : List Page) : Memory := { Memory.start with freelist := l }

theorem sound_freePages {l : List Page} (hl : l.Nodup) (hd : d ∉ l)
    (hfree : ∀ p ∈ l, Freeable img p) : Sound img d (freePages l) := by
  refine ⟨fun x => ?_, fun v _ c hc => (nomatch hc), hfree⟩
  simp only [total, space, freePages, Memory.start]
  rw [tree_empty fun _ => rfl]
  by_cases hx : x ∈ l
  · rw [List.count_eq_one_of_mem hl hx, one_of_ne (p := d) fun heq => hd (heq ▸ hx)]
  · rw [List.count_eq_zero_of_not_mem hx, one]
    split <;> omega

theorem sound_onePage : Sound smallImage 0x400 (freePages [0x401]) :=
  sound_freePages (by decide) (by decide) (by unfold Freeable; decide)

theorem sound_twoPages : Sound smallImage 0x400 (freePages [0x401, 0x402]) :=
  sound_freePages (by decide) (by decide) (by unfold Freeable; decide)

theorem allocuvm_delivers_twoPages :
    ∃ r m', allocuvm smallImage 0x400 0 PGSIZE (freePages [0x401, 0x402]) = .ok (r, m') ∧
      (r = PGSIZE ∨ r = 0) ∧
      (r = PGSIZE → r ≠ 0 → Delivered 0x400 (pgroundup 0) (pgroundup PGSIZE)
        (freePages [0x401, 0x402]) m') ∧
      (r = 0 → Undone 0x400 (pgroundup 0) (pgroundup PGSIZE) (freePages [0x401, 0x402]) m') :=
  (allocuvm_delivers_iff sound_twoPages (by decide) (by decide) fun _ _ _ => rfl).mpr
    (by decide +kernel)

/-- With a single free page there is none left for the page table: `allocuvm` reports success, but
the page is not mapped. -/
theorem allocuvm_onePage_unmapped :
    Sound smallImage 0x400 (freePages [0x401]) ∧
      (∀ u, entryAt (freePages [0x401]).pt 0x400 u = none) ∧
      ∃ m', allocuvm smallImage 0x400 0 PGSIZE (freePages [0x401]) = .ok (PGSIZE, m') ∧
        pgroundup 0 ≤ 0 ∧ 0 < pgroundup PGSIZE ∧ entryAt m'.pt 0x400 0 = none ∧
        m'.freelist = [] :=
  ⟨sound_onePage, fun _ => rfl, taken (freePages [0x401]) 0x401 (fun _ => none) fun _ => 0, rfl,
    by decide, by decide, rfl, rfl⟩

end StrideXv6.Mem
