import StrideXv6.Mem.Unmap

set_option autoImplicit false

/-! # What mappages maps

The outcome of one iteration of `mappages`, depending on whether the page table exists and on
whether `kalloc` finds a page for it: either the page is mapped and nothing else changes (`Mapped`),
or there is no memory for the table and nothing changes at all.

A page that is not free and neither the directory nor one of its tables is `Outside`: the work on
the address space does not touch it. That is how the memory of other processes, and the pages
mapped before, keep their contents.
-/

namespace StrideXv6.Mem

open Hoare Function

variable {m m' m₁ : Memory} {d t p : Page} {e c : Pte} {v : Nat}

/-! ## kalloc -/

/-- `kalloc` finds no page. -/
def Exhausted (fails : List Bool) (free : Nat) : Prop := fails.headD false = true ∨ free = 0

instance (fails : List Bool) (free : Nat) : Decidable (Exhausted fails free) :=
  inferInstanceAs (Decidable (_ ∨ _))

theorem kalloc_none (h : Exhausted m.fails m.freelist.length) :
    kalloc m = .ok (none, { m with fails := m.fails.tail }) := by
  rw [kalloc]
  rcases h with h | h
  · rw [if_pos h]
  · rw [List.length_eq_zero_iff.mp h, ite_self]

theorem kalloc_some (h : ¬ Exhausted m.fails m.freelist.length) :
    ∃ p ps, m.freelist = p :: ps ∧
      kalloc m = .ok (some p, { m with fails := m.fails.tail, freelist := ps }) := by
  rw [Exhausted, not_or] at h
  cases hl : m.freelist with
  | nil => rw [hl] at h; exact absurd rfl h.2
  | cons p ps =>
    refine ⟨p, ps, rfl, ?_⟩
    rw [kalloc, if_neg h.1, hl]

/-! ## Stores into the tables -/

/-- Not free, and neither the directory nor one of its tables. -/
def Outside (d : Page) (m : Memory) (x : Page) : Prop :=
  x ∉ m.freelist ∧ x ≠ d ∧ ∀ i < NPTENTRIES, ∀ e, m.pt d i = some e → e.page ≠ x

/-- The pages that are mapped are outside. -/
theorem outside_of_entry (h : ∀ x, total (space d) m x ≤ 1) (hv : v < 0x80000)
    (hc : entryAt m.pt d v = some c) : Outside d m c.page := by
  have htree := tree_of_entry hv hc
  have h1 := h c.page
  simp only [total, space] at h1
  refine ⟨fun hfree => ?_, fun hd => ?_, fun i hi e he => ?_⟩
  · have := List.count_pos_iff.mpr hfree
    omega
  · rw [hd, one_self] at htree
    rw [hd] at h1
    omega
  · refine entry_ne_table (fun x => ?_) hv hc hi he
    exact le_trans (Nat.le_add_left ..) (h x)

/-- So are the pages that the address space has nothing to do with. -/
theorem outside_of_total {x : Page} (h : total (space d) m x = 0) : Outside d m x := by
  simp only [total, space] at h
  refine ⟨fun hfree => ?_, fun hd => ?_, fun i hi e he hx => ?_⟩
  · have := List.count_pos_iff.mpr hfree
    omega
  · rw [hd] at h
    have := tree_dir_pos m.pt d
    omega
  · have := table_le_tree (x := x) hi he
    rw [hx, one_self] at this
    omega

/-- The virtual page `v` has been mapped by the entry `c`. -/
structure Mapped (d : Page) (v : Nat) (c : Pte) (m m' : Memory) : Prop where
  entry : ∀ u < 2 ^ 20, entryAt m'.pt d u = if u = v then some c else entryAt m.pt d u
  dir : ∀ i, (m'.pt d i).isSome = (decide (i = pdx v) || (m.pt d i).isSome)
  total : ∀ x, total (space d) m' x
    = total (space d) m x + if pdx v < userEntries then one c.page x else 0
  suffix : m'.freelist <:+ m.freelist
  frame : ∀ x, Outside d m x → Outside d m' x ∧ m'.pt x = m.pt x ∧ m'.bytes x = m.bytes x

/-- The entry is stored into a table that exists. -/
theorem mapped_store (hle : ∀ x, tree m.pt d x ≤ 1) (hv : v < 2 ^ 20)
    (he : m.pt d (pdx v) = some e) (hnone : m.pt e.page (ptx v) = none) {b : Bytes}
    (hpt : m'.pt = setPte m.pt e.page (ptx v) (some c))
    (hbytes : m'.bytes = Function.update m.bytes e.page b)
    (hfree : m'.freelist = m.freelist) : Mapped d v c m m' := by
  have hne := table_ne_dir hle (pdx_lt v) he
  have hdir : m'.pt d = m.pt d := by rw [hpt, setPte_of_ne _ _ _ hne.symm]
  refine ⟨fun u hu => ?_, fun i => ?_, fun x => ?_, hfree ▸ List.suffix_refl _, fun x hx => ?_⟩
  · rw [hpt, entryAt_set_pte hle hv hu he]
  · rw [hdir]
    by_cases hi : i = pdx v
    · rw [hi, he]
      simp
    · simp [hi]
  · have := tree_set_pte hle (pdx_lt v) (ptx_lt v) he (some c) x
    rw [hnone] at this
    simp only [Mem.total, space, hfree, hpt, cell, ite_self] at this ⊢
    omega
  · have hxe : x ≠ e.page := (hx.2.2 _ (pdx_lt v) e he).symm
    refine ⟨⟨hfree ▸ hx.1, hx.2.1, fun i hi e' he' => hx.2.2 i hi e' (hdir ▸ he')⟩, ?_, ?_⟩
    · rw [hpt, setPte_of_ne _ _ _ hxe]
    · rw [hbytes, update_of_ne hxe]

theorem free_not_in_tree (hle : ∀ x, total (space d) m x ≤ 1) (ht : t ∈ m.freelist) :
    tree m.pt d t = 0 := by
  have h1 := List.count_pos_iff.mpr ht
  have h2 := hle t
  simp only [total, space] at h2
  omega

/-- The memory after `walkpgdir` made a table of the page `t`, with the pages `ps` left. -/
def newTable (m : Memory) (d t : Page) (v : Nat) (ps : List Page) : Memory :=
  { m with
    fails := m.fails.tail
    freelist := ps
    pt := withTable m.pt d t (pdx v)
    bytes := Function.update (Function.update m.bytes t fun _ => 0) d
      (putWord (Function.update m.bytes t (fun _ => 0) d) (pdx v)
        (pteWord (some ⟨t, true, true⟩))) }

theorem walkpgdir_new {ps : List Page} (hnone : m.pt d (pdx v) = none)
    (hk : kalloc m = .ok (some t, { m with fails := m.fails.tail, freelist := ps })) :
    walkpgdir d v true m = .ok (some (t, ptx v), newTable m d t v ps) := by
  rw [walkpgdir, run_get, hnone]
  dsimp only
  rw [if_pos rfl, run_bind hk]
  rfl

/-- A page from the free list becomes the table, and the entry is stored into it. -/
theorem mapped_table {ps : List Page} (hle : ∀ x, total (space d) m x ≤ 1)
    (hnone : m.pt d (pdx v) = none) (hfree : m.freelist = t :: ps) {b b' : Bytes}
    (hpt : m₁.pt = withTable m.pt d t (pdx v))
    (hbytes : m₁.bytes = Function.update (Function.update m.bytes t b) d b')
    (hps : m₁.freelist = ps) (h : Mapped d v c m₁ m') : Mapped d v c m m' := by
  have ht : tree m.pt d t = 0 := free_not_in_tree hle (by rw [hfree]; exact List.mem_cons_self)
  have htree : ∀ x, tree m.pt d x ≤ 1 := fun x => le_trans (Nat.le_add_left ..) (hle x)
  refine ⟨fun u hu => ?_, fun i => ?_, fun x => ?_, ?_, fun x hx => ?_⟩
  · rw [h.entry u hu, hpt, entryAt_withTable htree ht hnone]
  · rw [h.dir, hpt, withTable_dir (page_ne_dir ht)]
    by_cases hi : i = pdx v
    · simp [hi]
    · simp [hi]
  · rw [h.total x]
    have := tree_withTable htree ht (pdx_lt v) hnone x
    simp only [Mem.total, space, hps, hpt, hfree, List.count_cons, beq_iff_eq, one] at this ⊢
    omega
  · exact h.suffix.trans (by rw [hps, hfree]; exact List.suffix_cons t ps)
  · obtain ⟨hxf, hxd, hxt⟩ := hx
    have hne : x ≠ t := fun heq => hxf (by rw [heq, hfree]; exact List.mem_cons_self)
    have hout : Outside d m₁ x := by
      refine ⟨fun hmem => hxf (by rw [hfree]; exact List.mem_cons_of_mem _ (hps ▸ hmem)), hxd, ?_⟩
      intro i hi e he
      rw [hpt, withTable_dir (page_ne_dir ht)] at he
      split at he
      · cases he
        exact hne.symm
      · exact hxt i hi e he
    obtain ⟨h1, h2, h3⟩ := h.frame x hout
    refine ⟨h1, ?_, ?_⟩
    · rw [h2, hpt, withTable, update_of_ne hxd, update_of_ne hne]
    · rw [h3, hbytes, update_of_ne hxd, update_of_ne hne]

/-! ## mappages -/

/-- There is no memory for the table. -/
theorem mappages_stop {w u : Bool} {n : Nat} {pa : Page} (hnone : m.pt d (pdx v) = none)
    (hex : Exhausted m.fails m.freelist.length) :
    mappages d w u (n + 1) v pa m = .ok (false, { m with fails := m.fails.tail }) := by
  have hwalk : walkpgdir d v true m = .ok (none, { m with fails := m.fails.tail }) := by
    rw [walkpgdir, run_get, hnone]
    dsimp only
    rw [if_pos rfl, run_bind (kalloc_none hex)]
    rfl
  rw [mappages, run_bind hwalk]
  rfl

/-- The page is mapped, and `mappages` goes on with the next one. -/
theorem mappages_next (w u : Bool) (n : Nat) (pa : Page) (hle : ∀ x, total (space d) m x ≤ 1)
    (hv : v < 2 ^ 20) (hnone : entryAt m.pt d v = none)
    (hok : (m.pt d (pdx v)).isSome = true ∨ ¬ Exhausted m.fails m.freelist.length) :
    ∃ m', mappages d w u (n + 1) v pa m = mappages d w u n (v + 1) (pa + 1) m' ∧
      Mapped d v ⟨pa, w, u⟩ m m' ∧
      m'.fails = (if (m.pt d (pdx v)).isSome then m.fails else m.fails.tail) ∧
      m'.freelist = (if (m.pt d (pdx v)).isSome then m.freelist else m.freelist.tail) := by
  have htree : ∀ x, tree m.pt d x ≤ 1 := fun x => le_trans (Nat.le_add_left ..) (hle x)
  cases he : m.pt d (pdx v) with
  | some e =>
    have hwalk : walkpgdir d v true m = .ok (some (e.page, ptx v), m) := by
      rw [walkpgdir, run_get, he]
      rfl
    have hent : m.pt e.page (ptx v) = none := by rw [← entryAt_of_some he, hnone]
    rw [mappages, run_bind hwalk]
    dsimp only
    rw [run_get, hent]
    exact ⟨_, run_bind rfl, mapped_store htree hv he hent rfl rfl rfl, rfl, rfl⟩
  | none =>
    rw [he] at hok
    obtain ⟨t, ps, hfree, hk⟩ := kalloc_some (hok.resolve_left (by simp))
    let m₁ := newTable m d t v ps
    have hwalk : walkpgdir d v true m = .ok (some (t, ptx v), m₁) := walkpgdir_new he hk
    have ht : tree m.pt d t = 0 := free_not_in_tree hle (by rw [hfree]; exact List.mem_cons_self)
    have hdir : m₁.pt d (pdx v) = some ⟨t, true, true⟩ := by
      show withTable m.pt d t (pdx v) d (pdx v) = _
      rw [withTable_dir (page_ne_dir ht), if_pos rfl]
    have hent : m₁.pt t (ptx v) = none := withTable_new (page_ne_dir ht) (ptx v)
    have hle₁ : ∀ x, tree m₁.pt d x ≤ 1 := by
      intro x
      have h1 := tree_withTable htree ht (pdx_lt v) he x
      have h2 := hle x
      simp only [total, space, hfree, List.count_cons, beq_iff_eq, one] at h1 h2
      show tree (withTable m.pt d t (pdx v)) d x ≤ 1
      omega
    rw [mappages, run_bind hwalk]
    dsimp only
    rw [run_get, hent]
    refine ⟨_, run_bind rfl, mapped_table hle he hfree rfl rfl rfl
      (mapped_store hle₁ hv hdir hent rfl rfl rfl), rfl, ?_⟩
    rw [hfree]
    rfl

end StrideXv6.Mem
