import StrideXv6.Mem.Book

set_option autoImplicit false

/-! # What deallocuvm frees

`deallocuvm` goes through the pages from `PGROUNDUP(newsz)` on. Where a page table is missing it
goes on by the size of a whole table, and not to the start of the next one. So as long as it has not
come to a table, it only looks at pages with one and the same index `PTX` (`Skipped` are the pages
it jumps over); from the first table on it looks at every page.

`deallocuvm_run` says exactly what a call does, for every address space as the kernel builds them
(`Space`), and `deallocuvm_frees_iff` when it frees the whole range.
-/

namespace StrideXv6.Mem

open Hoare Function

/-! ## Address spaces -/

/-- The pages `kfree` accepts. -/
def Freeable (img : Image) (p : Page) : Prop := img.end_ ≤ p ∧ p < physPages

theorem Freeable.ne_zero {img : Image} {p : Page} (h : Freeable img p) : p ≠ 0 := by
  have h1 := img.linked
  have h2 := img.ordered
  exact Nat.ne_of_gt (lt_of_lt_of_le (by omega) h.1)

/-- No page is used twice, and what is mapped in the user part has come from `kalloc`. -/
structure Space (img : Image) (pt : Pt) (d : Page) : Prop where
  once : ∀ x, tree pt d x ≤ 1
  given : ∀ v < 0x80000, ∀ c, entryAt pt d v = some c → Freeable img c.page

variable {img : Image} {m m' : Memory} {d p : Page} {e c : Pte} {u v : Nat}

theorem mul_lt_iff_pgroundup {sz : Nat} : v * PGSIZE < sz ↔ v < pgroundup sz := by
  simp only [pgroundup, PGSIZE]
  omega

theorem entryAt_of_some (he : m.pt d (pdx v) = some e) :
    entryAt m.pt d v = m.pt e.page (ptx v) := by
  rw [entryAt, he, Option.bind_some]

theorem entryAt_of_none (he : m.pt d (pdx v) = none) : entryAt m.pt d v = none := by
  rw [entryAt, he]
  rfl

theorem kfree_ok (h : Freeable img p) (m : Memory) :
    kfree img p m = .ok ((), { m with
      freelist := p :: m.freelist
      pt := Function.update m.pt p junk
      bytes := Function.update m.bytes p (putWord (fun _ => 1) 0 (link m.freelist)) }) := by
  rw [kfree, if_neg (not_or.mpr ⟨Nat.not_lt.mpr h.1, Nat.not_le.mpr h.2⟩)]
  rfl

/-! ## One page -/

/-- The entries of the pages in `S` have been removed, and the pages `l` have been freed, the first
one first. Pages that are neither free nor part of the address space have not been touched. -/
structure Unmapped (d : Page) (S : Nat → Prop) (l : List Page) (m m' : Memory) : Prop where
  dir : m'.pt d = m.pt d
  gone : ∀ u < 2 ^ 20, S u → entryAt m'.pt d u = none
  kept : ∀ u < 2 ^ 20, ¬ S u → entryAt m'.pt d u = entryAt m.pt d u
  freelist : m'.freelist = l.reverse ++ m.freelist
  fails : m'.fails = m.fails
  frame : ∀ x, total (space d) m x = 0 → m'.pt x = m.pt x ∧ m'.bytes x = m.bytes x
  total : ∀ x, total (space d) m' x = total (space d) m x
  tree_le : ∀ x, tree m'.pt d x ≤ tree m.pt d x

theorem Unmapped.refl (S : Nat → Prop) (hS : ∀ u < 2 ^ 20, S u → entryAt m.pt d u = none) :
    Unmapped d S [] m m :=
  ⟨rfl, hS, fun _ _ _ => rfl, rfl, rfl, fun _ _ => ⟨rfl, rfl⟩, fun _ => rfl, fun _ => le_refl _⟩

theorem Unmapped.trans {m₁ : Memory} {S T U : Nat → Prop} {k l : List Page}
    (h : Unmapped d S k m m₁) (h' : Unmapped d T l m₁ m')
    (hU : ∀ u < 2 ^ 20, U u ↔ S u ∨ T u) : Unmapped d U (k ++ l) m m' := by
  refine ⟨h'.dir.trans h.dir, fun u hu hUu => ?_, fun u hu hUu => ?_, ?_, h'.fails.trans h.fails,
    fun x hx => ?_, fun x => (h'.total x).trans (h.total x),
    fun x => (h'.tree_le x).trans (h.tree_le x)⟩
  · by_cases hT : T u
    · exact h'.gone u hu hT
    · rw [h'.kept u hu hT, h.gone u hu (((hU u hu).mp hUu).resolve_right hT)]
  · rw [hU u hu, not_or] at hUu
    rw [h'.kept u hu hUu.2, h.kept u hu hUu.1]
  · rw [h'.freelist, h.freelist, List.reverse_append, List.append_assoc]
  · obtain ⟨h1, h2⟩ := h.frame x hx
    obtain ⟨h3, h4⟩ := h'.frame x (by rw [h.total, hx])
    exact ⟨h3.trans h1, h4.trans h2⟩

theorem Unmapped.space {S : Nat → Prop} {l : List Page} (h : Unmapped d S l m m')
    (hs : Space img m.pt d) : Space img m'.pt d := by
  refine ⟨fun x => (h.tree_le x).trans (hs.once x), fun v hv c hc => ?_⟩
  by_cases hS : S v
  · rw [h.gone v (by omega) hS] at hc
    cases hc
  · rw [h.kept v (by omega) hS] at hc
    exact hs.given v hv c hc

/-- The two stores of an iteration of `deallocuvm` are to different pages. -/
theorem unmapped_entry (hs : ∀ x, tree m.pt d x ≤ 1) (hv : v < 0x80000)
    (he : m.pt d (pdx v) = some e) (hc : m.pt e.page (ptx v) = some c)
    (hpt : m'.pt = setPte (Function.update m.pt c.page junk) e.page (ptx v) none) {b b' : Bytes}
    (hbytes : m'.bytes = Function.update (Function.update m.bytes c.page b) e.page b')
    (hfree : m'.freelist = c.page :: m.freelist) (hfails : m'.fails = m.fails) :
    Unmapped d (fun u => u = v) [c.page] m m' := by
  have hu : pdx v < userEntries := by
    simp only [pdx, userEntries]
    omega
  have hne := entry_ne_table hs hv ((entryAt_of_some he).trans hc) (pdx_lt v) he
  have hgone := tree_unmapped hs hu (pdx_lt v) (ptx_lt v) he hc
  have hpt : m'.pt = Function.update (setPte m.pt e.page (ptx v) none) c.page junk := by
    rw [hpt, setPte, update_of_ne hne, update_comm hne.symm]
    rfl
  have htree := tree_unmap hs hu (pdx_lt v) (ptx_lt v) he hc junk
  refine ⟨?_, fun u hu' hS => ?_, fun u hu' hS => ?_, hfree, hfails, fun x hx => ?_, fun x => ?_,
    fun x => ?_⟩
  · rw [hpt, update_of_ne (page_ne_dir hgone),
      setPte_of_ne _ _ _ (table_ne_dir hs (pdx_lt v) he).symm]
  · rw [hpt, entryAt_update_free hgone, entryAt_set_pte hs (by omega) hu' he, if_pos hS]
  · rw [hpt, entryAt_update_free hgone, entryAt_set_pte hs (by omega) hu' he, if_neg hS]
  · -- both pages belong to the address space
    have hx0 : tree m.pt d x = 0 := by
      simp only [total, space] at hx
      omega
    have hxc : x ≠ c.page := by
      rintro rfl
      have := tree_of_entry hv ((entryAt_of_some he).trans hc)
      omega
    have hxe : x ≠ e.page := by
      rintro rfl
      have := table_le_tree (x := e.page) (pdx_lt v) he
      rw [one_self] at this
      omega
    constructor
    · rw [hpt, update_of_ne hxc, setPte_of_ne _ _ _ hxe]
    · rw [hbytes, update_of_ne hxe, update_of_ne hxc]
  · have := htree x
    simp only [total, space, hfree, hpt, List.count_cons, beq_iff_eq, one] at this ⊢
    omega
  · rw [hpt, ← htree x]
    exact Nat.le_add_right ..

theorem unmap_page (hs : ∀ x, tree m.pt d x ≤ 1) (hv : v < 0x80000)
    (he : m.pt d (pdx v) = some e) (hc : m.pt e.page (ptx v) = some c)
    (hfree : Freeable img c.page) {α : Type} (f : M α) :
    ∃ m', (do kfree img c.page; setEntry e.page (ptx v) none; f : M α) m = f m' ∧
      Unmapped d (fun u => u = v) [c.page] m m' := by
  rw [run_bind (kfree_ok hfree m)]
  exact ⟨_, run_bind rfl, unmapped_entry hs hv he hc rfl rfl rfl rfl⟩

/-! ## The loop -/

/-- The pages that the loop of `deallocuvm` jumps over when it starts at `v`. -/
def Skipped (pt : Pt) (d : Page) (v u : Nat) : Prop :=
  ptx u < ptx v ∧ pdx v < pdx u ∧ ∀ k < pdx u, pdx v ≤ k → pt d k = none

instance (pt : Pt) (d : Page) (v u : Nat) : Decidable (Skipped pt d v u) :=
  inferInstanceAs (Decidable (_ ∧ _ ∧ _))

theorem not_skipped (he : m.pt d (pdx v) = some e) : ¬ Skipped m.pt d v u := by
  rintro ⟨-, hlt, hnone⟩
  rw [hnone (pdx v) hlt (le_refl _)] at he
  cases he

theorem not_skipped_succ (hv : v < 0x80000) (he : m.pt d (pdx v) = some e) :
    ¬ Skipped m.pt d (v + 1) u := by
  by_cases hal : ptx (v + 1) = 0
  · rintro ⟨hlt, -⟩
    rw [hal] at hlt
    exact absurd hlt (Nat.not_lt_zero _)
  · have : pdx (v + 1) = pdx v := by
      simp only [pdx, ptx] at *
      omega
    rw [← this] at he
    exact not_skipped he

theorem skipped_jump (hnone : m.pt d (pdx v) = none) (hv : v < 0x80000) (hu : u < 2 ^ 20)
    (hle : v + NPTENTRIES ≤ u) :
    Skipped m.pt d v u ↔ Skipped m.pt d (v + NPTENTRIES) u := by
  have hpdx : pdx (v + NPTENTRIES) = pdx v + 1 := by
    simp only [pdx, NPTENTRIES]
    omega
  have hptx : ptx (v + NPTENTRIES) = ptx v := by
    simp only [ptx, NPTENTRIES]
    omega
  have hle' : pdx v + 1 ≤ pdx u := by
    simp only [pdx, NPTENTRIES] at *
    omega
  have heq : pdx u = pdx v + 1 → ¬ ptx u < ptx v := by
    simp only [pdx, ptx, NPTENTRIES] at *
    omega
  unfold Skipped
  rw [hpdx, hptx]
  constructor
  · rintro ⟨h1, h2, h3⟩
    have hne : pdx u ≠ pdx v + 1 := fun h => heq h h1
    exact ⟨h1, by omega, fun k hk hk' => h3 k hk (by omega)⟩
  · rintro ⟨h1, h2, h3⟩
    refine ⟨h1, by omega, fun k hk hk' => ?_⟩
    by_cases hkv : k = pdx v
    · rw [hkv, hnone]
    · exact h3 k hk (by omega)

/-- In the row of a missing table nothing is mapped, and the next row is skipped up to the index
the loop goes on with. -/
theorem none_or_skipped (hnone : m.pt d (pdx v) = none) (hv : v < 0x80000) (hle : v ≤ u)
    (hlt : u < v + NPTENTRIES) : entryAt m.pt d u = none ∨ Skipped m.pt d v u := by
  by_cases hrow : pdx u = pdx v
  · exact .inl (entryAt_of_none (hrow ▸ hnone))
  · have h1 : pdx u = pdx v + 1 := by
      simp only [pdx, NPTENTRIES] at *
      omega
    have h2 : ptx u < ptx v := by
      simp only [pdx, ptx, NPTENTRIES] at *
      omega
    refine .inr ⟨h2, by omega, fun k hk hk' => ?_⟩
    obtain rfl : k = pdx v := by omega
    exact hnone

/-- The pages that the loop frees, from `v` up to `b`. -/
def swept (pt : Pt) (d : Page) (v b : Nat) : List Page :=
  (List.range' v (b - v)).filterMap fun u =>
    if Skipped pt d v u then none else (entryAt pt d u).map Pte.page

/-- The pages present from `v` up to `b`. -/
def present (pt : Pt) (d : Page) (v b : Nat) : List Page :=
  (List.range' v (b - v)).filterMap fun u => (entryAt pt d u).map Pte.page

theorem swept_eq_present {pt : Pt} {b : Nat}
    (h : ∀ u, v ≤ u → u < b → Skipped pt d v u → entryAt pt d u = none) :
    swept pt d v b = present pt d v b := by
  refine List.filterMap_congr fun u hu => ?_
  rw [List.mem_range'_1] at hu
  split
  · rename_i hs
    rw [h u (by omega) (by omega) hs]
    rfl
  · rfl

theorem present_succ {pt : Pt} {b : Nat} (hb : v < b) :
    present pt d v b = ((entryAt pt d v).map Pte.page).toList ++ present pt d (v + 1) b := by
  unfold present
  rw [show b - v = (b - (v + 1)) + 1 by omega, List.range'_succ, List.filterMap_cons]
  cases entryAt pt d v <;> rfl

theorem present_congr {pt pt' : Pt} {b : Nat}
    (h : ∀ u, v ≤ u → u < b → entryAt pt d u = entryAt pt' d u) :
    present pt d v b = present pt' d v b := by
  refine List.filterMap_congr fun u hu => ?_
  rw [List.mem_range'_1] at hu
  rw [h u (by omega) (by omega)]

theorem swept_jump {b : Nat} (hnone : m.pt d (pdx v) = none) (hb : b ≤ 0x80000) (hv : v < b) :
    swept m.pt d v b = swept m.pt d (v + NPTENTRIES) b := by
  have hnil : ∀ n ≤ NPTENTRIES, (List.range' v n).filterMap (fun u =>
      if Skipped m.pt d v u then none else (entryAt m.pt d u).map Pte.page) = [] := by
    intro n hn
    refine List.filterMap_eq_nil_iff.mpr fun u hu => ?_
    rw [List.mem_range'_1] at hu
    rcases none_or_skipped hnone (by omega) hu.1 (by omega) with h | h
    · rw [h]
      simp
    · rw [if_pos h]
  by_cases hend : b ≤ v + NPTENTRIES
  · rw [swept, hnil _ (by omega), swept, Nat.sub_eq_zero_of_le hend]
    rfl
  · unfold swept
    rw [show b - v = NPTENTRIES + (b - (v + NPTENTRIES)) by omega, ← List.range'_append_1,
      List.filterMap_append, hnil _ (le_refl _), List.nil_append]
    refine List.filterMap_congr fun u hu => ?_
    rw [List.mem_range'_1] at hu
    simp only [skipped_jump hnone (by omega) (show u < 2 ^ 20 by omega) hu.1]

/-- **The loop of `deallocuvm`.** From `v` up to `oldsz`, exactly the pages that are not skipped are
freed. -/
theorem deallocLoop_run {oldsz : Nat} (hold : oldsz ≤ KERNBASE) : ∀ (n v : Nat) (m : Memory),
    Space img m.pt d → oldsz ≤ (v + n) * PGSIZE →
    ∃ m', deallocLoop img d oldsz n v m = .ok ((), m') ∧
      Unmapped d (fun u => v ≤ u ∧ u < pgroundup oldsz ∧ ¬ Skipped m.pt d v u)
        (swept m.pt d v (pgroundup oldsz)) m m' := by
  have hb : pgroundup oldsz ≤ 0x80000 := by
    simp only [pgroundup, PGSIZE, KERNBASE] at *
    omega
  have hdone : ∀ (v : Nat) (m : Memory), oldsz ≤ v * PGSIZE →
      Unmapped d (fun u => v ≤ u ∧ u < pgroundup oldsz ∧ ¬ Skipped m.pt d v u)
        (swept m.pt d v (pgroundup oldsz)) m m := by
    intro v m hv
    have hle : pgroundup oldsz ≤ v := by
      rw [← Nat.not_lt, mul_lt_iff_pgroundup] at hv
      omega
    rw [swept, Nat.sub_eq_zero_of_le hle]
    exact .refl _ fun u _ hu => by omega
  intro n
  induction n with
  | zero => exact fun v m _ hn => ⟨m, rfl, hdone v m hn⟩
  | succ n ih =>
    intro v m hs hn
    rw [deallocLoop]
    by_cases hend : oldsz ≤ v * PGSIZE
    · rw [if_pos hend]
      exact ⟨m, rfl, hdone v m hend⟩
    · rw [if_neg hend]
      rw [Nat.not_le, mul_lt_iff_pgroundup] at hend
      have hn' : oldsz ≤ (v + 1 + n) * PGSIZE := by rwa [Nat.add_assoc, Nat.add_comm 1]
      rw [run_bind (walkpgdir_false d v m)]
      cases he : m.pt d (pdx v) with
      | none =>
        obtain ⟨m', hrun, hun⟩ := ih (v + NPTENTRIES) m hs
          (hn'.trans (Nat.mul_le_mul_right _ (by unfold NPTENTRIES; omega)))
        refine ⟨m', hrun, ?_⟩
        rw [swept_jump he hb hend, ← List.nil_append (swept _ _ (v + NPTENTRIES) _)]
        have hrow : Unmapped d (fun u => v ≤ u ∧ u < v + NPTENTRIES ∧ u < pgroundup oldsz ∧
            ¬ Skipped m.pt d v u) [] m m :=
          .refl _ fun u _ hu =>
            (none_or_skipped he (by omega) hu.1 hu.2.1).resolve_right hu.2.2.2
        refine hrow.trans hun fun u hu => ?_
        by_cases hlt : u < v + NPTENTRIES
        · have : ¬ v + NPTENTRIES ≤ u := by omega
          simp only [hlt, this, true_and, false_and, or_false]
        · simp only [hlt, skipped_jump he (by omega) hu (by omega), false_and, and_false,
            false_or]
          exact and_congr_left fun _ => by unfold NPTENTRIES at *; omega
      | some e =>
        -- from here on nothing is skipped
        have hns : ∀ u, ¬ Skipped m.pt d v u := fun u => not_skipped he
        have hnext : ∀ m₁ k, Unmapped d (fun u => u = v) k m m₁ →
            k = ((entryAt m.pt d v).map Pte.page).toList →
            ∃ m', deallocLoop img d oldsz n (v + 1) m₁ = .ok ((), m') ∧
              Unmapped d (fun u => v ≤ u ∧ u < pgroundup oldsz ∧ ¬ Skipped m.pt d v u)
                (swept m.pt d v (pgroundup oldsz)) m m' := by
          intro m₁ k h₁ hk
          have hns₁ : ∀ u, ¬ Skipped m₁.pt d (v + 1) u :=
            fun u => not_skipped_succ (e := e) (by omega) (by rw [h₁.dir, he])
          obtain ⟨m', hrun, hun⟩ := ih (v + 1) m₁ (h₁.space hs) hn'
          refine ⟨m', hrun, ?_⟩
          rw [swept_eq_present fun u _ _ hs => (hns₁ u hs).elim] at hun
          rw [swept_eq_present fun u _ _ hs => (hns u hs).elim, present_succ hend, ← hk,
            ← present_congr fun u hu _ => h₁.kept u (by omega) (by omega)]
          refine h₁.trans hun fun u _ => ?_
          simp only [hns, hns₁, not_false_eq_true, and_true]
          omega
        have hat := entryAt_of_some he
        rw [Option.map_some]
        dsimp only
        rw [run_get]
        cases hc : m.pt e.page (ptx v) with
        | none =>
          refine hnext m [] (.refl _ fun u _ hu => ?_) ?_
          · rw [hu, hat, hc]
          · rw [hat, hc]
            rfl
        | some c =>
          have hfree := hs.given v (by omega) c (by rw [hat, hc])
          dsimp only
          rw [if_neg hfree.ne_zero]
          obtain ⟨m₁, hrun, h₁⟩ := unmap_page hs.once (by omega) he hc hfree
            (deallocLoop img d oldsz n (v + 1))
          obtain ⟨m', hrun', h'⟩ := hnext m₁ [c.page] h₁ (by rw [hat, hc]; rfl)
          exact ⟨m', hrun.trans hrun', h'⟩

/-! ## deallocuvm -/

theorem deallocuvm_run {oldsz newsz : Nat} (hs : Space img m.pt d) (hlt : newsz < oldsz)
    (hold : oldsz ≤ KERNBASE) :
    ∃ m', deallocuvm img d oldsz newsz m = .ok (newsz, m') ∧
      Unmapped d (fun u => pgroundup newsz ≤ u ∧ u < pgroundup oldsz ∧
          ¬ Skipped m.pt d (pgroundup newsz) u)
        (swept m.pt d (pgroundup newsz) (pgroundup oldsz)) m m' := by
  obtain ⟨m', hrun, hun⟩ := deallocLoop_run hold (pgroundup oldsz) (pgroundup newsz) m hs (by
    simp only [pgroundup, PGSIZE]
    omega)
  refine ⟨m', ?_, hun⟩
  rw [deallocuvm, if_neg (by omega), run_bind hrun]
  rfl

/-- **When `deallocuvm` frees the whole range.** It does so if and only if no page of the range is
present among those that its loop jumps over: the pages of the first existing table whose index
`PTX` is below that of `PGROUNDUP(newsz)`, when the table of `PGROUNDUP(newsz)` is missing. -/
theorem deallocuvm_frees_iff {oldsz newsz : Nat} (hs : Space img m.pt d) (hlt : newsz < oldsz)
    (hold : oldsz ≤ KERNBASE) :
    (∃ m', deallocuvm img d oldsz newsz m = .ok (newsz, m') ∧
        (∀ u, pgroundup newsz ≤ u → u < pgroundup oldsz → entryAt m'.pt d u = none) ∧
        m'.freelist
          = (present m.pt d (pgroundup newsz) (pgroundup oldsz)).reverse ++ m.freelist ∧
        (∀ u < 2 ^ 20, u < pgroundup newsz ∨ pgroundup oldsz ≤ u →
          entryAt m'.pt d u = entryAt m.pt d u) ∧
        m'.pt d = m.pt d) ↔
      ∀ u, pgroundup newsz ≤ u → u < pgroundup oldsz → Skipped m.pt d (pgroundup newsz) u →
        entryAt m.pt d u = none := by
  have hb : pgroundup oldsz ≤ 0x80000 := by
    simp only [pgroundup, PGSIZE, KERNBASE] at *
    omega
  obtain ⟨m₁, hrun, hun⟩ := deallocuvm_run hs hlt hold
  constructor
  · rintro ⟨m', hm', hgone, -⟩ u hle hub hskip
    obtain rfl : m₁ = m' := by
      rw [hrun] at hm'
      cases hm'
      rfl
    rw [← hun.kept u (by omega) fun hS => hS.2.2 hskip, hgone u hle hub]
  · intro hskip
    refine ⟨m₁, hrun, fun u hle hub => ?_, ?_, fun u hu hout => hun.kept u hu (by omega), hun.dir⟩
    · by_cases hsk : Skipped m.pt d (pgroundup newsz) u
      · rw [hun.kept u (by omega) fun hS => hS.2.2 hsk, hskip u hle hub hsk]
      · exact hun.gone u (by omega) ⟨hle, hub, hsk⟩
    · rw [hun.freelist, swept_eq_present hskip]

/-- Page tables with the table `t` for the row `i` of the directory `d`, and the page `p` at the
start of that row. -/
def single (d t p : Page) (i : Nat) : Pt := fun q k =>
  if q = d ∧ k = i then some ⟨t, true, true⟩
  else if q = t ∧ k = 0 then some ⟨p, true, true⟩
  else none

theorem tree_single {t : Page} {i : Nat} (hi : i < userEntries) (htd : t ≠ d) (x : Page) :
    tree (single d t p i) d x = one d x + (one t x + one p x) := by
  have hdir : ∀ k, single d t p i d k = if k = i then some ⟨t, true, true⟩ else none := by
    intro k
    simp [single, htd.symm]
  have htab : ∀ k, single d t p i t k = if k = 0 then some ⟨p, true, true⟩ else none := by
    intro k
    simp [single, htd]
  have hleaf : leaf (single d t p i) t x = one p x := by
    unfold leaf
    rw [Finset.sum_eq_single 0 (fun k _ hk => by rw [htab, if_neg hk]; rfl)
      fun h => absurd (Finset.mem_range.mpr (by decide)) h, htab, if_pos rfl]
    rfl
  unfold tree
  rw [Finset.sum_eq_single i (fun k _ hk => by rw [hdir, if_neg hk]; rfl) fun h => ?_, hdir,
    if_pos rfl]
  · simp only [branch, if_pos hi, hleaf]
  · refine absurd (Finset.mem_range.mpr ?_) h
    simp only [userEntries, NPTENTRIES] at *
    omega

theorem entryAt_single {t : Page} {i : Nat} (htd : t ≠ d) (v : Nat) :
    entryAt (single d t p i) d v
      = if pdx v = i ∧ ptx v = 0 then some ⟨p, true, true⟩ else none := by
  unfold entryAt single
  by_cases hi : pdx v = i
  · by_cases hj : ptx v = 0
    · simp [hi, hj, htd]
    · simp [hi, hj, htd]
  · simp [hi, htd.symm]

theorem space_single {t : Page} {i : Nat} (hi : i < userEntries) (htd : t ≠ d) (hpd : p ≠ d)
    (hpt : p ≠ t) (hp : Freeable img p) : Space img (single d t p i) d := by
  refine ⟨fun x => ?_, fun v _ c hc => ?_⟩
  · rw [tree_single hi htd]
    unfold one
    split_ifs <;> simp_all
  · rw [entryAt_single htd] at hc
    split at hc
    · cases hc
      exact hp
    · cases hc

def sparse : Memory :=
  { freelist := [], pt := single 0x400 0x401 0x402 1, bytes := fun _ _ => 0, fails := [] }

theorem space_sparse : Space smallImage sparse.pt 0x400 :=
  space_single (by decide) (by decide) (by decide) (by decide) (by unfold Freeable; decide)

theorem deallocuvm_frees_sparse :
    ∃ m', deallocuvm smallImage 0x400 (1025 * PGSIZE) 0 sparse = .ok (0, m') ∧
      (∀ u, pgroundup 0 ≤ u → u < pgroundup (1025 * PGSIZE) → entryAt m'.pt 0x400 u = none) ∧
      m'.freelist = (present sparse.pt 0x400 (pgroundup 0) (pgroundup (1025 * PGSIZE))).reverse
        ++ sparse.freelist ∧
      (∀ u < 2 ^ 20, u < pgroundup 0 ∨ pgroundup (1025 * PGSIZE) ≤ u →
        entryAt m'.pt 0x400 u = entryAt sparse.pt 0x400 u) ∧
      m'.pt 0x400 = sparse.pt 0x400 :=
  (deallocuvm_frees_iff space_sparse (by decide) (by decide)).mpr
    fun u _ _ hs => absurd hs.1 (Nat.not_lt_zero _)

/-- The table of page 1 is missing, and the loop goes on with page 1025: page 1024 stays. -/
theorem deallocuvm_leaves_page :
    Space smallImage sparse.pt 0x400 ∧
      ∃ m', deallocuvm smallImage 0x400 (1025 * PGSIZE) PGSIZE sparse = .ok (PGSIZE, m') ∧
        pgroundup PGSIZE ≤ 1024 ∧ 1024 * PGSIZE < 1025 * PGSIZE ∧
        entryAt m'.pt 0x400 1024 = some ⟨0x402, true, true⟩ :=
  ⟨space_sparse, sparse, rfl, by decide, by decide, by decide⟩

end StrideXv6.Mem
