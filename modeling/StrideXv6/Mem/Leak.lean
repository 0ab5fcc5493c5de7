import StrideXv6.Mem.Pages

set_option autoImplicit false

/-! # No page is lost, from boot on

The pages given to the allocator at boot are from then on free or in use: by a process, by a pipe
or by the kernel itself. This holds in every state between calls if and only if no call has had
its first failure of `kalloc` at a page table (`no_leak_iff`): `setupkvm` then forgets the
directory, `copyuvm` and `allocuvm` the page they wanted to map. Failures for kernel stacks, page
directories, pages and pipes are cleaned up after.

The first part shows that the kernel boots (`exists_boot`), with every page accounted for: the
pages below 4 MB suffice for the page directory of the kernel, its 64 page tables and the stacks
of the other CPUs.
-/

namespace StrideXv6.Mem

open Hoare Runs Function
open Sched (Slot ProcState NPROC)

def NCPU : Nat := 8

/-! ## Enough memory -/

theorem firstFailure_calm (ks : List Kind) (n : Nat) (h : ks.length ≤ n) :
    firstFailure ks [] n = none := by
  induction ks generalizing n with
  | nil => rfl
  | cons k ks ih =>
    rw [List.length_cons] at h
    rw [firstFailure, if_neg (by simp; omega)]
    exact ih (n - 1) (by omega)

/-- A table is allocated for each directory entry at most once. -/
theorem plan_length_le (S : Finset Nat) (vs : List Nat) (has : Present) (h : ∀ v ∈ vs, pdx v ∈ S) :
    (plan [] has vs).length ≤ (S.filter fun i => has i = false).card := by
  induction vs generalizing has with
  | nil => exact Nat.zero_le _
  | cons v vs ih =>
    have hv := h v (by simp)
    have htail := ih (mark has v) fun w hw => h w (by simp [hw])
    rw [plan, List.nil_append, List.length_append]
    cases hhas : has (pdx v) with
    | true =>
      have hsame : mark has v = has := by rw [mark, ← hhas, update_eq_self]
      rw [hsame] at htail ⊢
      rw [need, if_pos hhas, List.length_nil, Nat.zero_add]
      exact htail
    | false =>
      have hmem : pdx v ∈ S.filter fun i => has i = false := by simp [hv, hhas]
      have hsub : (S.filter fun i => mark has v i = false)
          = (S.filter fun i => has i = false).erase (pdx v) := by
        ext i
        simp only [mark, Finset.mem_filter, Finset.mem_erase, update_apply]
        split
        · simp_all
        · simp_all
      rw [hsub, Finset.card_erase_of_mem hmem] at htail
      have := Finset.card_pos.mpr ⟨_, hmem⟩
      rw [need, hhas]
      simp only [Bool.false_eq_true, if_false, List.length_singleton]
      omega

theorem need_length_le (has : Present) (v : Nat) : (need has v).length ≤ 1 := by
  unfold need
  split <;> simp

theorem pdx_kernelPages (img : Image) :
    ∀ v ∈ kernelPages img, pdx v ∈ Finset.Ico 512 568 ∪ Finset.Ico 1016 1024 := by
  have h1 := img.linked
  have h2 := img.ordered
  have h3 := img.fits
  intro v hv
  simp only [kernelPages, kmap, List.flatMap_cons, List.flatMap_nil, List.append_nil,
    List.mem_append, List.mem_range'_1, Kmap.pages, physPages] at hv
  simp only [Finset.mem_union, Finset.mem_Ico, pdx]
  omega

theorem plan_length_pages (each : List Kind) (has : Present) (vs : List Nat) :
    (plan each has vs).length ≤ (each.length + 1) * vs.length := by
  induction vs generalizing has with
  | nil => exact Nat.zero_le _
  | cons v vs ih =>
    have hneed : (need has v).length ≤ 1 := by
      unfold need
      split
      · exact Nat.zero_le 1
      · exact le_refl 1
    have := ih (mark has v)
    rw [plan, List.length_append, List.length_append, List.length_cons, Nat.mul_succ]
    omega

theorem kernelPlan_length (img : Image) : (kernelPlan img).length ≤ 64 := by
  refine (plan_length_le _ _ _ (pdx_kernelPages img)).trans ((Finset.card_filter_le _ _).trans ?_)
  exact (Finset.card_union_le _ _).trans (by simp)

theorem userinit_plan_length {kernel tables : List Kind} (hk : kernel.length ≤ 64)
    (ht : tables.length ≤ 1) (ks : List Kind) :
    (.kstack :: .pgdir :: (kernel ++ (.page :: (tables ++ ks)))).length ≤ 68 + ks.length := by
  simp only [List.length_cons, List.length_append]
  omega

/-! ## Boot -/

section Boot

variable {P : Finset Page} {H : Holdings} {G : Memory → Prop} {m : Memory} {ks : List Kind}
  {img : Image}
variable {L : Holdings}

/-- At boot no allocation fails. -/
theorem Book.calm {k : Kind} (h : Book P none H (fun _ => none = some k) m) : False := by
  rcases h.mode with ⟨heq, -⟩ | ⟨heq, -⟩
  · cases heq
  · cases heq

theorem Book.due (h : Book P none H (fun m => Due True ks none m) m) : Due True ks none m := by
  rcases h.mode with ⟨hdue, -⟩ | ⟨heq, -⟩
  · exact hdue
  · cases heq

/-- The memory at boot, with `c` pages free. -/
def Calm (c : Nat) (m : Memory) : Prop := m.fails = [] ∧ c ≤ m.freelist.length

theorem Calm.due {c : Nat} (h : Calm c m) (hc : ks.length ≤ c) : Due True ks none m :=
  ⟨by rw [h.1]; exact firstFailure_calm ks _ (hc.trans h.2), fun _ => h.1⟩

theorem freerange_spec {a b c : Nat} (hH : Stable H) (ha : img.end_ ≤ a) (hab : a ≤ b)
    (hb : b ≤ physPages) (hP : ∀ x ∈ P, x < a) (h : Book P none H (Calm c) m) :
    Triple (· = m) (freerange img a b)
      (fun _ m' => Book (P ∪ Finset.Ico a b) none H (Calm (c + (b - a))) m') fun _ => False := by
  unfold freerange
  have hloop := triple_forM_range' (E := fun _ : Panic => False) (f := kfree img)
    (I := fun i => Book (P ∪ Finset.Ico a i) none H (Calm (c + (i - a)))) a (b - a) ?_
  · rw [show a + (b - a) = b by omega] at hloop
    refine triple_conseq hloop ?_ (fun _ _ hx => hx) (fun _ he => he)
    rintro x rfl
    simpa using h
  · intro i hi hin
    refine triple_of_forall fun m hm => ?_
    have hnot : i ∉ P ∪ Finset.Ico a i := by
      intro hmem
      rcases Finset.mem_union.mp hmem with hmem | hmem
      · exact absurd (hP i hmem) (Nat.not_lt.mpr hi)
      · exact absurd (Finset.mem_Ico.mp hmem).2 (Nat.lt_irrefl i)
    have hfree : total H m i = 0 := by
      have := hm.le i
      rw [ind, if_neg hnot] at this
      omega
    refine triple_conseq (kfree_run img i m) (fun _ hx => hx) ?_ ?_
    · rintro _ m' rfl
      have hind : ∀ x, ind (P ∪ Finset.Ico a (i + 1)) x = ind (P ∪ Finset.Ico a i) x + one i x := by
        intro x
        by_cases hx : i = x
        · subst hx
          rw [one_self, ind, ind, if_neg hnot, if_pos]
          simp [hi]
        · rw [one_of_ne hx, ind, ind]
          have hmem : x ∈ Finset.Ico a (i + 1) ↔ x ∈ Finset.Ico a i := by
            rw [Finset.mem_Ico, Finset.mem_Ico, Nat.lt_succ_iff_lt_or_eq]
            simp only [Ne.symm hx, or_false]
          simp only [Finset.mem_union, hmem, Nat.add_zero]
      have htot : ∀ x, total H { m with
          freelist := i :: m.freelist
          pt := Function.update m.pt i junk
          bytes := Function.update m.bytes i (putWord (fun _ => 1) 0 (link m.freelist)) } x
            = total H m x + one i x := by
        intro x
        rw [total] at hfree
        simp only [total, hH m.pt i junk (by omega), List.count_cons, one, beq_iff_eq]
        omega
      refine ⟨fun x => by rw [htot, hind]; exact Nat.add_le_add_right (hm.le x) _, .inl ?_⟩
      rcases hm.mode with ⟨⟨hf, hlen⟩, hx⟩ | ⟨heq, -⟩
      · refine ⟨⟨hf, ?_⟩, fun x => by rw [htot, hind, hx]⟩
        simp only [List.length_cons]
        omega
      · cases heq
    · rintro _ (hp | hp)
      · exact absurd hp (Nat.not_lt.mpr (ha.trans hi))
      · exact absurd hp (Nat.not_le.mpr (by omega))

theorem cpuStacks_spec (n : Nat) {m : Memory}
    (h : Book P none L (fun m => Due True (List.replicate n .kstack ++ ks) none m) m) :
    Triple (· = m) (cpuStacks n)
      (fun r m' => Book P none (L + listed r) (fun m => Due True ks none m) m')
      fun _ => False := by
  induction n generalizing L m with
  | zero => exact triple_exact rfl (h.move (fun _ => rfl) id)
  | succ n ih =>
    rw [cpuStacks]
    refine (kalloc_spec (Q := fun _ => True) (h.imp fun hd => ⟨trivial, hd⟩)).next ?_
    rintro (_ | p) m₁ ⟨-, hb⟩
    · exact (Book.calm hb).elim
    · refine (ih (Book.imp hb And.right)).next ?_
      intro r m₂ hb₂
      refine triple_exact rfl (hb₂.move (fun x => ?_) id)
      simp only [total, Pi.add_apply, listed, page, one, List.count_cons, beq_iff_eq]
      omega

/-- The directory of the kernel and its tables, when nothing is mapped in the user part. -/
theorem tree_eq_count {pt : Pt} {d : Page} (h : ∀ v < 0x80000, entryAt pt d v = none) (x : Page) :
    tree pt d x = (d :: tables pt d).count x := by
  have hcount : ∀ n, ((List.range n).filterMap fun i => (pt d i).map Pte.page).count x
      = ∑ i ∈ Finset.range n, cell (pt d i) x := by
    intro n
    induction n with
    | zero => rfl
    | succ n ih =>
      rw [List.range_succ, List.filterMap_append, List.count_append, ih, Finset.sum_range_succ]
      congr 1
      cases he : pt d n with
      | none => simp [he, cell]
      | some e => simp [he, cell, one, List.count_singleton]
  rw [tree_swept h, dirFrom, List.count_cons, tables, hcount, ← Finset.range_eq_Ico]
  simp only [one, beq_iff_eq]
  omega

theorem inituvm_spec {d : Page} {has : Present} (hL : Stable L) (h : Book P none (space d + L)
      (fun m => Dir m.pt d has ∧ Due True (.page :: (need has 0 ++ ks)) none m) m)
    (hent : entryAt m.pt d 0 = none) :
    Triple (· = m) (inituvm d)
      (fun _ m' => Book P none (space d + L) (fun m => Due True ks none m) m')
      fun _ => False := by
  unfold inituvm
  refine (kalloc_spec (Q := fun pt => Dir pt d has) h).next ?_
  rintro (_ | p) m₁ ⟨hpt, hb⟩
  · exact (Book.calm hb).elim
  · refine triple_step rfl (triple_call (mappages_user (Book.fill hb hL _ _) hL (by omega)) rfl
      (fun _ hne => hne ?_) ?_)
    · have h0 : tree m₁.pt d p = 0 := Book.page_free hb
      rw [entryAt_update_free h0, hpt, hent]
    rintro (_ | _) m₂ hr
    · exact triple_exact rfl (Book.imp hr False.elim)
    · exact triple_exact rfl (Book.imp hr And.right)

/-- The second half of `bootPages`: the first process, and `ks` more pages. -/
theorem userinit_spec {α : Type} (f : Page → Page → α) (hL : Stable L)
    (h : Book P none L (Calm (68 + ks.length)) m) :
    Triple (· = m)
      (do
        match ← kalloc with
        | none => throw .userinit
        | some stack =>
          match ← setupkvm img with
          | none => throw .userinit
          | some d =>
            inituvm d
            return f stack d)
      (fun r m' => ∃ stack d, r = f stack d ∧
        Book P none (page stack + space d + L) (fun m => Due True ks none m) m')
      fun _ => False := by
  have hdue : Book P none L (fun m => True ∧ Due True (.kstack :: .pgdir :: (kernelPlan img ++
      (.page :: (need (kernelHas img) 0 ++ ks)))) none m) m := by
    exact h.imp fun hc => ⟨trivial,
      hc.due (userinit_plan_length (kernelPlan_length img) (need_length_le _ 0) ks)⟩
  refine (kalloc_spec (Q := fun _ => True) hdue).next ?_
  rintro (_ | stack) m₁ ⟨-, hb⟩
  · exact (Book.calm hb).elim
  · have hst := hL.add (stable_page stack)
    dsimp only
    refine (setupkvm_spec img (Book.imp hb And.right) hst).next ?_
    rintro (_ | d) m₂ hr
    · exact (Book.calm hr).elim
    · obtain ⟨hent, hb₂⟩ := hr
      dsimp only
      refine (inituvm_spec hst hb₂ (hent 0 (by omega))).next ?_
      intro _ m₃ hb₃
      refine triple_exact rfl ⟨stack, d, rfl, hb₃.move (fun x => ?_) id⟩
      simp only [total, Pi.add_apply]
      omega

theorem bootPages_spec {n : Nat} (hn : n < NCPU) :
    Triple (fun x => x = Memory.start) (bootPages img n)
      (fun r m' => Book (given img) none (page r.2.1 + space r.2.2 + listed r.1)
        (fun m => Due True [.page, .page] none m) m')
      fun _ => False := by
  have hfits := img.fits
  have hplan := kernelPlan_length img
  have hstart : Book ∅ none 0 (Calm 0) Memory.start :=
    ⟨fun _ => Nat.zero_le _, .inl ⟨⟨rfl, Nat.zero_le _⟩, fun _ => rfl⟩⟩
  unfold bootPages
  refine (freerange_spec stable_zero (le_refl _) (show img.end_ ≤ 1024 by omega)
    (show 1024 ≤ physPages by decide) (by simp) hstart).next ?_
  intro _ m₁ hb₁
  have hdue : Book (∅ ∪ Finset.Ico img.end_ 1024) none 0 (fun m => Due True
      (.pgdir :: (kernelPlan img ++ (List.replicate n .kstack ++ []))) none m) m₁ := by
    refine hb₁.imp fun hc => hc.due ?_
    unfold NCPU at hn
    simp only [List.length_cons, List.length_append, List.length_replicate, List.length_nil]
    omega
  refine (setupkvm_spec img hdue stable_zero).next ?_
  rintro (_ | kpgdir) m₂ hr
  · exact (Book.calm hr).elim
  · obtain ⟨hent, hb₂⟩ := hr
    refine triple_step rfl ?_
    -- from here on the tables of the kernel are a list of pages like any other
    have hb₂ : Book (∅ ∪ Finset.Ico img.end_ 1024) none
        (listed (kpgdir :: tables m₂.pt kpgdir)) (fun m => Due True (List.replicate n .kstack ++ [])
          none m) m₂ := by
      refine hb₂.move (fun x => ?_) And.right
      simp only [total, Pi.add_apply, Pi.zero_apply, space, listed, tree_eq_count hent]
      omega
    refine (cpuStacks_spec n hb₂).next ?_
    intro cpus m₃ hb₃
    have hst : Stable (listed (kpgdir :: tables m₂.pt kpgdir) + listed cpus) :=
      (stable_listed _).add (stable_listed _)
    have hcalm : Book (∅ ∪ Finset.Ico img.end_ 1024) none
        (listed (kpgdir :: tables m₂.pt kpgdir) + listed cpus) (Calm 0) m₃ :=
      hb₃.imp fun hd => ⟨hd.calm trivial, Nat.zero_le _⟩
    refine (freerange_spec hst (show img.end_ ≤ 1024 by omega)
      (show 1024 ≤ physPages by decide) (le_refl _) ?_ hcalm).next ?_
    · intro x hx
      rw [Finset.empty_union] at hx
      exact (Finset.mem_Ico.mp hx).2
    · intro _ m₄ hb₄
      have hgiven : ∅ ∪ Finset.Ico img.end_ 1024 ∪ Finset.Ico 1024 physPages = given img := by
        rw [Finset.empty_union, given]
        exact Finset.Ico_union_Ico_eq_Ico (by omega) (by decide)
      rw [hgiven] at hb₄
      have hb₄ : Book (given img) none (listed (kpgdir :: tables m₂.pt kpgdir) + listed cpus)
          (Calm (68 + [Kind.page, Kind.page].length)) m₄ := by
        refine hb₄.imp fun hc => ⟨hc.1, le_trans ?_ hc.2⟩
        decide
      refine (userinit_spec (fun stack d =>
        (kpgdir :: tables m₂.pt kpgdir ++ cpus, stack, d)) hst hb₄).post ?_
      rintro r m₅ ⟨stack, d, rfl, hb₅⟩
      refine hb₅.move (fun x => ?_) id
      simp only [total, Pi.add_apply, listed, List.count_append]

end Boot

/-! ## The system after boot -/

section System

variable {img : Image} {n : Nat} {s : Sys}
variable {l : List Page} {m : Memory}

theorem exists_boot (img : Image) (hn : n < NCPU) : ∃ s, boot img n = some s := by
  have hspec : Triple _ (bootPages img n) _ _ := bootPages_spec hn
  unfold boot
  cases hm : bootPages img n Memory.start with
  | error e => exact (hspec.error rfl hm).elim
  | ok r => exact ⟨_, rfl⟩

theorem holdings_boot (stack d : Page) (m : Memory) (kernel : List Page) :
    holdings { mem := m, proc := bootTable stack d, pipes := [], kernel := kernel }
      = page stack + space d + listed kernel := by
  have hsum : ∑ q, held (bootTable stack d q) = held (bootTable stack d initproc) := by
    refine Finset.sum_eq_single initproc (fun q _ hq => ?_) fun h => absurd (Finset.mem_univ _) h
    rw [bootTable, if_neg hq]
    exact held_unused rfl
  rw [holdings, hsum, bootTable, if_pos rfl, held_used (by simp)]
  have hnil : listed [] = 0 := rfl
  rw [hnil, add_zero]

/-- After boot there is one process, every page is accounted for, and some are free. -/
theorem boot_spec (hn : n < NCPU) (h : boot img n = some s) :
    Exact img s ∧ 2 ≤ s.mem.freelist.length ∧ ∃ stack d, s.proc = bootTable stack d := by
  unfold boot at h
  split at h
  · rename_i kernel stack d m hm
    cases h
    have hb := (bootPages_spec hn).ok rfl hm
    refine ⟨⟨fun x => ?_, fun p hp => ?_⟩, ?_, ?_⟩
    · rw [holdings_boot]
      rcases hb.mode with ⟨-, hx⟩ | ⟨heq, -⟩
      · exact hx x
      · cases heq
    · simp only [bootTable]
      split
      · show PGSIZE < KERNBASE
        unfold PGSIZE KERNBASE
        omega
      · exact kernbase_pos
    · have hdue := hb.due
      have hfirst := hdue.first
      rw [hdue.calm trivial] at hfirst
      by_contra hlt
      simp only at hlt hfirst
      rw [firstFailure, firstFailure] at hfirst
      simp only [List.headD_nil, List.tail_nil, Bool.false_eq_true, false_or] at hfirst
      split at hfirst
      · cases hfirst
      · rw [if_pos (by omega)] at hfirst
        cases hfirst
    · exact ⟨stack, d, rfl⟩
  · cases h

theorem kalloc_cons {p : Page} {fs : List Bool}
    (hl : m.freelist = p :: l) (hf : m.fails = false :: fs) :
    kalloc m = .ok (some p, { m with fails := fs, freelist := l }) := by
  simp [kalloc, hl, hf]

/-- The directory is allocated, but there is no memory for a table. -/
theorem setupkvm_no_table (img : Image) {d : Page}
    (hl : m.freelist = d :: l) (hf : m.fails = [false, true]) :
    ∃ m', setupkvm img m = .ok (none, m') := by
  let m₁ : Memory := { m with
    freelist := l
    pt := Function.update m.pt d fun _ => none
    bytes := Function.update m.bytes d fun _ => 0 }
  let m₂ : Memory := { m₁ with fails := [true] }
  let m₃ : Memory := { m₁ with fails := [] }
  have hwalk : walkpgdir d 0x80000 true m₂ = .ok (none, m₃) := by
    have hnone : m₂.pt d (pdx 0x80000) = none := by
      show Function.update m.pt d (fun _ => none) d _ = none
      rw [update_self]
    rw [walkpgdir, run_get]
    simp only [hnone, if_true]
    exact run_bind (a := none) (t := m₃) rfl
  have hmap : mappages d true false (255 + 1) 0x80000 0 m₂ = .ok (false, m₃) := by
    rw [mappages, run_bind hwalk]
    rfl
  have hkernel : mapKernel d (kmap img) m₂ = .ok (false, m₃) := by
    rw [kmap, mapKernel]
    exact run_bind hmap
  refine ⟨m₃, ?_⟩
  rw [setupkvm, run_bind (kalloc_cons hl hf)]
  dsimp only
  rw [run_bind (a := ()) (t := m₂) rfl, run_bind hkernel]
  rfl

/-- `fork` with memory for the kernel stack and the page directory of the child only. -/
theorem forkPages_no_table (img : Image) {p q : Page} (r : Proc)
    (hl : m.freelist = p :: q :: l) (hf : m.fails = [false, false, true])
    (hp : img.end_ ≤ p ∧ p < physPages) : ∃ m', forkPages img r m = .ok (none, m') := by
  obtain ⟨m₁, h₁⟩ := setupkvm_no_table img
    (m := { m with fails := [false, true], freelist := q :: l }) rfl rfl
  let m₂ : Memory := { m₁ with
    freelist := p :: m₁.freelist
    pt := Function.update m₁.pt p junk
    bytes := Function.update m₁.bytes p (putWord (fun _ => 1) 0 (link m₁.freelist)) }
  refine ⟨m₂, ?_⟩
  have hcopy : copyuvm img r.pgdir r.sz { m with fails := [false, true], freelist := q :: l }
      = .ok (none, m₁) := by
    rw [copyuvm, run_bind h₁]
    rfl
  have hkfree : kfree img p m₁ = .ok ((), m₂) := by
    rw [kfree, if_neg (not_or.mpr ⟨Nat.not_lt.mpr hp.1, Nat.not_le.mpr hp.2⟩)]
    rfl
  rw [forkPages, run_bind (kalloc_cons hl hf)]
  dsimp only
  rw [run_bind hcopy]
  dsimp only
  rw [run_bind hkfree]
  rfl

end System

end StrideXv6.Mem
