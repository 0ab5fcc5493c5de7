import StrideXv6.Mem.Copy
import StrideXv6.Mem.Pages

set_option autoImplicit false

/-! # What freevm frees

`freevm` gives back the pages of an address space, each of them once: the pages that are mapped for
the user, the page tables and the directory (`freevm_run`). This is so whenever no page of it is used
twice, and that holds of every page directory that has been made and changed by the functions of
`vm.c`, whatever other directories there are (`freevm_once`).
-/

namespace StrideXv6.Mem

open Hoare Runs Function

variable {img : Image} {m m' m₁ : Memory} {d x : Page}

/-! ## freevm -/

theorem freeable_iff (img : Image) (x : Page) : Freeable img x ↔ 0 < ind (given img) x := by
  rw [ind_given]
  unfold Freeable
  split
  · rename_i hx
    exact iff_of_true hx Nat.one_pos
  · rename_i hx
    exact iff_of_false hx (lt_irrefl 0)

/-- After `kfree`. -/
def Memory.freed (m : Memory) (p : Page) : Memory :=
  { m with
    freelist := p :: m.freelist
    pt := Function.update m.pt p junk
    bytes := Function.update m.bytes p (putWord (fun _ => 1) 0 (link m.freelist)) }

/-- The tables from `i` on are freed. -/
theorem freeTables_run (i n : Nat) (hi : i + n = NPTENTRIES) (hle : ∀ x, dirFrom d i m.pt x ≤ 1)
    (hfree : ∀ x, 0 < dirFrom d i m.pt x → Freeable img x) :
    ∃ (l : List Page) (m' : Memory), forM (List.range' i n) (freeTable img d) m = .ok ((), m') ∧
      m'.freelist = l.reverse ++ m.freelist ∧ (∀ x, l.count x + one d x = dirFrom d i m.pt x) ∧
      ∀ x, dirFrom d i m.pt x = 0 → m'.pt x = m.pt x ∧ m'.bytes x = m.bytes x := by
  induction n generalizing i m with
  | zero =>
    refine ⟨[], m, rfl, rfl, fun x => ?_, fun _ _ => ⟨rfl, rfl⟩⟩
    obtain rfl : i = NPTENTRIES := hi
    rw [dirFrom_end, List.count_nil, Nat.zero_add]
  | succ n ih =>
    have hlt : i < NPTENTRIES := by omega
    rw [List.range'_succ, List.forM_cons]
    cases he : m.pt d i with
    | none =>
      have hstep : ∀ x, dirFrom d i m.pt x = dirFrom d (i + 1) m.pt x := fun x => by
        rw [dirFrom_step hlt, he, cell, Nat.zero_add]
      have hrun : freeTable img d i m = .ok ((), m) := by
        rw [freeTable, run_get, he]
        rfl
      obtain ⟨l, m', hrest, hlist, hcount, hframe⟩ := ih (i + 1) (by omega)
        (fun x => hstep x ▸ hle x) fun x hx => hfree x (hstep x ▸ hx)
      exact ⟨l, m', (run_bind hrun).trans hrest, hlist, fun x => (hcount x).trans (hstep x).symm,
        fun x hx => hframe x (hstep x ▸ hx)⟩
    | some e =>
      have hstep : ∀ x, dirFrom d i m.pt x = one e.page x + dirFrom d (i + 1) m.pt x :=
        fun x => by rw [dirFrom_step hlt, he, cell]
      have hgone : dirFrom d (i + 1) m.pt e.page = 0 := by
        have h1 := hle e.page
        rw [hstep, one_self] at h1
        omega
      have hpage : Freeable img e.page := hfree _ (by rw [hstep, one_self]; omega)
      have hrun : freeTable img d i m = .ok ((), m.freed e.page) := by
        rw [freeTable, run_get, he]
        exact kfree_ok hpage m
      have hsame : dirFrom d (i + 1) (m.freed e.page).pt = dirFrom d (i + 1) m.pt := stable_dirFrom d (i + 1) _ _ _ hgone
      have hle' : ∀ x, dirFrom d (i + 1) (m.freed e.page).pt x ≤ 1 := fun x => by
        have hx := hle x
        rw [hstep] at hx
        rw [hsame]
        omega
      have hfree' : ∀ x, 0 < dirFrom d (i + 1) (m.freed e.page).pt x → Freeable img x :=
        fun x hx => hfree x (by rw [hsame] at hx; rw [hstep]; omega)
      obtain ⟨l, m', hrest, hlist, hcount, hframe⟩ := ih (i + 1) (by omega) hle' hfree'
      refine ⟨e.page :: l, m', (run_bind hrun).trans hrest, ?_, fun x => ?_, fun x hx => ?_⟩
      · rw [hlist, List.reverse_cons, List.append_assoc]
        rfl
      · have hx := hcount x
        rw [hsame] at hx
        rw [hstep, ← hx, List.count_cons]
        simp only [one, beq_iff_eq]
        omega
      · rw [hstep] at hx
        have hne : x ≠ e.page := by
          rintro rfl
          rw [one_self] at hx
          omega
        obtain ⟨h1, h2⟩ := hframe x (by rw [hsame]; omega)
        exact ⟨h1.trans (update_of_ne hne ..), h2.trans (update_of_ne hne ..)⟩

/-- The pages that `freevm` passes to `kfree`: each page of the address space once. -/
theorem freevm_run (hle : ∀ x, tree m.pt d x ≤ 1)
    (hfree : ∀ x, 0 < tree m.pt d x → Freeable img x) :
    ∃ (l : List Page) (m' : Memory), freevm img d m = .ok ((), m') ∧
      m'.freelist = l.reverse ++ m.freelist ∧ (∀ x, l.count x = tree m.pt d x) ∧
      ∀ x, total (space d) m x = 0 → m'.pt x = m.pt x ∧ m'.bytes x = m.bytes x := by
  have hspace : Space img m.pt d := by
    refine ⟨hle, fun v hv c hc => hfree _ ?_⟩
    have := tree_of_entry hv hc
    omega
  obtain ⟨m₁, hrun₁, hun⟩ := deallocuvm_run hspace kernbase_pos le_rfl
  have hnone : ∀ v < userEntries * NPTENTRIES, entryAt m₁.pt d v = none := by
    intro v hv
    refine hun.gone v (by unfold userEntries NPTENTRIES at hv; omega) ⟨Nat.zero_le _, ?_, ?_⟩
    · simp only [userEntries, NPTENTRIES, pgroundup, PGSIZE, KERNBASE] at *
      omega
    · exact fun hs => Nat.not_lt_zero _ hs.1
  have htree : ∀ x, tree m₁.pt d x = dirFrom d 0 m₁.pt x := tree_swept hnone
  have hfree₁ : ∀ x, 0 < dirFrom d 0 m₁.pt x → Freeable img x := fun x hx =>
    hfree x (lt_of_lt_of_le (htree x ▸ hx) (hun.tree_le x))
  obtain ⟨l₂, m₂, hrun₂, hlist₂, hcount₂, hframe₂⟩ := freeTables_run 0 NPTENTRIES (Nat.zero_add _)
    (fun x => htree x ▸ (hun.tree_le x).trans (hle x)) hfree₁
  have hd : Freeable img d := hfree d (tree_dir_pos _ _)
  rw [← List.range_eq_range'] at hrun₂
  refine ⟨swept m.pt d (pgroundup 0) (pgroundup KERNBASE) ++ l₂ ++ [d], _,
    (run_bind hrun₁).trans ((run_bind hrun₂).trans (kfree_ok hd m₂)), ?_, fun x => ?_,
    fun x hx => ?_⟩
  · simp [hlist₂, hun.freelist]
  · have htotal := hun.total x
    have hx := hcount₂ x
    rw [← htree] at hx
    simp only [total, space, hun.freelist, List.count_append, List.count_reverse] at htotal
    rw [List.count_append, List.count_append, List.count_singleton]
    simp only [one, beq_iff_eq] at *
    omega
  · have hzero : tree m.pt d x = 0 := by
      simp only [total, space] at hx
      omega
    have hne : x ≠ d := by
      rintro rfl
      exact absurd (tree_dir_pos m.pt x) (by omega)
    obtain ⟨h1, h2⟩ := hun.frame x hx
    obtain ⟨h3, h4⟩ := hframe₂ x (by
      rw [← htree]
      exact Nat.le_zero.mp (hzero ▸ hun.tree_le x))
    constructor
    · exact (update_of_ne hne ..).trans (h3.trans h1)
    · exact (update_of_ne hne ..).trans (h4.trans h2)

/-! ## Page directories -/

/-- Memory, the page directories that are in use, and the pages that the rest of the kernel has
allocated. -/
structure Dirs where
  mem : Memory
  dirs : List Page
  other : List Page

inductive DirCall where
  | setupkvm
  | allocuvm (d : Page) (oldsz newsz : Nat)
  | deallocuvm (d : Page) (oldsz newsz : Nat)
  | clearpteu (d : Page) (v : Nat)
  | copyuvm (d : Page) (sz : Nat)
  | freevm (d : Page)
  | kalloc
  | kfree (p : Page)

/-- The memory after a call that does not panic. -/
def after {α : Type} (m : Memory) (fails : List Bool) (f : M α) : Option (α × Memory) :=
  match f { m with fails := fails } with
  | .ok r => some r
  | .error _ => none

/-- One call, with the failures of `kalloc` in it. Sizes are those of processes: `deallocuvm` and
`copyuvm` are not called for addresses of the kernel. -/
def dirStep (img : Image) (s : Dirs) : DirCall × List Bool → Option Dirs
  | (.setupkvm, fails) => (after s.mem fails (setupkvm img)).map fun r =>
    { s with mem := r.2, dirs := r.1.toList ++ s.dirs }
  | (.allocuvm d oldsz newsz, fails) =>
    if d ∈ s.dirs then
      (after s.mem fails (allocuvm img d oldsz newsz)).map fun r => { s with mem := r.2 }
    else none
  | (.deallocuvm d oldsz newsz, fails) =>
    if d ∈ s.dirs ∧ oldsz ≤ KERNBASE then
      (after s.mem fails (deallocuvm img d oldsz newsz)).map fun r => { s with mem := r.2 }
    else none
  | (.clearpteu d v, fails) =>
    if d ∈ s.dirs then
      (after s.mem fails (clearpteu d v)).map fun r => { s with mem := r.2 }
    else none
  | (.copyuvm d sz, fails) =>
    if d ∈ s.dirs ∧ sz < KERNBASE then
      (after s.mem fails (copyuvm img d sz)).map fun r =>
        { s with mem := r.2, dirs := r.1.toList ++ s.dirs }
    else none
  | (.freevm d, fails) =>
    if d ∈ s.dirs then
      (after s.mem fails (freevm img d)).map fun r =>
        { s with mem := r.2, dirs := s.dirs.erase d }
    else none
  | (.kalloc, fails) => (after s.mem fails kalloc).map fun r =>
    { s with mem := r.2, other := r.1.toList ++ s.other }
  | (.kfree p, fails) =>
    if p ∈ s.other then
      (after s.mem fails (kfree img p)).map fun r =>
        { s with mem := r.2, other := s.other.erase p }
    else none

/-- The pages of the directories. -/
def spaces (l : List Page) : Holdings := (l.map space).sum

def Dirs.holdings (s : Dirs) : Holdings := spaces s.dirs + listed s.other

/-- No page is used twice, and all pages are ones the allocator was given. -/
def Dirs.Once (img : Image) (s : Dirs) : Prop :=
  ∀ x, total s.holdings s.mem x ≤ ind (given img) x

theorem stable_spaces (l : List Page) : Stable (spaces l) := by
  induction l with
  | nil => exact stable_zero
  | cons d l ih => exact (stable_space d).add ih

theorem spaces_erase {l : List Page} (h : d ∈ l) : spaces l = space d + spaces (l.erase d) :=
  ((List.perm_cons_erase h).map space).sum_eq

theorem listed_erase {l : List Page} (h : x ∈ l) : listed l = page x + listed (l.erase x) := by
  funext pt y
  show l.count y = one x y + (l.erase x).count y
  rw [(List.perm_cons_erase h).count_eq, List.count_cons, one]
  simp only [beq_iff_eq]
  omega

theorem listed_cons (x : Page) (l : List Page) : listed (x :: l) = page x + listed l := by
  funext pt y
  show (x :: l).count y = one x y + l.count y
  rw [List.count_cons, one]
  simp only [beq_iff_eq]
  omega

section Steps

variable {s s' : Dirs} {P : Finset Page} {K : Option Kind} {H : Holdings} {G : Memory → Prop}

theorem after_eq_some {α : Type} {fails : List Bool} {f : M α} {r : α × Memory}
    (h : after m fails f = some r) : f { m with fails := fails } = .ok r := by
  unfold after at h
  split at h
  · rename_i hm
    rw [hm, Option.some.inj h]
  · nomatch h

theorem of_guarded {α β : Type} {c : Prop} [Decidable c] {o : Option α} {f : α → β} {b : β}
    (h : (if c then o.map f else none) = some b) : c ∧ ∃ a, o = some a ∧ f a = b := by
  split at h
  · rename_i hc
    exact ⟨hc, Option.map_eq_some_iff.mp h⟩
  · nomatch h

theorem Book.weaken (h : Book P K H G m) : Book P K H (fun _ => True) m := h.imp fun _ => trivial

/-- A call starts with a book in which every page in use or free stands. -/
theorem Dirs.Once.book (h : s.Once img) (ks : List Kind) (fails : List Bool) :
    ∃ P K, P ⊆ given img ∧ Book P K s.holdings (Due False ks K) { s.mem with fails := fails } := by
  refine ⟨(given img).filter fun x => 0 < total s.holdings s.mem x,
    firstFailure ks fails s.mem.freelist.length, Finset.filter_subset _ _, ?_⟩
  have hind : ∀ x, total s.holdings s.mem x
      = ind ((given img).filter fun x => 0 < total s.holdings s.mem x) x := by
    intro x
    have hx := h x
    unfold ind at hx ⊢
    by_cases hin : x ∈ given img ∧ 0 < total s.holdings s.mem x
    · rw [if_pos hin.1] at hx
      rw [if_pos (Finset.mem_filter.mpr hin)]
      omega
    · rw [if_neg fun hmem => hin (Finset.mem_filter.mp hmem)]
      split at hx
      · rename_i hg
        exact Nat.eq_zero_of_not_pos fun hpos => hin ⟨hg, hpos⟩
      · exact Nat.le_zero.mp hx
  exact ⟨fun x => (hind x).le, .inl ⟨⟨rfl, False.elim⟩, hind⟩⟩

theorem Book.once (h : Book P K H G m) (hP : P ⊆ given img) (x : Page) :
    total H m x ≤ ind (given img) x := by
  refine (h.le x).trans ?_
  unfold ind
  split
  · rename_i hx
    rw [if_pos (hP hx)]
  · exact Nat.zero_le _

theorem Dirs.holdings_cons (s : Dirs) (m : Memory) (d : Page) :
    ({ s with mem := m, dirs := d :: s.dirs } : Dirs).holdings = space d + s.holdings :=
  add_assoc ..

/-- The rest of the pages, next to those of the directory `d`. -/
def Dirs.others (s : Dirs) (d : Page) : Holdings := spaces (s.dirs.erase d) + listed s.other

theorem Dirs.holdings_split (hd : d ∈ s.dirs) : s.holdings = space d + s.others d := by
  rw [holdings, others, spaces_erase hd, add_assoc]

theorem Dirs.stable_others (s : Dirs) (d : Page) : Stable (s.others d) :=
  (stable_spaces _).add (stable_listed _)

/-- A call that changes the directory `d` and leaves a book behind. -/
theorem Dirs.once_of_book (hd : d ∈ s.dirs) (hP : P ⊆ given img)
    (h : Book P K (space d + s.others d) G m) : ({ s with mem := m } : Dirs).Once img := by
  intro x
  have hx := h.once hP x
  rwa [← holdings_split hd] at hx

/-- The calls keep the pages apart. -/
theorem dirStep_once {e : DirCall × List Bool} (h : s.Once img) (hs : dirStep img s e = some s') :
    s'.Once img := by
  obtain ⟨c, fails⟩ := e
  have hall : Stable s.holdings := (stable_spaces _).add (stable_listed _)
  cases c with
  | setupkvm =>
    obtain ⟨⟨r, m⟩, hrun, rfl⟩ := Option.map_eq_some_iff.mp hs
    obtain ⟨P, K, hP, hb⟩ := h.book (.pgdir :: (kernelPlan img ++ [])) fails
    have hpost := (setupkvm_spec img hb hall).ok rfl (after_eq_some hrun)
    cases r with
    | none => exact Book.once hpost hP
    | some d =>
      intro x
      have hx := Book.once hpost.2 hP x
      rwa [← s.holdings_cons m d] at hx
  | allocuvm d oldsz newsz =>
    obtain ⟨hd, ⟨r, m⟩, hrun, rfl⟩ := of_guarded hs
    obtain ⟨P, K, hP, hb⟩ := h.book (allocPlan (hasTable d s.mem) oldsz newsz ++ []) fails
    rw [Dirs.holdings_split hd] at hb
    have hpost := (allocuvm_spec (s.stable_others d)
      (hb.imp fun hdue => ⟨fun _ _ => rfl, hdue⟩)).ok rfl (after_eq_some hrun)
    rcases hpost with ⟨-, hb'⟩ | ⟨-, hb'⟩
    · exact Dirs.once_of_book hd hP hb'
    · exact Dirs.once_of_book hd hP hb'
  | deallocuvm d oldsz newsz =>
    obtain ⟨hd, ⟨r, m⟩, hrun, rfl⟩ := of_guarded hs
    obtain ⟨P, K, hP, hb⟩ := h.book [] fails
    rw [Dirs.holdings_split hd.1] at hb
    have hpost := (deallocuvm_spec img (s.stable_others d) hd.2
      hb.weaken).ok rfl (after_eq_some hrun)
    exact Dirs.once_of_book hd.1 hP hpost.1
  | clearpteu d v =>
    obtain ⟨hd, ⟨r, m⟩, hrun, rfl⟩ := of_guarded hs
    obtain ⟨P, K, hP, hb⟩ := h.book [] fails
    rw [Dirs.holdings_split hd] at hb
    have hpost := (clearpteu_spec (v := v) (s.stable_others d)
      hb.weaken).ok rfl (after_eq_some hrun)
    exact Dirs.once_of_book hd hP hpost
  | copyuvm d sz =>
    obtain ⟨hd, ⟨r, m⟩, hrun, rfl⟩ := of_guarded hs
    obtain ⟨P, K, hP, hb⟩ := h.book (.pgdir :: (kernelPlan img ++
      plan [.page] (kernelHas img) (newPages 0 sz))) fails
    have hpost := (copyuvm_spec hall hd.2 hb).ok rfl (after_eq_some hrun)
    cases r with
    | none => exact Book.once hpost hP
    | some d' =>
      intro x
      have hx := Book.once hpost hP x
      rwa [← s.holdings_cons m d'] at hx
  | freevm d =>
    obtain ⟨hd, ⟨r, m⟩, hrun, rfl⟩ := of_guarded hs
    obtain ⟨P, K, hP, hb⟩ := h.book [] fails
    rw [Dirs.holdings_split hd] at hb
    have hpost := (freevm_spec img (s.stable_others d)
      hb.weaken).ok rfl (after_eq_some hrun)
    exact Book.once hpost hP
  | kalloc =>
    obtain ⟨⟨r, m⟩, hrun, rfl⟩ := Option.map_eq_some_iff.mp hs
    obtain ⟨P, K, hP, hb⟩ := h.book [.pipe] fails
    have hpost := (kalloc_spec (Q := fun _ => True) (hb.imp fun hdue => ⟨trivial, hdue⟩)).ok rfl
      (after_eq_some hrun)
    cases r with
    | none => exact Book.once hpost.2 hP
    | some p =>
      intro x
      have hx := Book.once hpost.2 hP x
      have heq : ({ s with mem := m, other := p :: s.other } : Dirs).holdings
          = s.holdings + page p := by
        rw [Dirs.holdings, Dirs.holdings, listed_cons, add_assoc, add_comm (page p)]
      rwa [← heq] at hx
  | kfree p =>
    obtain ⟨hp, ⟨r, m⟩, hrun, rfl⟩ := of_guarded hs
    obtain ⟨P, K, hP, hb⟩ := h.book [] fails
    have heq : s.holdings = spaces s.dirs + listed (s.other.erase p) + page p := by
      rw [Dirs.holdings, listed_erase hp, add_comm (page p), add_assoc]
    rw [heq] at hb
    have hpost := (kfree_spec img hb.weaken
      ((stable_spaces _).add (stable_listed _))).ok rfl (after_eq_some hrun)
    exact Book.once hpost hP

end Steps

/-! ## Every page once -/

/-- What stands in a list of pages passed to `kfree`: the pages of an address space. -/
theorem mem_tree_iff (pt : Pt) (d x : Page) : 0 < tree pt d x ↔
    x = d ∨ (∃ i < NPTENTRIES, ∃ e, pt d i = some e ∧ e.page = x) ∨
      ∃ v < 0x80000, ∃ c, entryAt pt d v = some c ∧ c.page = x := by
  refine ⟨fun h => (tree_pos_cases h).imp_left Eq.symm, ?_⟩
  rintro (rfl | ⟨i, hi, e, he, rfl⟩ | ⟨v, hv, c, hc, rfl⟩)
  · exact tree_dir_pos pt x
  · have := table_le_tree (x := e.page) hi he
    rw [one_self] at this
    omega
  · have := tree_of_entry hv hc
    omega

/-- **Every page once.** In every state that calls of the functions of `vm.c` lead to, `freevm` of a
directory passes to `kfree` the pages mapped for the user, the page tables and the directory, each
once, and no other page; in particular no page of another directory. -/
theorem freevm_once {s : Dirs} {tr : List (Trans Dirs (DirCall × List Bool))}
    (hr : IsRun (dirStep img) s tr) (hnone : s.dirs = [] ∧ s.other = [])
    (hnd : s.mem.freelist.Nodup) (hfree : ∀ p ∈ s.mem.freelist, Freeable img p)
    (hd : d ∈ (last s tr).dirs) :
    ∃ (l : List Page) (m' : Memory), freevm img d (last s tr).mem = .ok ((), m') ∧
      m'.freelist = l.reverse ++ (last s tr).mem.freelist ∧ l.Nodup ∧
      (∀ x, x ∈ l ↔ x = d ∨
        (∃ i < NPTENTRIES, ∃ e, (last s tr).mem.pt d i = some e ∧ e.page = x) ∨
        ∃ v < 0x80000, ∃ c, entryAt (last s tr).mem.pt d v = some c ∧ c.page = x) ∧
      (∀ x ∈ l, x ∉ (last s tr).mem.freelist ∧ x ∉ (last s tr).other) ∧
      ∀ d' ∈ (last s tr).dirs.erase d, ∀ x ∈ l, tree (last s tr).mem.pt d' x = 0 := by
  have hstart : s.Once img := by
    intro x
    have hzero : s.holdings s.mem.pt x = 0 := by
      rw [Dirs.holdings, hnone.1, hnone.2]
      rfl
    rw [total, hzero, Nat.add_zero]
    by_cases hx : x ∈ s.mem.freelist
    · exact (List.nodup_iff_count_le_one.mp hnd x).trans ((freeable_iff img x).mp (hfree x hx))
    · rw [List.count_eq_zero_of_not_mem hx]
      exact Nat.zero_le _
  have honce : (last s tr).Once img :=
    hr.invariant_last (C := fun _ => True) hstart (fun x hx _ h => dirStep_once h hx)
      fun _ _ => trivial
  generalize last s tr = t at *
  have hsplit : ∀ x, t.mem.freelist.count x + (tree t.mem.pt d x + t.others d t.mem.pt x)
      ≤ ind (given img) x := by
    intro x
    have hx := honce x
    rwa [total, Dirs.holdings_split hd] at hx
  have hone : ∀ x, ind (given img) x ≤ 1 := ind_le_one _
  have hle : ∀ x, tree t.mem.pt d x ≤ 1 := fun x => by
    have := hsplit x
    have := hone x
    omega
  have hfree : ∀ x, 0 < tree t.mem.pt d x → Freeable img x := fun x hx =>
    (freeable_iff img x).mpr (by have := hsplit x; omega)
  obtain ⟨l, m', hrun, hlist, hcount, -⟩ := freevm_run hle hfree
  have hmem : ∀ x, x ∈ l ↔ 0 < tree t.mem.pt d x := fun x => by
    rw [← hcount, List.count_pos_iff]
  refine ⟨l, m', hrun, hlist, ?_, fun x => (hmem x).trans (mem_tree_iff ..), fun x hx => ?_,
    fun d' hd' x hx => ?_⟩
  · refine List.nodup_iff_count_le_one.mpr fun x => ?_
    have := hsplit x
    have := hone x
    have := hcount x
    omega
  · have h1 := (hmem x).mp hx
    have h2 := hsplit x
    have h3 := hone x
    have h4 : t.others d t.mem.pt x = spaces (t.dirs.erase d) t.mem.pt x + t.other.count x := rfl
    rw [← List.count_eq_zero, ← List.count_eq_zero]
    omega
  · have h1 := (hmem x).mp hx
    have h2 := hsplit x
    have h3 := hone x
    have h4 : t.others d t.mem.pt x = spaces (t.dirs.erase d) t.mem.pt x + t.other.count x := rfl
    have h5 : spaces (t.dirs.erase d) t.mem.pt x
        = tree t.mem.pt d' x + spaces ((t.dirs.erase d).erase d') t.mem.pt x := by
      rw [spaces_erase hd']
      rfl
    omega

theorem dirStep_setupkvm {s : Dirs} {fails : List Bool}
    (h : setupkvm img { s.mem with fails := fails } = .ok (some d, m)) :
    dirStep img s (.setupkvm, fails) = some { s with mem := m, dirs := d :: s.dirs } := by
  have hafter : after s.mem fails (setupkvm img) = some (some d, m) := by
    unfold after
    rw [h]
  rw [dirStep, hafter]
  rfl

/-- Seventy free pages and no directory yet. -/
def noDirs : Dirs := { mem := freePages (List.range' 0x400 70), dirs := [], other := [] }

/-- A directory that `setupkvm` has just made. -/
theorem freevm_once_setupkvm : ∃ d s', dirStep smallImage noDirs (.setupkvm, []) = some s' ∧
    d ∈ s'.dirs ∧ ∃ (l : List Page) (m' : Memory), freevm smallImage d s'.mem = .ok ((), m') ∧
      m'.freelist = l.reverse ++ s'.mem.freelist ∧ l.Nodup ∧ d ∈ l := by
  have hnd : noDirs.mem.freelist.Nodup := List.nodup_range'
  have hfree : ∀ p ∈ noDirs.mem.freelist, Freeable smallImage p := by
    intro p hp
    have hp : p ∈ List.range' 0x400 70 := hp
    rw [List.mem_range'_1] at hp
    exact ⟨le_trans (by decide) hp.1, lt_of_lt_of_le hp.2 (by decide)⟩
  obtain ⟨d, m₁, hsetup, -⟩ := setupkvm_calm (k := 0) (m := { noDirs.mem with fails := [] })
    smallImage hnd ⟨rfl, by decide⟩
  have hstep := dirStep_setupkvm hsetup
  have hd : d ∈ d :: noDirs.dirs := List.mem_cons_self
  obtain ⟨l, m', hrun, hlist, hl, hmem, -⟩ := freevm_once (IsRun.cons hstep (.nil _))
    ⟨rfl, rfl⟩ hnd hfree hd
  exact ⟨d, _, hstep, hd, l, m', hrun, hlist, hl, (hmem d).mpr (.inl rfl)⟩

end StrideXv6.Mem
