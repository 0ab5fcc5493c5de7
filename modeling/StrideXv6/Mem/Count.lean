import Mathlib.Algebra.BigOperators.Group.Finset.Basic
import StrideXv6.Mem.Vm

set_option autoImplicit false

/-! # How often a page is referred to

`tree pt d x` counts the references to the page `x` in the address space with page directory `d`:
`x` is `d` itself, a page table of it, or a page mapped in its user part. (The kernel part of every
address space maps all of memory, so it is not counted.)

While no page is referred to twice, page tables do not overlap (`table_ne_dir`, `table_inj`), and
what a store into a page table does to the count is what it does to the tree: a new table is one
more reference (`tree_withTable`), and so is a new entry (`tree_set_pte`). A store into a page that
is not part of the tree does not change it; holdings with that property are `Stable`.
-/

namespace StrideXv6.Mem

open Function

open Finset (range Ico sum_congr)

/-! ## Counting -/

/-- A reference to the page `p`. -/
def one (p x : Page) : Nat := if p = x then 1 else 0

def cell (e : Option Pte) (x : Page) : Nat :=
  match e with
  | none => 0
  | some e => one e.page x

/-- The pages mapped by the page table `t`. -/
def leaf (pt : Pt) (t x : Page) : Nat := ∑ j ∈ range NPTENTRIES, cell (pt t j) x

/-- The part of a tree at the entry `e` with index `i` of the directory. -/
def branch (pt : Pt) (i : Nat) (e : Option Pte) (x : Page) : Nat :=
  match e with
  | none => 0
  | some e => one e.page x + if i < userEntries then leaf pt e.page x else 0

def tree (pt : Pt) (d x : Page) : Nat := one d x + ∑ i ∈ range NPTENTRIES, branch pt i (pt d i) x

/-- A page directory and its tables from the index `i` on. -/
def dirFrom (d : Page) (i : Nat) (pt : Pt) (x : Page) : Nat :=
  one d x + ∑ k ∈ Ico i NPTENTRIES, cell (pt d k) x

@[simp] theorem one_self (p : Page) : one p p = 1 := if_pos rfl

theorem one_of_ne {p x : Page} (h : p ≠ x) : one p x = 0 := if_neg h

theorem one_pos {p x : Page} (h : 0 < one p x) : p = x := by
  by_contra hne
  rw [one_of_ne hne] at h
  omega

/-- A sum whose terms change at one index. -/
theorem sum_change {n i : Nat} (hi : i < n) {f g : Nat → Nat} (h : ∀ k, k ≠ i → g k = f k) :
    ∑ k ∈ range n, g k + f i = ∑ k ∈ range n, f k + g i := by
  have hmem : i ∈ range n := Finset.mem_range.mpr hi
  have hrest : ∑ k ∈ (range n).erase i, g k = ∑ k ∈ (range n).erase i, f k :=
    sum_congr rfl fun k hk => h k (Finset.ne_of_mem_erase hk)
  rw [← Finset.add_sum_erase _ g hmem, ← Finset.add_sum_erase _ f hmem, hrest]
  omega

variable {pt : Pt} {d t x : Page} {i j : Nat} {e : Pte}
variable {v : Nat} {c : Pte}

theorem one_le_tree : one d x ≤ tree pt d x := Nat.le_add_right ..

theorem branch_le_tree (hi : i < NPTENTRIES) :
    one d x + branch pt i (pt d i) x ≤ tree pt d x := by
  have := Finset.single_le_sum (f := fun i => branch pt i (pt d i) x) (fun _ _ => Nat.zero_le _)
    (Finset.mem_range.mpr hi)
  unfold tree
  omega

theorem table_le_tree (hi : i < NPTENTRIES) (he : pt d i = some e) :
    one d x + one e.page x ≤ tree pt d x := by
  have : one d x + branch pt i (pt d i) x ≤ tree pt d x := branch_le_tree hi
  rw [he] at this
  simp only [branch] at this
  omega

theorem leaf_le_tree (hi : i < userEntries) (he : pt d i = some e) :
    one d x + one e.page x + leaf pt e.page x ≤ tree pt d x := by
  have : one d x + branch pt i (pt d i) x ≤ tree pt d x := by
    refine branch_le_tree ?_
    simp only [userEntries, NPTENTRIES] at *
    omega
  rw [he] at this
  simp only [branch, if_pos hi] at this
  omega

theorem pair_le_sum {n k k' : Nat} (hk : k < n) (hk' : k' < n) (hne : k ≠ k')
    (f : Nat → Nat) : f k + f k' ≤ ∑ l ∈ range n, f l := by
  have hsub : ({k, k'} : Finset Nat) ⊆ range n := by
    intro l hl
    simp only [Finset.mem_insert, Finset.mem_singleton] at hl
    rcases hl with rfl | rfl
    · exact Finset.mem_range.mpr hk
    · exact Finset.mem_range.mpr hk'
  rw [← Finset.sum_pair hne]
  exact Finset.sum_le_sum_of_subset hsub

/-- Two different parts of a tree. -/
theorem branch_pair_le_tree {i' : Nat} (hi : i < NPTENTRIES) (hi' : i' < NPTENTRIES)
    (hne : i ≠ i') : branch pt i (pt d i) x + branch pt i' (pt d i') x ≤ tree pt d x := by
  have := pair_le_sum hi hi' hne fun k => branch pt k (pt d k) x
  unfold tree
  omega

theorem cell_le_leaf (hj : j < NPTENTRIES) : cell (pt t j) x ≤ leaf pt t x :=
  Finset.single_le_sum (f := fun j => cell (pt t j) x) (fun _ _ => Nat.zero_le _)
    (Finset.mem_range.mpr hj)

/-! ## Tables do not overlap -/

theorem table_ne_dir (h : ∀ x, tree pt d x ≤ 1) (hi : i < NPTENTRIES) (he : pt d i = some e) :
    e.page ≠ d := by
  intro hd
  have h1 := h d
  have h2 := table_le_tree (x := d) hi he
  rw [one_self, hd, one_self] at h2
  omega

theorem table_inj (h : ∀ x, tree pt d x ≤ 1) {i' : Nat} {e' : Pte} (hi : i < NPTENTRIES)
    (hi' : i' < NPTENTRIES) (he : pt d i = some e) (he' : pt d i' = some e')
    (heq : e'.page = e.page) : i' = i := by
  by_contra hne
  have h1 := h e.page
  have hpair : branch pt i (pt d i) e.page + branch pt i' (pt d i') e.page ≤ tree pt d e.page :=
    branch_pair_le_tree hi hi' (Ne.symm hne)
  have h2 : 1 ≤ branch pt i (pt d i) e.page := by
    rw [he]
    simp only [branch, one_self]
    omega
  have h3 : 1 ≤ branch pt i' (pt d i') e.page := by
    rw [he', ← heq]
    simp only [branch, one_self]
    omega
  omega

/-! ## Stores -/

/-- Pages that are held by somebody, given what the page tables say. -/
abbrev Holdings := Pt → Page → Nat

/-- An address space. -/
def space (d : Page) : Holdings := fun pt x => tree pt d x

/-- A single page. -/
def page (p : Page) : Holdings := fun _ x => one p x

/-- Holdings that a store into a page they do not include leaves alone. -/
def Stable (L : Holdings) : Prop :=
  ∀ pt t (f : Nat → Option Pte), L pt t = 0 → L (Function.update pt t f) = L pt

theorem Stable.add {L L' : Holdings} (h : Stable L) (h' : Stable L') : Stable (L + L') := by
  intro pt t f h0
  have h0 : L pt t + L' pt t = 0 := h0
  rw [Pi.add_apply, Pi.add_apply, h pt t f (by omega), h' pt t f (by omega)]

theorem stable_zero : Stable 0 := fun _ _ _ _ => rfl

theorem stable_page (p : Page) : Stable (page p) := fun _ _ _ _ => rfl

/-- The count depends on the directory and its tables only. -/
theorem tree_congr {pt' : Pt} (hd : pt' d = pt d)
    (ht : ∀ i < NPTENTRIES, ∀ e, pt d i = some e → pt' e.page = pt e.page) (x : Page) :
    tree pt' d x = tree pt d x := by
  have hterm : ∀ i ∈ range NPTENTRIES, branch pt' i (pt d i) x = branch pt i (pt d i) x := by
    intro i hi
    cases he : pt d i with
    | none => rfl
    | some e => simp only [branch, leaf, ht i (Finset.mem_range.mp hi) e he]
  rw [tree, tree, hd, sum_congr rfl hterm]

/-- A store outside of the directory and its tables. -/
theorem tree_update_other (f : Nat → Option Pte) (hd : t ≠ d)
    (ht : ∀ i < NPTENTRIES, ∀ e, pt d i = some e → e.page ≠ t) (x : Page) :
    tree (Function.update pt t f) d x = tree pt d x :=
  tree_congr (update_of_ne (Ne.symm hd) ..)
    (fun i hi e he => update_of_ne (ht i hi e he) ..) x

theorem stable_space (d : Page) : Stable (space d) := by
  intro pt t f h0
  have h0 : tree pt d t = 0 := h0
  funext x
  refine tree_update_other f ?_ ?_ x
  · rintro rfl
    have : one t t ≤ tree pt t t := one_le_tree
    rw [one_self] at this
    omega
  · rintro i hi e he rfl
    have := table_le_tree (x := e.page) hi he
    rw [one_self] at this
    omega

theorem stable_dirFrom (d : Page) (i : Nat) : Stable (dirFrom d i) := by
  intro pt t f h0
  have hne : d ≠ t := by
    rintro rfl
    simp [dirFrom] at h0
  funext x
  unfold dirFrom
  rw [update_of_ne hne]

/-- A directory without entries. -/
theorem tree_empty (h : ∀ i, pt d i = none) (x : Page) : tree pt d x = one d x := by
  have : ∑ i ∈ range NPTENTRIES, branch pt i (pt d i) x = 0 :=
    Finset.sum_eq_zero fun i _ => by rw [h]; rfl
  rw [tree, this, Nat.add_zero]

/-- `walkpgdir` clears the page `t` and makes it a table of the directory `d`. -/
def withTable (pt : Pt) (d t : Page) (i : Nat) : Pt :=
  let cleared := Function.update pt t fun _ => none
  Function.update cleared d (Function.update (cleared d) i (some ⟨t, true, true⟩))

theorem Stable.withTable {L : Holdings} (h : Stable L) (ht : L pt t = 0) (hd : L pt d = 0) :
    L (withTable pt d t i) = L pt := by
  have hclear := h pt t (fun _ => none) ht
  rw [Mem.withTable, h _ d _ (by rw [hclear, hd]), hclear]

/-- What `withTable` needs: the page is not in use. -/
theorem page_ne_dir (ht : tree pt d t = 0) : d ≠ t := by
  rintro rfl
  have : one d d ≤ tree pt d d := one_le_tree
  rw [one_self] at this
  omega

theorem page_ne_table (ht : tree pt d t = 0) (hi : i < NPTENTRIES) (he : pt d i = some e) :
    e.page ≠ t := by
  rintro rfl
  have := table_le_tree (x := e.page) hi he
  rw [one_self] at this
  omega

theorem withTable_dir (hdt : d ≠ t) (k : Nat) :
    withTable pt d t i d k = if k = i then some ⟨t, true, true⟩ else pt d k := by
  rw [withTable, update_self]
  split
  · rename_i hk
    rw [hk, update_self]
  · rename_i hk
    rw [update_of_ne hk, update_of_ne hdt]

theorem withTable_new (hdt : d ≠ t) (j : Nat) : withTable pt d t i t j = none := by
  rw [withTable, update_of_ne hdt.symm, update_self]

theorem withTable_table (h : ∀ x, tree pt d x ≤ 1) (ht : tree pt d t = 0) {k : Nat}
    (hk : k < NPTENTRIES) (he : pt d k = some e) : withTable pt d t i e.page = pt e.page := by
  rw [withTable, update_of_ne (table_ne_dir h hk he),
    update_of_ne (page_ne_table ht hk he)]

theorem tree_withTable (h : ∀ x, tree pt d x ≤ 1) (ht : tree pt d t = 0) (hi : i < NPTENTRIES)
    (hnone : pt d i = none) (x : Page) :
    tree (withTable pt d t i) d x = tree pt d x + one t x := by
  have hterm : ∀ k ∈ (range NPTENTRIES).erase i,
      branch (withTable pt d t i) k (withTable pt d t i d k) x = branch pt k (pt d k) x := by
    intro k hk
    rw [withTable_dir (page_ne_dir ht), if_neg (Finset.ne_of_mem_erase hk)]
    cases he : pt d k with
    | none => rfl
    | some e =>
      have hkn := Finset.mem_range.mp (Finset.mem_of_mem_erase hk)
      simp only [branch, leaf, withTable_table h ht hkn he]
  have hleaf : leaf (withTable pt d t i) t x = 0 := by
    refine Finset.sum_eq_zero fun j _ => ?_
    rw [withTable_new (page_ne_dir ht)]
    rfl
  have hmem : i ∈ range NPTENTRIES := Finset.mem_range.mpr hi
  rw [tree, tree, ← Finset.add_sum_erase _ _ hmem,
    ← Finset.add_sum_erase (range NPTENTRIES) (fun k => branch pt k (pt d k) x) hmem,
    sum_congr rfl hterm, withTable_dir (page_ne_dir ht), if_pos rfl, hnone]
  simp only [branch, hleaf, ite_self, Nat.add_zero, Nat.zero_add]
  omega

/-- A store into a page table. -/
def setPte (pt : Pt) (t : Page) (j : Nat) (c : Option Pte) : Pt :=
  Function.update pt t (Function.update (pt t) j c)

theorem setPte_self (pt : Pt) (t : Page) (j : Nat) (c : Option Pte) :
    setPte pt t j c t = Function.update (pt t) j c := update_self ..

theorem setPte_of_ne {p : Page} (pt : Pt) (j : Nat) (c : Option Pte) (h : p ≠ t) :
    setPte pt t j c p = pt p := update_of_ne h ..

theorem Stable.setPte {L : Holdings} (h : Stable L) (ht : L pt t = 0) (j : Nat)
    (c : Option Pte) : L (setPte pt t j c) = L pt := h pt t _ ht

theorem branch_set_pte (h : ∀ x, tree pt d x ≤ 1) (hi : i < NPTENTRIES) (he : pt d i = some e)
    (c : Option Pte) {k : Nat} (hk : k ≠ i) (hkn : k < NPTENTRIES) (x : Page) :
    branch (setPte pt e.page j c) k (pt d k) x
      = branch pt k (pt d k) x := by
  cases he' : pt d k with
  | none => rfl
  | some e' =>
    have hne : e'.page ≠ e.page := fun heq => hk (table_inj h hi hkn he he' heq)
    simp only [branch, leaf, setPte_of_ne _ _ _ hne]

theorem tree_set_pte (h : ∀ x, tree pt d x ≤ 1) (hi : i < NPTENTRIES) (hj : j < NPTENTRIES)
    (he : pt d i = some e) (c : Option Pte) (x : Page) :
    tree (setPte pt e.page j c) d x
        + (if i < userEntries then cell (pt e.page j) x else 0)
      = tree pt d x + if i < userEntries then cell c x else 0 := by
  have hdir : setPte pt e.page j c d = pt d := setPte_of_ne _ _ _ (table_ne_dir h hi he).symm
  have hleaf : leaf (setPte pt e.page j c) e.page x
      + cell (pt e.page j) x = leaf pt e.page x + cell c x := by
    unfold leaf
    rw [setPte_self]
    have := sum_change hj (f := fun j => cell (pt e.page j) x)
      (g := fun k => cell (Function.update (pt e.page) j c k) x) fun k hk => by
        rw [update_of_ne hk]
    rwa [update_self] at this
  have hsum := sum_change hi (f := fun k => branch pt k (pt d k) x)
    (g := fun k => if k < NPTENTRIES then
      branch (setPte pt e.page j c) k (pt d k) x
      else branch pt k (pt d k) x) fun k hk => by
    split
    · rename_i hkn
      exact branch_set_pte h hi he c hk hkn x
    · rfl
  rw [sum_congr rfl fun k hk => if_pos (Finset.mem_range.mp hk), if_pos hi, he] at hsum
  unfold tree
  rw [hdir]
  simp only [branch] at hsum ⊢
  split at hsum
  · rename_i hu
    rw [if_pos hu, if_pos hu]
    omega
  · rename_i hu
    rw [if_neg hu, if_neg hu]
    omega

/-! ## Entries by virtual page -/

/-- The entry for the virtual page `v`. -/
def entryAt (pt : Pt) (d : Page) (v : Nat) : Option Pte :=
  (pt d (pdx v)).bind fun e => pt e.page (ptx v)

theorem pdx_lt (v : Nat) : pdx v < NPTENTRIES := Nat.mod_lt _ (by decide)

theorem ptx_lt (v : Nat) : ptx v < NPTENTRIES := Nat.mod_lt _ (by decide)

theorem pdx_user (hv : v * PGSIZE < KERNBASE) : pdx v < userEntries := by
  simp only [pdx, PGSIZE, KERNBASE, userEntries] at *
  omega

/-- The tables of a directory are pages of their own. -/
structure Tables (pt : Pt) (d : Page) : Prop where
  ne_dir : ∀ i < NPTENTRIES, ∀ e, pt d i = some e → e.page ≠ d
  inj : ∀ i < NPTENTRIES, ∀ i' < NPTENTRIES, ∀ e e', pt d i = some e → pt d i' = some e' →
    e'.page = e.page → i' = i

theorem tables_of_once (h : ∀ x, tree pt d x ≤ 1) : Tables pt d :=
  ⟨fun _ hi _ he => table_ne_dir h hi he,
    fun _ hi _ hi' _ _ he he' heq => table_inj h hi hi' he he' heq⟩

/-- A new table, in a page that is not in use, is empty. -/
theorem Tables.entryAt_withTable (h : Tables pt d) (hdt : d ≠ t)
    (ht : ∀ i < NPTENTRIES, ∀ e, pt d i = some e → e.page ≠ t)
    (hnone : pt d (pdx v) = none) (v' : Nat) :
    entryAt (withTable pt d t (pdx v)) d v' = entryAt pt d v' := by
  unfold entryAt
  rw [withTable_dir hdt]
  split
  · rename_i hk
    rw [hk, hnone, Option.bind_some, withTable_new hdt]
    rfl
  · cases he : pt d (pdx v') with
    | none => rfl
    | some e =>
      rw [Option.bind_some, Option.bind_some, withTable, update_of_ne
        (h.ne_dir _ (pdx_lt v') e he), update_of_ne (ht _ (pdx_lt v') e he)]

theorem entryAt_withTable (h : ∀ x, tree pt d x ≤ 1) (ht : tree pt d t = 0)
    (hnone : pt d (pdx v) = none) (v' : Nat) :
    entryAt (withTable pt d t (pdx v)) d v' = entryAt pt d v' :=
  (tables_of_once h).entryAt_withTable (page_ne_dir ht) (fun _ hi _ he => page_ne_table ht hi he)
    hnone v'

theorem entryAt_update_free (ht : tree pt d t = 0) (f : Nat → Option Pte) (v : Nat) :
    entryAt (Function.update pt t f) d v = entryAt pt d v := by
  unfold entryAt
  rw [update_of_ne (page_ne_dir ht)]
  cases he : pt d (pdx v) with
  | none => rfl
  | some e =>
    rw [Option.bind_some, Option.bind_some, update_of_ne (page_ne_table ht (pdx_lt v) he)]

theorem Tables.entryAt_set_pte (h : Tables pt d) {v v' : Nat} (hv : v < 2 ^ 20)
    (hv' : v' < 2 ^ 20) (he : pt d (pdx v) = some e) (c : Option Pte) :
    entryAt (setPte pt e.page (ptx v) c) d v'
      = if v' = v then c else entryAt pt d v' := by
  unfold entryAt
  rw [setPte_of_ne _ _ _ (h.ne_dir _ (pdx_lt v) e he).symm]
  by_cases hk : pdx v' = pdx v
  · rw [hk, he, Option.bind_some, Option.bind_some, setPte_self]
    by_cases hvv : v' = v
    · rw [if_pos hvv, hvv, update_self]
    · have hq : ptx v' ≠ ptx v := by
        simp only [pdx, ptx] at *
        omega
      rw [if_neg hvv, update_of_ne hq]
  · have hvv : v' ≠ v := fun heq => hk (by rw [heq])
    rw [if_neg hvv]
    cases he' : pt d (pdx v') with
    | none => rfl
    | some e' =>
      have hne : e'.page ≠ e.page := fun heq =>
        hk (h.inj _ (pdx_lt v) _ (pdx_lt v') e e' he he' heq)
      rw [Option.bind_some, Option.bind_some, setPte_of_ne _ _ _ hne]

theorem entryAt_set_pte (h : ∀ x, tree pt d x ≤ 1) {v v' : Nat} (hv : v < 2 ^ 20)
    (hv' : v' < 2 ^ 20) (he : pt d (pdx v) = some e) (c : Option Pte) :
    entryAt (setPte pt e.page (ptx v) c) d v'
      = if v' = v then c else entryAt pt d v' :=
  (tables_of_once h).entryAt_set_pte hv hv' he c

/-! ## Pages of the user part -/

theorem branch_of_entry (hv : v < 0x80000) (hc : entryAt pt d v = some c) :
    1 ≤ branch pt (pdx v) (pt d (pdx v)) c.page := by
  have hu : pdx v < userEntries := by
    simp only [pdx, userEntries]
    omega
  cases he : pt d (pdx v) with
  | none => rw [entryAt, he] at hc; cases hc
  | some e =>
    rw [entryAt, he, Option.bind_some] at hc
    have : cell (pt e.page (ptx v)) c.page ≤ leaf pt e.page c.page := cell_le_leaf (ptx_lt v)
    rw [hc] at this
    simp only [cell, one_self, branch, if_pos hu] at this ⊢
    omega

theorem tree_of_entry (hv : v < 0x80000) (hc : entryAt pt d v = some c) :
    1 + one d c.page ≤ tree pt d c.page := by
  have h1 := branch_of_entry hv hc
  have h2 : one d c.page + branch pt (pdx v) (pt d (pdx v)) c.page ≤ tree pt d c.page :=
    branch_le_tree (pdx_lt v)
  omega

/-- Different virtual pages are mapped to different pages. -/
theorem entry_inj (h : ∀ x, tree pt d x ≤ 1) {v v' : Nat} {c c' : Pte} (hv : v < 0x80000)
    (hv' : v' < 0x80000) (hc : entryAt pt d v = some c) (hc' : entryAt pt d v' = some c')
    (heq : c'.page = c.page) : v' = v := by
  have h1 := h c.page
  by_cases hrow : pdx v = pdx v'
  · by_contra hne
    have hcol : ptx v ≠ ptx v' := by
      simp only [pdx, ptx] at *
      omega
    cases he : pt d (pdx v) with
    | none => rw [entryAt, he] at hc; cases hc
    | some e =>
      rw [entryAt, he, Option.bind_some] at hc
      rw [entryAt, ← hrow, he, Option.bind_some] at hc'
      have h2 := leaf_le_tree (x := c.page) (pdx_user (v := v) (by
        simp only [PGSIZE, KERNBASE]; omega)) he
      have h3 : cell (pt e.page (ptx v)) c.page + cell (pt e.page (ptx v')) c.page
          ≤ leaf pt e.page c.page :=
        pair_le_sum (ptx_lt v) (ptx_lt v') hcol fun j => cell (pt e.page j) c.page
      rw [hc, hc'] at h3
      simp only [cell, heq, one_self] at h3
      omega
  · have h2 := branch_of_entry hv hc
    have h3 := branch_of_entry hv' hc'
    rw [heq] at h3
    have h4 : _ ≤ tree pt d c.page := branch_pair_le_tree (pdx_lt v) (pdx_lt v') hrow
    omega

/-- A page of the user part is not a table. -/
theorem entry_ne_table (h : ∀ x, tree pt d x ≤ 1) (hv : v < 0x80000)
    (hc : entryAt pt d v = some c) (hi : i < NPTENTRIES) (he : pt d i = some e) :
    e.page ≠ c.page := by
  intro heq
  have h1 := h c.page
  by_cases hrow : pdx v = i
  · have hu : i < userEntries := by
      rw [← hrow]
      simp only [pdx, userEntries]
      omega
    rw [entryAt, hrow, he, Option.bind_some] at hc
    have h2 := leaf_le_tree (x := c.page) hu he
    have h3 : cell (pt e.page (ptx v)) c.page ≤ leaf pt e.page c.page := cell_le_leaf (ptx_lt v)
    rw [hc] at h3
    simp only [cell, heq, one_self] at h2 h3
    omega
  · have h2 := branch_of_entry hv hc
    have h3 : _ ≤ tree pt d c.page := branch_pair_le_tree (pdx_lt v) hi hrow
    have h4 : 1 ≤ branch pt i (pt d i) c.page := by
      rw [he]
      simp only [branch, heq, one_self]
      omega
    omega

/-- What a page of an address space is used for. -/
theorem tree_pos_cases (h : 0 < tree pt d x) :
    d = x ∨ (∃ i < NPTENTRIES, ∃ e, pt d i = some e ∧ e.page = x) ∨
      ∃ v < 0x80000, ∃ c, entryAt pt d v = some c ∧ c.page = x := by
  rcases Nat.add_pos_iff_pos_or_pos.mp h with h1 | h1
  · exact .inl (one_pos h1)
  · obtain ⟨i, hi, hb⟩ := Finset.exists_ne_zero_of_sum_ne_zero (Nat.ne_of_gt h1)
    have hi := Finset.mem_range.mp hi
    cases he : pt d i with
    | none => rw [he] at hb; exact absurd rfl hb
    | some e =>
      rw [he, branch] at hb
      by_cases he0 : 0 < one e.page x
      · exact .inr (.inl ⟨i, hi, e, he, one_pos he0⟩)
      · have hu : i < userEntries := by
          by_contra hu
          rw [if_neg hu] at hb
          omega
        rw [if_pos hu] at hb
        obtain ⟨j, hj, hc⟩ := Finset.exists_ne_zero_of_sum_ne_zero
          (show leaf pt e.page x ≠ 0 by omega)
        have hj := Finset.mem_range.mp hj
        have hp : pdx (i * NPTENTRIES + j) = i := by
          simp only [pdx, NPTENTRIES] at *
          omega
        have hq : ptx (i * NPTENTRIES + j) = j := by
          simp only [ptx, NPTENTRIES] at *
          omega
        cases hcell : pt e.page j with
        | none => rw [hcell] at hc; exact absurd rfl hc
        | some c =>
          rw [hcell, cell] at hc
          refine .inr (.inr ⟨i * NPTENTRIES + j, ?_, c, ?_, one_pos (by omega)⟩)
          · simp only [userEntries, NPTENTRIES] at *
            omega
          · rw [entryAt, hp, hq, he, Option.bind_some, hcell]

/-! ## Removing an entry -/

/-- A page whose entry is removed is no longer in the tree. -/
theorem tree_unmapped (h : ∀ x, tree pt d x ≤ 1) (hi : i < userEntries)
    (hin : i < NPTENTRIES) (hj : j < NPTENTRIES) (he : pt d i = some e)
    (hc : pt e.page j = some c) : tree (setPte pt e.page j none) d c.page = 0 := by
  have h1 := tree_set_pte h hin hj he none c.page
  have h2 := h c.page
  simp only [if_pos hi, hc, cell, one_self] at h1
  omega

/-- The two stores of `deallocuvm` together: the page is freed and its entry removed. -/
theorem tree_unmap (h : ∀ x, tree pt d x ≤ 1) (hi : i < userEntries)
    (hin : i < NPTENTRIES) (hj : j < NPTENTRIES) (he : pt d i = some e)
    (hc : pt e.page j = some c) (f : Nat → Option Pte) (x : Page) :
    tree (Function.update (setPte pt e.page j none) c.page f) d x + one c.page x
      = tree pt d x := by
  have hset := tree_set_pte h hin hj he none x
  simp only [if_pos hi, hc, cell, Nat.add_zero] at hset
  have hstable : space d (Function.update (setPte pt e.page j none) c.page f)
      = space d (setPte pt e.page j none) := stable_space d _ _ _ (tree_unmapped h hi hin hj he hc)
  have htree : tree (Function.update (setPte pt e.page j none) c.page f) d x
      = tree (setPte pt e.page j none) d x := congrFun hstable x
  rw [htree, hset]

/-- When nothing is mapped in the user part, only the directory and its tables are left. -/
theorem tree_swept (h : ∀ v < userEntries * NPTENTRIES, entryAt pt d v = none) (x : Page) :
    tree pt d x = dirFrom d 0 pt x := by
  have hterm : ∀ i ∈ range NPTENTRIES, branch pt i (pt d i) x = cell (pt d i) x := by
    intro i hi
    have hi := Finset.mem_range.mp hi
    cases he : pt d i with
    | none => rfl
    | some e =>
      simp only [branch, cell, Nat.add_eq_left, ite_eq_right_iff]
      intro hu
      refine Finset.sum_eq_zero fun j hj => ?_
      have hj := Finset.mem_range.mp hj
      have hv := h (i * NPTENTRIES + j) (by simp only [userEntries, NPTENTRIES] at *; omega)
      have hp : pdx (i * NPTENTRIES + j) = i := by
        simp only [pdx, NPTENTRIES] at *
        omega
      have hq : ptx (i * NPTENTRIES + j) = j := by
        simp only [ptx, NPTENTRIES] at *
        omega
      rw [entryAt, hp, hq, he, Option.bind_some] at hv
      rw [hv]
      rfl
  rw [tree, dirFrom, sum_congr rfl hterm, Finset.range_eq_Ico]

theorem dirFrom_step (hi : i < NPTENTRIES) (x : Page) :
    dirFrom d i pt x = cell (pt d i) x + dirFrom d (i + 1) pt x := by
  unfold dirFrom
  rw [Finset.sum_eq_sum_Ico_succ_bot hi]
  omega

theorem dirFrom_end (x : Page) : dirFrom d NPTENTRIES pt x = one d x := by
  simp [dirFrom]

end StrideXv6.Mem
