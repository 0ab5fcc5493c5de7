import StrideXv6.Lib.Hoare
import StrideXv6.Mem.Count

set_option autoImplicit false

/-! # The book of pages

What the functions of `vm.c` do to the pages in use, for every pattern of failures of `kalloc`.
`Book P K H G m` says where the pages `P` are in the memory `m`: on the free list or among the
holdings `H`, each at most once. Either none is missing, and then `G` holds, or one is missing.

A page can get lost when there is no memory for a page table, and only then. To say so, the book
knows in advance which call of `kalloc` will be the first to fail: `K` is what the page was for.
`Due ks K` ties it to the state: the calls to come are those of the plan `ks`, as long as none
fails, and `K` is the first failure among them. A page may be missing only if `K` is a page table.

The specifications follow the functions up to `setupkvm`, `deallocuvm` and `freevm`. The rest of
the system appears in them as arbitrary stable holdings `L`.
-/

namespace StrideXv6.Mem

open Hoare Function

/-! ## Plans -/

/-- What `kalloc` is called for. -/
inductive Kind where
  | kstack
  | pgdir
  | pgtab
  | page
  | pipe
  deriving DecidableEq

/-- The first call of a plan that fails, with the failures to come and the length of the free
list. -/
def firstFailure : List Kind → List Bool → Nat → Option Kind
  | [], _, _ => none
  | k :: ks, fails, free =>
    if fails.headD false ∨ free = 0 then some k else firstFailure ks fails.tail (free - 1)

/-- The calls to come are `ks`. At boot the only failures are those for lack of pages. -/
structure Due (boot : Prop) (ks : List Kind) (K : Option Kind) (m : Memory) : Prop where
  first : firstFailure ks m.fails m.freelist.length = K
  calm : boot → m.fails = []

/-- The directory entries that are present. -/
abbrev Present := Nat → Bool

def Dir (pt : Pt) (d : Page) (has : Present) : Prop :=
  ∀ i < NPTENTRIES, (pt d i).isSome = has i

/-- `walkpgdir` allocates a table if there is none. -/
def need (has : Present) (v : Nat) : List Kind := if has (pdx v) then [] else [.pgtab]

def mark (has : Present) (v : Nat) : Present := Function.update has (pdx v) true

/-- The plan for mapping the virtual pages `vs`, with the calls `each` before each of them. -/
def plan (each : List Kind) : Present → List Nat → List Kind
  | _, [] => []
  | has, v :: vs => each ++ need has v ++ plan each (mark has v) vs

def markAll (has : Present) (vs : List Nat) : Present := vs.foldl mark has

/-! ## The book -/

/-- How often a page is free or held. -/
def total (H : Holdings) (m : Memory) (x : Page) : Nat := m.freelist.count x + H m.pt x

def ind (P : Finset Page) (x : Page) : Nat := if x ∈ P then 1 else 0

structure Book (P : Finset Page) (K : Option Kind) (H : Holdings) (G : Memory → Prop)
    (m : Memory) : Prop where
  le : ∀ x, total H m x ≤ ind P x
  mode : (G m ∧ ∀ x, total H m x = ind P x) ∨ (K = some .pgtab ∧ ∃ x, total H m x < ind P x)

section Book

variable {P : Finset Page} {K : Option Kind} {H H' L : Holdings} {G G' : Memory → Prop}
  {m m' : Memory} {d t p x : Page} {v : Nat} {e : Pte}

theorem ind_le_one (P : Finset Page) (x : Page) : ind P x ≤ 1 := by
  unfold ind
  split <;> omega

theorem Book.le_one (h : Book P K H G m) (x : Page) : total H m x ≤ 1 :=
  (h.le x).trans (ind_le_one P x)

/-- Pages may move between the free list and the holdings. -/
theorem Book.move (h : Book P K H G m) (ht : ∀ x, total H' m' x = total H m x)
    (hG : G m → G' m') : Book P K H' G' m' := by
  refine ⟨fun x => ht x ▸ h.le x, ?_⟩
  rcases h.mode with ⟨hg, he⟩ | ⟨hK, x, hx⟩
  · exact .inl ⟨hG hg, fun x => (ht x).trans (he x)⟩
  · exact .inr ⟨hK, x, by rwa [ht]⟩

theorem Book.imp (h : Book P K H G m) (hG : G m → G' m) : Book P K H G' m :=
  h.move (fun _ => rfl) hG

/-- After a failure for a page table a page may get lost. -/
theorem Book.lose (h : Book P K H G m) (hG : G m → K = some .pgtab)
    (hle : ∀ x, total H' m' x ≤ total H m x) (hlt : total H' m' p < total H m p) :
    Book P K H' G' m' := by
  refine ⟨fun x => (hle x).trans (h.le x), ?_⟩
  rcases h.mode with ⟨hg, he⟩ | ⟨hK, x, hx⟩
  · exact .inr ⟨hG hg, p, by rwa [← he]⟩
  · exact .inr ⟨hK, x, (hle x).trans_lt hx⟩

/-- Two holders have no page in common. -/
theorem Book.apart (h : Book P K (H + L) G m) (hx : 0 < H m.pt x) : L m.pt x = 0 := by
  have := h.le_one x
  simp only [total, Pi.add_apply] at this
  omega

theorem Book.tree_le_one (h : Book P K (space d + L) G m) (x : Page) : tree m.pt d x ≤ 1 := by
  have := h.le_one x
  simp only [total, Pi.add_apply, space] at this
  omega

theorem tree_dir_pos (pt : Pt) (d : Page) : 0 < tree pt d d := by
  have : one d d ≤ tree pt d d := one_le_tree
  rw [one_self] at this
  omega

/-- What a page that one holds alone contains does not matter to anybody. -/
theorem Book.store (h : Book P K (H + page p) G m) (hH : Stable H) (f : Nat → Option Pte)
    (b : Page → Bytes) (hG : G m → G' { m with pt := Function.update m.pt p f, bytes := b }) :
    Book P K (H + page p) G' { m with pt := Function.update m.pt p f, bytes := b } := by
  rw [add_comm] at h
  have h0 : H m.pt p = 0 := h.apart (by simp [page])
  rw [add_comm] at h
  refine h.move (fun x => ?_) hG
  simp only [total, Pi.add_apply, hH m.pt p f h0, page]

/-- A cleared page becomes a directory. -/
theorem Book.clear (h : Book P K (L + page d) G m) (hL : Stable L) (b : Page → Bytes)
    (hG : G m → G' { m with pt := Function.update m.pt d fun _ => none, bytes := b }) :
    Book P K (space d + L) G' { m with pt := Function.update m.pt d fun _ => none, bytes := b } := by
  refine (h.store hL (fun _ => none) b hG).move (fun x => ?_) id
  simp only [total, Pi.add_apply, space, page]
  rw [tree_empty (fun i => by rw [update_self])]
  omega

theorem Book.withTable (h : Book P K (space d + L + page t) G m) (hL : Stable L)
    (hnone : m.pt d (pdx v) = none) (b : Page → Bytes)
    (hG : G m → G' { m with pt := withTable m.pt d t (pdx v), bytes := b }) :
    Book P K (space d + L) G' { m with pt := withTable m.pt d t (pdx v), bytes := b } := by
  rw [add_comm] at h
  have h0 : tree m.pt d t + L m.pt t = 0 := h.apart (by simp [page])
  rw [add_comm, add_assoc] at h
  have hd : L m.pt d = 0 := by
    have := h.apart (x := d) (tree_dir_pos _ _)
    simp only [Pi.add_apply] at this
    omega
  refine h.move (fun x => ?_) hG
  simp only [total, Pi.add_apply, space, page]
  rw [tree_withTable h.tree_le_one (by omega) (pdx_lt v) hnone, hL.withTable (by omega) hd]
  omega

/-- A store into a page table changes nothing outside of its tree. -/
theorem Book.table_apart (h : Book P K (space d + L) G m) (he : m.pt d (pdx v) = some e) :
    L m.pt e.page = 0 := by
  refine h.apart ?_
  have := table_le_tree (x := e.page) (pdx_lt v) he
  rw [one_self] at this
  simp only [space]
  omega

/-- A page that is mapped in the user part belongs to the tree from then on. -/
def mapped (v : Nat) (pa : Page) : Holdings := if pdx v < userEntries then page pa else 0

theorem stable_mapped (v : Nat) (pa : Page) : Stable (mapped v pa) := by
  unfold mapped
  split
  · exact stable_page pa
  · exact stable_zero

theorem Book.map {pa : Page} (h : Book P K (space d + (L + mapped v pa)) G m) (hL : Stable L)
    (he : m.pt d (pdx v) = some e) (hnone : m.pt e.page (ptx v) = none) (w u : Bool)
    (b : Page → Bytes) (hG : G m →
      G' { m with pt := setPte m.pt e.page (ptx v) (some ⟨pa, w, u⟩), bytes := b }) :
    Book P K (space d + L) G'
      { m with pt := setPte m.pt e.page (ptx v) (some ⟨pa, w, u⟩), bytes := b } := by
  have h0 := h.table_apart he
  simp only [Pi.add_apply] at h0
  refine h.move (fun x => ?_) hG
  have hset := tree_set_pte h.tree_le_one (pdx_lt v) (ptx_lt v) he (some ⟨pa, w, u⟩) x
  rw [hnone] at hset
  simp only [total, Pi.add_apply, space, hL.setPte (by omega : L m.pt e.page = 0)]
  unfold mapped
  split
  · rename_i hu
    rw [if_pos hu, if_pos hu] at hset
    simp only [cell, page] at hset ⊢
    omega
  · rename_i hu
    rw [if_neg hu, if_neg hu] at hset
    simp only [Pi.zero_apply]
    omega

theorem Book.unmap {c : Pte} (h : Book P K (space d + L) G m) (hL : Stable L)
    (hu : pdx v < userEntries) (he : m.pt d (pdx v) = some e)
    (hc : m.pt e.page (ptx v) = some c) (b : Page → Bytes)
    (hG : G m → G' { m with
      freelist := c.page :: m.freelist
      pt := Function.update (setPte m.pt e.page (ptx v) none) c.page junk
      bytes := b }) :
    Book P K (space d + L) G' { m with
      freelist := c.page :: m.freelist
      pt := Function.update (setPte m.pt e.page (ptx v) none) c.page junk
      bytes := b } := by
  have h0 := h.table_apart he
  have htree := tree_unmap h.tree_le_one hu (pdx_lt v) (ptx_lt v) he hc junk
  have hcpage : L m.pt c.page = 0 := h.apart (by
    have := htree c.page
    rw [one_self] at this
    simp only [space]
    omega)
  refine h.move (fun x => ?_) hG
  simp only [total, Pi.add_apply]
  rw [hL _ _ _ (by rw [hL.setPte h0, hcpage]), hL.setPte h0, List.count_cons]
  have := htree x
  simp only [space, one, beq_iff_eq] at this ⊢
  omega

end Book

/-! ## kalloc and kfree -/

section Specs

variable {P : Finset Page} {K : Option Kind} {H L : Holdings} {G : Memory → Prop} {g : Prop}
  {m : Memory} {d p : Page} {boot : Prop} {k : Kind} {ks : List Kind} {has : Present} {v : Nat}

theorem Due.fail (h : Due boot (k :: ks) K m)
    (hf : m.fails.headD false = true ∨ m.freelist.length = 0) : K = some k := by
  rw [← h.first, firstFailure, if_pos hf]

theorem kalloc_spec {Q : Pt → Prop} (h : Book P K H (fun m => Q m.pt ∧ Due boot (k :: ks) K m) m) :
    Triple (· = m) kalloc
      (fun r m' => m'.pt = m.pt ∧ r.elim (Book P K H (fun _ => K = some k) m')
        fun p => Book P K (H + page p) (fun m => Q m.pt ∧ Due boot ks K m) m')
      fun _ => False := by
  by_cases hf : m.fails.headD false = true
  · refine triple_exact (a := none) (t := { m with fails := m.fails.tail }) ?_ ⟨rfl, ?_⟩
    · rw [kalloc, if_pos hf]
    · exact h.move (fun _ => rfl) fun hg => hg.2.fail (.inl hf)
  · cases hl : m.freelist with
    | nil =>
      refine triple_exact (a := none) (t := { m with fails := m.fails.tail }) ?_ ⟨rfl, ?_⟩
      · rw [kalloc, if_neg hf, hl]
      · exact h.move (fun _ => rfl) fun hg => hg.2.fail (.inr (by rw [hl]; rfl))
    | cons p ps =>
      refine triple_exact (a := some p)
        (t := { m with fails := m.fails.tail, freelist := ps }) ?_ ⟨rfl, ?_⟩
      · rw [kalloc, if_neg hf, hl]
      · refine h.move (fun x => ?_) fun ⟨hq, hfirst, hcalm⟩ => ⟨hq, ?_, fun hb => ?_⟩
        · simp only [total, Pi.add_apply, page, hl, List.count_cons, one, beq_iff_eq]
          omega
        · rw [hl, firstFailure, if_neg (by simpa using hf)] at hfirst
          exact hfirst
        · rw [hcalm hb]
          rfl

variable (img : Image)

theorem kfree_run (p : Page) (m : Memory) :
    Triple (· = m) (kfree img p)
      (fun _ m' => m' = { m with
        freelist := p :: m.freelist
        pt := Function.update m.pt p junk
        bytes := Function.update m.bytes p (putWord (fun _ => 1) 0 (link m.freelist)) })
      fun _ => p < img.end_ ∨ physPages ≤ p := by
  unfold kfree
  by_cases hp : p < img.end_ ∨ physPages ≤ p
  · rw [if_pos hp]
    exact triple_fail rfl hp
  · rw [if_neg hp]
    exact triple_step rfl (triple_step rfl (triple_exact rfl rfl))

/-- A page that is held may be freed. -/
theorem kfree_spec (h : Book P K (H + page p) (fun _ => g) m) (hH : Stable H) :
    Triple (· = m) (kfree img p) (fun _ m' => Book P K H (fun _ => g) m')
      fun _ => p < img.end_ ∨ physPages ≤ p := by
  refine (kfree_run img p m).post ?_
  rintro _ m' rfl
  have hstore : Book P K (H + page p) (fun _ => g)
      { m with pt := Function.update m.pt p junk, bytes := m.bytes } := h.store hH junk m.bytes id
  refine hstore.move (fun x => ?_) id
  simp only [total, Pi.add_apply, page, List.count_cons, one, beq_iff_eq]
  omega

/-! ## Mapping pages -/

theorem Dir.mark (h : Dir m.pt d has) {pt : Pt}
    (hpt : ∀ i < NPTENTRIES, (pt d i).isSome = if i = pdx v then true else (m.pt d i).isSome) :
    Dir pt d (mark has v) := by
  intro i hi
  rw [hpt i hi, Mem.mark, update_apply, ← h i hi]

theorem walkpgdir_spec
    (h : Book P K (space d + L) (fun m => Dir m.pt d has ∧ Due boot (need has v ++ ks) K m) m)
    (hL : Stable L) :
    Triple (· = m) (walkpgdir d v true)
      (fun r m' => (∀ v', entryAt m'.pt d v' = entryAt m.pt d v') ∧
        r.elim (Book P K (space d + L) (fun _ => K = some .pgtab) m') fun tj =>
          ∃ e, m'.pt d (pdx v) = some e ∧ tj = (e.page, ptx v) ∧
            Book P K (space d + L) (fun m => Dir m.pt d (mark has v) ∧ Due boot ks K m) m')
      fun _ => False := by
  unfold walkpgdir
  refine triple_step rfl ?_
  cases he : m.pt d (pdx v) with
  | some e =>
    refine triple_exact rfl ⟨fun _ => rfl, e, he, rfl, h.imp fun ⟨hd, hdue⟩ => ?_⟩
    have hhas : has (pdx v) = true := by rw [← hd _ (pdx_lt v), he, Option.isSome_some]
    rw [need, if_pos hhas] at hdue
    refine ⟨hd.mark fun i _ => ?_, hdue⟩
    split
    · rename_i hi
      rw [hi, he, Option.isSome_some]
    · rfl
  | none =>
    have h' : Book P K (space d + L) (fun m => Dir m.pt d has ∧ Due boot (.pgtab :: ks) K m) m := by
      refine h.imp fun ⟨hd, hdue⟩ => ⟨hd, ?_⟩
      have hhas : has (pdx v) = false := by rw [← hd _ (pdx_lt v), he, Option.isSome_none]
      rw [need, hhas] at hdue
      exact hdue
    refine (kalloc_spec (Q := fun pt => Dir pt d has) h').safe.next ?_
    rintro (_ | t) m₁ ⟨hpt, hb⟩
    · exact triple_exact rfl ⟨fun _ => by rw [hpt], hb⟩
    · have hb : Book P K (space d + L + page t)
          (fun m => Dir m.pt d has ∧ Due boot ks K m) m₁ := hb
      have ht : tree m₁.pt d t + L m₁.pt t = 0 := by
        rw [add_comm] at hb
        exact hb.apart (by simp [page])
      have htree : tree m₁.pt d t = 0 := by omega
      have hdt : d ≠ t := page_ne_dir htree
      have hle : ∀ x, tree m₁.pt d x ≤ 1 := by
        rw [add_assoc] at hb
        exact hb.tree_le_one
      rw [← hpt] at he ⊢
      refine triple_step rfl (triple_step rfl (triple_exact rfl ?_))
      refine ⟨entryAt_withTable hle (by omega) he, ⟨t, true, true⟩, ?_, rfl,
        hb.withTable hL he _ fun ⟨hd, hfirst, hcalm⟩ => ⟨hd.mark fun i _ => ?_, hfirst, hcalm⟩⟩
      · show Mem.withTable m₁.pt d t (pdx v) d (pdx v) = _
        rw [withTable_dir hdt, if_pos rfl]
      · show (Mem.withTable m₁.pt d t (pdx v) d i).isSome = _
        rw [withTable_dir hdt, apply_ite Option.isSome]
        rfl

/-- The first iteration of `mappages`, and what the others start with. -/
theorem mappages_succ {w u : Bool} {n : Nat} {pa : Page} {Q : Bool → Memory → Prop}
    {E : Panic → Prop}
    (h : Book P K (space d + (L + mapped v pa))
      (fun m => Dir m.pt d has ∧ Due boot (need has v ++ ks) K m) m)
    (hL : Stable L) (hv : v < 2 ^ 20) (hE : entryAt m.pt d v ≠ none → E .remap)
    (hfail : ∀ m', (∀ v', entryAt m'.pt d v' = entryAt m.pt d v') →
      Book P K (space d + (L + mapped v pa)) (fun _ => K = some .pgtab) m' → Q false m')
    (hnext : ∀ m', (∀ v' < 2 ^ 20, v' ≠ v → entryAt m'.pt d v' = entryAt m.pt d v') →
      Book P K (space d + L) (fun m => Dir m.pt d (mark has v) ∧ Due boot ks K m) m' →
      Triple (· = m') (mappages d w u n (v + 1) (pa + 1)) Q E) :
    Triple (· = m) (mappages d w u (n + 1) v pa) Q E := by
  rw [mappages]
  refine (walkpgdir_spec h (hL.add (stable_mapped v pa))).safe.next ?_
  rintro (_ | tj) m₁ ⟨hent, hr⟩
  · exact triple_exact rfl (hfail m₁ hent hr)
  · obtain ⟨e, he, rfl, hb⟩ := hr
    refine triple_step rfl ?_
    have hat : entryAt m₁.pt d v = m₁.pt e.page (ptx v) := by rw [entryAt, he, Option.bind_some]
    cases hc : m₁.pt e.page (ptx v) with
    | some c =>
      refine triple_fail rfl (hE ?_)
      rw [← hent, hat, hc]
      exact Option.some_ne_none c
    | none =>
      refine triple_step rfl (hnext _ (fun v' hv' hne => ?_) ?_)
      · rw [← hent]
        have := entryAt_set_pte hb.tree_le_one hv hv' he (some ⟨pa, w, u⟩)
        rwa [if_neg hne] at this
      · refine hb.map hL he hc w u _ fun hg => ⟨fun i hi => ?_, hg.2.first, hg.2.calm⟩
        show (setPte m₁.pt e.page (ptx v) (some ⟨pa, w, u⟩) d i).isSome = _
        rw [setPte_of_ne _ _ _ (table_ne_dir hb.tree_le_one (pdx_lt v) he).symm]
        exact hg.1 i hi

/-- Pages of the kernel part, which nobody owns for being mapped there. -/
theorem mappages_kernel {w : Bool} (hL : Stable L) : ∀ (n v : Nat) (pa : Page) (has : Present)
    (m : Memory), 0x80000 ≤ v → v + n ≤ 2 ^ 20 →
    (∀ v', v ≤ v' → v' < v + n → entryAt m.pt d v' = none) →
    Book P K (space d + L)
      (fun m => Dir m.pt d has ∧ Due boot (plan [] has (List.range' v n) ++ ks) K m) m →
    Triple (· = m) (mappages d w false n v pa)
      (fun r m' => (∀ v' < 2 ^ 20, v' < v ∨ v + n ≤ v' →
          entryAt m'.pt d v' = entryAt m.pt d v') ∧
        if r then Book P K (space d + L)
          (fun m => Dir m.pt d (markAll has (List.range' v n)) ∧ Due boot ks K m) m'
        else Book P K (space d + L) (fun _ => K = some .pgtab) m')
      fun _ => False := by
  intro n
  induction n with
  | zero => exact fun v pa has m _ _ _ h => triple_exact rfl ⟨fun _ _ _ => rfl, h⟩
  | succ n ih =>
    intro v pa has m hv hn hfree h
    have hmap : L + mapped v pa = L := by
      have : ¬ pdx v < userEntries := by
        simp only [pdx, userEntries]
        omega
      rw [mapped, if_neg this, add_zero]
    have h : Book P K (space d + (L + mapped v pa)) (fun m => Dir m.pt d has ∧
        Due boot (need has v ++ (plan [] (mark has v) (List.range' (v + 1) n) ++ ks)) K m) m := by
      rwa [hmap, ← List.append_assoc]
    refine mappages_succ h hL (by omega) (fun hne => hne (hfree v (by omega) (by omega))) ?_ ?_
    · intro m₁ hent hb
      rw [hmap] at hb
      exact ⟨fun v' _ _ => hent v', hb⟩
    · intro m₁ hent hb
      refine triple_conseq (ih (v + 1) (pa + 1) (mark has v) m₁ (by omega) (by omega) ?_ hb)
        (fun _ hx => hx) ?_ (fun _ hx => hx)
      · intro v' h1 h2
        rw [hent v' (by omega) (by omega), hfree v' (by omega) (by omega)]
      · rintro r m₂ ⟨hent₂, hr⟩
        refine ⟨fun v' hv' hout => ?_, ?_⟩
        · rw [hent₂ v' hv' (by omega), hent v' hv' (by omega)]
        · rwa [List.range'_succ, markAll, List.foldl_cons]

/-- A page of the user part. If there is no memory for the table, the page is lost. -/
theorem mappages_user {w u : Bool} {pa : Page} (h : Book P K (space d + L + page pa)
      (fun m => Dir m.pt d has ∧ Due boot (need has v ++ ks) K m) m)
    (hL : Stable L) (hv : v < 0x80000) :
    Triple (· = m) (mappages d w u 1 v pa)
      (fun r m' => if r then
          Book P K (space d + L) (fun m => Dir m.pt d (mark has v) ∧ Due boot ks K m) m'
        else Book P K (space d + L) (fun _ => False) m')
      fun _ => entryAt m.pt d v ≠ none := by
  have hmap : mapped v pa = page pa := by
    have : pdx v < userEntries := by
      simp only [pdx, userEntries]
      omega
    rw [mapped, if_pos this]
  refine mappages_succ (by rwa [hmap, ← add_assoc]) hL (by omega) id ?_ ?_
  · intro m₁ _ hb
    rw [hmap, ← add_assoc] at hb
    refine hb.lose (p := pa) id (fun x => ?_) ?_
    · simp only [total, Pi.add_apply]
      omega
    · simp only [total, Pi.add_apply, page, one_self]
      omega
  · intro m₁ _ hb
    exact triple_exact rfl hb

/-! ## setupkvm -/

/-- The virtual pages of the kernel part. -/
def kernelPages (img : Image) : List Nat :=
  (kmap img).flatMap fun k => List.range' k.virt k.pages

def kernelPlan (img : Image) : List Kind := plan [] (fun _ => false) (kernelPages img)

def kernelHas (img : Image) : Present := markAll (fun _ => false) (kernelPages img)

theorem plan_append (each : List Kind) (has : Present) (vs ws : List Nat) :
    plan each has (vs ++ ws) = plan each has vs ++ plan each (markAll has vs) ws := by
  induction vs generalizing has with
  | nil => rfl
  | cons v vs ih =>
    rw [List.cons_append, plan, plan, ih, List.append_assoc, List.append_assoc, List.append_assoc]
    rfl

theorem markAll_append (has : Present) (vs ws : List Nat) :
    markAll has (vs ++ ws) = markAll (markAll has vs) ws := List.foldl_append

/-- The mappings of a table of `kmap` follow each other in the kernel part. -/
def Ascending : Nat → List Kmap → Prop
  | _, [] => True
  | v, k :: ks => v ≤ k.virt ∧ k.virt + k.pages ≤ 2 ^ 20 ∧ Ascending (k.virt + k.pages) ks

theorem kmap_ascending : Ascending 0x80000 (kmap img) := by
  have h1 := img.linked
  have h2 := img.ordered
  have h3 := img.fits
  simp only [kmap, Ascending, Kmap.pages, physPages, and_true]
  omega

theorem mapKernel_spec (hL : Stable L) : ∀ (l : List Kmap) (v : Nat) (has : Present)
    (m : Memory), 0x80000 ≤ v → Ascending v l →
    (∀ v', v ≤ v' → v' < 2 ^ 20 → entryAt m.pt d v' = none) →
    Book P K (space d + L) (fun m => Dir m.pt d has ∧
      Due boot (plan [] has (l.flatMap fun k => List.range' k.virt k.pages) ++ ks) K m) m →
    Triple (· = m) (mapKernel d l)
      (fun r m' => (∀ v' < v, v' < 2 ^ 20 → entryAt m'.pt d v' = entryAt m.pt d v') ∧
        if r then Book P K (space d + L) (fun m => Dir m.pt d
          (markAll has (l.flatMap fun k => List.range' k.virt k.pages)) ∧ Due boot ks K m) m'
        else Book P K (space d + L) (fun _ => K = some .pgtab) m')
      fun _ => False := by
  intro l
  induction l with
  | nil => exact fun v has m _ _ _ h => triple_exact rfl ⟨fun _ _ _ => rfl, h⟩
  | cons k l ih =>
    rintro v has m hv ⟨hkv, hkn, hasc⟩ hfree h
    rw [List.flatMap_cons] at *
    rw [mapKernel]
    rw [plan_append, List.append_assoc] at h
    refine (mappages_kernel hL k.pages k.virt k.physStart has m (by omega) hkn
      (fun v' h1 h2 => hfree v' (by omega) (by omega)) h).safe.next ?_
    rintro (_ | _) m₁ ⟨hent, hr⟩
    · rw [if_neg Bool.false_ne_true] at hr ⊢
      exact triple_exact rfl ⟨fun v' h1 h2 => hent v' h2 (by omega), hr⟩
    · rw [if_pos rfl] at hr ⊢
      refine triple_conseq (ih (k.virt + k.pages) _ m₁ (by omega) hasc (fun v' h1 h2 => ?_) hr)
        (fun _ hx => hx) ?_ (fun _ hx => hx)
      · rw [hent v' h2 (by omega), hfree v' (by omega) h2]
      · rintro r m₂ ⟨hent₂, hr₂⟩
        refine ⟨fun v' h1 h2 => ?_, ?_⟩
        · rw [hent₂ v' (by omega) h2, hent v' h2 (by omega)]
        · rwa [markAll_append]

/-- If there is no memory for a table of the kernel part, the directory is lost. -/
theorem setupkvm_spec (h : Book P K L (fun m => Due boot (.pgdir :: (kernelPlan img ++ ks)) K m) m)
    (hL : Stable L) :
    Triple (· = m) (setupkvm img)
      (fun r m' => r.elim (Book P K L (fun _ => K = some .pgdir) m') fun d =>
        (∀ v < 0x80000, entryAt m'.pt d v = none) ∧ Book P K (space d + L)
          (fun m => Dir m.pt d (kernelHas img) ∧ Due boot ks K m) m')
      fun _ => False := by
  refine (kalloc_spec (Q := fun _ => True) (h.imp fun hd => ⟨trivial, hd⟩)).safe.next ?_
  rintro (_ | d) m₁ ⟨-, hb⟩
  · exact triple_exact rfl hb
  · refine triple_step rfl ?_
    have hempty : ∀ v, entryAt (Function.update m₁.pt d fun _ => none) d v = none := by
      intro v
      rw [entryAt, update_self]
      rfl
    refine (mapKernel_spec hL (kmap img) 0x80000 (fun _ => false) _ (by omega)
      (kmap_ascending img) (fun v _ _ => hempty v)
      (Book.clear hb hL _ fun hg => ⟨fun i _ => ?_, hg.2.first, hg.2.calm⟩)).safe.next ?_
    · show (Function.update m₁.pt d (fun _ => none) d i).isSome = false
      rw [update_self]
      rfl
    · rintro (_ | _) m₂ ⟨hent, hr⟩
      · refine triple_exact rfl (Book.lose (p := d) hr id (fun x => ?_) ?_)
        · simp only [total, Pi.add_apply]
          omega
        · have := tree_dir_pos m₂.pt d
          simp only [total, Pi.add_apply, space]
          omega
      · exact triple_exact rfl ⟨fun v hv => (hent v hv (by omega)).trans (hempty v), hr⟩

/-! ## deallocuvm and freevm -/

theorem walkpgdir_false (d : Page) (v : Nat) (m : Memory) :
    walkpgdir d v false m = .ok ((m.pt d (pdx v)).map fun e => (e.page, ptx v), m) := by
  unfold walkpgdir
  simp only [bind, StateT.bind, get, getThe, MonadStateOf.get, StateT.get, pure, Except.pure]
  cases he : m.pt d (pdx v) with
  | none => simp [Except.bind, he]; rfl
  | some e => simp [Except.bind, he]; rfl

/-- The sweep of `deallocuvm` has unmapped everything below `v`, and is not inside of a table that
does not exist. -/
def Swept (pt : Pt) (d : Page) (v : Nat) : Prop :=
  (v % NPTENTRIES = 0 ∨ (pt d (pdx v)).isSome = true) ∧ ∀ v' < v, entryAt pt d v' = none

theorem Swept.skip (h : Swept m.pt d v) (hnone : m.pt d (pdx v) = none) :
    Swept m.pt d (v + NPTENTRIES) := by
  have hal : v % NPTENTRIES = 0 := by
    rcases h.1 with h | h
    · exact h
    · rw [hnone] at h
      cases h
  refine ⟨.inl (by rw [Nat.add_mod_right, hal]), fun v' hv' => ?_⟩
  by_cases hlt : v' < v
  · exact h.2 v' hlt
  · have : pdx v' = pdx v := by
      simp only [pdx, NPTENTRIES] at *
      omega
    rw [entryAt, this, hnone]
    rfl

theorem Swept.next {pt : Pt} {e : Pte} (h : Swept m.pt d v) (hv : v < 0x80000)
    (he : pt d (pdx v) = some e)
    (hent : ∀ v' < 2 ^ 20, entryAt pt d v' = if v' = v then none else entryAt m.pt d v') :
    Swept pt d (v + 1) := by
  refine ⟨?_, fun v' hv' => ?_⟩
  · by_cases hal : (v + 1) % NPTENTRIES = 0
    · exact .inl hal
    · have : pdx (v + 1) = pdx v := by
        simp only [pdx, NPTENTRIES] at *
        omega
      rw [this, he]
      exact .inr rfl
  · rw [hent v' (by omega)]
    split
    · rfl
    · exact h.2 v' (by omega)

/-- A page is freed and its entry removed, before `f`. -/
theorem free_entry {img : Image} {e c : Pte} {f : M Unit} {Q : Unit → Memory → Prop}
    (h : Book P K (space d + L) (fun _ => g) m) (hL : Stable L) (hv : v < 0x80000)
    (he : m.pt d (pdx v) = some e) (hc : m.pt e.page (ptx v) = some c)
    (hnext : ∀ m', Book P K (space d + L) (fun _ => g) m' → m'.pt d (pdx v) = some e →
      (∀ v' < 2 ^ 20, entryAt m'.pt d v' = if v' = v then none else entryAt m.pt d v') →
      Triple (· = m') f Q fun _ => True) :
    Triple (· = m) (do kfree img c.page; setEntry e.page (ptx v) none; f) Q
      fun _ => True := by
  have hu : pdx v < userEntries := by
    simp only [pdx, userEntries]
    omega
  have hat : entryAt m.pt d v = some c := by rw [entryAt, he, Option.bind_some, hc]
  have hne := entry_ne_table h.tree_le_one hv hat (pdx_lt v) he
  have hfree := tree_unmapped h.tree_le_one hu (pdx_lt v) (ptx_lt v) he hc
  -- the two stores are to different pages
  have hcomm : setPte (Function.update m.pt c.page junk) e.page (ptx v) none
      = Function.update (setPte m.pt e.page (ptx v) none) c.page junk := by
    rw [setPte, update_of_ne hne, update_comm hne.symm]
    rfl
  refine triple_call (kfree_run img c.page m) rfl (fun _ _ => trivial) ?_
  rintro _ m₁ rfl
  let b := Function.update m.bytes c.page (putWord (fun _ => 1) 0 (link m.freelist))
  refine triple_step (a := ()) (t := { m with
    freelist := c.page :: m.freelist
    pt := Function.update (setPte m.pt e.page (ptx v) none) c.page junk
    bytes := Function.update b e.page (putWord (b e.page) (ptx v) (pteWord none)) }) ?_
    (hnext _ (h.unmap hL hu he hc _ id) ?_ fun v' hv' => ?_)
  · rw [← hcomm]
    rfl
  · show Function.update (setPte m.pt e.page (ptx v) none) c.page junk d (pdx v) = _
    rw [update_of_ne (page_ne_dir hfree), setPte_of_ne _ _ _
      (table_ne_dir h.tree_le_one (pdx_lt v) he).symm, he]
  · show entryAt (Function.update (setPte m.pt e.page (ptx v) none) c.page junk) d v' = _
    rw [entryAt_update_free hfree, entryAt_set_pte h.tree_le_one (by omega) hv' he]

theorem deallocLoop_spec {oldsz : Nat} (hL : Stable L) (hold : oldsz ≤ KERNBASE)
    {sweep : Prop} : ∀ (n v : Nat) (m : Memory), Book P K (space d + L) (fun _ => g) m →
    (sweep → Swept m.pt d v ∧ oldsz ≤ (v + n) * PGSIZE) →
    Triple (· = m) (deallocLoop img d oldsz n v)
      (fun _ m' => Book P K (space d + L) (fun _ => g) m' ∧
        (sweep → ∀ v', v' * PGSIZE < oldsz → entryAt m'.pt d v' = none))
      fun _ => True := by
  intro n
  induction n with
  | zero =>
    intro v m h hs
    exact triple_exact rfl ⟨h, fun hsw v' hv' => (hs hsw).1.2 v'
      (Nat.lt_of_mul_lt_mul_right (hv'.trans_le (hs hsw).2))⟩
  | succ n ih =>
    intro v m h hs
    rw [deallocLoop]
    by_cases hend : oldsz ≤ v * PGSIZE
    · rw [if_pos hend]
      exact triple_exact rfl ⟨h, fun hsw v' hv' => (hs hsw).1.2 v'
        (Nat.lt_of_mul_lt_mul_right (hv'.trans_le hend))⟩
    · rw [if_neg hend]
      have hv : v < 0x80000 := by
        simp only [PGSIZE, KERNBASE] at *
        omega
      cases he : m.pt d (pdx v) with
      | none =>
        refine triple_step (walkpgdir_false d v m) ?_
        rw [he]
        exact ih (v + NPTENTRIES) m h fun hsw => ⟨(hs hsw).1.skip he, (hs hsw).2.trans
          (Nat.mul_le_mul_right _ (by unfold NPTENTRIES; omega))⟩
      | some e =>
        have hnext : ∀ m', Book P K (space d + L) (fun _ => g) m' →
            m'.pt d (pdx v) = some e →
            (∀ v' < 2 ^ 20, entryAt m'.pt d v' = if v' = v then none else entryAt m.pt d v') →
            Triple (· = m') (deallocLoop img d oldsz n (v + 1)) _ _ :=
          fun m' hb hpt hent => ih (v + 1) m' hb fun hsw => ⟨(hs hsw).1.next hv hpt hent,
            (hs hsw).2.trans (Nat.mul_le_mul_right _ (by omega))⟩
        refine triple_step (walkpgdir_false d v m) ?_
        rw [he]
        refine triple_step rfl ?_
        have hat : entryAt m.pt d v = m.pt e.page (ptx v) := by
          rw [entryAt, he, Option.bind_some]
        cases hc : m.pt e.page (ptx v) with
        | none =>
          refine hnext m h he fun v' _ => ?_
          split
          · rename_i hvv
            rw [hvv, hat, hc]
          · rfl
        | some c =>
          dsimp only
          by_cases h0 : c.page = 0
          · rw [if_pos h0]
            exact triple_fail rfl trivial
          · rw [if_neg h0]
            exact free_entry h hL hv he hc hnext

theorem deallocuvm_spec {oldsz newsz : Nat} (hL : Stable L) (hold : oldsz ≤ KERNBASE)
    (h : Book P K (space d + L) (fun _ => g) m) :
    Triple (· = m) (deallocuvm img d oldsz newsz)
      (fun r m' => Book P K (space d + L) (fun _ => g) m' ∧ r = min oldsz newsz ∧
        (newsz = 0 → ∀ v, v * PGSIZE < oldsz → entryAt m'.pt d v = none))
      fun _ => True := by
  unfold deallocuvm
  by_cases hle : oldsz ≤ newsz
  · rw [if_pos hle]
    exact triple_exact rfl ⟨h, (Nat.min_eq_left hle).symm, fun h0 v hv => by omega⟩
  · rw [if_neg hle]
    have hstart : newsz = 0 → Swept m.pt d (pgroundup newsz) ∧
        oldsz ≤ (pgroundup newsz + pgroundup oldsz) * PGSIZE := by
      rintro rfl
      refine ⟨⟨.inl rfl, fun v' hv' => absurd hv' (Nat.not_lt_zero v')⟩, ?_⟩
      simp only [pgroundup, PGSIZE]
      omega
    refine (deallocLoop_spec img hL hold _ _ m h hstart).next ?_
    rintro _ m₁ ⟨hb, hswept⟩
    exact triple_exact rfl ⟨hb, (Nat.min_eq_right (by omega)).symm, hswept⟩

theorem freeTable_spec {i : Nat} (hi : i < NPTENTRIES) (hL : Stable L)
    (h : Book P K (dirFrom d i + L) (fun _ => g) m) :
    Triple (· = m) (freeTable img d i)
      (fun _ m' => Book P K (dirFrom d (i + 1) + L) (fun _ => g) m') fun _ => True := by
  unfold freeTable
  refine triple_step rfl ?_
  cases he : m.pt d i with
  | none =>
    refine triple_exact rfl (h.move (fun x => ?_) id)
    simp only [total, Pi.add_apply, dirFrom_step hi, he, cell]
    omega
  | some e =>
    refine triple_conseq (kfree_spec img (H := dirFrom d (i + 1) + L) (p := e.page)
      (h.move (fun x => ?_) id) ((stable_dirFrom d (i + 1)).add hL)) (fun _ hx => hx)
      (fun _ _ hb => hb) (fun _ _ => trivial)
    simp only [total, Pi.add_apply, dirFrom_step hi, he, cell, page]
    omega

theorem freevm_spec (hL : Stable L) (h : Book P K (space d + L) (fun _ => g) m) :
    Triple (· = m) (freevm img d) (fun _ m' => Book P K L (fun _ => g) m')
      fun _ => True := by
  unfold freevm
  refine (deallocuvm_spec img hL (le_refl KERNBASE) h).next ?_
  rintro _ m₁ ⟨hb, -, hswept⟩
  have hdir : Book P K (dirFrom d 0 + L) (fun _ => g) m₁ := by
    refine hb.move (fun x => ?_) id
    have : tree m₁.pt d x = dirFrom d 0 m₁.pt x := tree_swept (fun v hv => hswept rfl v (by
      simp only [userEntries, NPTENTRIES, PGSIZE, KERNBASE] at *
      omega)) x
    simp only [total, Pi.add_apply, space, this]
  rw [List.range_eq_range']
  refine triple_call (triple_forM_range' (I := fun i => Book P K (dirFrom d i + L) fun _ => g) 0
    NPTENTRIES fun i _ hi => triple_of_forall fun m hm => ?_) hdir (fun _ he => he) ?_
  · exact freeTable_spec img (by omega) hL hm
  · intro _ m₂ hb₂
    refine triple_conseq (kfree_spec img (H := L) (p := d) (hb₂.move (fun x => ?_) id) hL)
      (fun _ hx => hx) (fun _ _ hb => hb) (fun _ _ => trivial)
    simp only [total, Pi.add_apply, Nat.zero_add, dirFrom_end, page]
    omega

end Specs

end StrideXv6.Mem
