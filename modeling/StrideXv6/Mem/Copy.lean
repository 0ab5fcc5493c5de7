import StrideXv6.Mem.Grow
import StrideXv6.Mem.Leak

set_option autoImplicit false

/-! # What copyuvm copies

When `copyuvm` returns a page directory, that directory maps a copy of every page of the parent to a
page of its own, and the kernel as `setupkvm` maps it (`copyuvm_ok`). The pages of parent and child
have come from different places (those of the child were on the free list), so no page belongs to
both, and stores of one of them are not seen by the other (`stores_isolated`); `fork_isolates` is the
two together. With enough memory `copyuvm` does return a directory (`exists_copy`).
-/

namespace StrideXv6.Mem

open Hoare Function

variable {img : Image} {m m' m₀ m₁ : Memory} {d pgdir p x : Page} {v n : Nat}

/-! ## Work on a new address space -/

/-- Pages have been taken from the free list for the address space `d`, and nothing outside of it has
been touched. -/
structure Extends (d : Page) (m m' : Memory) : Prop where
  total : ∀ x, total (space d) m' x = total (space d) m x
  frame : ∀ x, Outside d m x → Outside d m' x ∧ m'.pt x = m.pt x ∧ m'.bytes x = m.bytes x

theorem Extends.refl (d : Page) (m : Memory) : Extends d m m :=
  ⟨fun _ => rfl, fun _ hx => ⟨hx, rfl, rfl⟩⟩

theorem Extends.trans (h : Extends d m m₁) (h' : Extends d m₁ m') : Extends d m m' := by
  refine ⟨fun x => (h'.total x).trans (h.total x), fun x hx => ?_⟩
  obtain ⟨h1, h2, h3⟩ := h.frame x hx
  obtain ⟨h4, h5, h6⟩ := h'.frame x h1
  exact ⟨h4, h5.trans h2, h6.trans h3⟩

theorem Extends.le_one (h : Extends d m m') (hle : ∀ x, Mem.total (space d) m x ≤ 1) (x : Page) :
    Mem.total (space d) m' x ≤ 1 := by
  rw [h.total]
  exact hle x

theorem Mapped.extends {c : Pte} (h : Mapped d v c m m') (hv : ¬ pdx v < userEntries) :
    Extends d m m' := by
  refine ⟨fun x => ?_, h.frame⟩
  rw [h.total, if_neg hv, Nat.add_zero]

theorem Placed.extends {c : Pte} {b : Bytes} (h : Placed d v c b m m') : Extends d m m' :=
  ⟨h.total, h.frame⟩

/-! ## A call of mappages that returns -/

theorem mappages_cases {w u b : Bool} {pa : Page} (hle : ∀ x, total (space d) m x ≤ 1)
    (hv : v < 2 ^ 20) (h : mappages d w u (n + 1) v pa m = .ok (b, m')) :
    entryAt m.pt d v = none ∧ ((b = false ∧ m' = { m with fails := m.fails.tail }) ∨
      ∃ m₁, Mapped d v ⟨pa, w, u⟩ m m₁ ∧
        mappages d w u n (v + 1) (pa + 1) m₁ = .ok (b, m')) := by
  have hnone : entryAt m.pt d v = none := by
    cases he : m.pt d (pdx v) with
    | none => exact entryAt_of_none he
    | some e =>
      have hwalk : walkpgdir d v true m = .ok (some (e.page, ptx v), m) := by
        rw [walkpgdir, run_get, he]
        rfl
      rw [entryAt_of_some he]
      by_contra hsome
      rw [mappages, run_bind hwalk] at h
      dsimp only at h
      rw [run_get, if_pos (Option.isSome_iff_ne_none.mpr hsome)] at h
      cases h
  refine ⟨hnone, ?_⟩
  by_cases hstop : m.pt d (pdx v) = none ∧ Exhausted m.fails m.freelist.length
  · rw [mappages_stop hstop.1 hstop.2] at h
    cases h
    exact .inl ⟨rfl, rfl⟩
  · have hok : (m.pt d (pdx v)).isSome = true ∨ ¬ Exhausted m.fails m.freelist.length := by
      by_cases hsome : (m.pt d (pdx v)).isSome = true
      · exact .inl hsome
      · exact .inr fun hex => hstop ⟨by simpa using hsome, hex⟩
    obtain ⟨m₁, hrun, hmap, -⟩ := mappages_next w u n pa hle hv hnone hok
    exact .inr ⟨m₁, hmap, hrun ▸ h⟩

theorem mappages_ok {w u : Bool} {pa : Page} (hle : ∀ x, total (space d) m x ≤ 1)
    (hv : v < 2 ^ 20) (h : mappages d w u (n + 1) v pa m = .ok (true, m')) :
    entryAt m.pt d v = none ∧ ∃ m₁, Mapped d v ⟨pa, w, u⟩ m m₁ ∧
      mappages d w u n (v + 1) (pa + 1) m₁ = .ok (true, m') := by
  obtain ⟨hnone, hcases⟩ := mappages_cases hle hv h
  exact ⟨hnone, hcases.resolve_left fun hx => Bool.noConfusion hx.1⟩

/-- A range of the kernel part. -/
theorem mappages_range {w : Bool} {pa : Page} (hle : ∀ x, total (space d) m x ≤ 1)
    (hv : 0x80000 ≤ v) (hn : v + n ≤ 2 ^ 20) (h : mappages d w false n v pa m = .ok (true, m')) :
    Extends d m m' ∧ ∀ u < 2 ^ 20, entryAt m'.pt d u
      = if v ≤ u ∧ u < v + n then some ⟨pa + (u - v), w, false⟩ else entryAt m.pt d u := by
  induction n generalizing v pa m with
  | zero =>
    cases h
    exact ⟨.refl d _, fun u _ => by rw [if_neg (by omega)]⟩
  | succ n ih =>
    obtain ⟨-, m₁, hmap, hrest⟩ := mappages_ok hle (by omega) h
    have hk : ¬ pdx v < userEntries := by
      simp only [pdx, userEntries]
      omega
    have hext := hmap.extends hk
    obtain ⟨hext', hent⟩ := ih (hext.le_one hle) (by omega) (by omega) hrest
    refine ⟨hext.trans hext', fun u hu => ?_⟩
    rw [hent u hu, hmap.entry u hu]
    by_cases huv : u = v
    · rw [if_neg (by omega), if_pos huv, if_pos (by omega), huv, Nat.sub_self]
      rfl
    · rw [if_neg huv]
      by_cases hin : v + 1 ≤ u ∧ u < v + 1 + n
      · rw [if_pos hin, if_pos (by omega), show u - v = u - (v + 1) + 1 by omega,
          show pa + 1 + (u - (v + 1)) = pa + (u - (v + 1) + 1) by
            rw [Nat.add_assoc, Nat.add_comm 1]]
      · rw [if_neg hin, if_neg (by omega)]

/-! ## setupkvm -/

/-- The entry for the page `v` that `mapKernel` makes. -/
def kmapEntry (l : List Kmap) (v : Nat) : Option Pte :=
  (l.find? fun k => decide (k.virt ≤ v ∧ v < k.virt + k.pages)).map fun k =>
    ⟨k.physStart + (v - k.virt), k.w, false⟩

/-- The kernel mappings of `setupkvm`. -/
def kernelEntry (img : Image) (v : Nat) : Option Pte := kmapEntry (kmap img) v

theorem kmapEntry_cons_pos {k : Kmap} (l : List Kmap) (h : k.virt ≤ v ∧ v < k.virt + k.pages) :
    kmapEntry (k :: l) v = some ⟨k.physStart + (v - k.virt), k.w, false⟩ := by
  rw [kmapEntry, List.find?_cons_of_pos (by simpa using h), Option.map_some]

theorem kmapEntry_cons_neg {k : Kmap} (l : List Kmap) (h : ¬ (k.virt ≤ v ∧ v < k.virt + k.pages)) :
    kmapEntry (k :: l) v = kmapEntry l v := by
  rw [kmapEntry, List.find?_cons_of_neg (by simpa using h), kmapEntry]

/-- Below the first mapping of a table there is none. -/
theorem kmapEntry_below {l : List Kmap} (hasc : Ascending v l) {u : Nat} (hu : u < v) :
    kmapEntry l u = none := by
  induction l generalizing v with
  | nil => rfl
  | cons k l ih =>
    obtain ⟨hkv, -, hasc⟩ := hasc
    rw [kmapEntry_cons_neg _ (by omega)]
    exact ih hasc (by omega)

theorem mapKernel_ok {l : List Kmap} (hle : ∀ x, total (space d) m x ≤ 1) (hv : 0x80000 ≤ v)
    (hasc : Ascending v l) (hnone : ∀ u < 2 ^ 20, v ≤ u → entryAt m.pt d u = none)
    (h : mapKernel d l m = .ok (true, m')) :
    Extends d m m' ∧ ∀ u < 2 ^ 20, entryAt m'.pt d u
      = if v ≤ u then kmapEntry l u else entryAt m.pt d u := by
  induction l generalizing v m with
  | nil =>
    cases h
    refine ⟨.refl d _, fun u hu => ?_⟩
    split
    · rename_i hvu
      rw [hnone u hu hvu]
      rfl
    · rfl
  | cons k l ih =>
    obtain ⟨hkv, hkn, hasc⟩ := hasc
    rw [mapKernel] at h
    obtain ⟨b, m₁, hmap, h⟩ := exists_of_bind_ok h
    cases b with
    | false => cases h
    | true =>
      rw [if_pos rfl] at h
      obtain ⟨hext, hent⟩ := mappages_range hle (by omega) hkn hmap
      obtain ⟨hext', hent'⟩ := ih (hext.le_one hle) (by omega) hasc (fun u hu hku => by
        rw [hent u hu, if_neg (by omega), hnone u hu (by omega)]) h
      refine ⟨hext.trans hext', fun u hu => ?_⟩
      rw [hent' u hu, hent u hu]
      by_cases hin : k.virt ≤ u ∧ u < k.virt + k.pages
      · rw [if_neg (by omega), if_pos hin, if_pos (by omega), kmapEntry_cons_pos _ hin]
      · rw [if_neg hin, kmapEntry_cons_neg _ hin]
        by_cases hku : k.virt + k.pages ≤ u
        · rw [if_pos hku, if_pos (by omega)]
        · rw [if_neg hku]
          split
          · rw [hnone u hu (by omega), kmapEntry_below hasc (by omega)]
          · rfl

theorem kalloc_ok (h : kalloc m = .ok (some p, m')) :
    ∃ ps, m.freelist = p :: ps ∧ m' = { m with fails := m.fails.tail, freelist := ps } := by
  by_cases hex : Exhausted m.fails m.freelist.length
  · rw [kalloc_none hex] at h
    cases h
  · obtain ⟨q, ps, hfree, hk⟩ := kalloc_some hex
    rw [hk] at h
    cases h
    exact ⟨ps, hfree, rfl⟩

/-- The address space `d` is made of pages that were free in `m₀`, and all other pages are as they
were. -/
structure Fresh (d : Page) (m₀ m : Memory) : Prop where
  total : ∀ x, total (space d) m x = m₀.freelist.count x
  frame : ∀ x, x ∉ m₀.freelist → Outside d m x ∧ m.pt x = m₀.pt x ∧ m.bytes x = m₀.bytes x

theorem Fresh.extends (h : Fresh d m₀ m) (he : Extends d m m') : Fresh d m₀ m' := by
  refine ⟨fun x => (he.total x).trans (h.total x), fun x hx => ?_⟩
  obtain ⟨h1, h2, h3⟩ := h.frame x hx
  obtain ⟨h4, h5, h6⟩ := he.frame x h1
  exact ⟨h4, h5.trans h2, h6.trans h3⟩

theorem Fresh.le_one (h : Fresh d m₀ m) (hnd : m₀.freelist.Nodup) (x : Page) :
    Mem.total (space d) m x ≤ 1 := by
  rw [h.total]
  exact List.nodup_iff_count_le_one.mp hnd x

theorem taken_empty (m : Memory) (d : Page) :
    (taken m d (fun _ => none) fun _ => 0).pt d = fun _ => none := update_self ..

/-- An address space of one page, the empty page directory. -/
theorem fresh_dir {ps : List Page} (hfree : m.freelist = d :: ps) :
    Fresh d m (taken m d (fun _ => none) fun _ => 0) := by
  have hpt := taken_empty m d
  refine ⟨fun x => ?_, fun x hx => ⟨⟨fun hmem => ?_, ?_, fun i _ e he => ?_⟩, ?_⟩⟩
  · rw [total, space, tree_empty fun i => by rw [hpt], hfree, List.count_cons, one]
    simp only [taken, hfree, List.tail_cons, beq_iff_eq]
  · exact hx (List.mem_of_mem_tail hmem)
  · rintro rfl
    exact hx (by rw [hfree]; exact List.mem_cons_self)
  · rw [hpt] at he
    cases he
  · have hne : x ≠ d := by
      rintro rfl
      exact hx (by rw [hfree]; exact List.mem_cons_self)
    exact ⟨update_of_ne hne .., update_of_ne hne ..⟩

theorem setupkvm_ok (hnd : m.freelist.Nodup) (h : setupkvm img m = .ok (some d, m')) :
    Fresh d m m' ∧ ∀ u < 2 ^ 20, entryAt m'.pt d u
      = if 0x80000 ≤ u then kernelEntry img u else none := by
  obtain ⟨r, m₁, hk, h⟩ := exists_of_bind_ok h
  cases r with
  | none => cases h
  | some d' =>
    obtain ⟨ps, hfree, rfl⟩ := kalloc_ok hk
    dsimp only at h
    rw [run_bind (a := ()) (t := taken m d' (fun _ => none) fun _ => 0)
      (by rw [taken, hfree]; rfl)] at h
    obtain ⟨b, m₂, hmap, h⟩ := exists_of_bind_ok h
    cases b with
    | false => cases h
    | true =>
      cases h
      have hempty : ∀ u, entryAt (taken m d (fun _ => none) fun _ => 0).pt d u = none := by
        intro u
        rw [entryAt, taken_empty]
        rfl
      have hfresh := fresh_dir hfree
      obtain ⟨hext, hent⟩ := mapKernel_ok (hfresh.le_one hnd) (le_refl _) (kmap_ascending img)
        (fun u _ _ => hempty u) hmap
      refine ⟨hfresh.extends hext, fun u hu => ?_⟩
      rw [hent u hu, hempty]
      rfl

/-! ## copyuvm -/

/-- The pages below `v` have been copied to the address space `d`. -/
structure Copying (img : Image) (pgdir d : Page) (v : Nat) (m₀ m : Memory) : Prop
    extends Fresh d m₀ m where
  copied : ∀ u < v, ∃ c p, entryAt m₀.pt pgdir u = some c ∧
    entryAt m.pt d u = some { c with page := p } ∧ m.bytes p = m₀.bytes c.page
  above : ∀ u, v ≤ u → u < 0x80000 → entryAt m.pt d u = none
  kernel : ∀ u, 0x80000 ≤ u → u < 2 ^ 20 → entryAt m.pt d u = kernelEntry img u

theorem kernelEntry_base (img : Image) : kernelEntry img 0x80000 = some ⟨0, true, false⟩ := rfl

/-- Nothing in use is on the free list. -/
theorem not_free (hle : ∀ x, total (space pgdir) m x ≤ 1) (hx : 0 < tree m.pt pgdir x) :
    x ∉ m.freelist := by
  intro hmem
  have := free_not_in_tree hle hmem
  omega

/-- The mappings of the parent stay. -/
theorem Fresh.entry_parent (h : Fresh d m₀ m) (hle : ∀ x, Mem.total (space pgdir) m₀ x ≤ 1)
    (u : Nat) : entryAt m.pt pgdir u = entryAt m₀.pt pgdir u := by
  have hdir : m.pt pgdir = m₀.pt pgdir :=
    (h.frame pgdir (not_free hle (tree_dir_pos _ _))).2.1
  unfold entryAt
  rw [hdir]
  cases he : m₀.pt pgdir (pdx u) with
  | none => rfl
  | some e =>
    have htab : 0 < tree m₀.pt pgdir e.page := by
      have := table_le_tree (x := e.page) (pdx_lt u) he
      rw [one_self] at this
      omega
    rw [Option.bind_some, Option.bind_some, (h.frame e.page (not_free hle htab)).2.1]

/-- One more page. -/
theorem Copying.next {c : Pte} (h : Copying img pgdir d v m₀ m)
    (hle : ∀ x, Mem.total (space pgdir) m₀ x ≤ 1) (hent : entryAt m₀.pt pgdir v = some c)
    (hp : Placed d v ⟨p, c.w, c.u⟩ (m.bytes c.page) m m') (hv : v < 0x80000) :
    Copying img pgdir d (v + 1) m₀ m' := by
  have hnd : m₀.freelist.Nodup := List.nodup_iff_count_le_one.mpr fun x =>
    le_trans (Nat.le_add_right ..) (hle x)
  have hle' := h.toFresh.le_one hnd
  refine ⟨h.toFresh.extends hp.extends, fun u hu => ?_, fun u hu hlt => ?_, fun u hu hlt => ?_⟩
  · by_cases huv : u = v
    · refine ⟨c, p, by rw [huv, hent], by rw [hp.entry u (by omega), if_pos huv], ?_⟩
      have htree : 0 < tree m₀.pt pgdir c.page := by
        have := tree_of_entry hv hent
        omega
      rw [hp.bytes, (h.frame c.page (not_free hle htree)).2.2]
    · obtain ⟨c', q, h1, h2, h3⟩ := h.copied u (by omega)
      refine ⟨c', q, h1, by rw [hp.entry u (by omega), if_neg huv, h2], ?_⟩
      rw [(hp.frame q (outside_of_entry hle' (by omega) h2)).2.2, h3]
  · rw [hp.entry u (by omega), if_neg (by omega), h.above u (by omega) hlt]
  · rw [hp.entry u hlt, if_neg (by omega), h.kernel u hu hlt]

theorem copyLoop_ok (hle : ∀ x, total (space pgdir) m₀ x ≤ 1) {r : Page} :
    ∀ (n v : Nat) (m : Memory), v ≤ 0x80000 → Copying img pgdir d v m₀ m →
    copyLoop img pgdir d n v m = .ok (some r, m') →
    r = d ∧ v + n ≤ 0x80000 ∧ Copying img pgdir d (v + n) m₀ m' := by
  have hnd : m₀.freelist.Nodup := List.nodup_iff_count_le_one.mpr fun x =>
    le_trans (Nat.le_add_right ..) (hle x)
  intro n
  induction n with
  | zero =>
    intro v m hv hc h
    cases h
    exact ⟨rfl, hv, hc⟩
  | succ n ih =>
    intro v m hv hc h
    have hle' := hc.toFresh.le_one hnd
    have hent := hc.toFresh.entry_parent hle v
    rw [copyLoop, run_bind (walkpgdir_false pgdir v m)] at h
    cases he : m.pt pgdir (pdx v) with
    | none => rw [he] at h; cases h
    | some e =>
      rw [he, Option.map_some] at h
      dsimp only at h
      rw [run_get] at h
      cases hpte : m.pt e.page (ptx v) with
      | none => rw [hpte] at h; cases h
      | some c =>
        rw [hpte] at h
        dsimp only at h
        rw [entryAt_of_some he, hpte] at hent
        obtain ⟨q, m₁, hk, h⟩ := exists_of_bind_ok h
        cases q with
        | none =>
          obtain ⟨_, m₂, -, h⟩ := exists_of_bind_ok h
          cases h
        | some p =>
          obtain ⟨ps, hfree, rfl⟩ := kalloc_ok hk
          dsimp only at h
          rw [run_bind (a := ()) (t := taken m p (m.pt c.page) (m.bytes c.page))
            (by rw [taken, hfree]; rfl)] at h
          obtain ⟨b, m₂, hmap, h⟩ := exists_of_bind_ok h
          cases b with
          | false =>
            obtain ⟨_, m₃, -, h⟩ := exists_of_bind_ok h
            cases h
          | true =>
            rw [if_pos rfl] at h
            obtain ⟨hnone, m₃, hmapped, hend⟩ :=
              mappages_ok (taken_le_one hle' hfree) (by omega) hmap
            cases hend
            rw [taken_entry hle' hfree] at hnone
            have hlt : v < 0x80000 := by
              refine lt_of_le_of_ne hv ?_
              rintro rfl
              rw [hc.kernel _ (le_refl _) (by omega), kernelEntry_base] at hnone
              cases hnone
            have hnext := hc.next hle hent.symm (hmapped.placed hlt hle' hfree) hlt
            obtain ⟨hr, hn, hlast⟩ := ih (v + 1) m₂ hlt hnext h
            rw [show v + (n + 1) = v + 1 + n by omega]
            exact ⟨hr, hn, hlast⟩

/-! ## Stores of user programs -/

/-- A byte of the page `p` is stored; the page is read as a table accordingly. -/
def Memory.poke (m : Memory) (p : Page) (o : Nat) (b : UInt8) : Memory :=
  let c := Function.update (m.bytes p) o b
  { m with
    pt := Function.update m.pt p fun j => pteOf (word c j)
    bytes := Function.update m.bytes p c }

/-- The store of a byte by a program that runs with the page directory `dir`. -/
structure Store where
  dir : Page
  addr : Nat
  byte : UInt8

/-- A store to an address that the program may not write faults. -/
def userStore (m : Memory) (s : Store) : Memory :=
  match entryAt m.pt s.dir (s.addr / PGSIZE) with
  | some e =>
    if s.addr < KERNBASE ∧ e.w = true ∧ e.u = true then m.poke e.page (s.addr % PGSIZE) s.byte
    else m
  | none => m

/-- The byte that a program with the page directory `d` finds at the address `a`. -/
def userLoad (m : Memory) (d : Page) (a : Nat) : Option UInt8 :=
  match entryAt m.pt d (a / PGSIZE) with
  | some e => if e.u then some (m.bytes e.page (a % PGSIZE)) else none
  | none => none

/-- Two address spaces without a page in common. -/
def Apart (d d' : Page) (m : Memory) : Prop := ∀ x, tree m.pt d x + tree m.pt d' x ≤ 1

/-- The memories `m` and `m'` do not differ in the pages of the address space `d`. -/
def Agree (d : Page) (m m' : Memory) : Prop :=
  ∀ x, 0 < tree m.pt d x → m'.pt x = m.pt x ∧ m'.bytes x = m.bytes x

section Isolation

variable {d' : Page} {s : Store}

theorem Apart.symm (h : Apart d d' m) : Apart d' d m := fun x => by
  rw [Nat.add_comm]
  exact h x

theorem Apart.left (h : Apart d d' m) (x : Page) : tree m.pt d x ≤ 1 :=
  le_trans (Nat.le_add_right ..) (h x)

theorem tree_table_pos {e : Pte} {i : Nat} (hi : i < NPTENTRIES) (he : m.pt d i = some e) :
    0 < tree m.pt d e.page := by
  have := table_le_tree (x := e.page) hi he
  rw [one_self] at this
  omega

theorem Agree.entry (h : Agree d m m') (v : Nat) : entryAt m'.pt d v = entryAt m.pt d v := by
  unfold entryAt
  rw [(h d (tree_dir_pos _ _)).1]
  cases he : m.pt d (pdx v) with
  | none => rfl
  | some e => rw [Option.bind_some, Option.bind_some, (h _ (tree_table_pos (pdx_lt v) he)).1]

theorem Agree.tree (h : Agree d m m') (x : Page) : Mem.tree m'.pt d x = Mem.tree m.pt d x :=
  tree_congr (h d (tree_dir_pos _ _)).1 (fun _ hi _ he => (h _ (tree_table_pos hi he)).1) x

theorem Agree.trans (h : Agree d m m₁) (h' : Agree d m₁ m') : Agree d m m' := by
  intro x hx
  obtain ⟨h1, h2⟩ := h x hx
  obtain ⟨h3, h4⟩ := h' x (by rwa [h.tree])
  exact ⟨h3.trans h1, h4.trans h2⟩

theorem Agree.load (h : Agree d m m') {a : Nat} (ha : a < KERNBASE) :
    userLoad m' d a = userLoad m d a := by
  unfold userLoad
  rw [h.entry]
  cases he : entryAt m.pt d (a / PGSIZE) with
  | none => rfl
  | some e =>
    have hv : a / PGSIZE < 0x80000 := by
      simp only [KERNBASE, PGSIZE] at *
      omega
    have hpos : 0 < Mem.tree m.pt d e.page := by
      have := tree_of_entry hv he
      omega
    dsimp only
    rw [(h _ hpos).2]

/-- What a store does: nothing, or it changes a page of its own address space. -/
theorem userStore_cases (m : Memory) (s : Store) :
    userStore m s = m ∨ ∃ v < 0x80000, ∃ e o, entryAt m.pt s.dir v = some e ∧
      userStore m s = m.poke e.page o s.byte := by
  unfold userStore
  cases he : entryAt m.pt s.dir (s.addr / PGSIZE) with
  | none => exact .inl rfl
  | some e =>
    dsimp only
    split
    · rename_i hc
      refine .inr ⟨s.addr / PGSIZE, ?_, e, s.addr % PGSIZE, he, rfl⟩
      simp only [KERNBASE, PGSIZE] at *
      omega
    · exact .inl rfl

/-- A store of the other program is not seen. -/
theorem userStore_other (h : Apart d d' m) (hs : s.dir = d') : Agree d m (userStore m s) := by
  rcases userStore_cases m s with heq | ⟨v, hv, e, o, he, heq⟩
  · rw [heq]
    exact fun x _ => ⟨rfl, rfl⟩
  · intro x hx
    have hpos : 0 < tree m.pt d' e.page := by
      rw [hs] at he
      have := tree_of_entry hv he
      omega
    have hne : x ≠ e.page := by
      rintro rfl
      have := h e.page
      omega
    rw [heq]
    exact ⟨update_of_ne hne .., update_of_ne hne ..⟩

/-- A store of one's own does not change the page tables. -/
theorem userStore_tree (h : ∀ x, tree m.pt s.dir x ≤ 1) (x : Page) :
    tree (userStore m s).pt s.dir x = tree m.pt s.dir x := by
  rcases userStore_cases m s with heq | ⟨v, hv, e, o, he, heq⟩
  · rw [heq]
  · have hd : e.page ≠ s.dir := by
      intro hd
      have h1 := tree_of_entry hv he
      have h2 := h e.page
      rw [hd, one_self] at h1
      rw [hd] at h2
      omega
    rw [heq]
    exact tree_update_other _ hd (fun i hi e' he' => entry_ne_table h hv he hi he') x

theorem userStore_apart (h : Apart d d' m) (hs : s.dir = d ∨ s.dir = d') :
    Apart d d' (userStore m s) := by
  have key : ∀ {d d' : Page}, Apart d d' m → s.dir = d → Apart d d' (userStore m s) := by
    intro d d' h hs x
    have h1 : tree (userStore m s).pt d x = tree m.pt d x := by
      rw [← hs]
      exact userStore_tree (hs ▸ h.left) x
    have h2 : tree (userStore m s).pt d' x = tree m.pt d' x :=
      (userStore_other h.symm hs).tree x
    rw [h1, h2]
    exact h x
  rcases hs with hs | hs
  · exact key h hs
  · exact (key h.symm hs).symm

/-- A store of one's own has the same effect in memories that agree. -/
theorem userStore_own (h : Agree d m m') (hle : ∀ x, tree m.pt d x ≤ 1) (hs : s.dir = d) :
    Agree d (userStore m s) (userStore m' s) := by
  intro x hx
  rw [← hs, userStore_tree (by rw [hs]; exact hle), hs] at hx
  have hpage : ∀ v < 0x80000, ∀ e, entryAt m.pt d v = some e →
      m'.bytes e.page = m.bytes e.page := by
    intro v hv e he
    refine (h _ ?_).2
    have := tree_of_entry hv he
    omega
  unfold userStore
  rw [hs, h.entry]
  cases he : entryAt m.pt d (s.addr / PGSIZE) with
  | none => exact h x hx
  | some e =>
    dsimp only
    split
    · rename_i hc
      have hb := hpage (s.addr / PGSIZE) (by simp only [KERNBASE, PGSIZE] at *; omega) e he
      simp only [Memory.poke, hb]
      by_cases hxe : x = e.page
      · rw [hxe, update_self, update_self, update_self,
          update_self]
        exact ⟨rfl, rfl⟩
      · rw [update_of_ne hxe, update_of_ne hxe, update_of_ne hxe,
          update_of_ne hxe]
        exact h x hx
    · exact h x hx

/-- **Isolation.** After any stores of two programs without a common page, each of them finds what
it would find if the other had done nothing. -/
theorem stores_isolated (h : Apart d d' m) (ws : List Store)
    (hws : ∀ s ∈ ws, s.dir = d ∨ s.dir = d') :
    Agree d ((ws.filter fun s => s.dir = d).foldl userStore m) (ws.foldl userStore m) := by
  have hne : d ≠ d' := by
    rintro rfl
    have h1 := h d
    have h2 := tree_dir_pos m.pt d
    omega
  -- the memories of the two runs, after a part of the stores
  have key : ∀ (ws : List Store) (m₁ m₂ : Memory), (∀ s ∈ ws, s.dir = d ∨ s.dir = d') →
      Apart d d' m₂ → Agree d m₁ m₂ →
      Agree d ((ws.filter fun s => s.dir = d).foldl userStore m₁) (ws.foldl userStore m₂) := by
    intro ws
    induction ws with
    | nil => exact fun m₁ m₂ _ _ hag => hag
    | cons s ws ih =>
      intro m₁ m₂ hws hap hag
      have hs := hws s List.mem_cons_self
      have hrest : ∀ s ∈ ws, s.dir = d ∨ s.dir = d' :=
        fun s' hs' => hws s' (List.mem_cons_of_mem s hs')
      rw [List.foldl_cons]
      by_cases hd : s.dir = d
      · rw [List.filter_cons_of_pos (by simpa using hd), List.foldl_cons]
        refine ih _ _ hrest (userStore_apart hap hs) (userStore_own hag (fun x => ?_) hd)
        rw [← hag.tree]
        exact hap.left x
      · rw [List.filter_cons_of_neg (by simpa using hd)]
        exact ih _ _ hrest (userStore_apart hap hs)
          (hag.trans (userStore_other hap (hs.resolve_left hd)))
  exact key ws m m hws h fun x _ => ⟨rfl, rfl⟩

end Isolation

/-! ## The child -/

/-- `d` is a copy of the address space `pgdir` of size `sz`, made in the memory `m` and found in
`m'`. -/
structure Forked (img : Image) (pgdir d : Page) (sz : Nat) (m m' : Memory) : Prop where
  copied : ∀ u < pgroundup sz, ∃ c p, entryAt m.pt pgdir u = some c ∧
    entryAt m'.pt d u = some { c with page := p } ∧ m'.bytes p = m.bytes c.page
  above : ∀ u, pgroundup sz ≤ u → u < 0x80000 → entryAt m'.pt d u = none
  kernel : ∀ u, 0x80000 ≤ u → u < 2 ^ 20 → entryAt m'.pt d u = kernelEntry img u
  apart : Apart pgdir d m'
  parent : Agree pgdir m m'

theorem copying_start (hnd : m.freelist.Nodup) (h : setupkvm img m = .ok (some d, m')) :
    Copying img pgdir d 0 m m' := by
  obtain ⟨hfresh, hent⟩ := setupkvm_ok hnd h
  refine ⟨hfresh, fun u hu => absurd hu (Nat.not_lt_zero u), fun u _ hu => ?_, fun u hu hlt => ?_⟩
  · rw [hent u (by omega), if_neg (by omega)]
  · rw [hent u hlt, if_pos hu]

theorem copyuvm_ok {sz : Nat} (hle : ∀ x, total (space pgdir) m x ≤ 1)
    (h : copyuvm img pgdir sz m = .ok (some d, m')) : Forked img pgdir d sz m m' := by
  have hnd : m.freelist.Nodup := List.nodup_iff_count_le_one.mpr fun x =>
    le_trans (Nat.le_add_right ..) (hle x)
  obtain ⟨r, m₁, hk, h⟩ := exists_of_bind_ok h
  cases r with
  | none => cases h
  | some d' =>
    obtain ⟨rfl, hn, hc⟩ := copyLoop_ok hle (pgroundup sz) 0 m₁ (by omega)
      (copying_start hnd hk) h
    rw [Nat.zero_add] at hc
    have hagree : Agree pgdir m m' := fun x hx => (hc.frame x (not_free hle hx)).2
    refine ⟨hc.copied, hc.above, hc.kernel, fun x => ?_, hagree⟩
    have h1 := hc.total x
    have h2 := hle x
    rw [hagree.tree]
    simp only [total, space] at h1 h2
    omega

/-- **`fork` copies and isolates memory.** If `copyuvm` returns a page directory, it is a copy of the
parent's, and whatever the two processes then store, each finds what it would find if the other
had stored nothing. -/
theorem fork_isolates {sz : Nat} (hle : ∀ x, total (space pgdir) m x ≤ 1)
    (h : copyuvm img pgdir sz m = .ok (some d, m')) :
    Forked img pgdir d sz m m' ∧
      ∀ ws : List Store, (∀ s ∈ ws, s.dir = pgdir ∨ s.dir = d) → ∀ a < KERNBASE,
        userLoad (ws.foldl userStore m') pgdir a
            = userLoad ((ws.filter fun s => s.dir = pgdir).foldl userStore m') pgdir a ∧
          userLoad (ws.foldl userStore m') d a
            = userLoad ((ws.filter fun s => s.dir = d).foldl userStore m') d a := by
  have hf := copyuvm_ok hle h
  refine ⟨hf, fun ws hws a ha => ⟨?_, ?_⟩⟩
  · exact (stores_isolated hf.apart ws hws).load ha
  · exact (stores_isolated hf.apart.symm ws fun s hs => (hws s hs).symm).load ha

/-! ## Enough memory -/

theorem firstFailure_none {ks : List Kind} {n : Nat} (h : firstFailure ks [] n = none) :
    ks.length ≤ n := by
  induction ks generalizing n with
  | nil => exact Nat.zero_le n
  | cons k ks ih =>
    rw [firstFailure] at h
    split at h
    · cases h
    · rename_i hn
      have := ih h
      simp only [List.headD_nil, Bool.false_eq_true, false_or] at hn
      rw [List.length_cons]
      omega

/-- With 65 pages `setupkvm` succeeds. -/
theorem setupkvm_calm (img : Image) {k : Nat} (hnd : m.freelist.Nodup) (hcalm : Calm (65 + k) m) :
    ∃ d m', setupkvm img m = .ok (some d, m') ∧ Calm k m' := by
  have hplan := kernelPlan_length img
  have hbook : Book m.freelist.toFinset none 0
      (fun m => Due True (.pgdir :: (kernelPlan img ++ List.replicate k .page)) none m) m := by
    have htot : ∀ x, total 0 m x = ind m.freelist.toFinset x := by
      intro x
      rw [total, ind]
      simp only [List.mem_toFinset, Pi.zero_apply, Nat.add_zero]
      split
      · rename_i hx
        exact List.count_eq_one_of_mem hnd hx
      · rename_i hx
        exact List.count_eq_zero_of_not_mem hx
    refine ⟨fun x => (htot x).le, .inl ⟨hcalm.due ?_, htot⟩⟩
    rw [List.length_cons, List.length_append, List.length_replicate]
    omega
  obtain ⟨r, m', hrun, hpost⟩ := (setupkvm_spec img hbook stable_zero).exists_ok rfl
  cases r with
  | none => exact (Book.calm hpost).elim
  | some d =>
    have hb : Book m.freelist.toFinset none (space d + 0)
        (fun m => Due True (List.replicate k .page) none m) m' := hpost.2.imp And.right
    have hfirst := hb.due.first
    have hfails := hb.due.calm trivial
    rw [hfails] at hfirst
    refine ⟨d, m', hrun, hfails, ?_⟩
    simpa using firstFailure_none hfirst

theorem copyLoop_calm (hle : ∀ x, total (space pgdir) m₀ x ≤ 1)
    (hpages : ∀ u < n + v, (entryAt m₀.pt pgdir u).isSome = true) (hn : n + v ≤ 0x80000)
    (hc : Copying img pgdir d v m₀ m) (hcalm : Calm (2 * n) m) :
    ∃ m', copyLoop img pgdir d n v m = .ok (some d, m') := by
  have hnd : m₀.freelist.Nodup := List.nodup_iff_count_le_one.mpr fun x =>
    le_trans (Nat.le_add_right ..) (hle x)
  induction n generalizing v m with
  | zero => exact ⟨m, rfl⟩
  | succ n ih =>
    have hle' := hc.toFresh.le_one hnd
    obtain ⟨c, hent⟩ := Option.isSome_iff_exists.mp (hpages v (by omega))
    obtain ⟨hfails, hlen⟩ := hcalm
    obtain ⟨p, ps, hfree, hk⟩ := kalloc_some (m := m) (by
      rw [hfails, Exhausted]
      simp only [List.headD_nil, Bool.false_eq_true, false_or]
      omega)
    let m₂ := taken m p (m.pt c.page) (m.bytes c.page)
    have hfails₂ : m₂.fails = [] := by
      show m.fails.tail = []
      rw [hfails]
      rfl
    have hlen₂ : m₂.freelist.length = m.freelist.length - 1 := List.length_tail
    obtain ⟨m₃, hmap, hmapped, hfails₃, hfree₃⟩ := mappages_next c.w c.u 0 p
      (m := m₂) (taken_le_one hle' hfree) (show v < 2 ^ 20 by omega)
      (by rw [taken_entry hle' hfree]; exact hc.above v (le_refl v) (by omega))
      (.inr (by
        rw [hfails₂, hlen₂, Exhausted]
        simp only [List.headD_nil, Bool.false_eq_true, false_or]
        omega))
    have hplaced := hmapped.placed (show v < 0x80000 by omega) hle' hfree
    obtain ⟨m', hrun⟩ := ih (v := v + 1) (m := m₃) (fun u hu => hpages u (by omega)) (by omega)
      (hc.next hle hent hplaced (by omega)) (by
        refine ⟨?_, ?_⟩
        · rw [hfails₃, hfails₂]
          split <;> rfl
        · rw [hfree₃]
          split
          · rw [hlen₂]
            omega
          · rw [List.length_tail, hlen₂]
            omega)
    refine ⟨m', ?_⟩
    have hpar : entryAt m.pt pgdir v = some c := by
      rw [hc.toFresh.entry_parent hle v, hent]
    cases he : m.pt pgdir (pdx v) with
    | none => rw [entryAt_of_none he] at hpar; cases hpar
    | some e =>
      rw [entryAt_of_some he] at hpar
      rw [copyLoop, run_bind (walkpgdir_false pgdir v m), he, Option.map_some]
      dsimp only
      rw [run_get, hpar]
      dsimp only
      rw [run_bind hk]
      dsimp only
      rw [run_bind (a := ()) (t := m₂) (by rw [show m₂ = taken .. from rfl, taken, hfree]; rfl),
        run_bind (a := true) (t := m₃) hmap, if_pos rfl, hrun]

/-- With 65 pages and two for each page of the parent, `copyuvm` returns a page directory. -/
theorem exists_copy (img : Image) (sz : Nat) (hle : ∀ x, total (space pgdir) m x ≤ 1) (hsz : sz ≤ KERNBASE)
    (hpages : ∀ u < pgroundup sz, (entryAt m.pt pgdir u).isSome = true)
    (hcalm : Calm (65 + 2 * pgroundup sz) m) :
    ∃ d m', copyuvm img pgdir sz m = .ok (some d, m') := by
  have hnd : m.freelist.Nodup := List.nodup_iff_count_le_one.mpr fun x =>
    le_trans (Nat.le_add_right ..) (hle x)
  have hb : pgroundup sz ≤ 0x80000 := by
    simp only [pgroundup, PGSIZE, KERNBASE] at *
    omega
  obtain ⟨d, m₁, hsetup, hcalm₁⟩ := setupkvm_calm img hnd hcalm
  obtain ⟨m', hrun⟩ := copyLoop_calm (n := pgroundup sz) (v := 0) hle hpages hb
    (copying_start hnd hsetup) hcalm₁
  refine ⟨d, m', ?_⟩
  rw [copyuvm, run_bind hsetup]
  exact hrun

/-- The memory of a process with one page, and 70 free pages. -/
def forkMemory : Memory :=
  { Memory.start with freelist := List.range' 0x404 70, pt := single 0x400 0x401 0x402 0 }

/-- Free pages above those of a process with one page. -/
theorem count_range_single (n : Nat) (x : Page) :
    (List.range' 0x404 n).count x + tree (single 0x400 0x401 0x402 0) 0x400 x ≤ 1 := by
  have hnd : (List.range' 0x404 n).Nodup := List.nodup_range'
  by_cases hx : x ∈ List.range' 0x404 n
  · have hx' := hx
    rw [List.mem_range'_1] at hx'
    rw [List.count_eq_one_of_mem hnd hx, tree_single (by decide) (by decide), one_of_ne, one_of_ne,
      one_of_ne] <;>
    · rintro rfl
      omega
  · have hspace : Space smallImage (single 0x400 0x401 0x402 0) 0x400 :=
      space_single (by decide) (by decide) (by decide) (by decide) (by unfold Freeable; decide)
    rw [List.count_eq_zero_of_not_mem hx, Nat.zero_add]
    exact hspace.once x

theorem forkMemory_once (x : Page) : total (space 0x400) forkMemory x ≤ 1 :=
  count_range_single 70 x

theorem fork_isolates_one :
    ∃ d m', copyuvm smallImage 0x400 PGSIZE forkMemory = .ok (some d, m') ∧
      Forked smallImage 0x400 d PGSIZE forkMemory m' ∧
      ∀ ws : List Store, (∀ s ∈ ws, s.dir = 0x400 ∨ s.dir = d) → ∀ a < KERNBASE,
        userLoad (ws.foldl userStore m') 0x400 a
            = userLoad ((ws.filter fun s => s.dir = 0x400).foldl userStore m') 0x400 a ∧
          userLoad (ws.foldl userStore m') d a
            = userLoad ((ws.filter fun s => s.dir = d).foldl userStore m') d a := by
  obtain ⟨d, m', h⟩ := exists_copy smallImage PGSIZE forkMemory_once (by decide)
    (fun u hu => by
      obtain rfl : u = 0 := by
        have : pgroundup PGSIZE = 1 := rfl
        omega
      rfl)
    ⟨rfl, by decide⟩
  exact ⟨d, m', h, fork_isolates forkMemory_once h⟩

end StrideXv6.Mem
