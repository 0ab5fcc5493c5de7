import StrideXv6.Mem.Copyout
import StrideXv6.Mem.Freevm

set_option autoImplicit false

/-! # The image of a program

While `exec` builds an image, its page directory maps the pages from 0 up to some size to pages that
were free before, nothing else below `KERNBASE`, and the kernel above (`Layout`). `allocuvm` makes
the image larger, `clearpteu` takes a page from the user, and stores to pages of the image and
`copyout` change what these pages contain. As long as no page table is missing, each of them either
keeps the layout or fails without touching a page that is not part of the image.
-/

namespace StrideXv6.Mem

open Hoare Function

variable {img : Image} {m m' m₀ m₁ : Memory} {d p x : Page} {v n : Nat}
variable {src : List UInt8} {va : Nat} {has : Present}

/-! ## setupkvm that fails -/

/-- Whether or not it succeeds, `mappages` in the kernel part leaves other pages alone. -/
theorem mappages_outside {w b : Bool} {pa : Page} (hle : ∀ x, total (space d) m x ≤ 1)
    (hv : 0x80000 ≤ v) (hn : v + n ≤ 2 ^ 20) (h : mappages d w false n v pa m = .ok (b, m'))
    (hx : Outside d m x) : m'.pt x = m.pt x ∧ m'.bytes x = m.bytes x := by
  induction n generalizing v pa m with
  | zero =>
    cases h
    exact ⟨rfl, rfl⟩
  | succ n ih =>
    obtain ⟨-, ⟨-, rfl⟩ | ⟨m₁, hmap, hrest⟩⟩ := mappages_cases hle (by omega) h
    · exact ⟨rfl, rfl⟩
    · have hext := hmap.extends (by simp only [pdx, userEntries]; omega)
      obtain ⟨hx₁, h1, h2⟩ := hext.frame x hx
      obtain ⟨h3, h4⟩ := ih (hext.le_one hle) (by omega) (by omega) hrest hx₁
      exact ⟨h3.trans h1, h4.trans h2⟩

theorem mapKernel_outside {l : List Kmap} {b : Bool} (hle : ∀ x, total (space d) m x ≤ 1)
    (hv : 0x80000 ≤ v) (hasc : Ascending v l) (h : mapKernel d l m = .ok (b, m'))
    (hx : Outside d m x) : m'.pt x = m.pt x ∧ m'.bytes x = m.bytes x := by
  induction l generalizing v m with
  | nil =>
    cases h
    exact ⟨rfl, rfl⟩
  | cons k l ih =>
    obtain ⟨hkv, hkn, hasc⟩ := hasc
    rw [mapKernel] at h
    obtain ⟨c, m₁, hmap, h⟩ := exists_of_bind_ok h
    have hfirst := mappages_outside hle (by omega) hkn hmap hx
    cases c with
    | false =>
      cases h
      exact hfirst
    | true =>
      rw [if_pos rfl] at h
      obtain ⟨hext, -⟩ := mappages_range hle (by omega) hkn hmap
      obtain ⟨h3, h4⟩ := ih (hext.le_one hle) (by omega) hasc h (hext.frame x hx).1
      exact ⟨h3.trans hfirst.1, h4.trans hfirst.2⟩

/-- `setupkvm` writes only to pages that were free. -/
theorem setupkvm_frame {r : Option Page} (hnd : m.freelist.Nodup)
    (h : setupkvm img m = .ok (r, m')) (hx : x ∉ m.freelist) :
    m'.pt x = m.pt x ∧ m'.bytes x = m.bytes x := by
  cases r with
  | some d => exact ((setupkvm_ok hnd h).1.frame x hx).2
  | none =>
    obtain ⟨r, m₁, hk, h⟩ := exists_of_bind_ok h
    cases r with
    | none =>
      cases h
      by_cases hex : Exhausted m.fails m.freelist.length
      · rw [kalloc_none hex] at hk
        cases hk
        exact ⟨rfl, rfl⟩
      · obtain ⟨q, ps, -, hk'⟩ := kalloc_some hex
        rw [hk'] at hk
        cases hk
    | some d =>
      obtain ⟨ps, hfree, rfl⟩ := kalloc_ok hk
      have hfresh := fresh_dir hfree
      dsimp only at h
      rw [run_bind (a := ()) (t := taken m d (fun _ => none) fun _ => 0)
        (by rw [taken, hfree]; rfl)] at h
      obtain ⟨b, m₂, hmap, h⟩ := exists_of_bind_ok h
      obtain ⟨hout, h1, h2⟩ := hfresh.frame x hx
      obtain ⟨h3, h4⟩ := mapKernel_outside (hfresh.le_one hnd) (le_refl _) (kmap_ascending img)
        hmap hout
      cases b with
      | true => cases h
      | false =>
        cases h
        exact ⟨h3.trans h1, h4.trans h2⟩

/-! ## The layout -/

/-- The free list in order. -/
structure Pool (img : Image) (m : Memory) : Prop where
  nodup : m.freelist.Nodup
  free : ∀ p ∈ m.freelist, Freeable img p

/-- An image of `sz` bytes that has been built with pages that were free in `m₀`; `acc` says which of
its pages the user may access. -/
structure Layout (img : Image) (m₀ : Memory) (d : Page) (acc : Nat → Bool) (sz : Nat)
    (m : Memory) : Prop extends Fresh d m₀ m where
  bound : pgroundup sz ≤ 0x80000
  user : ∀ v < pgroundup sz, ∃ p ∈ m₀.freelist, entryAt m.pt d v = some ⟨p, true, acc v⟩
  above : ∀ v, pgroundup sz ≤ v → v < 0x80000 → entryAt m.pt d v = none
  kernel : ∀ v, 0x80000 ≤ v → v < 2 ^ 20 → entryAt m.pt d v = kernelEntry img v

variable {acc : Nat → Bool} {sz : Nat}

theorem kernelEntry_u {c : Pte} (h : kernelEntry img v = some c) : c.u = false := by
  unfold kernelEntry kmapEntry at h
  obtain ⟨k, -, rfl⟩ := Option.map_eq_some_iff.mp h
  rfl

/-- The pages of the devices, which are mapped to themselves. -/
theorem kernelEntry_device (hv : 0xFE000 ≤ v) (hlt : v < 2 ^ 20) :
    kernelEntry img v = some ⟨v, true, false⟩ := by
  have hfits := img.fits
  have hord := img.ordered
  have hlinked := img.linked
  have h1 : ¬ (0x80000 ≤ v ∧ v < 0x80000 + (0x100 + 2 ^ 20 - 0) % 2 ^ 20) := by omega
  have h2 : ¬ (0x80100 ≤ v ∧ v < 0x80100 + (img.data + 2 ^ 20 - 0x100) % 2 ^ 20) := by omega
  have h3 : ¬ (0x80000 + img.data ≤ v ∧
      v < 0x80000 + img.data + (0xE000 + 2 ^ 20 - img.data) % 2 ^ 20) := by omega
  have h4 : 0xFE000 ≤ v ∧ v < 0xFE000 + (0 + 2 ^ 20 - 0xFE000) % 2 ^ 20 := by omega
  have hpage : 0xFE000 + (v - 0xFE000) = v := by omega
  unfold kernelEntry kmap
  rw [kmapEntry_cons_neg _ h1, kmapEntry_cons_neg _ h2, kmapEntry_cons_neg _ h3,
    kmapEntry_cons_pos _ h4]
  exact congrArg (fun p => some (⟨p, true, false⟩ : Pte)) hpage

/-- The pages above the text of the kernel. -/
theorem kernelEntry_data (hn : img.data ≤ n) (hlt : n < physPages) :
    kernelEntry img (0x80000 + n) = some ⟨n, true, false⟩ := by
  have hfits := img.fits
  have hord := img.ordered
  have hlinked := img.linked
  unfold physPages at hlt
  have h1 : ¬ (0x80000 ≤ 0x80000 + n ∧ 0x80000 + n < 0x80000 + (0x100 + 2 ^ 20 - 0) % 2 ^ 20) := by
    omega
  have h2 : ¬ (0x80100 ≤ 0x80000 + n ∧
      0x80000 + n < 0x80100 + (img.data + 2 ^ 20 - 0x100) % 2 ^ 20) := by omega
  have h3 : 0x80000 + img.data ≤ 0x80000 + n ∧
      0x80000 + n < 0x80000 + img.data + (0xE000 + 2 ^ 20 - img.data) % 2 ^ 20 := by omega
  have hpage : img.data + (0x80000 + n - (0x80000 + img.data)) = n := by omega
  unfold kernelEntry kmap
  rw [kmapEntry_cons_neg _ h1, kmapEntry_cons_neg _ h2, kmapEntry_cons_pos _ h3]
  exact congrArg (fun p => some (⟨p, true, false⟩ : Pte)) hpage

theorem markAll_mono {i : Nat} (vs : List Nat) (h : has i = true) :
    markAll has vs i = true := by
  induction vs generalizing has with
  | nil => exact h
  | cons v vs ih =>
    refine ih ?_
    rw [mark, update_apply, h]
    exact ite_self true

theorem markAll_mem {v : Nat} {vs : List Nat} (h : v ∈ vs) :
    markAll has vs (pdx v) = true := by
  induction vs generalizing has with
  | nil => cases h
  | cons u vs ih =>
    rcases List.mem_cons.mp h with rfl | h
    · exact markAll_mono vs (update_self ..)
    · exact ih h

/-- What the kernel has mapped has a page table. -/
theorem kernelHas_of_entry {c : Pte} (h : kernelEntry img v = some c) :
    kernelHas img (pdx v) = true := by
  obtain ⟨k, hk, -⟩ := Option.map_eq_some_iff.mp h
  have hrange := List.find?_some hk
  rw [decide_eq_true_eq] at hrange
  exact markAll_mem (List.mem_flatMap.mpr ⟨k, List.mem_of_find?_eq_some hk,
    List.mem_range'_1.mpr hrange⟩)

theorem Fresh.mem_freelist (h : Fresh d m₀ m) (hx : 0 < Mem.total (space d) m x) :
    x ∈ m₀.freelist := by
  rw [h.total] at hx
  exact List.count_pos_iff.mp hx

theorem Fresh.tree_mem (h : Fresh d m₀ m) (hx : 0 < tree m.pt d x) : x ∈ m₀.freelist :=
  h.mem_freelist (Nat.lt_of_lt_of_le hx (Nat.le_add_left ..))

/-- Work on the address space leaves pages alone that were not free. -/
theorem Fresh.of_frame (h : Fresh d m₀ m) (htotal : ∀ x, Mem.total (space d) m' x = m₀.freelist.count x)
    (hframe : ∀ x, Mem.total (space d) m x = 0 → m'.pt x = m.pt x ∧ m'.bytes x = m.bytes x) :
    Fresh d m₀ m' := by
  refine ⟨htotal, fun x hx => ?_⟩
  have hzero : m₀.freelist.count x = 0 := List.count_eq_zero_of_not_mem hx
  obtain ⟨-, h1, h2⟩ := h.frame x hx
  obtain ⟨h3, h4⟩ := hframe x (by rw [h.total, hzero])
  exact ⟨outside_of_total (by rw [htotal, hzero]), h3.trans h1, h4.trans h2⟩

theorem Fresh.sound (h : Fresh d m₀ m) (hp : Pool img m₀) : Sound img d m := by
  refine ⟨h.le_one hp.nodup, fun v hv c hc => hp.free _ (h.tree_mem ?_), fun p hmem => ?_⟩
  · have := tree_of_entry hv hc
    omega
  · refine hp.free p (h.mem_freelist ?_)
    exact Nat.lt_of_lt_of_le (List.count_pos_iff.mpr hmem) (Nat.le_add_right ..)

/-- Giving up the image. -/
theorem Fresh.freevm (h : Fresh d m₀ m) (hp : Pool img m₀) :
    ∃ m', freevm img d m = .ok ((), m') ∧
      ∀ x ∉ m₀.freelist, m'.pt x = m₀.pt x ∧ m'.bytes x = m₀.bytes x := by
  have hfree : ∀ x, 0 < tree m.pt d x → Freeable img x := fun x hx => hp.free x (h.tree_mem hx)
  obtain ⟨l, m', hrun, -, -, hframe⟩ := freevm_run (h.sound hp).space.once hfree
  refine ⟨m', hrun, fun x hx => ?_⟩
  obtain ⟨-, h1, h2⟩ := h.frame x hx
  obtain ⟨h3, h4⟩ := hframe x (by rw [h.total, List.count_eq_zero_of_not_mem hx])
  exact ⟨h3.trans h1, h4.trans h2⟩

/-- A store to a page that was not free. -/
theorem Fresh.write (h : Fresh d m₀ m) (hp : p ∉ m₀.freelist) (o : Nat) (l : List UInt8) :
    Fresh d (m₀.write p o l) (m.write p o l) := by
  have hne : ∀ x, 0 < tree m.pt d x → x ≠ p := by
    rintro x hx rfl
    exact hp (h.tree_mem hx)
  have htree := tree_congr (m.write_other o l (hne d (tree_dir_pos _ _))).1 fun i hi e he =>
    (m.write_other o l (hne e.page (tree_table_pos hi he))).1
  have htotal : ∀ x, Mem.total (space d) (m.write p o l) x = m₀.freelist.count x := by
    intro x
    rw [← h.total]
    simp only [Mem.total, space, htree x]
    rfl
  refine ⟨htotal, fun x hx => ?_⟩
  obtain ⟨-, hpt, hbytes⟩ := h.frame x hx
  refine ⟨outside_of_total (by rw [htotal]; exact List.count_eq_zero_of_not_mem hx), ?_⟩
  by_cases hxp : x = p
  · subst hxp
    simp only [Memory.write, update_self, hbytes, and_self]
  · rw [(m.write_other o l hxp).1, (m.write_other o l hxp).2, (m₀.write_other o l hxp).1,
      (m₀.write_other o l hxp).2]
    exact ⟨hpt, hbytes⟩

theorem setupkvm_layout (hp : Pool img m) (h : setupkvm img m = .ok (some d, m')) :
    Layout img m d acc 0 m' := by
  obtain ⟨hfresh, hent⟩ := setupkvm_ok hp.nodup h
  refine ⟨hfresh, Nat.zero_le _, fun v hv => absurd hv (Nat.not_lt_zero v), fun v _ hv => ?_,
    fun v hv hlt => ?_⟩
  · rw [hent v (by omega), if_neg (by omega)]
  · rw [hent v hlt, if_pos hv]

theorem Layout.accessible (h : Layout img m₀ d acc sz m) (hv : v < 2 ^ 20) :
    Accessible m d v ↔ v < pgroundup sz ∧ acc v = true := by
  constructor
  · rintro ⟨e, he, hu⟩
    by_cases hlt : v < pgroundup sz
    · obtain ⟨p, -, hent⟩ := h.user v hlt
      obtain rfl := Option.some.inj (hent.symm.trans he)
      exact ⟨hlt, hu⟩
    · by_cases hk : v < 0x80000
      · rw [h.above v (by omega) hk] at he
        cases he
      · rw [h.kernel v (by omega) hv] at he
        rw [kernelEntry_u he] at hu
        cases hu
  · rintro ⟨hlt, hacc⟩
    obtain ⟨p, -, hent⟩ := h.user v hlt
    exact ⟨_, hent, hacc⟩

theorem Layout.userDir (h : Layout img m₀ d acc sz m) (hp : Pool img m₀) : UserDir img m d := by
  refine ⟨(h.toFresh.sound hp).space, fun v hv hlt ha => ?_⟩
  have := ((h.accessible hlt).mp ha).1
  have := h.bound
  omega

/-- Stores to pages of the image keep the layout. -/
theorem Layout.of_entries (h : Layout img m₀ d acc sz m) (hfresh : Fresh d m₀ m')
    (hent : ∀ v, entryAt m'.pt d v = entryAt m.pt d v) : Layout img m₀ d acc sz m' := by
  refine ⟨hfresh, h.bound, fun v hv => ?_, fun v hv hlt => ?_, fun v hv hlt => ?_⟩
  · rw [hent]
    exact h.user v hv
  · rw [hent]
    exact h.above v hv hlt
  · rw [hent]
    exact h.kernel v hv hlt

theorem Layout.write {c : Pte} (h : Layout img m₀ d acc sz m) (hp : Pool img m₀)
    (hv : v < pgroundup sz) (hc : entryAt m.pt d v = some c) (o : Nat) (l : List UInt8) :
    Layout img m₀ d acc sz (m.write c.page o l) := by
  have hu := h.userDir hp
  have hlt : v < 0x80000 := Nat.lt_of_lt_of_le hv h.bound
  refine h.of_entries (h.toFresh.of_frame (fun x => ?_) fun x hx => ?_) (write_entry hu hlt hc o l)
  · rw [← h.total]
    have htree := tree_congr (write_dir hu hlt hc o l) fun i hi e he =>
      (m.write_other o l (entry_ne_table hu.once hlt hc hi he)).1
    simp only [Mem.total, space, htree x]
    rfl
  · refine m.write_other o l ?_
    rintro rfl
    have := tree_of_entry hlt hc
    simp only [Mem.total, space] at hx
    omega

/-! ## allocuvm -/

section Alloc

variable {K : Option Kind} {has : Present} {ks : List Kind} {newsz : Nat} {G : Memory → Prop}

theorem Fresh.book (h : Fresh d m₀ m) (hp : Pool img m₀) (hG : G m) :
    Book m₀.freelist.toFinset K (space d + 0) G m := by
  have htot : ∀ x, Mem.total (space d + 0) m x = ind m₀.freelist.toFinset x := by
    intro x
    have hx := h.total x
    simp only [Mem.total, Pi.add_apply, Pi.zero_apply, Nat.add_zero] at hx ⊢
    rw [hx, ind]
    simp only [List.mem_toFinset]
    split
    · rename_i hmem
      exact List.count_eq_one_of_mem hp.nodup hmem
    · rename_i hmem
      exact List.count_eq_zero_of_not_mem hmem
  exact ⟨fun x => (htot x).le, .inl ⟨hG, htot⟩⟩

/-- As long as no page table is missing, no page gets lost. -/
theorem Book.exact (h : Book m₀.freelist.toFinset K (space d + 0) G m) (hK : K ≠ some .pgtab)
    (hp : Pool img m₀) : G m ∧ ∀ x, total (space d) m x = m₀.freelist.count x := by
  rcases h.mode with ⟨hG, htot⟩ | ⟨heq, -⟩
  · refine ⟨hG, fun x => ?_⟩
    have hx := htot x
    simp only [total, Pi.add_apply, Pi.zero_apply, Nat.add_zero] at hx ⊢
    rw [hx, ind]
    simp only [List.mem_toFinset]
    split
    · rename_i hmem
      exact (List.count_eq_one_of_mem hp.nodup hmem).symm
    · rename_i hmem
      exact (List.count_eq_zero_of_not_mem hmem).symm
  · exact absurd heq hK

/-- The outcome of `allocuvm` for an image: it has grown, or there was no memory. -/
structure Allocated (img : Image) (m₀ : Memory) (d : Page) (K : Option Kind) (ks : List Kind)
    (has : Present) (sz newsz r : Nat) (m' : Memory) : Prop extends Fresh d m₀ m' where
  result : (r = 0 ∧ K = some .page) ∨ (r = allocSize sz newsz ∧
    (r ≠ 0 → Layout img m₀ d (fun _ => true) r m') ∧ Dir m'.pt d (allocHas has sz newsz) ∧
    Due False ks K m')

theorem Layout.grown {oks : List Bool} (h : Layout img m₀ d (fun _ => true) sz m)
    (hle : sz ≤ newsz) (hk : newsz < KERNBASE) (hg : Grown d (pgroundup sz) m oks m')
    (hlen : oks.length = pgroundup newsz - pgroundup sz) (hno : false ∉ oks)
    (hfresh : Fresh d m₀ m') : Layout img m₀ d (fun _ => true) newsz m' := by
  have hmono : pgroundup sz ≤ pgroundup newsz := Nat.div_le_div_right (by omega)
  have hb := pgroundup_le_kernel hk
  refine ⟨hfresh, hb, fun v hv => ?_, fun v hv hlt => ?_, fun v hv hlt => ?_⟩
  · by_cases hlt : v < pgroundup sz
    · rw [hg.kept v (by omega) (.inl hlt)]
      exact h.user v hlt
    · have hat : oks[v - pgroundup sz]? = some true := by
        cases hb : oks[v - pgroundup sz]? with
        | none =>
          rw [List.getElem?_eq_none_iff] at hb
          omega
        | some b =>
          cases b with
          | true => rfl
          | false => exact absurd (List.mem_of_getElem? hb) hno
      obtain ⟨p, hp, hent, -⟩ := hg.mapped _ hat
      rw [show pgroundup sz + (v - pgroundup sz) = v by omega] at hent
      refine ⟨p, h.toFresh.mem_freelist ?_, hent⟩
      exact Nat.lt_of_lt_of_le (List.count_pos_iff.mpr hp) (Nat.le_add_right ..)
  · rw [hg.kept v (by omega) (.inr (by omega))]
    exact h.above v (by omega) hlt
  · rw [hg.kept v hlt (.inr (by omega))]
    exact h.kernel v hv hlt

theorem Layout.allocuvm (h : Layout img m₀ d (fun _ => true) sz m) (hp : Pool img m₀)
    (hdir : Dir m.pt d has) (hdue : Due False (allocPlan has sz newsz ++ ks) K m)
    (hK : K ≠ some .pgtab) :
    ∃ r m', allocuvm img d sz newsz m = .ok (r, m') ∧ Allocated img m₀ d K ks has sz newsz r m' := by
  by_cases hout : KERNBASE ≤ newsz ∨ newsz < sz
  · -- nothing is allocated
    have hplan : allocPlan has sz newsz = [] := if_pos hout
    have hhas : allocHas has sz newsz = has := if_pos hout
    rw [hplan, List.nil_append] at hdue
    have hrun : Mem.allocuvm img d sz newsz m = .ok (allocSize sz newsz, m) := by
      unfold Mem.allocuvm allocSize
      split
      · rfl
      · rw [if_pos (hout.resolve_left ‹_›), if_pos (hout.resolve_left ‹_›)]
        rfl
    refine ⟨_, m, hrun, h.toFresh, .inr ⟨rfl, fun hr => ?_, hhas.symm ▸ hdir, hdue⟩⟩
    have hsize : allocSize sz newsz = sz := by
      unfold allocSize at hr ⊢
      split at hr
      · exact absurd rfl hr
      · rename_i hk
        rw [if_neg hk, if_pos (hout.resolve_left hk)]
    rw [hsize]
    exact h
  · rw [not_or, Nat.not_le, Nat.not_lt] at hout
    obtain ⟨hk, hle⟩ := hout
    have hb := pgroundup_le_kernel hk
    obtain ⟨m₁, hgrown, hcase⟩ := allocuvm_run (h.toFresh.sound hp) hle hk fun u h1 h2 =>
      h.above u h1 (by omega)
    have hfinish : ∀ r m', Mem.allocuvm img d sz newsz m = .ok (r, m') →
        (∀ x, Mem.total (space d) m x = 0 → m'.pt x = m.pt x ∧ m'.bytes x = m.bytes x) →
        (∀ htot : (∀ x, Mem.total (space d) m' x = m₀.freelist.count x), r ≠ 0 →
          Layout img m₀ d (fun _ => true) r m') →
        Allocated img m₀ d K ks has sz newsz r m' := by
      intro r m' hrun hframe hlayout
      rcases (allocuvm_spec stable_zero (h.toFresh.book hp ⟨hdir, hdue⟩)).ok rfl hrun with
        ⟨hr, hbook⟩ | ⟨hr, hbook⟩
      · obtain ⟨hG, htot⟩ := hbook.exact hK hp
        exact ⟨h.toFresh.of_frame htot hframe, .inr ⟨hr, hlayout htot, hG.1, hG.2⟩⟩
      · obtain ⟨hG, htot⟩ := hbook.exact hK hp
        exact ⟨h.toFresh.of_frame htot hframe, .inl ⟨hr, hG⟩⟩
    split at hcase
    · obtain ⟨m₂, hrun, hun⟩ := hcase
      refine ⟨0, m₂, hrun, hfinish _ _ hrun (fun x hx => ?_) fun _ hr => absurd rfl hr⟩
      obtain ⟨h1, h2⟩ := hgrown.frame x hx
      obtain ⟨h3, h4⟩ := hun.frame x (Nat.le_zero.mp (hx ▸ hgrown.le x))
      exact ⟨h3.trans h1, h4.trans h2⟩
    · rename_i hstop
      refine ⟨newsz, m₁, hcase, hfinish _ _ hcase hgrown.frame fun htot _ => ?_⟩
      have hno : false ∉ (allocCourse d m sz newsz).tables := by
        intro hmem
        obtain ⟨q, hq, hzero⟩ := hgrown.leak hmem
        have hq₀ := h.toFresh.mem_freelist
          (Nat.lt_of_lt_of_le (List.count_pos_iff.mpr hq) (Nat.le_add_right ..))
        have := List.count_pos_iff.mpr hq₀
        rw [htot] at hzero
        omega
      have hlen := course_length _ _ _ _ _ (Bool.not_eq_true _ ▸ hstop)
      exact h.grown hle hk hgrown hlen hno (h.toFresh.of_frame htot hgrown.frame)

end Alloc

/-! ## The stack -/

theorem pgroundup_mul (n : Nat) : pgroundup (n * PGSIZE) = n := by
  unfold pgroundup PGSIZE
  omega

theorem Layout.of_size {sz' : Nat} (h : Layout img m₀ d acc sz m)
    (hsz : pgroundup sz' = pgroundup sz) : Layout img m₀ d acc sz' m :=
  ⟨h.toFresh, hsz ▸ h.bound, hsz ▸ h.user, hsz ▸ h.above, h.kernel⟩

theorem Layout.clearpteu (h : Layout img m₀ d acc sz m) (hp : Pool img m₀)
    (hv : v < pgroundup sz) : ∃ m', clearpteu d v m = .ok ((), m') ∧
      Layout img m₀ d (Function.update acc v false) sz m' := by
  have hle := (h.toFresh.sound hp).space.once
  have hb := h.bound
  obtain ⟨p, -, hent⟩ := h.user v hv
  cases he : m.pt d (pdx v) with
  | none =>
    rw [entryAt_of_none he] at hent
    cases hent
  | some e =>
    have hc : m.pt e.page (ptx v) = some ⟨p, true, acc v⟩ := (entryAt_of_some he).symm.trans hent
    let m' : Memory := { m with
      pt := setPte m.pt e.page (ptx v) (some ⟨p, true, false⟩)
      bytes := Function.update m.bytes e.page
        (putWord (m.bytes e.page) (ptx v) (pteWord (some ⟨p, true, false⟩))) }
    have hrun : Mem.clearpteu d v m = .ok ((), m') := by
      rw [Mem.clearpteu, run_bind (walkpgdir_false d v m), he, Option.map_some]
      dsimp only
      rw [run_get, hc]
      rfl
    have hent' : ∀ u < 2 ^ 20, entryAt m'.pt d u
        = if u = v then some ⟨p, true, false⟩ else entryAt m.pt d u := fun u hu =>
      entryAt_set_pte hle (by omega) hu he _
    have hfresh : Fresh d m₀ m' := by
      refine h.toFresh.of_frame (fun x => ?_) fun x hx => ?_
      · have hset := tree_set_pte hle (pdx_lt v) (ptx_lt v) he (some ⟨p, true, false⟩) x
        rw [hc] at hset
        have hx := h.total x
        simp only [Mem.total, space, cell] at hset hx ⊢
        show m.freelist.count x + tree (setPte m.pt e.page (ptx v) _) d x = _
        omega
      · have hne : x ≠ e.page := by
          rintro rfl
          have := table_le_tree (x := e.page) (pdx_lt v) he
          rw [one_self] at this
          simp only [Mem.total, space] at hx
          omega
        exact ⟨setPte_of_ne _ _ _ hne, update_of_ne hne ..⟩
    refine ⟨m', hrun, hfresh, hb, fun u hu => ?_, fun u hu hlt => ?_, fun u hu hlt => ?_⟩
    · rw [hent' u (by omega), update_apply]
      split
      · rename_i huv
        subst huv
        have htree := tree_of_entry (by omega) ((hent' u (by omega)).trans (if_pos rfl))
        exact ⟨p, hfresh.tree_mem (Nat.lt_of_lt_of_le (Nat.lt_add_right _ Nat.one_pos) htree), rfl⟩
      · exact h.user u hu
    · rw [hent' u (by omega), if_neg (by omega)]
      exact h.above u hu hlt
    · rw [hent' u hlt, if_neg (by omega)]
      exact h.kernel u hu hlt

/-- The pages of an image whose stack is above the inaccessible page `g`. -/
def guarded (g : Nat) : Nat → Bool := Function.update (fun _ => true) g false

theorem Layout.makeStack {K : Option Kind}
    (h : Layout img m₀ d (fun _ => true) sz m) (hp : Pool img m₀) (hdir : Dir m.pt d has)
    (hdue : Due False (stackPlan has sz) K m) (hK : K ≠ some .pgtab) :
    ∃ r m', makeStack img d sz m = .ok (r, m') ∧ Fresh d m₀ m' ∧
      (K = none → pgroundup sz + 2 < 0x80000 → r = some ((pgroundup sz + 2) * PGSIZE)) ∧
      ∀ top, r = some top → top = (pgroundup sz + 2) * PGSIZE ∧ top < KERNBASE ∧
        Layout img m₀ d (guarded (pgroundup sz)) top m' := by
  have htop : pgroundup sz * PGSIZE + 2 * PGSIZE = (pgroundup sz + 2) * PGSIZE := by
    rw [Nat.add_mul]
  rw [stackPlan, ← List.append_nil (allocPlan ..), htop] at hdue
  obtain ⟨r, m₁, hrun, halloc⟩ := (h.of_size (pgroundup_mul _)).allocuvm hp hdir hdue hK
  unfold Mem.makeStack
  rw [htop, run_bind hrun]
  by_cases h0 : r = 0
  · rw [if_pos h0]
    refine ⟨none, m₁, rfl, halloc.toFresh, fun hnone hlt => ?_, fun _ hx => absurd hx.symm (Option.some_ne_none _)⟩
    rcases halloc.result with ⟨-, hpage⟩ | ⟨hr, -⟩
    · rw [hnone] at hpage
      cases hpage
    · rw [h0] at hr
      unfold allocSize KERNBASE PGSIZE at hr
      split at hr
      · omega
      · split at hr <;> omega
  · rw [if_neg h0]
    rcases halloc.result with ⟨hr, -⟩ | ⟨hr, hlayout, -⟩
    · exact absurd hr h0
    have hsize : r = (pgroundup sz + 2) * PGSIZE ∧ r < KERNBASE := by
      unfold allocSize at hr
      split at hr
      · exact absurd hr h0
      · split at hr
        · rename_i hlt
          rw [← htop] at hlt
          omega
        · omega
    have hup : pgroundup r = pgroundup sz + 2 := by rw [hsize.1, pgroundup_mul]
    have hpage : r / PGSIZE - 2 = pgroundup sz := by
      rw [hsize.1, Nat.mul_div_cancel _ (by decide)]
      omega
    obtain ⟨m₂, hclear, hstack⟩ := (hlayout h0).clearpteu hp (v := pgroundup sz) (by omega)
    refine ⟨some r, m₂, ?_, hstack.toFresh, fun _ _ => by rw [hsize.1], fun top hx => ?_⟩
    · rw [hpage, run_bind hclear]
      rfl
    · obtain rfl := Option.some.inj hx
      exact ⟨hsize.1, hsize.2, hstack⟩

/-! ## copyout -/

/-- `copyout` leaves the page tables alone, and all pages outside the address space. -/
theorem CopiedOut.kept {r : Bool} (hc : CopiedOut m d va src r m')
    (hu : UserDir img m d) : (∀ v, entryAt m'.pt d v = entryAt m.pt d v) ∧
      (∀ x, Mem.total (space d) m' x = Mem.total (space d) m x) ∧
      ∀ x, Mem.total (space d) m x = 0 → m'.pt x = m.pt x ∧ m'.bytes x = m.bytes x := by
  have hdir : m'.pt d = m.pt d := by
    refine (hc.confined d fun v hv e he heu hd => ?_).1
    have h1 := tree_of_entry (hu.user hv ⟨e, he, heu⟩) he
    have h2 := hu.once e.page
    rw [hd] at h1 h2
    rw [one_self] at h1
    omega
  have htable : ∀ i < NPTENTRIES, ∀ e, m.pt d i = some e → m'.pt e.page = m.pt e.page :=
    fun i hi e he => (hc.confined e.page fun v hv c hcv hcu =>
      (entry_ne_table hu.once (hu.user hv ⟨c, hcv, hcu⟩) hcv hi he).symm).1
  refine ⟨fun v => ?_, fun x => ?_, fun x hx => ?_⟩
  · unfold entryAt
    rw [hdir]
    cases he : m.pt d (pdx v) with
    | none => rfl
    | some e => exact congrFun (htable _ (pdx_lt v) e he) _
  · have htree := tree_congr hdir htable x
    simp only [Mem.total, space, htree, hc.freelist]
  · refine hc.confined x fun v hv e he heu hpage => ?_
    have := tree_of_entry (hu.user hv ⟨e, he, heu⟩) he
    simp only [Mem.total, space, ← hpage] at hx
    omega

theorem CopiedOut.layout {r : Bool} (hc : CopiedOut m d va src r m')
    (h : Layout img m₀ d acc sz m) (hp : Pool img m₀) : Layout img m₀ d acc sz m' := by
  obtain ⟨hent, htotal, hframe⟩ := hc.kept (h.userDir hp)
  exact h.of_entries (h.toFresh.of_frame (fun x => (htotal x).trans (h.total x)) hframe) hent

/-- A range that starts in the image is looked up in pages with a table, and so is one that starts
with a page of the devices, at which `copyout` stops. -/
theorem Layout.tabled (h : Layout img m₀ d acc sz m)
    (hva : va + n ≤ pgroundup sz * PGSIZE ∨ 0xFE000 ≤ va / PGSIZE ∧ va < 2 ^ 32) :
    Tabled m d va n := by
  have htab : ∀ v, entryAt m.pt d v ≠ none → m.pt d (pdx v) ≠ none := fun v hent hnone =>
    hent (entryAt_of_none hnone)
  intro a h1 h2 hbefore
  rcases hva with hin | ⟨hdev, hlt⟩
  · obtain ⟨p, -, hent⟩ := h.user (a / PGSIZE) (by unfold PGSIZE at *; omega)
    exact htab _ (by rw [hent]; exact Option.some_ne_none _)
  · by_cases hpage : a / PGSIZE = va / PGSIZE
    · have hv : va / PGSIZE < 2 ^ 20 := by unfold PGSIZE; omega
      have hent := h.kernel (va / PGSIZE) (by omega) hv
      rw [kernelEntry_device hdev hv] at hent
      rw [hpage]
      exact htab _ (by rw [hent]; exact Option.some_ne_none _)
    · have hacc := hbefore va le_rfl (by unfold PGSIZE at *; omega)
      have hb := h.bound
      have := ((h.accessible (by unfold PGSIZE; omega)).mp hacc).1
      omega

theorem Layout.copyout (h : Layout img m₀ d acc sz m)
    (hp : Pool img m₀) (null : M (Option Pte)) (hlt : va < 2 ^ 32)
    (hva : va + src.length ≤ pgroundup sz * PGSIZE ∨ 0xFE000 ≤ va / PGSIZE) :
    ∃ r m', copyout img null d va src m = .ok (r, m') ∧ CopiedOut m d va src r m' ∧
      Layout img m₀ d acc sz m' := by
  obtain ⟨r, m', hrun, hc⟩ := copyoutLoop_exact null le_rfl (h.userDir hp) hlt
    (h.tabled (hva.imp_right fun hdev => ⟨hdev, hlt⟩))
  exact ⟨r, m', hrun, hc, hc.layout h hp⟩

end StrideXv6.Mem
