import StrideXv6.Mem.Book

set_option autoImplicit false

/-! # The pages of fork, exec and sbrk

The book through `allocuvm`, `copyuvm`, `exec`, `growproc` and the parts of `fork` and `wait` that
concern memory. For each of them a plan says which calls of `kalloc` it makes as long as none of
them fails; the plan is computed from the arguments and from the page directory before the call.

A call that ends in order or with an error has lost a page only if the first failure was that of a
page table: the condition `K ≠ some .pgtab` in the last argument of the books below is what is
known when nothing is missing.
-/

namespace StrideXv6.Mem

open Hoare

/-! ## Plans of the calls -/

/-- The pages `allocuvm` adds. -/
def newPages (oldsz newsz : Nat) : List Nat :=
  List.range' (pgroundup oldsz) (pgroundup newsz - pgroundup oldsz)

def allocPlan (has : Present) (oldsz newsz : Nat) : List Kind :=
  if KERNBASE ≤ newsz ∨ newsz < oldsz then [] else plan [.page] has (newPages oldsz newsz)

def allocHas (has : Present) (oldsz newsz : Nat) : Present :=
  if KERNBASE ≤ newsz ∨ newsz < oldsz then has else markAll has (newPages oldsz newsz)

/-- What `allocuvm` returns when it finds memory. -/
def allocSize (oldsz newsz : Nat) : Nat :=
  if KERNBASE ≤ newsz then 0 else if newsz < oldsz then oldsz else newsz

/-- The plan of `loadSegments`, and then `next`. -/
def segmentsPlan (next : Present → Nat → List Kind) : List Proghdr → Present → Nat → List Kind
  | [], has, sz => next has sz
  | .unreadable :: _, _, _ => []
  | .other :: hs, has, sz => segmentsPlan next hs has sz
  | .short :: _, _, _ => []
  | .load vaddr memsz filesz read :: hs, has, sz =>
    let newsz := (vaddr + memsz) % 2 ^ 32
    allocPlan has sz newsz ++
      if allocSize sz newsz = 0 ∨ read < pgroundup filesz then []
      else segmentsPlan next hs (allocHas has sz newsz) (allocSize sz newsz)

def stackPlan (has : Present) (sz : Nat) : List Kind :=
  allocPlan has (pgroundup sz * PGSIZE) (pgroundup sz * PGSIZE + 2 * PGSIZE)

def execPlan (img : Image) (f : ExecFile) : List Kind :=
  if f.elf then
    .pgdir :: (kernelPlan img ++ segmentsPlan stackPlan f.headers (kernelHas img) 0)
  else []

def forkPlan (img : Image) (sz : Nat) : List Kind :=
  .kstack :: .pgdir :: (kernelPlan img ++ plan [.page] (kernelHas img) (newPages 0 sz))

def growPlan (has : Present) (sz : Nat) (n : Int) : List Kind :=
  if 0 < n then allocPlan has sz (sz + n.toNat) else []

/-! ## Holdings that do not change -/

open Classical in
/-- The holdings `H` as long as they are `l`; a book with `pin H l` says that they are. -/
noncomputable def pin (H : Holdings) (l : Page → Nat) : Holdings :=
  fun pt x => if H pt = l then l x else 2

theorem Stable.pin {H : Holdings} (h : Stable H) (l : Page → Nat) : Stable (pin H l) := by
  intro pt t f h0
  by_cases hl : H pt = l
  · have ht : H pt t = 0 := by
      rw [Mem.pin, if_pos hl] at h0
      rw [hl, h0]
    funext x
    rw [Mem.pin, Mem.pin, h pt t f ht]
  · rw [Mem.pin, if_neg hl] at h0
    cases h0

section Calls

variable {P : Finset Page} {K : Option Kind} {H L : Holdings} {G : Memory → Prop} {g : Prop}
  {m : Memory} {d : Page} {boot : Prop} {ks : List Kind} {has : Present} {v : Nat}
  {img : Image}

theorem Book.pin (h : Book P K H G m) : Book P K (pin H (H m.pt)) G m :=
  h.move (fun x => by simp only [total, Mem.pin, if_pos]) id

theorem Book.unpin {l : Page → Nat} (h : Book P K (Mem.pin H l + L) G m) :
    H m.pt = l ∧ Book P K (H + L) G m := by
  have hl : H m.pt = l := by
    by_contra hne
    have := h.le_one 0
    simp only [total, Pi.add_apply, Mem.pin, if_neg hne] at this
    omega
  refine ⟨hl, h.move (fun x => ?_) id⟩
  rw [total, total, Pi.add_apply, Pi.add_apply, Pi.add_apply, Pi.add_apply, Mem.pin, if_pos hl, hl]

theorem Book.unpin_all {l : Page → Nat} (h : Book P K (Mem.pin H l) G m) :
    H m.pt = l ∧ Book P K H G m := by
  rw [← add_zero (Mem.pin H l)] at h
  rw [← add_zero H]
  exact h.unpin

theorem Book.choose {α : Type} [Nonempty α] {F : α → Memory → Prop}
    (h : Book P K H (fun m => ∃ a, F a m) m) : ∃ a, Book P K H (F a) m := by
  rcases h.mode with ⟨⟨a, ha⟩, -⟩ | hlost
  · exact ⟨a, h.imp fun _ => ha⟩
  · exact ⟨Classical.arbitrary α, h.le, .inr hlost⟩

theorem Due.done (h : Due boot [] K m) : K = none := h.first.symm

/-! ## allocuvm -/

/-- The page that `allocuvm` or `copyuvm` allocates, and what it goes on with. -/
theorem kalloc_page {vs : List Nat} (h : Book P K (space d + L)
      (fun m => Dir m.pt d has ∧ Due boot (plan [.page] has (v :: vs) ++ ks) K m) m) :
    Triple (· = m) kalloc
      (fun r m' => m'.pt = m.pt ∧ r.elim (Book P K (space d + L) (fun _ => K = some .page) m')
        fun p => Book P K (space d + L + page p) (fun m => Dir m.pt d has ∧
          Due boot (need has v ++ (plan [.page] (mark has v) vs ++ ks)) K m) m')
      fun _ => False := by
  refine kalloc_spec (Q := fun pt => Dir pt d has) ?_
  rwa [plan, List.append_assoc, List.append_assoc] at h

theorem Book.page_free {p : Page} (h : Book P K (space d + L + page p) G m) :
    tree m.pt d p = 0 := by
  rw [add_comm] at h
  have : tree m.pt d p + L m.pt p = 0 := h.apart (by simp [page])
  omega

/-- The contents that `allocuvm` and `copyuvm` give to the page. -/
theorem Book.fill {p : Page} (h : Book P K (space d + L + page p)
      (fun m => Dir m.pt d has ∧ Due boot ks K m) m) (hL : Stable L) (f : Nat → Option Pte)
    (b : Page → Bytes) :
    Book P K (space d + L + page p) (fun m => Dir m.pt d has ∧ Due boot ks K m)
      { m with pt := Function.update m.pt p f, bytes := b } := by
  have hne : d ≠ p := page_ne_dir h.page_free
  refine h.store ((stable_space d).add hL) f b fun hg => ⟨?_, hg.2.first, hg.2.calm⟩
  show Dir (Function.update m.pt p f) d has
  unfold Dir
  rw [Function.update_of_ne hne]
  exact hg.1

theorem allocLoop_spec {oldsz newsz : Nat} (hL : Stable L) (hnew : newsz < KERNBASE) :
    ∀ (n v : Nat) (has : Present) (m : Memory), v + n ≤ 0x80000 →
    Book P K (space d + L)
      (fun m => Dir m.pt d has ∧ Due boot (plan [.page] has (List.range' v n) ++ ks) K m) m →
    Triple (· = m) (allocLoop img d oldsz newsz n v)
      (fun r m' => (r = newsz ∧ Book P K (space d + L) (fun m =>
          Dir m.pt d (markAll has (List.range' v n)) ∧ Due boot ks K m) m') ∨
        (r = 0 ∧ Book P K (space d + L) (fun _ => K = some .page) m'))
      fun _ => True := by
  intro n
  induction n with
  | zero => exact fun v has m _ h => triple_exact rfl (.inl ⟨rfl, h⟩)
  | succ n ih =>
    intro v has m hn h
    rw [List.range'_succ] at h ⊢
    rw [allocLoop]
    refine (kalloc_page h).safe.next ?_
    rintro (_ | p) m₁ ⟨-, hb⟩
    · refine (deallocuvm_spec img hL hnew.le hb).next ?_
      rintro _ m₂ ⟨hb₂, -⟩
      exact triple_exact rfl (.inr ⟨rfl, hb₂⟩)
    · refine triple_step rfl ?_
      -- the result of mappages is ignored
      refine triple_call (mappages_user (Book.fill hb hL _ _) hL (by omega)) rfl (fun _ _ => trivial) ?_
      intro r m₂ hr
      refine ih (v + 1) (mark has v) m₂ (by omega) ?_
      cases r with
      | false => exact Book.imp hr False.elim
      | true => exact hr

theorem pgroundup_le_kernel {sz : Nat} (h : sz < KERNBASE) : pgroundup sz ≤ 0x80000 := by
  simp only [pgroundup, PGSIZE, KERNBASE] at *
  omega

theorem allocuvm_spec {oldsz newsz : Nat} (hL : Stable L) (h : Book P K (space d + L)
      (fun m => Dir m.pt d has ∧ Due boot (allocPlan has oldsz newsz ++ ks) K m) m) :
    Triple (· = m) (allocuvm img d oldsz newsz)
      (fun r m' => (r = allocSize oldsz newsz ∧ Book P K (space d + L) (fun m =>
          Dir m.pt d (allocHas has oldsz newsz) ∧ Due boot ks K m) m') ∨
        (r = 0 ∧ Book P K (space d + L) (fun _ => K = some .page) m'))
      fun _ => True := by
  unfold allocuvm
  by_cases hk : KERNBASE ≤ newsz
  · rw [if_pos hk]
    rw [allocPlan, if_pos (.inl hk)] at h
    refine triple_exact rfl (.inl ⟨?_, ?_⟩)
    · rw [allocSize, if_pos hk]
    · rwa [allocHas, if_pos (.inl hk)]
  · rw [if_neg hk]
    by_cases ho : newsz < oldsz
    · rw [if_pos ho]
      rw [allocPlan, if_pos (.inr ho)] at h
      refine triple_exact rfl (.inl ⟨?_, ?_⟩)
      · rw [allocSize, if_neg hk, if_pos ho]
      · rwa [allocHas, if_pos (.inr ho)]
    · rw [if_neg ho]
      have hnot : ¬ (KERNBASE ≤ newsz ∨ newsz < oldsz) := by omega
      have hup := pgroundup_le_kernel (show newsz < KERNBASE by omega)
      have hmono : pgroundup oldsz ≤ pgroundup newsz := by
        unfold pgroundup
        exact Nat.div_le_div_right (by omega)
      rw [allocPlan, if_neg hnot] at h
      rw [allocHas, if_neg hnot, allocSize, if_neg hk, if_neg ho]
      exact allocLoop_spec hL (by omega) _ _ has m (by omega) h

theorem kernbase_pos : 0 < KERNBASE := by
  unfold KERNBASE
  omega

theorem allocSize_lt {oldsz : Nat} (newsz : Nat) (h : oldsz < KERNBASE) :
    allocSize oldsz newsz < KERNBASE := by
  unfold allocSize
  split
  · exact kernbase_pos
  · split <;> omega

/-! ## copyuvm -/

theorem copyLoop_spec {pgdir : Page} (hL : Stable L) :
    ∀ (n v : Nat) (has : Present) (m : Memory), v + n ≤ 0x80000 →
    Book P K (space d + L)
      (fun m => Dir m.pt d has ∧ Due boot (plan [.page] has (List.range' v n) ++ ks) K m) m →
    Triple (· = m) (copyLoop img pgdir d n v)
      (fun r m' => r.elim (Book P K L (fun _ => K = some .page) m') fun d' =>
        d' = d ∧ Book P K (space d + L) (fun m => Due boot ks K m) m')
      fun _ => True := by
  intro n
  induction n with
  | zero => exact fun v has m _ h => triple_exact rfl ⟨rfl, h.imp And.right⟩
  | succ n ih =>
    intro v has m hn h
    rw [List.range'_succ] at h
    rw [copyLoop]
    refine triple_step (walkpgdir_false pgdir v m) ?_
    cases he : m.pt pgdir (pdx v) with
    | none => exact triple_fail rfl trivial
    | some e =>
      refine triple_step rfl ?_
      cases hc : m.pt e.page (ptx v) with
      | none => exact triple_fail rfl trivial
      | some c =>
        refine (kalloc_page h).safe.next ?_
        rintro (_ | p) m₁ ⟨-, hb⟩
        · refine (freevm_spec img hL hb).next ?_
          exact fun _ m₂ hb₂ => triple_exact rfl hb₂
        · refine triple_step rfl ?_
          refine triple_call (mappages_user (Book.fill hb hL _ _) hL (by omega)) rfl (fun _ _ => trivial) ?_
          rintro (_ | _) m₂ hr
          · refine (freevm_spec img hL hr).next ?_
            exact fun _ m₃ hb₃ => triple_exact rfl (Book.imp hb₃ False.elim)
          · exact ih (v + 1) (mark has v) m₂ (by omega) hr

theorem sound_of_eq {k : Kind} (hK : K = some k) (hk : k ≠ .pgtab) : K ≠ some .pgtab := by
  rw [hK]
  exact fun heq => hk (Option.some.inj heq)

theorem Due.sound (h : Due boot [] K m) : K ≠ some .pgtab := by
  rw [h.done]
  exact fun heq => nomatch heq

theorem copyuvm_spec {pgdir : Page} {sz : Nat} (hL : Stable L) (hsz : sz < KERNBASE)
    (h : Book P K L (Due False (.pgdir :: (kernelPlan img ++
      plan [.page] (kernelHas img) (newPages 0 sz))) K) m) :
    Triple (· = m) (copyuvm img pgdir sz)
      (fun r m' => r.elim (Book P K L (fun _ => K ≠ some .pgtab) m') fun d =>
        Book P K (space d + L) (fun _ => K ≠ some .pgtab) m')
      fun _ => True := by
  unfold copyuvm
  refine (setupkvm_spec img h hL).safe.next ?_
  rintro (_ | d) m₁ hr
  · exact triple_exact rfl (Book.imp hr fun hK => sound_of_eq hK (by decide))
  · have hup := pgroundup_le_kernel hsz
    obtain ⟨-, hb⟩ := hr
    rw [← List.append_nil (plan ..)] at hb
    refine (copyLoop_spec hL (pgroundup sz) 0 (kernelHas img) m₁ (by omega) hb).post ?_
    rintro (_ | d') m₂ hr₂
    · exact Book.imp hr₂ fun hK => sound_of_eq hK (by decide)
    · obtain ⟨rfl, hb₂⟩ := hr₂
      exact hb₂.imp Due.sound

/-- `fork` fails with the pages and the holdings as they were. -/
theorem forkPages_spec {p : Proc} (hL : Stable L) (hsz : p.sz < KERNBASE)
    (h : Book P K L (Due False (forkPlan img p.sz) K) m) :
    Triple (· = m) (forkPages img p)
      (fun r m' => r.elim (L m'.pt = L m.pt ∧ Book P K L (fun _ => K ≠ some .pgtab) m') fun sd =>
        Book P K (page sd.1 + space sd.2 + L) (fun _ => K ≠ some .pgtab) m')
      fun _ => True := by
  have hpin := hL.pin (L m.pt)
  unfold forkPages
  refine (kalloc_spec (Q := fun _ => True) (h.pin.imp fun hd => ⟨trivial, hd⟩)).safe.next ?_
  rintro (_ | stack) m₁ ⟨-, hb⟩
  · obtain ⟨hl, hb⟩ := Book.unpin_all hb
    exact triple_exact rfl ⟨hl, hb.imp fun hK => sound_of_eq hK (by decide)⟩
  · refine (copyuvm_spec (hpin.add (stable_page stack)) hsz (Book.imp hb And.right)).next ?_
    rintro (_ | d) m₂ hr
    · refine triple_call (kfree_spec img hr hpin) rfl (fun _ _ => trivial) ?_
      intro _ m₃ hb₃
      obtain ⟨hl, hb₃⟩ := Book.unpin_all hb₃
      exact triple_exact rfl ⟨hl, hb₃⟩
    · have hr : Book P K (Mem.pin L (L m.pt) + (page stack + space d))
          (fun _ => K ≠ some .pgtab) m₂ := by
        rwa [← add_assoc, add_comm]
      have hb₂ := hr.unpin.2
      rw [add_comm] at hb₂
      exact triple_exact rfl hb₂

/-! ## exec -/

theorem loadLoop_spec {Q : Memory → Prop} (hm : Q m) : ∀ n v read,
    Triple (· = m) (loadLoop d n v read)
      (fun r m' => Q m' ∧ r = decide (n ≤ read)) fun _ => True := by
  intro n
  induction n with
  | zero => exact fun v read => triple_exact rfl ⟨hm, by simp⟩
  | succ n ih =>
    intro v read
    rw [loadLoop]
    refine triple_step (walkpgdir_false d v m) ?_
    cases he : m.pt d (pdx v) with
    | none => exact triple_fail rfl trivial
    | some e =>
      simp only [Option.map_some]
      by_cases hw : userEntries ≤ pdx v
      · rw [if_pos hw]
        exact triple_fail rfl trivial
      · rw [if_neg hw]
        by_cases hr : read = 0
        · rw [if_pos hr]
          exact triple_exact rfl ⟨hm, by simp [hr]⟩
        · rw [if_neg hr]
          refine (ih (v + 1) (read - 1)).post ?_
          rintro r m' ⟨hq, rfl⟩
          exact ⟨hq, decide_eq_decide.mpr (by omega)⟩

theorem loaduvm_spec {vaddr filesz read : Nat} {Q : Memory → Prop} (hm : Q m) :
    Triple (· = m) (loaduvm d vaddr filesz read)
      (fun r m' => Q m' ∧ r = decide (pgroundup filesz ≤ read)) fun _ => True := by
  unfold loaduvm
  by_cases ha : vaddr % PGSIZE ≠ 0
  · rw [if_pos ha]
    exact triple_fail rfl trivial
  · rw [if_neg ha]
    exact loadLoop_spec hm _ _ _

theorem loadSegments_spec {next : Present → Nat → List Kind} (hL : Stable L) :
    ∀ (hs : List Proghdr) (has : Present) (sz : Nat) (m : Memory), sz < KERNBASE →
    Book P K (space d + L)
      (fun m => Dir m.pt d has ∧ Due False (segmentsPlan next hs has sz) K m) m →
    Triple (· = m) (loadSegments img d hs sz)
      (fun r m' => r.elim (Book P K (space d + L) (fun _ => K ≠ some .pgtab) m') fun sz' =>
        sz' < KERNBASE ∧ Book P K (space d + L)
          (fun m => ∃ has', Dir m.pt d has' ∧ Due False (next has' sz') K m) m')
      fun _ => True := by
  intro hs
  induction hs with
  | nil => exact fun has sz m hsz h => triple_exact rfl ⟨hsz, h.imp fun hg => ⟨has, hg⟩⟩
  | cons hd hs ih =>
    intro has sz m hsz h
    cases hd with
    | unreadable => exact triple_exact rfl (h.imp fun hg => hg.2.sound)
    | short => exact triple_exact rfl (h.imp fun hg => hg.2.sound)
    | other => exact ih has sz m hsz h
    | load vaddr memsz filesz read =>
      rw [loadSegments]
      rw [segmentsPlan] at h
      refine (allocuvm_spec hL h).next ?_
      rintro r m₁ (⟨rfl, hb⟩ | ⟨rfl, hb⟩)
      · by_cases h0 : allocSize sz ((vaddr + memsz) % 2 ^ 32) = 0
        · rw [if_pos (.inl h0)] at hb
          rw [if_pos h0]
          exact triple_exact rfl (hb.imp fun hg => hg.2.sound)
        · rw [if_neg h0]
          refine (loaduvm_spec hb).next ?_
          rintro r m₂ ⟨hb₂, rfl⟩
          by_cases hread : pgroundup filesz ≤ read
          · rw [if_neg (by omega)] at hb₂
            rw [if_pos (decide_eq_true hread)]
            exact ih _ _ m₂ (allocSize_lt _ hsz) hb₂
          · rw [if_pos (by omega)] at hb₂
            rw [if_neg (by simpa using hread)]
            exact triple_exact rfl (hb₂.imp fun hg => hg.2.sound)
      · rw [if_pos rfl]
        exact triple_exact rfl (hb.imp fun hK => sound_of_eq hK (by decide))

theorem clearpteu_spec (hL : Stable L) (h : Book P K (space d + L) (fun _ => g) m) :
    Triple (· = m) (clearpteu d v) (fun _ m' => Book P K (space d + L) (fun _ => g) m')
      fun _ => True := by
  unfold clearpteu
  refine triple_step (walkpgdir_false d v m) ?_
  cases he : m.pt d (pdx v) with
  | none => exact triple_fail rfl trivial
  | some e =>
    refine triple_step rfl (triple_exact rfl ?_)
    have hcell : ∀ x, cell ((m.pt e.page (ptx v)).map fun e => { e with u := false }) x
        = cell (m.pt e.page (ptx v)) x := by
      intro x
      cases m.pt e.page (ptx v) <;> rfl
    refine h.move (fun x => ?_) id
    have hset := tree_set_pte h.tree_le_one (pdx_lt v) (ptx_lt v) he
      ((m.pt e.page (ptx v)).map fun e => { e with u := false }) x
    rw [hcell] at hset
    show m.freelist.count x + (tree (setPte m.pt e.page (ptx v) _) d x +
      L (setPte m.pt e.page (ptx v) _) x) = _
    rw [hL.setPte (h.table_apart he)]
    simp only [total, Pi.add_apply, space]
    omega

theorem makeStack_spec {sz : Nat} (hL : Stable L)
    (h : Book P K (space d + L) (fun m => Dir m.pt d has ∧ Due False (stackPlan has sz) K m) m) :
    Triple (· = m) (makeStack img d sz)
      (fun r m' => Book P K (space d + L) (fun _ => K ≠ some .pgtab) m' ∧
        ∀ sz', r = some sz' → sz' < KERNBASE)
      fun _ => True := by
  unfold makeStack
  dsimp only
  rw [stackPlan, ← List.append_nil (allocPlan ..)] at h
  have hab : pgroundup sz * PGSIZE ≤ pgroundup sz * PGSIZE + 2 * PGSIZE := Nat.le_add_right ..
  generalize pgroundup sz * PGSIZE + 2 * PGSIZE = b at *
  generalize pgroundup sz * PGSIZE = a at *
  refine (allocuvm_spec hL h).next ?_
  rintro r m₁ hr
  have hb : Book P K (space d + L) (fun _ => K ≠ some .pgtab) m₁ := by
    rcases hr with ⟨-, hb⟩ | ⟨-, hb⟩
    · exact hb.imp fun hg => hg.2.sound
    · exact hb.imp fun hK => sound_of_eq hK (by decide)
  by_cases h0 : r = 0
  · rw [if_pos h0]
    exact triple_exact rfl ⟨hb, fun _ heq => nomatch heq⟩
  · rw [if_neg h0]
    refine (clearpteu_spec hL hb).next ?_
    intro _ m₂ hb₂
    refine triple_exact rfl ⟨hb₂, fun sz' heq => ?_⟩
    cases heq
    rcases hr with ⟨rfl, -⟩ | ⟨rfl, -⟩
    · unfold allocSize at h0 ⊢
      split
      · exact kernbase_pos
      · rename_i hk
        rw [if_neg (Nat.not_lt.mpr hab)]
        exact Nat.lt_of_not_le hk
    · exact absurd rfl h0

theorem exec_bad {α : Type} {l : Page → Nat} {Q : Option α → Memory → Prop} (hL : Stable L)
    (h : Book P K (space d + Mem.pin L l) (fun _ => g) m)
    (hQ : ∀ m', L m'.pt = l → Book P K L (fun _ => g) m' → Q none m') :
    Triple (· = m) (do freevm img d; return none) Q fun _ => True := by
  refine (freevm_spec img (hL.pin l) h).next ?_
  intro _ m₁ hb
  obtain ⟨hl, hb⟩ := hb.unpin_all
  exact triple_exact rfl (hQ m₁ hl hb)

/-- The end of `exec`, with the program `q` for `makeStack`. -/
theorem exec_finish {l : Page → Nat} {old : Page} {q : M (Option Nat)} {fits : Bool} (hL : Stable L)
    (hq : Triple (· = m) q (fun r m' =>
      Book P K (space d + Mem.pin (space old + L) l) (fun _ => g) m' ∧
        ∀ sz, r = some sz → sz < KERNBASE) fun _ => True) :
    Triple (· = m)
      (do
        match ← q with
        | none => freevm img d; return none
        | some sz =>
          if fits then
            freevm img old
            return some (d, sz)
          else freevm img d; return none)
      (fun r m' => r.elim ((space old + L) m'.pt = l ∧ Book P K (space old + L) (fun _ => g) m')
        fun ds => ds.1 ≠ old ∧ ds.2 < KERNBASE ∧ Book P K (space ds.1 + L) (fun _ => g) m')
      fun _ => True := by
  refine hq.next ?_
  rintro (_ | sz) m₁ ⟨hb, hsz⟩
  · exact exec_bad ((stable_space old).add hL) hb fun _ hl hb => ⟨hl, hb⟩
  · cases fits with
    | false => exact exec_bad ((stable_space old).add hL) hb fun _ hl hb => ⟨hl, hb⟩
    | true =>
      rw [add_comm] at hb
      obtain ⟨-, hb⟩ := hb.unpin
      have hne : d ≠ old := by
        rintro rfl
        have h1 := hb.le_one d
        have h2 := tree_dir_pos m₁.pt d
        simp only [total, Pi.add_apply, space] at h1
        omega
      rw [add_assoc, add_comm L] at hb
      refine (freevm_spec img ((stable_space d).add hL) hb).next ?_
      exact fun _ m₂ hb₂ => triple_exact rfl ⟨hne, hsz sz rfl, hb₂⟩

/-- `exec` fails with the pages and the holdings as they were. -/
theorem exec_spec {f : ExecFile} {old : Page} (hL : Stable L)
    (h : Book P K (space old + L) (Due False (execPlan img f) K) m) :
    Triple (· = m) (exec img f old)
      (fun r m' => r.elim ((space old + L) m'.pt = (space old + L) m.pt ∧
          Book P K (space old + L) (fun _ => K ≠ some .pgtab) m') fun ds =>
        ds.1 ≠ old ∧ ds.2 < KERNBASE ∧
          Book P K (space ds.1 + L) (fun _ => K ≠ some .pgtab) m')
      fun _ => True := by
  have hpin := ((stable_space old).add hL).pin ((space old + L) m.pt)
  unfold exec
  by_cases helf : f.elf = true
  · rw [if_neg (by simpa using helf)]
    rw [execPlan, if_pos helf] at h
    have hsetup := setupkvm_spec img h.pin hpin
    refine hsetup.safe.next ?_
    rintro (_ | d) m₁ hr
    · obtain ⟨hl, hb⟩ := Book.unpin_all hr
      exact triple_exact rfl ⟨hl, hb.imp fun hK => sound_of_eq hK (by decide)⟩
    · -- every error exit from here on frees the new address space
      refine (loadSegments_spec hpin f.headers (kernelHas img) 0 m₁ kernbase_pos hr.2).next ?_
      rintro (_ | sz) m₂ hr₂
      · exact exec_bad ((stable_space old).add hL) hr₂ fun _ hl hb => ⟨hl, hb⟩
      · obtain ⟨has, hb₂⟩ := Book.choose hr₂.2
        exact exec_finish (q := makeStack img d sz) hL (makeStack_spec hpin hb₂)
  · rw [if_pos (by simpa using helf)]
    rw [execPlan, if_neg helf] at h
    exact triple_exact rfl ⟨rfl, h.imp Due.sound⟩

/-! ## growproc and reap -/

theorem growproc_spec {p : Proc} {n : Int} (hL : Stable L) (hsz : p.sz < KERNBASE)
    (h : Book P K (space p.pgdir + L) (Due False
      (growPlan (fun i => (m.pt p.pgdir i).isSome) p.sz n) K) m) :
    Triple (· = m) (growproc img p n)
      (fun r m' => Book P K (space p.pgdir + L) (fun _ => K ≠ some .pgtab) m' ∧
        ∀ sz, r = some sz → sz < KERNBASE)
      fun _ => True := by
  have hend : ∀ (r : Nat) (m' : Memory), r < KERNBASE →
      Book P K (space p.pgdir + L) (fun _ => K ≠ some .pgtab) m' →
      Triple (· = m') (pure (if r = 0 then none else some r) : M (Option Nat))
        (fun r m' => Book P K (space p.pgdir + L) (fun _ => K ≠ some .pgtab) m' ∧
          ∀ sz, r = some sz → sz < KERNBASE) fun _ => True := by
    intro r m' hr hb
    refine triple_exact rfl ⟨hb, fun sz heq => ?_⟩
    split at heq
    · cases heq
    · cases heq
      exact hr
  unfold growproc
  by_cases hpos : 0 < n
  · rw [if_pos hpos]
    rw [growPlan, if_pos hpos, ← List.append_nil (allocPlan ..)] at h
    refine (allocuvm_spec hL (h.imp fun hd => ⟨fun _ _ => rfl, hd⟩)).next ?_
    rintro r m₁ (⟨rfl, hb⟩ | ⟨rfl, hb⟩)
    · exact hend _ m₁ (allocSize_lt _ hsz) (hb.imp fun hg => hg.2.sound)
    · exact hend _ m₁ kernbase_pos (hb.imp fun hK => sound_of_eq hK (by decide))
  · rw [if_neg hpos]
    rw [growPlan, if_neg hpos] at h
    by_cases hneg : n < 0
    · rw [if_pos hneg]
      refine (deallocuvm_spec img hL hsz.le (h.imp Due.sound)).next ?_
      rintro r m₁ ⟨hb, rfl, -⟩
      exact hend _ m₁ ((Nat.min_le_left ..).trans_lt hsz) hb
    · rw [if_neg hneg]
      exact triple_exact rfl ⟨h.imp Due.sound, fun sz heq => by cases heq; exact hsz⟩

theorem reap_spec {p : Proc} (hL : Stable L)
    (h : Book P K (page p.kstack + space p.pgdir + L) (fun _ => g) m) :
    Triple (· = m) (reap img p) (fun _ m' => Book P K L (fun _ => g) m')
      fun _ => True := by
  unfold reap
  rw [add_assoc, add_comm] at h
  refine triple_call (kfree_spec img h ((stable_space _).add hL)) rfl (fun _ _ => trivial) ?_
  exact fun _ m₁ hb => freevm_spec img hL hb

end Calls

end StrideXv6.Mem
