import StrideXv6.Mem.Copy

set_option autoImplicit false

/-! # What copyout writes

`uva2ka` and `copyout` of `vm.c`. Where the page directory has no table for an address, `walkpgdir`
returns a null pointer and `uva2ka` takes the word that it finds there for the entry: address 0
belongs to the process that is running (`nullPte`). As long as every page that is looked up has a
table, `copyout` copies exactly what it is given, to pages that the user may access, or fails; and
only then is what it does independent of the word at address 0 (`copyout_exact_iff`).
-/

namespace StrideXv6.Mem

open Hoare Function

variable {img : Image} {m m' m₁ : Memory} {d : Page} {va v : Nat} {src : List UInt8}

/-! ## vm.c -/

/-- The pages that can be written at their address in the kernel: the text of the kernel, between
the first megabyte and its data, is mapped read-only. -/
def Writable (img : Image) (p : Page) : Prop := p < 0x100 ∨ img.data ≤ p ∧ p < physPages

instance (img : Image) (p : Page) : Decidable (Writable img p) :=
  inferInstanceAs (Decidable (_ ∨ _ ∧ _))

/-- The bytes `l` are stored in the page `p`, from `o` on. -/
def Memory.write (m : Memory) (p : Page) (o : Nat) (l : List UInt8) : Memory :=
  let c : Bytes := fun k => if o ≤ k ∧ k < o + l.length then l.getD (k - o) 0 else m.bytes p k
  { m with
    pt := Function.update m.pt p fun j => pteOf (word c j)
    bytes := Function.update m.bytes p c }

/-- `p2v`, in pages. -/
def p2v (p : Page) : Nat := (p + 0x80000) % 2 ^ 20

/-- `memmove(p2v(pa) + o, l, n)` within a page. From `0xFE000000` on, the addresses of the kernel are
those of devices, and then they start again from 0; what happens there is not modelled. -/
def memmove (img : Image) (p : Page) (o : Nat) (l : List UInt8) : M Unit := fun m =>
  if Writable img p then .ok ((), m.write p o l)
  else if p < 0x7E000 then .error .trap
  else .error .wild

/-- The word at address 0, read as an entry, while the page directory `cur` is loaded. -/
def nullPte (cur : Page) : M (Option Pte) := fun m =>
  match entryAt m.pt cur 0 with
  | some e => .ok (pteOf (word (m.bytes e.page) 0), m)
  | none => .error .trap

/-- `*walkpgdir(pgdir, uva, 0)`; `null` is what reading through a null pointer gives. -/
def walkedPte (null : M (Option Pte)) (d : Page) (v : Nat) : M (Option Pte) := do
  match ← walkpgdir d v false with
  | some (t, j) => return (← get).pt t j
  | none => null

/-- The page that the user has at the virtual page `v`; the last condition is that `p2v` is not
0. -/
def uva2ka (null : M (Option Pte)) (d : Page) (v : Nat) : M (Option Page) := do
  match ← walkedPte null d v with
  | some e => return if e.u ∧ p2v e.page ≠ 0 then some e.page else none
  | none => return none

/-- The loop of `copyout`; every turn takes a byte at least. -/
def copyoutLoop (img : Image) (null : M (Option Pte)) (d : Page) :
    Nat → Nat → List UInt8 → M Bool
  | 0, _, _ => return true
  | fuel + 1, va, buf =>
    if buf = [] then return true
    else do
      match ← uva2ka null d (va / PGSIZE) with
      | none => return false
      | some p =>
        let n := min (PGSIZE - va % PGSIZE) buf.length
        memmove img p (va % PGSIZE) (buf.take n)
        copyoutLoop img null d fuel ((va / PGSIZE + 1) * PGSIZE % 2 ^ 32) (buf.drop n)

/-- `copyout`, with `false` for -1. -/
def copyout (img : Image) (null : M (Option Pte)) (d : Page) (va : Nat) (p : List UInt8) : M Bool :=
  copyoutLoop img null d p.length va p

/-! ## One page -/

/-- The user may access the virtual page `v`. -/
def Accessible (m : Memory) (d : Page) (v : Nat) : Prop :=
  ∃ e, entryAt m.pt d v = some e ∧ e.u = true

/-- A page directory with pages of its own for the user below `KERNBASE`, and none above. -/
structure UserDir (img : Image) (m : Memory) (d : Page) : Prop extends Space img m.pt d where
  kernel : ∀ v, 0x80000 ≤ v → v < 2 ^ 20 → ¬ Accessible m d v

theorem UserDir.user (h : UserDir img m d) (hv : v < 2 ^ 20) (ha : Accessible m d v) :
    v < 0x80000 := by
  by_contra hge
  exact h.kernel v (Nat.le_of_not_lt hge) hv ha

theorem Freeable.writable {p : Page} (h : Freeable img p) : Writable img p :=
  .inr ⟨img.ordered.trans h.1, h.2⟩

theorem p2v_eq {n : Nat} (h : n < physPages) : p2v n = n + 0x80000 := by
  unfold physPages at h
  exact Nat.mod_eq_of_lt (by omega)

theorem Freeable.p2v_ne_zero {p : Page} (h : Freeable img p) : p2v p ≠ 0 := by
  rw [p2v_eq h.2]
  exact Nat.succ_ne_zero _

variable (null : M (Option Pte))

theorem uva2ka_table {e : Pte} (he : m.pt d (pdx v) = some e) :
    uva2ka null d v m = .ok ((entryAt m.pt d v).bind fun c =>
      if c.u ∧ p2v c.page ≠ 0 then some c.page else none, m) := by
  have hwalk : walkedPte null d v m = .ok (entryAt m.pt d v, m) := by
    rw [entryAt_of_some he, walkedPte, run_bind (walkpgdir_false d v m), he]
    rfl
  rw [uva2ka, run_bind hwalk]
  cases entryAt m.pt d v <;> rfl

theorem uva2ka_null {null : M (Option Pte)} {e : Panic} (he : m.pt d (pdx v) = none)
    (hnull : null m = .error e) : uva2ka null d v m = .error e := by
  refine run_bind_error ?_
  rw [walkedPte, run_bind (walkpgdir_false d v m), he]
  exact hnull

theorem uva2ka_accessible {c : Pte} (h : UserDir img m d)
    (hv : v < 2 ^ 20) (hc : entryAt m.pt d v = some c) (hu : c.u = true) :
    uva2ka null d v m = .ok (some c.page, m) ∧ Freeable img c.page := by
  have hgiven := h.given v (h.user hv ⟨c, hc, hu⟩) c hc
  refine ⟨?_, hgiven⟩
  cases he : m.pt d (pdx v) with
  | none =>
    rw [entryAt_of_none he] at hc
    nomatch hc
  | some e =>
    rw [uva2ka_table null he, hc, Option.bind_some, if_pos ⟨hu, hgiven.p2v_ne_zero⟩]

theorem uva2ka_inaccessible {e : Pte} (he : m.pt d (pdx v) = some e)
    (ha : ¬ Accessible m d v) : uva2ka null d v m = .ok (none, m) := by
  rw [uva2ka_table null he]
  cases hc : entryAt m.pt d v with
  | none => rfl
  | some c =>
    rw [Option.bind_some, if_neg]
    exact fun hx => ha ⟨c, hc, hx.1⟩

theorem Memory.write_other (m : Memory) {p q : Page} (o : Nat) (l : List UInt8) (h : q ≠ p) :
    (m.write p o l).pt q = m.pt q ∧ (m.write p o l).bytes q = m.bytes q :=
  ⟨update_of_ne h .., update_of_ne h ..⟩

theorem Memory.write_self (m : Memory) (p : Page) (o : Nat) (l : List UInt8) (k : Nat) :
    (m.write p o l).bytes p k
      = if o ≤ k ∧ k < o + l.length then l.getD (k - o) 0 else m.bytes p k := by
  have hp : (m.write p o l).bytes p = fun k =>
      if o ≤ k ∧ k < o + l.length then l.getD (k - o) 0 else m.bytes p k := update_self ..
  rw [hp]

section Write

variable {c : Pte} (h : UserDir img m d) (hv : v < 0x80000) (hc : entryAt m.pt d v = some c)
  (o : Nat) (l : List UInt8)

include h hv hc

theorem write_dir : (m.write c.page o l).pt d = m.pt d := by
  refine (m.write_other o l ?_).1
  intro hd
  have h1 := tree_of_entry hv hc
  have h2 := h.once c.page
  rw [← hd] at h1 h2
  rw [one_self] at h1
  omega

/-- Writing to a page of the user leaves the page tables alone. -/
theorem write_entry (u : Nat) : entryAt (m.write c.page o l).pt d u = entryAt m.pt d u := by
  unfold entryAt
  rw [write_dir h hv hc]
  cases he : m.pt d (pdx u) with
  | none => rfl
  | some e =>
    exact congrFun (m.write_other o l (entry_ne_table h.once hv hc (pdx_lt u) he)).1 _

theorem write_userDir : UserDir img (m.write c.page o l) d := by
  have hdir := write_dir h hv hc o l
  have hent := write_entry h hv hc o l
  refine ⟨⟨fun x => ?_, fun u hu e he => ?_⟩, fun u hu hu' ha => ?_⟩
  · rw [tree_congr hdir fun i hi e he =>
      (m.write_other o l (entry_ne_table h.once hv hc hi he)).1]
    exact h.once x
  · rw [hent] at he
    exact h.given u hu e he
  · unfold Accessible at ha
    rw [hent] at ha
    exact h.kernel u hu hu' ha

end Write

/-! ## The copy -/

/-- What `copyout` is to do with `src`: it fails unless the user may access all pages of the range;
the bytes of the range are replaced; nothing else is written than pages the user may access. -/
structure CopiedOut (m : Memory) (d : Page) (va : Nat) (src : List UInt8) (r : Bool)
    (m' : Memory) : Prop where
  result : r = true ↔ va + src.length ≤ 2 ^ 32 ∧
    ∀ a, va ≤ a → a < va + src.length → Accessible m d (a / PGSIZE)
  exact : r = true → ∀ a < 2 ^ 32, userLoad m' d a
    = if va ≤ a ∧ a < va + src.length then src[a - va]? else userLoad m d a
  confined : ∀ p, (∀ v < 2 ^ 20, ∀ e, entryAt m.pt d v = some e → e.u = true → e.page ≠ p) →
    m'.pt p = m.pt p ∧ m'.bytes p = m.bytes p
  freelist : m'.freelist = m.freelist
  fails : m'.fails = m.fails

/-- Every page of the range that is looked up has a table: a lookup is made if the pages before
have been accessible. -/
def Tabled (m : Memory) (d : Page) (va n : Nat) : Prop :=
  ∀ a, va ≤ a → a < va + n →
    (∀ b, va ≤ b → b < a / PGSIZE * PGSIZE → Accessible m d (b / PGSIZE)) →
      m.pt d (pdx (a / PGSIZE)) ≠ none

theorem copyoutLoop_nil (fuel : Nat) :
    copyoutLoop img null d fuel va [] m = .ok (true, m) := by
  cases fuel with
  | zero => rfl
  | succ fuel =>
    rw [copyoutLoop, if_pos rfl]
    rfl

/-- A turn of the loop. -/
theorem copyoutLoop_next {c : Pte} (fuel : Nat) (h : UserDir img m d)
    (hva : va < 2 ^ 32) (hc : entryAt m.pt d (va / PGSIZE) = some c) (hu : c.u = true)
    (hne : src ≠ []) :
    va / PGSIZE < 0x80000 ∧
    copyoutLoop img null d (fuel + 1) va src m
      = copyoutLoop img null d fuel ((va / PGSIZE + 1) * PGSIZE)
          (src.drop (min (PGSIZE - va % PGSIZE) src.length))
          (m.write c.page (va % PGSIZE) (src.take (min (PGSIZE - va % PGSIZE) src.length))) := by
  have hv : va / PGSIZE < 2 ^ 20 := by
    unfold PGSIZE
    omega
  have huser := h.user hv ⟨c, hc, hu⟩
  obtain ⟨hrun, hfree⟩ := uva2ka_accessible null h hv hc hu
  have hmove : ∀ l, memmove img c.page (va % PGSIZE) l m
      = .ok ((), m.write c.page (va % PGSIZE) l) := fun l => if_pos hfree.writable
  have hnext : (va / PGSIZE + 1) * PGSIZE % 2 ^ 32 = (va / PGSIZE + 1) * PGSIZE := by
    refine Nat.mod_eq_of_lt ?_
    unfold PGSIZE at *
    omega
  refine ⟨huser, ?_⟩
  rw [copyoutLoop, if_neg hne, run_bind hrun]
  dsimp only
  rw [run_bind (hmove _), hnext]

section Page

variable {c : Pte} (h : UserDir img m d) (hva : va < 2 ^ 32)
  (hc : entryAt m.pt d (va / PGSIZE) = some c) (hu : c.u = true) {l : List UInt8}
  (hl : va % PGSIZE + l.length ≤ PGSIZE)

include h hva hc hu hl

/-- What the user finds after a write to one page. -/
theorem userLoad_write {a : Nat} (ha : a < 2 ^ 32) :
    userLoad (m.write c.page (va % PGSIZE) l) d a
      = if va ≤ a ∧ a < va + l.length then l[a - va]? else userLoad m d a := by
  have hv : va / PGSIZE < 0x80000 := h.user (by unfold PGSIZE; omega) ⟨c, hc, hu⟩
  have hpage : va ≤ a ∧ a < va + l.length → a / PGSIZE = va / PGSIZE := by
    unfold PGSIZE at *
    omega
  unfold userLoad
  rw [write_entry h hv hc]
  cases he : entryAt m.pt d (a / PGSIZE) with
  | none =>
    rw [if_neg]
    intro hin
    rw [hpage hin, hc] at he
    nomatch he
  | some e =>
    dsimp only
    by_cases hsame : a / PGSIZE = va / PGSIZE
    · rw [hsame, hc] at he
      obtain rfl := Option.some.inj he
      rw [if_pos hu, Memory.write_self]
      have hin : va % PGSIZE ≤ a % PGSIZE ∧ a % PGSIZE < va % PGSIZE + l.length ↔
          va ≤ a ∧ a < va + l.length := by
        unfold PGSIZE at *
        omega
      by_cases hrange : va ≤ a ∧ a < va + l.length
      · have hk : a % PGSIZE - va % PGSIZE = a - va := by
          unfold PGSIZE at *
          omega
        rw [if_pos (hin.mpr hrange), if_pos hrange, hk, List.getD_eq_getElem?_getD,
          List.getElem?_eq_getElem (by omega)]
        rfl
      · rw [if_neg (fun hx => hrange (hin.mp hx)), if_neg hrange, if_pos hu]
    · rw [if_neg (fun hx => hsame (hpage hx))]
      by_cases heu : e.u = true
      · have hne : e.page ≠ c.page := fun heq => hsame (entry_inj h.once hv
          (h.user (by unfold PGSIZE; omega) ⟨e, he, heu⟩) hc he heq)
        rw [(m.write_other _ _ hne).2]
      · rw [if_neg heu, if_neg heu]

theorem copiedOut_page : CopiedOut m d va l true (m.write c.page (va % PGSIZE) l) := by
  refine ⟨iff_of_true rfl ⟨?_, fun a h1 h2 => ?_⟩, fun _ a ha => userLoad_write h hva hc hu hl ha,
    fun p hp => m.write_other _ _ ?_, rfl, rfl⟩
  · have hv : va / PGSIZE < 0x80000 := h.user (by unfold PGSIZE; omega) ⟨c, hc, hu⟩
    unfold PGSIZE at *
    omega
  · have hpage : a / PGSIZE = va / PGSIZE := by
      unfold PGSIZE at *
      omega
    rw [hpage]
    exact ⟨c, hc, hu⟩
  · exact (hp _ (by unfold PGSIZE; omega) c hc hu).symm

end Page

/-- The first page and the rest. -/
theorem CopiedOut.append {l : List UInt8} {r : Bool} (h₁ : CopiedOut m d va l true m₁)
    (hent : ∀ u, entryAt m₁.pt d u = entryAt m.pt d u)
    (h₂ : CopiedOut m₁ d (va + l.length) src r m') : CopiedOut m d va (l ++ src) r m' := by
  have hacc : ∀ v, Accessible m₁ d v ↔ Accessible m d v := fun v => by
    unfold Accessible
    rw [hent]
  obtain ⟨-, hfirst⟩ := h₁.result.mp rfl
  refine ⟨h₂.result.trans ?_, fun hr a ha => ?_, fun p hp => ?_, h₂.freelist.trans h₁.freelist,
    h₂.fails.trans h₁.fails⟩
  · simp only [hacc, List.length_append]
    refine and_congr (by omega) ⟨fun hall a h1 h2 => ?_, fun hall a h1 h2 => ?_⟩
    · by_cases hlt : a < va + l.length
      · exact hfirst a h1 hlt
      · exact hall a (by omega) (by omega)
    · exact hall a (by omega) (by omega)
  · rw [h₂.exact hr a ha, h₁.exact rfl a ha, List.length_append]
    by_cases hlt : a < va + l.length
    · rw [if_neg (by omega)]
      by_cases hge : va ≤ a
      · rw [if_pos (by omega), if_pos (by omega), List.getElem?_append_left (by omega)]
      · rw [if_neg (by omega), if_neg (by omega)]
    · rw [if_neg (by omega : ¬ (va ≤ a ∧ a < va + l.length))]
      by_cases hin : va + l.length ≤ a ∧ a < va + l.length + src.length
      · rw [if_pos hin, if_pos (by omega), List.getElem?_append_right (by omega)]
        congr 1
        omega
      · rw [if_neg hin, if_neg (by omega)]
  · have h1 := h₁.confined p hp
    have h2 := h₂.confined p fun v hv e he => hp v hv e (hent v ▸ he)
    exact ⟨h2.1.trans h1.1, h2.2.trans h1.2⟩

/-- The range without its first page. -/
theorem Tabled.rest {n : Nat} (h : Tabled m d va n) (ha : Accessible m d (va / PGSIZE))
    (hent : ∀ u, entryAt m₁.pt d u = entryAt m.pt d u) (hdir : m₁.pt d = m.pt d)
    (hn : PGSIZE - va % PGSIZE ≤ n) :
    Tabled m₁ d ((va / PGSIZE + 1) * PGSIZE) (n - (PGSIZE - va % PGSIZE)) := by
  intro a h1 h2 hbefore
  rw [hdir]
  refine h a ?_ ?_ fun b hb hb' => ?_
  · unfold PGSIZE at *
    omega
  · unfold PGSIZE at *
    omega
  · by_cases hpage : b / PGSIZE = va / PGSIZE
    · rw [hpage]
      exact ha
    · have hb := hbefore b (by unfold PGSIZE at *; omega) hb'
      unfold Accessible at hb ⊢
      rwa [hent] at hb

theorem copiedOut_nil (hva : va < 2 ^ 32) : CopiedOut m d va [] true m := by
  refine ⟨iff_of_true rfl ⟨hva.le, fun a h1 h2 => ?_⟩, fun _ a _ => (if_neg ?_).symm,
    fun _ _ => ⟨rfl, rfl⟩, rfl, rfl⟩
  · rw [List.length_nil] at h2
    omega
  · rw [List.length_nil]
    omega

theorem copyoutLoop_exact {fuel : Nat} (hfuel : src.length ≤ fuel)
    (h : UserDir img m d) (hva : va < 2 ^ 32) (ht : Tabled m d va src.length) :
    ∃ r m', copyoutLoop img null d fuel va src m = .ok (r, m') ∧ CopiedOut m d va src r m' := by
  induction fuel generalizing va src m with
  | zero =>
    obtain rfl := List.length_eq_zero_iff.mp (Nat.le_zero.mp hfuel)
    exact ⟨true, m, rfl, copiedOut_nil hva⟩
  | succ fuel ih =>
    by_cases hne : src = []
    · subst hne
      exact ⟨true, m, copyoutLoop_nil null _, copiedOut_nil hva⟩
    have hpos := List.length_pos_iff.mpr hne
    by_cases hacc : Accessible m d (va / PGSIZE)
    · obtain ⟨c, hc, hu⟩ := hacc
      obtain ⟨huser, hrun⟩ := copyoutLoop_next null fuel h hva hc hu hne
      rw [hrun]
      by_cases hfit : src.length ≤ PGSIZE - va % PGSIZE
      · rw [Nat.min_eq_right hfit, List.drop_length, List.take_length]
        exact ⟨true, _, copyoutLoop_nil null fuel,
          copiedOut_page h hva hc hu (by unfold PGSIZE at *; omega)⟩
      · rw [Nat.min_eq_left (by omega)]
        have hlen : (src.take (PGSIZE - va % PGSIZE)).length = PGSIZE - va % PGSIZE :=
          List.length_take_of_le (by omega)
        have hnext : va + (src.take (PGSIZE - va % PGSIZE)).length
            = (va / PGSIZE + 1) * PGSIZE := by
          rw [hlen]
          unfold PGSIZE
          omega
        have hent := write_entry h huser hc (va % PGSIZE) (src.take (PGSIZE - va % PGSIZE))
        have hrest : Tabled (m.write c.page (va % PGSIZE) (src.take (PGSIZE - va % PGSIZE))) d
            ((va / PGSIZE + 1) * PGSIZE) (src.drop (PGSIZE - va % PGSIZE)).length := by
          rw [List.length_drop]
          exact ht.rest ⟨c, hc, hu⟩ hent (write_dir h huser hc _ _) (by omega)
        have hshort : (src.drop (PGSIZE - va % PGSIZE)).length ≤ fuel := by
          rw [List.length_drop]
          unfold PGSIZE at *
          omega
        obtain ⟨r, m', hloop, hcopied⟩ := ih hshort (write_userDir h huser hc _ _)
          (by unfold PGSIZE at *; omega) hrest
        refine ⟨r, m', hloop, ?_⟩
        rw [← hnext] at hcopied
        have hpage : CopiedOut m d va (src.take (PGSIZE - va % PGSIZE)) true _ :=
          copiedOut_page h hva hc hu (by rw [hlen]; unfold PGSIZE at *; omega)
        have hall := hpage.append hent hcopied
        rwa [List.take_append_drop] at hall
    · -- the page has a table, and the entry in it is not one of the user
      have htab := ht va le_rfl (by omega) fun b h1 h2 => by
        unfold PGSIZE at *
        omega
      obtain ⟨e, he⟩ := Option.ne_none_iff_exists'.mp htab
      refine ⟨false, m, ?_, ⟨?_, fun hr => absurd hr Bool.false_ne_true,
        fun _ _ => ⟨rfl, rfl⟩, rfl, rfl⟩⟩
      · rw [copyoutLoop, if_neg hne, run_bind (uva2ka_inaccessible null he hacc)]
        rfl
      · exact iff_of_false Bool.false_ne_true fun hx => hacc (hx.2 va le_rfl (by omega))

/-- If a page that is looked up has no table, the null pointer is used. -/
theorem copyoutLoop_null {null : M (Option Pte)} {e : Panic} (hnull : ∀ m, null m = .error e)
    {fuel a : Nat} (hfuel : src.length ≤ fuel) (h : UserDir img m d) (hva : va < 2 ^ 32)
    (h1 : va ≤ a) (h2 : a < va + src.length)
    (hbefore : ∀ b, va ≤ b → b < a / PGSIZE * PGSIZE → Accessible m d (b / PGSIZE))
    (hnone : m.pt d (pdx (a / PGSIZE)) = none) :
    copyoutLoop img null d fuel va src m = .error e := by
  induction fuel generalizing va src m with
  | zero => omega
  | succ fuel ih =>
    have hne : src ≠ [] := List.length_pos_iff.mp (by omega)
    by_cases hpage : a / PGSIZE = va / PGSIZE
    · rw [hpage] at hnone
      rw [copyoutLoop, if_neg hne]
      exact run_bind_error (uva2ka_null hnone (hnull m))
    · obtain ⟨c, hc, hu⟩ := hbefore va le_rfl (by unfold PGSIZE at *; omega)
      obtain ⟨huser, hrun⟩ := copyoutLoop_next null fuel h hva hc hu hne
      have hmin : min (PGSIZE - va % PGSIZE) src.length = PGSIZE - va % PGSIZE :=
        Nat.min_eq_left (by unfold PGSIZE at *; omega)
      rw [hrun, hmin]
      refine ih ?_ (write_userDir h huser hc _ _) ?_ ?_ ?_ (fun b hb hb' => ?_) ?_
      · rw [List.length_drop]
        unfold PGSIZE at *
        omega
      · unfold PGSIZE at *
        omega
      · unfold PGSIZE at *
        omega
      · rw [List.length_drop]
        unfold PGSIZE at *
        omega
      · have hb := hbefore b (by unfold PGSIZE at *; omega) hb'
        unfold Accessible at hb ⊢
        rwa [write_entry h huser hc]
      · rwa [write_dir h huser hc]

/-- `copyout` is exact and confined, whatever the word at address 0 is, if and only if every page
that it looks up has a table. -/
theorem copyout_exact_iff (h : UserDir img m d) (hva : va < 2 ^ 32) :
    (∀ null, ∃ r m', copyout img null d va src m = .ok (r, m') ∧ CopiedOut m d va src r m') ↔
      Tabled m d va src.length := by
  refine ⟨fun hall a h1 h2 hbefore hnone => ?_, fun ht null =>
    copyoutLoop_exact null le_rfl h hva ht⟩
  obtain ⟨r, m', hrun, -⟩ := hall fun _ => .error .trap
  have hnull := copyoutLoop_null (e := .trap) (fun _ => rfl) le_rfl h hva h1 h2 hbefore hnone
  nomatch hrun.symm.trans hnull

theorem userDir_sparse : UserDir smallImage sparse 0x400 := by
  refine ⟨space_sparse, fun v hv hv' ha => ?_⟩
  obtain ⟨e, he, -⟩ := ha
  rw [show entryAt sparse.pt 0x400 v = _ from entryAt_single (by decide) v, if_neg] at he
  · nomatch he
  · unfold pdx
    omega

/-- Three bytes to the second row of a page directory, which is the only one with a table. -/
theorem copyout_exact_sparse : ∃ m', copyout smallImage (nullPte 0x400) 0x400 0x400000 [1, 2, 3] sparse
      = .ok (true, m') ∧ CopiedOut sparse 0x400 0x400000 [1, 2, 3] true m' := by
  have hpage : ∀ a, 0x400000 ≤ a → a < 0x400000 + 3 → a / PGSIZE = 1024 := by
    unfold PGSIZE
    omega
  have htab : Tabled sparse 0x400 0x400000 [(1 : UInt8), 2, 3].length := by
    intro a h1 h2 _
    rw [hpage a h1 h2]
    decide
  obtain ⟨r, m', hrun, hcopied⟩ :=
    (copyout_exact_iff userDir_sparse (by decide)).mpr htab (nullPte 0x400)
  obtain rfl : r = true := by
    refine hcopied.result.mpr ⟨by decide, fun a h1 h2 => ?_⟩
    rw [hpage a h1 h2]
    exact ⟨⟨0x402, true, true⟩, rfl, rfl⟩
  exact ⟨m', hrun, hcopied⟩

/-- The page directory `0x400` has no tables, and the running process, with the page directory
`0x500`, has stored the word `0x600007` at address 0. -/
def baited : Memory where
  freelist := []
  pt := single 0x500 0x501 0x502 0
  bytes := fun p => if p = 0x502 then putWord (fun _ => 0) 0 0x600007 else fun _ => 0
  fails := []

theorem userDir_baited : UserDir smallImage baited 0x400 ∧ ∀ v, ¬ Accessible baited 0x400 v := by
  have hdir : ∀ i, baited.pt 0x400 i = none := fun i => rfl
  have hent : ∀ v, entryAt baited.pt 0x400 v = none := fun v => by
    rw [entryAt, hdir]
    rfl
  have hacc : ∀ v, ¬ Accessible baited 0x400 v := by
    rintro v ⟨e, he, -⟩
    rw [hent] at he
    exact absurd he (Option.some_ne_none e).symm
  refine ⟨⟨⟨fun x => ?_, fun v _ c hc => ?_⟩, fun v _ _ => hacc v⟩, hacc⟩
  · rw [tree_empty hdir]
    unfold one
    split <;> omega
  · rw [hent] at hc
    exact absurd hc (Option.some_ne_none c).symm

/-- No page of the range is accessible, and `copyout` succeeds: it has written page `0x600`, which
is the one the process has chosen. -/
theorem copyout_baited : UserDir smallImage baited 0x400 ∧ (∀ v, ¬ Accessible baited 0x400 v) ∧
    ∃ m', copyout smallImage (nullPte 0x500) 0x400 0x1000 [42] baited = .ok (true, m') ∧
      m'.bytes 0x600 0 = 42 ∧ baited.bytes 0x600 0 = 0 :=
  ⟨userDir_baited.1, userDir_baited.2, baited.write 0x600 0 [42], rfl, rfl, rfl⟩

end StrideXv6.Mem
