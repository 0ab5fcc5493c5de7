import StrideXv6.Exec.Source
import StrideXv6.Mem.Layout

set_option autoImplicit false

/-! # Where exec loads a program

The program headers alone decide what becomes of loading (`Source.fate`): all that is read goes to
pages of the new image, something goes elsewhere, or `loaduvm` panics. The sum `vaddr + memsz` wraps
around, so that a segment can lie far above the image that `allocuvm` has made for it; `loaduvm` then
stores it in whatever page it finds there. As long as no page table is missing, the run of the loader
follows its fate (`loadSegments_fate`).
-/

namespace StrideXv6.Exec

open Hoare
open Mem (Memory Page Image PGSIZE pgroundup Proghdr ExecFile Kind Present Pool Layout Fresh Due Dir
  allocPlan allocHas allocSize segmentsPlan stackPlan pdx ptx entryAt)
open Fs (NINODE)

/-! ## Fate -/

inductive Fate where
  /-- What is read goes to pages of the image. -/
  | inside
  /-- Something goes elsewhere. -/
  | strays
  /-- `loaduvm` panics before. -/
  | panics
  deriving DecidableEq

/-- First `f`, then `g`. -/
def Fate.next (f g : Fate) : Fate := if f = .inside then g else f

/-- The faults of a run with this fate. -/
def Fate.Allows (f : Fate) : Fault → Prop
  | .mem p => f = .panics ∧ (p = .loadAlign ∨ p = .loadAddr)
  | .watched => f = .strays
  | _ => False

/-- How many bytes `loaduvm` gets for each of `n` pages, as long as they are all it has asked for. -/
def Source.chunks : Nat → Nat → Nat → Source → List Nat
  | 0, _, _, _ => []
  | n + 1, off, rest, s =>
    let r := s.read (off % 2 ^ 32) (min rest PGSIZE)
    r.1.bytes.length :: if r.1.ret ≠ min rest PGSIZE then []
      else chunks n (off + PGSIZE) (rest - min rest PGSIZE) r.2

/-- The virtual pages from `v` on are filled with chunks of these sizes; the image ends at `top`, and
`has` are the page tables there are. -/
def pagesFate (has : Present) (top : Nat) : Nat → List Nat → Fate
  | _, [] => .inside
  | v, b :: bs =>
    if has (pdx (v % 2 ^ 20)) = false then .panics
    else if 0 < b ∧ top ≤ v % 2 ^ 20 then .strays
    else pagesFate has top (v + 1) bs

def loaduvmFate (has : Present) (sz : Nat) (ph : Ph) (s : Source) : Fate :=
  if ph.vaddr % PGSIZE ≠ 0 then .panics
  else pagesFate has (pgroundup sz) (ph.vaddr / PGSIZE)
    (s.chunks (pgroundup ph.filesz) ph.off ph.filesz)

def segmentFate (has : Present) (sz : Nat) (ph : Ph) (s : Source) : Fate :=
  let newsz := (ph.vaddr + ph.memsz) % 2 ^ 32
  if ph.type ≠ ELF_PROG_LOAD ∨ ph.memsz < ph.filesz ∨ allocSize sz newsz = 0 then .inside
  else loaduvmFate (allocHas has sz newsz) (allocSize sz newsz) ph s

/-- The size of the image after a header. -/
def nextSize (sz : Nat) : Proghdr → Nat
  | .load vaddr memsz _ _ => allocSize sz ((vaddr + memsz) % 2 ^ 32)
  | _ => sz

/-- The page tables after a header. -/
def nextHas (has : Present) (sz : Nat) : Proghdr → Present
  | .load vaddr memsz _ _ => allocHas has sz ((vaddr + memsz) % 2 ^ 32)
  | _ => has

/-- The headers at which `exec` gives up. -/
def halts (sz : Nat) : Proghdr → Bool
  | .load vaddr memsz filesz read =>
    decide (allocSize sz ((vaddr + memsz) % 2 ^ 32) = 0 ∨ read < pgroundup filesz)
  | hd => stops hd

/-- The size of the image after all headers, if `exec` does not give up at one of them. -/
def finalSize : List Proghdr → Nat → Option Nat
  | [], sz => some sz
  | hd :: hs, sz => if halts sz hd then none else finalSize hs (nextSize sz hd)

/-- What becomes of `n` headers from `off` on. -/
def Source.fate : Nat → Nat → Present → Nat → Source → Fate
  | 0, _, _, _, _ => .inside
  | n + 1, off, has, sz, s =>
    let r := s.read (off % 2 ^ 32) PHSIZE
    if r.1.ret ≠ PHSIZE then .inside
    else
      let hd := (s.headerAt off).1
      (segmentFate has sz (Ph.decode (overlay (fun _ => 0) r.1.bytes)) r.2).next
        (if halts sz hd then .inside
          else fate n (off + PHSIZE) (nextHas has sz hd) (nextSize sz hd) (s.headerAt off).2)

/-- Bytes may be stored in pages that `allocuvm` has taken from the free list of `m₀` for the image
that is being built. -/
def Watch.inImage (m₀ : Memory) : Watch where
  header _ _ := true
  store sz d v p m := decide (v < pgroundup sz ∧ p ∈ m₀.freelist ∧
    entryAt m.pt d v = some ⟨p, true, true⟩)

/-! ## Tame files -/

variable {hd : Proghdr}

theorem stops_of_halts {sz : Nat} (h : halts sz hd = false) : stops hd = false := by
  cases hd with
  | load vaddr memsz filesz read => exact decide_eq_false fun hx => of_decide_eq_false h (.inr hx)
  | _ => exact h

/-- A header as the linker makes it. -/
def Tame : Proghdr → Prop
  | .load vaddr memsz _ _ => PGSIZE ∣ vaddr ∧ vaddr + memsz < 2 ^ 32
  | _ => True

theorem Fate.next_inside (f : Fate) : Fate.inside.next f = f := if_pos rfl

theorem Source.chunks_length (n off rest : Nat) (s : Source) : (s.chunks n off rest).length ≤ n := by
  induction n generalizing off rest s with
  | zero => exact le_refl 0
  | succ n ih =>
    rw [Source.chunks]
    split
    · exact Nat.succ_le_succ (Nat.zero_le n)
    · exact Nat.succ_le_succ (ih _ _ _)

theorem pagesFate_inside {has : Present} {top v : Nat} {bs : List Nat}
    (hhas : ∀ u < top, has (pdx u) = true) (htop : top ≤ 2 ^ 20) (hv : v + bs.length ≤ top) :
    pagesFate has top v bs = .inside := by
  induction bs generalizing v with
  | nil => rfl
  | cons b bs ih =>
    rw [List.length_cons] at hv
    have hmod : v % 2 ^ 20 = v := Nat.mod_eq_of_lt (by omega)
    rw [pagesFate, hmod, hhas v (by omega), if_neg (by decide), if_neg (by omega)]
    exact ih (by omega)

/-- Every page of an image of `sz` bytes has a table. -/
structure Covers (has : Present) (sz : Nat) : Prop where
  lt : sz < Mem.KERNBASE
  table : ∀ v < pgroundup sz, has (pdx v) = true

theorem le_allocSize {sz newsz : Nat} (h : allocSize sz newsz ≠ 0) : newsz ≤ allocSize sz newsz := by
  unfold allocSize at h ⊢
  split
  · rename_i hk
    rw [if_pos hk] at h
    exact absurd rfl h
  · split <;> omega

theorem Covers.alloc {has : Present} {sz newsz : Nat} (h : Covers has sz)
    (h0 : allocSize sz newsz ≠ 0) : Covers (allocHas has sz newsz) (allocSize sz newsz) := by
  refine ⟨Mem.allocSize_lt newsz h.lt, fun v hv => ?_⟩
  unfold allocSize at h0 hv
  unfold allocHas
  by_cases hk : Mem.KERNBASE ≤ newsz
  · rw [if_pos hk] at h0
    exact absurd rfl h0
  · rw [if_neg hk] at hv
    by_cases hlt : newsz < sz
    · rw [if_pos hlt] at hv
      rw [if_pos (.inr hlt)]
      exact h.table v hv
    · rw [if_neg hlt] at hv
      rw [if_neg (not_or.mpr ⟨hk, hlt⟩)]
      by_cases hold : v < pgroundup sz
      · exact Mem.markAll_mono _ (h.table v hold)
      · refine Mem.markAll_mem (List.mem_range'_1.mpr ⟨Nat.le_of_not_lt hold, ?_⟩)
        omega

variable {ph : Ph}

theorem segmentFate_inside {has : Present} {sz : Nat} (s : Source) (h : Covers has sz)
    (halign : PGSIZE ∣ ph.vaddr) (hwrap : ph.vaddr + ph.memsz < 2 ^ 32) :
    segmentFate has sz ph s = .inside := by
  unfold segmentFate
  dsimp only
  rw [Nat.mod_eq_of_lt hwrap]
  split
  · rfl
  · rename_i hne
    rw [not_or, not_or, Nat.not_lt] at hne
    obtain ⟨-, hfile, h0⟩ := hne
    have hcov := h.alloc h0
    have hlen := s.chunks_length (pgroundup ph.filesz) ph.off ph.filesz
    have htop := Mem.pgroundup_le_kernel hcov.lt
    have hsize := le_allocSize h0
    rw [loaduvmFate, if_neg (not_not.mpr (Nat.mod_eq_zero_of_dvd halign))]
    refine pagesFate_inside hcov.table (by omega) ?_
    unfold pgroundup PGSIZE at *
    omega

theorem Tame.next {has : Present} {sz : Nat} {s : Source}
    (hhd : hd = (s.segment ph).1) (ht : Tame hd) (h : Covers has sz) :
    segmentFate has sz ph s = .inside ∧
      (halts sz hd = false → Covers (nextHas has sz hd) (nextSize sz hd)) := by
  unfold Source.segment at hhd
  split at hhd
  · rename_i htype
    subst hhd
    exact ⟨if_pos (.inl htype), fun _ => h⟩
  split at hhd
  · rename_i hshort
    subst hhd
    exact ⟨if_pos (.inr (.inl hshort)), fun _ => h⟩
  · subst hhd
    obtain ⟨halign, hwrap⟩ := ht
    refine ⟨segmentFate_inside s h halign hwrap, fun hgo => h.alloc fun h0 => ?_⟩
    exact of_decide_eq_false hgo (.inl h0)

/-- A segment whose first page is above the image, where there is a table. -/
theorem segmentFate_strays {has : Present} {sz b : Nat} {bs : List Nat} {s : Source}
    (htype : ph.type = ELF_PROG_LOAD) (hfile : ph.filesz ≤ ph.memsz)
    (hsize : allocSize sz ((ph.vaddr + ph.memsz) % 2 ^ 32) ≠ 0) (halign : PGSIZE ∣ ph.vaddr)
    (hchunks : s.chunks (pgroundup ph.filesz) ph.off ph.filesz = b :: bs) (hb : 0 < b)
    (htop : pgroundup (allocSize sz ((ph.vaddr + ph.memsz) % 2 ^ 32)) ≤ ph.vaddr / PGSIZE % 2 ^ 20)
    (hhas : has (pdx (ph.vaddr / PGSIZE % 2 ^ 20)) = true) : segmentFate has sz ph s = .strays := by
  have htable : allocHas has sz ((ph.vaddr + ph.memsz) % 2 ^ 32)
      (pdx (ph.vaddr / PGSIZE % 2 ^ 20)) = true := by
    unfold allocHas
    split
    · exact hhas
    · exact Mem.markAll_mono _ hhas
  rw [segmentFate, if_neg (by simp only [htype, hsize, or_false]; omega), loaduvmFate,
    if_neg (not_not.mpr (Nat.mod_eq_zero_of_dvd halign)), hchunks, pagesFate, htable,
    if_neg (by decide), if_pos ⟨hb, htop⟩]

theorem Source.fate_strays {n off sz : Nat} {has : Present} {s : Source}
    (hret : (s.read (off % 2 ^ 32) PHSIZE).1.ret = PHSIZE)
    (hph : Ph.decode (overlay (fun _ => 0) (s.read (off % 2 ^ 32) PHSIZE).1.bytes) = ph)
    (h : segmentFate has sz ph (s.read (off % 2 ^ 32) PHSIZE).2 = .strays) :
    s.fate (n + 1) off has sz = .strays := by
  rw [Source.fate, if_neg (not_not.mpr hret), hph, h]
  rfl

/-- A tame file is loaded into its image. -/
theorem Source.fate_inside {n off : Nat} {has : Present} {sz : Nat} {s : Source}
    (hcov : Covers has sz) (h : ∀ hd ∈ s.headers n off, Tame hd) :
    s.fate n off has sz = .inside := by
  induction n generalizing s off has sz with
  | zero => rfl
  | succ n ih =>
    rw [Source.fate]
    by_cases hret : (s.read (off % 2 ^ 32) PHSIZE).1.ret ≠ PHSIZE
    · rw [if_pos hret]
    rw [if_neg hret]
    rw [headers_succ n hret] at h
    have hhd : (s.headerAt off).1 = ((s.read (off % 2 ^ 32) PHSIZE).2.segment _).1 := rfl
    obtain ⟨hinside, hnext⟩ := (h _ List.mem_cons_self).next hhd hcov
    rw [hinside, Fate.next_inside]
    cases hgo : halts sz (s.headerAt off).1 with
    | true => rfl
    | false =>
      refine ih (hnext hgo) fun hd hmem => h hd (List.mem_cons_of_mem _ ?_)
      rwa [stops_of_halts hgo]

/-! ## loaduvm -/

/-- The image while it is being built, with the calls of `kalloc` to come. -/
structure Building (img : Image) (m₀ : Memory) (d : Page) (K : Option Kind) (ks : List Kind)
    (has : Present) (sz : Nat) (m : Memory) : Prop
    extends Layout img m₀ d (fun _ => true) sz m where
  dir : Dir m.pt d has
  due : Due False ks K m

variable {img : Image} {m₀ : Memory} {d : Page} {K : Option Kind} {ks : List Kind} {has : Present}
  {sz : Nat} {w w' : World} {c : Fin NINODE} {s : Source}
variable {v : Nat} {e : Mem.Pte} {m : Memory}

theorem Building.write
    (h : Building img m₀ d K ks has sz m) (hp : Pool img m₀) (hv : v < pgroundup sz)
    (he : entryAt m.pt d v = some e) (l : List UInt8) :
    Building img m₀ d K ks has sz (m.write e.page 0 l) := by
  refine ⟨h.toLayout.write hp hv he 0 l, fun i hi => ?_, h.due.first, h.due.calm⟩
  rw [Mem.write_dir (h.toLayout.userDir hp) (Nat.lt_of_lt_of_le hv h.bound) he]
  exact h.dir i hi

theorem Building.table (h : Building img m₀ d K ks has sz m) :
    has (pdx v) = (m.pt d (pdx v)).isSome := (h.dir _ (Mem.pdx_lt v)).symm

/-- The address in the entry of a page of the image. -/
theorem Building.pteAddr (h : Building img m₀ d K ks has sz m) (hv : v < pgroundup sz)
    (he : m.pt d (pdx v) = some e) : Exec.pteAddr m e.page (ptx v) ∈ m₀.freelist ∧
      entryAt m.pt d v = some ⟨Exec.pteAddr m e.page (ptx v), true, true⟩ := by
  obtain ⟨p, hp, hent⟩ := h.user v hv
  have hpte : m.pt e.page (ptx v) = some ⟨p, true, true⟩ :=
    (Mem.entryAt_of_some he).symm.trans hent
  have haddr : Exec.pteAddr m e.page (ptx v) = p := by
    rw [Exec.pteAddr, hpte]
  rw [haddr]
  exact ⟨hp, hent⟩

theorem store_inside (h : Building img m₀ d K ks has sz w.mem)
    (hp : Pool img m₀) (hv : v < pgroundup sz) (he : w.mem.pt d (pdx v) = some e)
    (l : List UInt8) : ∃ m, store (.inImage m₀) img d sz v (pteAddr w.mem e.page (ptx v)) l w
      = .ok ((), { w with mem := m }) ∧ Building img m₀ d K ks has sz m := by
  obtain ⟨hmem, hent⟩ := h.pteAddr hv he
  by_cases hl : l = []
  · subst hl
    exact ⟨w.mem, rfl, h⟩
  · refine ⟨w.mem.write (pteAddr w.mem e.page (ptx v)) 0 l, ?_, h.write hp hv hent l⟩
    have hwatch : (Watch.inImage m₀).store sz d v (pteAddr w.mem e.page (ptx v)) w.mem = true :=
      decide_eq_true ⟨hv, hmem, hent⟩
    rw [store, if_neg hl, run_get, hwatch,
      run_bind (a := ()) (t := w) rfl]
    exact onMem_ok (if_pos (hp.free _ hmem).writable)

theorem store_outside {p : Page} {l : List UInt8} (hv : pgroundup sz ≤ v) (hl : l ≠ []) :
    store (.inImage m₀) img d sz v p l w = .error .watched := by
  have hwatch : (Watch.inImage m₀).store sz d v p w.mem = false :=
    decide_eq_false fun hx => absurd hx.1 (Nat.not_lt.mpr hv)
  rw [store, if_neg hl, run_get, hwatch]
  rfl

theorem loadLoop_fate (hp : Pool img m₀) {n v off rest : Nat}
    (h : Building img m₀ d K ks has sz w.mem) (ho : Opened c s w) :
    Triple (· = w) (loadLoop (.inImage m₀) img d sz c n v off rest)
      (fun _ w' => pagesFate has (pgroundup sz) v (s.chunks n off rest) = .inside ∧
        Building img m₀ d K ks has sz w'.mem)
      (pagesFate has (pgroundup sz) v (s.chunks n off rest)).Allows := by
  induction n generalizing s v off rest w with
  | zero => exact triple_exact rfl ⟨rfl, h⟩
  | succ n ih =>
    have hwalk := onMem_ok (Mem.walkpgdir_false d (v % 2 ^ 20) w.mem)
    rw [loadLoop, Source.chunks, pagesFate, h.table (v := v % 2 ^ 20)]
    cases he : w.mem.pt d (pdx (v % 2 ^ 20)) with
    | none =>
      rw [he] at hwalk
      exact triple_step hwalk (triple_fail rfl ⟨rfl, .inr rfl⟩)
    | some e =>
      rw [he] at hwalk
      obtain ⟨w₂, hread, hopen, -, hmem⟩ := readi_source ho (off % 2 ^ 32) (min rest PGSIZE)
      rw [if_neg (by rw [Option.isSome_some]; decide)]
      refine triple_step hwalk (triple_step rfl (triple_step hread ?_))
      rw [← hmem] at h he ⊢
      by_cases hout : 0 < (s.read (off % 2 ^ 32) (min rest PGSIZE)).1.bytes.length ∧
          pgroundup sz ≤ v % 2 ^ 20
      · rw [if_pos hout]
        exact triple_fail
          (run_bind_error (store_outside hout.2 (List.length_pos_iff.mp hout.1))) rfl
      · rw [if_neg hout]
        have hstore : ∃ m, store (.inImage m₀) img d sz (v % 2 ^ 20)
            (pteAddr w₂.mem e.page (ptx (v % 2 ^ 20)))
            (s.read (off % 2 ^ 32) (min rest PGSIZE)).1.bytes w₂
              = .ok ((), { w₂ with mem := m }) ∧ Building img m₀ d K ks has sz m := by
          by_cases hv : v % 2 ^ 20 < pgroundup sz
          · exact store_inside h hp hv he _
          · rw [not_and_or, Nat.not_lt, Nat.le_zero, List.length_eq_zero_iff] at hout
            rw [hout.resolve_right (not_not.mpr (Nat.le_of_not_lt hv))]
            exact ⟨w₂.mem, rfl, h⟩
        obtain ⟨m, hstore, hm⟩ := hstore
        refine triple_step hstore ?_
        by_cases hret : (s.read (off % 2 ^ 32) (min rest PGSIZE)).1.ret ≠ min rest PGSIZE
        · rw [if_pos hret, if_pos hret]
          exact triple_exact rfl ⟨rfl, hm⟩
        · rw [if_neg hret, if_neg hret]
          exact ih hm (hopen.mem m)

theorem loaduvm_fate (hp : Pool img m₀) (ph : Ph) (h : Building img m₀ d K ks has sz w.mem)
    (ho : Opened c s w) :
    Triple (· = w) (loaduvm (.inImage m₀) img d sz c ph.vaddr ph.off ph.filesz)
      (fun _ w' => loaduvmFate has sz ph s = .inside ∧ Building img m₀ d K ks has sz w'.mem)
      (loaduvmFate has sz ph s).Allows := by
  unfold loaduvm loaduvmFate
  by_cases halign : ph.vaddr % PGSIZE ≠ 0
  · rw [if_pos halign, if_pos halign]
    exact triple_fail rfl ⟨rfl, .inl rfl⟩
  · rw [if_neg halign, if_neg halign]
    exact loadLoop_fate hp h ho

/-! ## Segments -/

/-- The outcome of a header with the fate `f`; `s'` is what there is to read after it. If there is
enough memory, `exec` gives up only at the headers that say so. -/
structure Passed (img : Image) (m₀ : Memory) (d : Page) (K : Option Kind)
    (next : Present → Nat → List Kind) (has : Present) (sz : Nat) (hd : Proghdr)
    (hs : List Proghdr) (f : Fate) (c : Fin NINODE) (s' : Source) (r : Option Nat) (w' : World) :
    Prop where
  fresh : Fresh d m₀ w'.mem
  calm : K = none → f = .inside ∧ (r = none → halts sz hd = true)
  passed : ∀ sz', r = some sz' → f = .inside ∧ halts sz hd = false ∧ sz' = nextSize sz hd ∧
    Opened c s' w' ∧ Building img m₀ d K (segmentsPlan next hs (nextHas has sz hd) sz')
      (nextHas has sz hd) sz' w'.mem

theorem loadSegment_fate (hp : Pool img m₀) (hK : K ≠ some .pgtab)
    {next : Present → Nat → List Kind} {hs : List Proghdr}
    (hhd : hd = (s.segment ph).1)
    (h : Building img m₀ d K (segmentsPlan next (hd :: hs) has sz) has sz w.mem)
    (ho : Opened c s w) :
    Triple (· = w) (loadSegment (.inImage m₀) img d c ph sz)
      (Passed img m₀ d K next has sz hd hs (segmentFate has sz ph s) c (s.segment ph).2)
      (segmentFate has sz ph s).Allows := by
  unfold loadSegment segmentFate
  unfold Source.segment at hhd ⊢
  by_cases htype : ph.type ≠ ELF_PROG_LOAD
  · rw [if_pos htype] at hhd ⊢
    subst hhd
    rw [if_pos htype, if_pos (.inl htype)]
    refine triple_exact rfl ⟨h.toFresh, fun _ => ⟨rfl, fun hx => ?_⟩, fun sz' hsz => ?_⟩
    · cases hx
    · cases hsz
      exact ⟨rfl, rfl, rfl, ho, h⟩
  rw [if_neg htype] at hhd ⊢
  rw [if_neg htype]
  by_cases hshort : ph.memsz < ph.filesz
  · rw [if_pos hshort] at hhd ⊢
    subst hhd
    rw [if_pos hshort, if_pos (.inr (.inl hshort))]
    refine triple_exact rfl ⟨h.toFresh, fun _ => ⟨rfl, fun _ => rfl⟩, fun sz' hsz => ?_⟩
    cases hsz
  rw [if_neg hshort] at hhd ⊢
  rw [if_neg hshort]
  subst hhd
  obtain ⟨r, m₁, halloc, hres⟩ := h.toLayout.allocuvm hp h.dir h.due hK
  refine triple_step (onMem_ok halloc) ?_
  by_cases h0 : r = 0
  · -- there is no memory, or the size is not one of a program
    rw [if_pos h0]
    have hsize : K = none → allocSize sz ((ph.vaddr + ph.memsz) % 2 ^ 32) = 0 := by
      intro hnone
      rcases hres.result with ⟨-, hpage⟩ | ⟨hr, -⟩
      · rw [hnone] at hpage
        cases hpage
      · rw [← hr, h0]
    refine triple_exact rfl ⟨hres.toFresh, fun hnone => ⟨if_pos (.inr (.inr (hsize hnone))),
      fun _ => decide_eq_true (.inl (hsize hnone))⟩, fun sz' hsz => ?_⟩
    cases hsz
  · rw [if_neg h0]
    obtain ⟨hr, hlayout, hdir, hdue⟩ := hres.result.resolve_left fun hx => h0 hx.1
    have hne : ¬ (ph.type ≠ ELF_PROG_LOAD ∨ ph.memsz < ph.filesz ∨
        allocSize sz ((ph.vaddr + ph.memsz) % 2 ^ 32) = 0) :=
      not_or.mpr ⟨htype, not_or.mpr ⟨hshort, hr ▸ h0⟩⟩
    dsimp only
    rw [if_neg hne, ← hr]
    have hbuild : Building img m₀ d K _ _ r m₁ := ⟨hlayout h0, hdir, hdue⟩
    have hload := loaduvm_fate hp ph hbuild (ho.mem m₁)
    cases hrun : loaduvm (.inImage m₀) img d r c ph.vaddr ph.off ph.filesz { w with mem := m₁ } with
    | error e => exact triple_fail (run_bind_error hrun) (hload.error rfl hrun)
    | ok x =>
      obtain ⟨b, w₂⟩ := x
      obtain ⟨hinside, hbuild₂⟩ := hload.ok rfl hrun
      obtain ⟨hopen, -, hb⟩ := (loaduvm_opened (ho.mem m₁)).ok rfl hrun
      refine triple_step hrun ?_
      cases b with
      | false =>
        have hread : (s.readPages (pgroundup ph.filesz) ph.off ph.filesz).1
            < pgroundup ph.filesz :=
          lt_of_le_of_ne (readPages_le ..) fun heq => Bool.false_ne_true (hb.mpr heq)
        refine triple_exact rfl ⟨hbuild₂.toFresh, fun _ => ⟨hinside, fun _ =>
          decide_eq_true (.inr hread)⟩, fun sz' hsz => ?_⟩
        cases hsz
      | true =>
        have hgo : halts sz (.load ph.vaddr ph.memsz ph.filesz
            (s.readPages (pgroundup ph.filesz) ph.off ph.filesz).1) = false := by
          refine decide_eq_false (not_or.mpr ⟨hr ▸ h0, ?_⟩)
          rw [hb.mp rfl]
          exact lt_irrefl _
        rw [if_neg (of_decide_eq_false hgo)] at hbuild₂
        refine triple_exact rfl ⟨hbuild₂.toFresh, fun _ => ⟨hinside, fun hx => ?_⟩,
          fun sz' hsz => ?_⟩
        · cases hx
        · cases hsz
          refine ⟨hinside, hgo, hr, hopen, ?_⟩
          rw [← hr] at hbuild₂
          exact hbuild₂

theorem Fate.not_allows_inside (e : Fault) : ¬ Fate.inside.Allows e := by
  intro h
  cases e with
  | mem p => cases h.1
  | watched => cases h
  | _ => exact h

/-- A fault at the first header is one of all. -/
theorem Fate.Allows.next {f : Fate} {e : Fault} (h : f.Allows e) (g : Fate) : (f.next g).Allows e := by
  cases f with
  | inside => exact absurd h (Fate.not_allows_inside e)
  | strays => exact h
  | panics => exact h

/-- What loading leaves: the image, ready for the stack, or what has been built of it. With enough
memory the size is `size`. -/
structure Loaded (img : Image) (m₀ : Memory) (d : Page) (K : Option Kind) (f : Fate)
    (size r : Option Nat) (w' : World) : Prop where
  fresh : Fresh d m₀ w'.mem
  calm : K = none → f = .inside ∧ r = size
  passed : ∀ sz, r = some sz → ∃ has, Building img m₀ d K (stackPlan has sz) has sz w'.mem

/-- The run of the loader follows its fate. -/
theorem loadSegments_fate (hp : Pool img m₀) (hK : K ≠ some .pgtab) {n off : Nat}
    (h : Building img m₀ d K (segmentsPlan stackPlan (s.headers n off) has sz) has sz w.mem)
    (ho : Opened c s w) :
    Triple (· = w) (loadSegments (.inImage m₀) img d c n off sz)
      (Loaded img m₀ d K (s.fate n off has sz) (finalSize (s.headers n off) sz))
      (s.fate n off has sz).Allows := by
  induction n generalizing s off has sz w with
  | zero =>
    refine triple_exact rfl ⟨h.toFresh, fun _ => ⟨rfl, rfl⟩, fun sz' hsz => ?_⟩
    cases hsz
    exact ⟨has, h⟩
  | succ n ih =>
    obtain ⟨w₁, hread, hopen, -, hmem⟩ := readi_source ho (off % 2 ^ 32) PHSIZE
    rw [← hmem] at h
    rw [loadSegments, Source.fate]
    refine triple_step hread ?_
    by_cases hret : (s.read (off % 2 ^ 32) PHSIZE).1.ret ≠ PHSIZE
    · rw [if_pos hret, if_pos hret, headers_unreadable n hret]
      refine triple_exact rfl ⟨h.toFresh, fun _ => ⟨rfl, rfl⟩, fun sz' hsz => ?_⟩
      cases hsz
    rw [if_neg hret, if_neg hret, headers_succ n hret, finalSize]
    rw [headers_succ n hret] at h
    refine triple_step rfl ?_
    dsimp only
    have hhd : (s.headerAt off).1 = ((s.read (off % 2 ^ 32) PHSIZE).2.segment _).1 := rfl
    refine triple_call (loadSegment_fate hp hK hhd h hopen) rfl (fun e he => he.next _) ?_
    rintro r w₂ hpassed
    cases r with
    | none =>
      refine triple_exact rfl ⟨hpassed.fresh, fun hnone => ?_, fun sz' hsz => ?_⟩
      · obtain ⟨hinside, hhalts⟩ := hpassed.calm hnone
        rw [hinside, Fate.next_inside, if_pos (hhalts rfl), if_pos (hhalts rfl)]
        exact ⟨rfl, rfl⟩
      · cases hsz
    | some sz' =>
      obtain ⟨hinside, hgo, rfl, hopen₂, hbuild⟩ := hpassed.passed sz' rfl
      rw [hinside, Fate.next_inside, hgo]
      have hstop : stops (s.headerAt off).1 = false := stops_of_halts hgo
      rw [hstop] at hbuild ⊢
      exact ih hbuild hopen₂

end StrideXv6.Exec
