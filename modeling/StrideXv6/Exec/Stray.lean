import StrideXv6.Exec.Call

set_option autoImplicit false

/-! # A file that writes to any page

The kernel has the pages of memory mapped from `KERNBASE` on, in every page directory, and
`loaduvm` does not ask whether a page is one of the user. A file whose only segment starts at the
kernel's address of the page `p` and is so long that its end wraps around to the first page is
stored in the page `p`, whoever owns it (`exec_overwrites`). If the file is shorter than its segment,
the call fails after that.
-/

namespace StrideXv6.Exec

open Hoare
open Mem (Memory Page Image Pte PGSIZE pgroundup Layout Fresh kernelHas segmentsPlan stackPlan Agree
  userLoad entryAt pdx ptx)
open Fs (NINODE FsState)

variable {img : Image} {m₀ : Memory} {d p : Page} {w w₀ : World} {c : Fin NINODE} {s : Source}
  {g : Fin ELFSIZE → UInt8} {path : List UInt8} {argv : List (List UInt8)} {b : List UInt8}

theorem store_unwatched {sz v : Nat} {l : List UInt8} (hp : Mem.Writable img p) (hl : l ≠ []) :
    store Watch.none img d sz v p l w = .ok ((), { w with mem := w.mem.write p 0 l }) := by
  rw [store, if_neg hl, run_get]
  exact (run_bind (a := ()) (t := w) rfl).trans (onMem_ok (if_pos hp))

/-- The last chunk of a segment goes to a page of the kernel part. -/
theorem loadLoop_stray {acc : Nat → Bool} {sz v off rest n : Nat} {e : Pte} {r : Read}
    (h : Layout img m₀ d acc sz w.mem) (ho : Opened c s w) (hv : 0x80000 ≤ v) (hlt : v < 2 ^ 20)
    (he : Mem.kernelEntry img v = some e) (hw : Mem.Writable img e.page)
    (hr : (s.read (off % 2 ^ 32) (min rest PGSIZE)).1 = r) (hne : r.bytes ≠ [])
    (hret : r.ret ≠ min rest PGSIZE) :
    ∃ w', loadLoop Watch.none img d sz c (n + 1) v off rest w = .ok (false, w') ∧ Kept w w' ∧
      w'.mem = w.mem.write e.page 0 r.bytes := by
  have hent := h.kernel v hv hlt
  rw [he] at hent
  have hmod : v % 2 ^ 20 = v := Nat.mod_eq_of_lt hlt
  cases ht : w.mem.pt d (pdx v) with
  | none =>
    rw [Mem.entryAt_of_none ht] at hent
    cases hent
  | some t =>
    rw [Mem.entryAt_of_some ht] at hent
    have hwalk := onMem_ok (Mem.walkpgdir_false d v w.mem)
    rw [ht, Option.map_some] at hwalk
    have haddr : pteAddr w.mem t.page (ptx v) = e.page := by
      rw [pteAddr, hent]
    obtain ⟨w₂, hread, -, hkept, hmem⟩ := readi_source ho (off % 2 ^ 32) (min rest PGSIZE)
    rw [hr] at hread
    refine ⟨{ w₂ with mem := w₂.mem.write e.page 0 r.bytes }, ?_, hkept.trans (.mem w₂ _),
      by rw [hmem]⟩
    rw [loadLoop, hmod, run_bind hwalk]
    dsimp only
    rw [run_get, haddr, run_bind hread,
      run_bind (store_unwatched hw hne), if_pos hret]
    rfl

/-- A file with one program header, for a segment of two bytes at the kernel's address of the page
`p`, whose end wraps around to `PGSIZE`; `x` is the first of the two bytes, and the file ends with
it. -/
structure Overwrites (g : Fin ELFSIZE → UInt8) (b : List UInt8) (p : Nat) (x : UInt8) (e : Elf)
    (ph : Ph) : Prop where
  elf : (Source.file b).elf g = some (e, .file b)
  phnum : e.phnum = 1
  readable : ((Source.file b).read (e.phoff % 2 ^ 32) PHSIZE).1.ret = PHSIZE
  header : Ph.decode (overlay (fun _ => 0) ((Source.file b).read (e.phoff % 2 ^ 32) PHSIZE).1.bytes)
    = ph
  type : ph.type = ELF_PROG_LOAD
  vaddr : ph.vaddr = (0x80000 + p) * PGSIZE
  memsz : ph.memsz = 2 ^ 32 - ph.vaddr + PGSIZE
  filesz : ph.filesz = 2
  last : ((Source.file b).read (ph.off % 2 ^ 32) 2).1 = ⟨[x], true⟩

section Overwrites

variable {p : Nat} {x : UInt8} {e : Elf} {ph : Ph} (h : Overwrites g b p x e ph)
  (hdata : img.data ≤ p) (hlt : p < Mem.physPages)

include h hlt

theorem Overwrites.newsz : (ph.vaddr + ph.memsz) % 2 ^ 32 = PGSIZE := by
  rw [h.memsz, h.vaddr]
  unfold Mem.physPages PGSIZE at *
  omega

theorem Overwrites.plan (has : Mem.Present) : ∃ ks,
    segmentsPlan stackPlan ((Source.file b).headers e.phnum e.phoff) has 0
      = Mem.allocPlan has 0 PGSIZE ++ ks := by
  have hshort : ¬ ph.memsz < ph.filesz := by
    rw [h.memsz, h.filesz]
    unfold PGSIZE
    omega
  have hhd : ((Source.file b).headerAt e.phoff).1 = .load ph.vaddr ph.memsz ph.filesz
      ((Source.file b).readPages (pgroundup ph.filesz) ph.off ph.filesz).1 := by
    rw [Source.headerAt, h.header, Source.segment, if_neg (not_not.mpr h.type), if_neg hshort]
    rfl
  rw [h.phnum, headers_succ 0 (not_not.mpr h.readable), hhd, segmentsPlan, h.newsz hlt]
  exact ⟨_, rfl⟩

include hdata

/-- The segment: the image gets a page, the byte goes to the page `p`, and `loaduvm` fails. -/
theorem Overwrites.segment {has : Mem.Present} {ks : List Mem.Kind} (hp : Mem.Pool img m₀)
    (hfree : p ∉ m₀.freelist)
    (hb : Building img m₀ d none (Mem.allocPlan has 0 PGSIZE ++ ks) has 0 w.mem)
    (ho : Opened c (.file b) w) : ∃ w', loadSegment Watch.none img d c ph 0 w = .ok (none, w') ∧
      Kept w w' ∧ Fresh d (m₀.write p 0 [x]) w'.mem := by
  have hshort : ¬ ph.memsz < ph.filesz := by
    rw [h.memsz, h.filesz]
    unfold PGSIZE
    omega
  obtain ⟨r, m₁, halloc, hres⟩ := hb.toLayout.allocuvm hp hb.dir hb.due (Option.some_ne_none _).symm
  obtain ⟨hr, hlayout, -⟩ := hres.result.resolve_left fun hx => absurd hx.2.symm (Option.some_ne_none _)
  have hsize : r = PGSIZE := hr
  have h0 : r ≠ 0 := by
    rw [hsize]
    decide
  have hv : ph.vaddr / PGSIZE = 0x80000 + p := by
    rw [h.vaddr, Nat.mul_div_cancel _ (by decide)]
  have halign : ¬ ph.vaddr % PGSIZE ≠ 0 := by
    rw [h.vaddr, Nat.mul_mod_left]
    exact not_not.mpr rfl
  have hread : ((Source.file b).read (ph.off % 2 ^ 32) (min ph.filesz PGSIZE)).1 = ⟨[x], true⟩ := by
    rw [h.filesz]
    exact h.last
  have hmin : min ph.filesz PGSIZE = 2 := by
    rw [h.filesz]
    rfl
  obtain ⟨w₂, hload, hkept, hmem⟩ := loadLoop_stray (n := 0) (w := { w with mem := m₁ }) (hlayout h0)
    (ho.mem m₁) (v := 0x80000 + p) (by omega) (by unfold Mem.physPages at hlt; omega)
    (Mem.kernelEntry_data hdata hlt) (.inr ⟨hdata, hlt⟩) hread (List.cons_ne_nil x [])
    (by rw [hmin]; exact (by decide : (1 : Nat) ≠ 2))
  have hpages : pgroundup ph.filesz = 0 + 1 := by
    rw [h.filesz]
    rfl
  refine ⟨w₂, ?_, (Kept.mem w m₁).trans hkept, ?_⟩
  · rw [loadSegment, if_neg (not_not.mpr h.type), if_neg hshort, h.newsz hlt,
      run_bind (onMem_ok halloc), if_neg h0, loaduvm, if_neg halign, hpages, hv]
    exact run_bind hload
  · rw [hmem]
    exact hres.toFresh.write hfree 0 [x]

theorem Overwrites.load {has : Mem.Present} (hp : Mem.Pool img m₀) (hfree : p ∉ m₀.freelist)
    (hb : Building img m₀ d none
      (segmentsPlan stackPlan ((Source.file b).headers e.phnum e.phoff) has 0) has 0 w.mem)
    (ho : Opened c (.file b) w) : ∃ w',
      loadSegments Watch.none img d c e.phnum e.phoff 0 w = .ok (none, w') ∧ Kept w w' ∧
        Fresh d (m₀.write p 0 [x]) w'.mem := by
  obtain ⟨ks, hks⟩ := h.plan hlt has
  obtain ⟨w₁, hread, hopen, hkept, hmem⟩ := readi_source ho (e.phoff % 2 ^ 32) PHSIZE
  rw [hks, ← hmem] at hb
  obtain ⟨w₂, hsegment, hkept₂, hfresh⟩ := h.segment hdata hlt hp hfree hb hopen
  refine ⟨w₂, ?_, hkept.trans hkept₂, hfresh⟩
  rw [h.phnum, loadSegments, run_bind hread, if_neg (not_not.mpr h.readable), h.header]
  exact (run_bind (a := ()) (t := w₁) rfl).trans (run_bind hsegment)

end Overwrites

/-- **A file can write to any page that is not free**, above the text of the kernel. -/
theorem exec_overwrites {p : Nat} {x : UInt8} {e : Elf} {ph : Ph} {t : FsState}
    (hr : Ready img w) (hn : Fs.namei w.proc.cwd path w.fs = .ok (some c, t))
    (hs : sourceAt w path = some (.file b)) (hK : lacking img ((Source.file b).execFile g) w.mem = none)
    (h : Overwrites g b p x e ph) (hdata : img.data ≤ p) (hlt : p < Mem.physPages)
    (hfree : p ∉ w.mem.freelist) : ∃ w', exec Watch.none img g path argv w = .ok (-1, w') ∧
      w'.proc = w.proc ∧ ∀ q ∉ w.mem.freelist, w'.mem.pt q = (w.mem.write p 0 [x]).pt q ∧
        w'.mem.bytes q = (w.mem.write p 0 [x]).bytes q := by
  obtain ⟨w₁, hbegun, hopen, hmem, hexec⟩ := exec_found hr.toIdle hn hs
  obtain ⟨w₂, hkept, hmem₂, -, hsome⟩ := readElf_source Watch.none g hopen
  obtain ⟨hopen₂, hread⟩ := hsome _ h.elf
  have hheader : Watch.none.header ELFSIZE ((Source.file b).read 0 ELFSIZE).1 = true := rfl
  rw [hheader, if_pos rfl] at hread
  have hdue : Mem.Due False _ none w.mem := ⟨by rw [← hK, lacking, execPlan_some h.elf], False.elim⟩
  obtain ⟨r, m, hsetup, -, hcalm, hdir⟩ := setupkvm_calls hr.pool hdue
  rw [hexec, execInode, run_bind hread]
  dsimp only
  rw [run_bind (onMem_ok ((hmem₂.trans hmem) ▸ hsetup))]
  cases r with
  | none => exact absurd rfl (hcalm rfl)
  | some d =>
    obtain ⟨hlayout, hd, hdue'⟩ := hdir d rfl
    obtain ⟨w₃, hload, hkept₃, hfresh⟩ := h.load (w := { w₂ with mem := m }) hdata hlt hr.pool hfree
      ⟨hlayout, hd, hdue'⟩ (hopen₂.mem m)
    have hpool : Mem.Pool img (w.mem.write p 0 [x]) := ⟨hr.pool.nodup, hr.pool.free⟩
    obtain ⟨m', hfreevm, hframe⟩ := hfresh.freevm hpool
    have hm : (some d).forM (Mem.freevm img) w₃.mem = .ok ((), m') := hfreevm
    have hb₃ := ((hbegun.kept hkept).kept (.mem w₂ m)).kept hkept₃
    obtain ⟨w', hbad, -, rfl, hproc⟩ := bad_begun hb₃ (hr.unlocked c) hm
    exact ⟨w', (run_bind hload).trans hbad, hproc, hframe⟩

theorem overwrites_stray : Overwrites (fun _ => 0) stray 0x402 7 ⟨ELF_MAGIC, 0, 52, 1⟩
    ⟨1, 83, 0x80402 * PGSIZE, 2, 2 ^ 32 - 0x80402 * PGSIZE + PGSIZE⟩ :=
  ⟨elf_stray, rfl, rfl, rfl, rfl, rfl, rfl, rfl, rfl⟩

end StrideXv6.Exec
