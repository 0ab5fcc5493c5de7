import StrideXv6.Exec.Stack

set_option autoImplicit false

/-! # The call of exec

What a call of `exec` comes to for a process in good order (`Ready`), as long as no page table is
missing for the new image (`Spared`) and no argument is longer than the gap between the kernel and
the devices.
-/

namespace StrideXv6.Exec

open Hoare
open Mem (Memory Page Image Pte PGSIZE KERNBASE pgroundup Pool Layout Fresh Book Due Dir Kind Agree
  ExecFile guarded userLoad entryAt total space tree firstFailure execPlan kernelPlan kernelHas
  segmentsPlan stackPlan)
open Fs (NINODE FsState)

variable {img : Image} {m m' m₀ : Memory} {d : Page} {K : Option Kind} {ks : List Kind}
  {w w' w₀ w₁ : World} {c : Fin NINODE} {s : Source} {g : Fin ELFSIZE → UInt8}
  {path : List UInt8} {argv : List (List UInt8)}

/-! ## setupkvm -/

theorem book_start (hp : Pool img m) (hdue : Due False ks K m) :
    Book m.freelist.toFinset K 0 (fun m => Due False ks K m) m := by
  have htot : ∀ x, total 0 m x = Mem.ind m.freelist.toFinset x := by
    intro x
    rw [total, Mem.ind]
    simp only [List.mem_toFinset, Pi.zero_apply, Nat.add_zero]
    split
    · rename_i hx
      exact List.count_eq_one_of_mem hp.nodup hx
    · rename_i hx
      exact List.count_eq_zero_of_not_mem hx
  exact ⟨fun x => (htot x).le, .inl ⟨hdue, htot⟩⟩

/-- If `setupkvm` succeeds, its calls of `kalloc` have. -/
theorem setupkvm_due (hp : Pool img m) (hdue : Due False (.pgdir :: (kernelPlan img ++ ks)) K m)
    (hrun : Mem.setupkvm img m = .ok (some d, m')) :
    Dir m'.pt d (kernelHas img) ∧ Due False ks K m' := by
  obtain ⟨-, hbook⟩ := (Mem.setupkvm_spec img (book_start hp hdue) Mem.stable_zero).ok rfl hrun
  rcases hbook.mode with ⟨hgood, -⟩ | ⟨-, x, hx⟩
  · exact hgood
  · have htot := (Mem.setupkvm_ok hp.nodup hrun).1.total x
    rw [Mem.ind] at hx
    simp only [total, Pi.add_apply, Pi.zero_apply, Nat.add_zero, List.mem_toFinset] at hx htot
    split at hx
    · rename_i hmem
      rw [List.count_eq_one_of_mem hp.nodup hmem] at htot
      omega
    · omega

/-- `setupkvm` returns, and if there is enough memory, it succeeds. -/
theorem setupkvm_calls (hp : Pool img m)
    (hdue : Due False (.pgdir :: (kernelPlan img ++ ks)) K m) : ∃ r m',
      Mem.setupkvm img m = .ok (r, m') ∧ (∀ x ∉ m.freelist, m'.pt x = m.pt x ∧ m'.bytes x = m.bytes x) ∧
      (r = none → K ≠ none) ∧ ∀ d, r = some d →
        Layout img m d (fun _ => true) 0 m' ∧ Dir m'.pt d (kernelHas img) ∧ Due False ks K m' := by
  obtain ⟨r, m', hrun, hres⟩ :=
    (Mem.setupkvm_spec img (book_start hp hdue) Mem.stable_zero).exists_ok rfl
  refine ⟨r, m', hrun, fun x hx => Mem.setupkvm_frame hp.nodup hrun hx, ?_, ?_⟩
  · rintro rfl hnone
    rcases hres.mode with ⟨hK, -⟩ | ⟨hK, -⟩
    · rw [hnone] at hK
      cases hK
    · rw [hnone] at hK
      cases hK
  · rintro d rfl
    exact ⟨Mem.setupkvm_layout hp hrun, setupkvm_due hp hdue hrun⟩

/-- If there is not enough memory for the kernel part, `setupkvm` fails. -/
theorem setupkvm_short (hp : Pool img m)
    (h : firstFailure (.pgdir :: kernelPlan img) m.fails m.freelist.length ≠ none) :
    ∃ m', Mem.setupkvm img m = .ok (none, m') := by
  have hdue : Due False (.pgdir :: (kernelPlan img ++ [])) _ m :=
    ⟨by rw [List.append_nil], False.elim⟩
  obtain ⟨r, m', hrun, -⟩ :=
    (Mem.setupkvm_spec img (book_start hp hdue) Mem.stable_zero).exists_ok rfl
  cases r with
  | none => exact ⟨m', hrun⟩
  | some d => exact absurd (setupkvm_due hp hdue hrun).2.done h

/-! ## The process -/

/-- The process that calls `exec` has pages of its own, and the free pages can be used. -/
structure Ready (img : Image) (w : World) : Prop extends Idle w where
  pool : Pool img w.mem
  once : ∀ x, total (space w.proc.pgdir) w.mem x ≤ 1
  given : ∀ x, 0 < tree w.mem.pt w.proc.pgdir x → Mem.Freeable img x

/-- Building an image leaves the old one alone. -/
theorem Ready.agree (h : Ready img w)
    (hframe : ∀ x ∉ w.mem.freelist, m.pt x = w.mem.pt x ∧ m.bytes x = w.mem.bytes x) :
    Agree w.proc.pgdir w.mem m := fun x hx => hframe x (Mem.not_free h.once hx)

/-- The old image is given up, and the new one is left alone. -/
theorem Ready.freevm (h : Ready img w) (hnew : ∀ x, total (space d) m x ≤ w.mem.freelist.count x)
    (hf : ∀ x ∉ w.mem.freelist, m.pt x = w.mem.pt x ∧ m.bytes x = w.mem.bytes x) :
    ∃ m', Mem.freevm img w.proc.pgdir m = .ok ((), m') ∧ Agree d m m' := by
  have hagree : Agree w.proc.pgdir w.mem m := h.agree hf
  have hle : ∀ x, tree m.pt w.proc.pgdir x ≤ 1 := fun x => by
    rw [hagree.tree]
    exact le_trans (Nat.le_add_left ..) (h.once x)
  obtain ⟨l, m', hrun, -, -, hframe⟩ := Mem.freevm_run hle fun x hx => h.given x (hagree.tree x ▸ hx)
  refine ⟨m', hrun, fun x hx => hframe x ?_⟩
  have hnd := List.nodup_iff_count_le_one.mp h.pool.nodup x
  have hnew := hnew x
  have hold := h.once x
  simp only [total, space, hagree.tree] at hnew hold ⊢
  omega

/-- What the user finds in an image that is left alone. -/
theorem Stacked.load {p : Nat} (h : Stacked img m₀ d p m) (ha : Agree d m m') {a : Nat}
    (hlt : a < 2 ^ 32) : userLoad m' d a = userLoad m d a := by
  by_cases hk : a < KERNBASE
  · exact ha.load hk
  · have hnone : ∀ e, entryAt m.pt d (a / PGSIZE) = some e → e.u = false := by
      intro e he
      by_contra hu
      have hacc := (h.accessible (by unfold PGSIZE; omega)).mp ⟨e, he, by simpa using hu⟩
      have hlt := h.lt
      unfold KERNBASE PGSIZE at *
      omega
    unfold userLoad
    rw [ha.entry]
    cases he : entryAt m.pt d (a / PGSIZE) with
    | none => rfl
    | some e =>
      dsimp only
      rw [hnone e he]
      rfl

theorem Pushed.load {bottom top sp : Nat} {m₁ : Memory} {blocks : List Block}
    (h : Pushed d bottom top m₁ blocks sp m) (htop : top < 2 ^ 32)
    (hload : ∀ a < 2 ^ 32, userLoad m' d a = userLoad m d a) :
    Pushed d bottom top m₁ blocks sp m' := by
  refine ⟨h.aligned, h.lower, h.upper, h.range, h.apart, fun b hb k hk => ?_, fun a ha hout => ?_⟩
  · have := h.range b hb
    rw [hload _ (by omega)]
    exact h.stored b hb k hk
  · rw [hload a ha]
    exact h.frame a ha hout

/-! ## The new image -/

/-- The process runs the new image, with its arguments on the stack; `m₁` is the memory before they
were pushed. -/
structure Installed (path : List UInt8) (argv : List (List UInt8)) (entry : Nat) (m₁ : Memory)
    (old : Proc) (w' : World) : Prop where
  eip : w'.proc.eip = entry
  name : w'.proc.name = safestrcpy old.name (lastElem path path) 16
  cwd : w'.proc.cwd = old.cwd
  size : PGSIZE ∣ w'.proc.sz ∧ 2 * PGSIZE ≤ w'.proc.sz ∧ w'.proc.sz < KERNBASE
  guard : ∃ e, entryAt w'.mem.pt w'.proc.pgdir (w'.proc.sz / PGSIZE - 2) = some e ∧ e.u = false
  args : ∃ ptrs : List Nat, ptrs.length = argv.length ∧
    Pushed w'.proc.pgdir (w'.proc.sz - PGSIZE) w'.proc.sz m₁
      (stringBlocks ptrs argv ++ [ustackBlock w'.proc.esp ptrs]) w'.proc.esp w'.mem

/-- Only the memory and the process have changed. -/
structure Rest (w w' : World) : Prop where
  fs : w'.fs = w.fs
  busy : w'.busy = w.busy
  ops : w'.ops = w.ops

theorem Ended.rest (h : Ended w₀ w) (hr : Rest w w') : Ended w₀ w' :=
  ⟨hr.fs ▸ h.holding, hr.busy.trans h.busy, hr.ops.trans h.ops⟩

/-- `bad` after the inode has been given up. -/
theorem bad_late (h : Fresh d m₀ w.mem) (hp : Pool img m₀) : ∃ m,
    bad img (some d) none w = .ok (-1, { w with mem := m }) ∧
      ∀ x ∉ m₀.freelist, m.pt x = m₀.pt x ∧ m.bytes x = m₀.bytes x := by
  obtain ⟨m, hrun, hframe⟩ := h.freevm hp
  refine ⟨m, ?_, hframe⟩
  exact run_bind (onMem_ok hrun)

theorem commit_eq (path : List UInt8) (entry sz sp : Nat)
    (hrun : Mem.freevm img w.proc.pgdir w.mem = .ok ((), m')) :
    commit img path entry d sz sp w = .ok (0, { w with
      mem := m'
      proc := { w.proc with
        pgdir := d
        sz := sz
        eip := entry
        esp := sp
        name := safestrcpy w.proc.name (lastElem path path) 16 } }) := by
  let w₂ : World := { w with proc := { w.proc with
    pgdir := d
    sz := sz
    eip := entry
    esp := sp
    name := safestrcpy w.proc.name (lastElem path path) 16 } }
  have hfree : onMem (Mem.freevm img w.proc.pgdir) w₂ = .ok ((), { w₂ with mem := m' }) :=
    onMem_ok hrun
  rw [commit, run_get, run_bind (a := ()) (t := w₂) rfl, run_bind hfree]
  rfl

theorem commit_run {p sp : Nat} {m₁ : Memory} {ptrs : List Nat} (path : List UInt8) (entry : Nat)
    (hr : Ready img w₀)
    (hproc : w.proc = w₀.proc) (h : Stacked img w₀.mem d p w.mem)
    (hlen : ptrs.length = argv.length)
    (hpu : Pushed d ((p + 1) * PGSIZE) ((p + 2) * PGSIZE) m₁
      (stringBlocks ptrs argv ++ [ustackBlock sp ptrs]) sp w.mem) : ∃ w',
      commit img path entry d ((p + 2) * PGSIZE) sp w = .ok (0, w') ∧ Rest w w' ∧
        w'.proc.pgdir = d ∧ w'.proc.sz = (p + 2) * PGSIZE ∧
        Installed path argv entry m₁ w.proc w' := by
  obtain ⟨m', hrun, hagree⟩ := hr.freevm (fun x => (h.total x).le) fun x hx => (h.frame x hx).2
  have hlt := h.lt
  have hpage : (p + 2) * PGSIZE / PGSIZE - 2 = p := by
    rw [Nat.mul_div_cancel _ (by decide)]
    omega
  have hsize : (p + 2) * PGSIZE - PGSIZE = (p + 1) * PGSIZE := by
    unfold PGSIZE
    omega
  refine ⟨_, commit_eq path entry _ sp (hproc ▸ hrun), ⟨rfl, rfl, rfl⟩, rfl, rfl, ⟨rfl, rfl, rfl,
    ⟨⟨p + 2, Nat.mul_comm ..⟩, Nat.mul_le_mul_right _ (by omega), hlt⟩, ?_, ptrs, hlen, ?_⟩⟩
  · obtain ⟨q, -, hent⟩ := h.user p (by rw [Mem.pgroundup_mul]; omega)
    have hguard : guarded p p = false := Function.update_self ..
    refine ⟨⟨q, true, guarded p p⟩, ?_, hguard⟩
    show entryAt m'.pt d ((p + 2) * PGSIZE / PGSIZE - 2) = _
    rw [hpage, hagree.entry, hent]
  · show Pushed d ((p + 2) * PGSIZE - PGSIZE) ((p + 2) * PGSIZE) m₁ _ sp m'
    rw [hsize]
    exact hpu.load (by unfold KERNBASE at hlt; omega) fun a ha => h.load hagree ha

/-- What `exec` does with an image that has been loaded. -/
theorem install_run {sz : Nat} {has : Mem.Present} (path : List UInt8) (entry : Nat)
    (hr : Ready img w₀)
    (hproc : w.proc = w₀.proc) (hK : K ≠ some .pgtab)
    (h : Building img w₀.mem d K (stackPlan has sz) has sz w.mem)
    (hargs : ∀ s ∈ argv, s.length < 2 ^ 25) : ∃ r w',
      install img path argv entry d sz w = .ok (r, w') ∧ Rest w w' ∧
      (K = none → pgroundup sz + 2 < 0x80000 → Room argv → r = 0) ∧
      (r = -1 ∧ w'.proc = w.proc ∧ Agree w₀.proc.pgdir w₀.mem w'.mem ∨
        r = 0 ∧ w'.proc.pgdir = d ∧ ∃ m₁, Mem.makeStack img d sz w.mem = .ok (some w'.proc.sz, m₁) ∧
          Installed path argv entry m₁ w.proc w') := by
  obtain ⟨r, m₁, hstack, hfresh, henough, hsome⟩ := h.toLayout.makeStack hr.pool h.dir h.due hK
  unfold install
  rw [run_bind (onMem_ok hstack)]
  have hbad : ∀ m, Fresh d w₀.mem m → ∃ r w', bad img (some d) none { w with mem := m } = .ok (r, w') ∧
      Rest w w' ∧ (r = -1 ∧ w'.proc = w.proc ∧ Agree w₀.proc.pgdir w₀.mem w'.mem) := by
    intro m hm
    obtain ⟨m', hrun, hframe⟩ := bad_late (w := { w with mem := m }) hm hr.pool
    exact ⟨-1, _, hrun, ⟨rfl, rfl, rfl⟩, rfl, rfl, hr.agree hframe⟩
  cases r with
  | none =>
    obtain ⟨r, w', hrun, hrest, hpost⟩ := hbad m₁ hfresh
    refine ⟨r, w', hrun, hrest, fun hnone hlt => ?_, .inl hpost⟩
    exact absurd (henough hnone hlt).symm (Option.some_ne_none _)
  | some top =>
    obtain ⟨rfl, hlt, hlayout⟩ := hsome top rfl
    have hst : Stacked img w₀.mem d (pgroundup sz) m₁ := ⟨hlayout, hlt⟩
    obtain ⟨q, m₂, hpush, hst₂, hroom, hq⟩ := pushArgs_spec hr.pool (Mem.nullPte w.proc.pgdir) hst hargs
    dsimp only
    rw [run_get,
      run_bind (onMem_ok (w := { w with mem := m₁ }) hpush)]
    cases q with
    | none =>
      obtain ⟨r, w', hrun, hrest, hpost⟩ := hbad m₂ hst₂.toFresh
      exact ⟨r, w', hrun, hrest, fun _ _ hfits => absurd rfl (hroom hfits), .inl hpost⟩
    | some sp =>
      obtain ⟨ptrs, hlen, hpu⟩ := hq sp rfl
      obtain ⟨w', hrun, hrest, hd, hsz, hinst⟩ :=
        commit_run (w := { w with mem := m₂ }) path entry hr hproc hst₂ hlen hpu
      refine ⟨0, w', hrun, ⟨hrest.fs, hrest.busy, hrest.ops⟩, fun _ _ _ => rfl,
        .inr ⟨rfl, hd, m₁, ?_, hinst⟩⟩
      rw [hsz]
      exact hstack

/-! ## The run -/

/-- What becomes of a file. -/
def fileFate (img : Image) (g : Fin ELFSIZE → UInt8) (s : Source) : Fate :=
  (s.elf g).elim .inside fun e => e.2.fate e.1.phnum e.1.phoff (kernelHas img) 0

/-- The size of the image of a file, if `exec` does not give up before. -/
def fileSize (g : Fin ELFSIZE → UInt8) (s : Source) : Option Nat :=
  (s.elf g).bind fun e => finalSize (e.2.headers e.1.phnum e.1.phoff) 0

/-- What the first page is for that `kalloc` does not give while `f` is loaded, if there is one. -/
def lacking (img : Image) (f : ExecFile) (m : Memory) : Option Kind :=
  firstFailure (execPlan img f) m.fails m.freelist.length

/-- No page table is missing for the new image: the first page that is missing is not one, or it is
missing already for the kernel part. -/
def Spared (img : Image) (f : ExecFile) (m : Memory) : Prop :=
  lacking img f m ≠ some .pgtab ∨
    firstFailure (.pgdir :: kernelPlan img) m.fails m.freelist.length ≠ none

theorem spared_of_enough {f : ExecFile} (h : lacking img f m = none) : Spared img f m := by
  left
  rw [h]
  exact (Option.some_ne_none _).symm

/-- The call has failed, and the process does not see it. -/
structure Invisible (w₀ w' : World) : Prop extends Ended w₀ w' where
  proc : w'.proc = w₀.proc
  agree : Agree w₀.proc.pgdir w₀.mem w'.mem

/-- The image has been loaded, and `exec` goes on with `install`. -/
structure Handed (img : Image) (K : Option Kind) (w₀ : World) (d : Page) (sz : Nat) (w : World) :
    Prop extends Ended w₀ w where
  proc : w.proc = w₀.proc
  sound : K ≠ some .pgtab
  image : ∃ has, Building img w₀.mem d K (stackPlan has sz) has sz w.mem

/-- What a call of `exec` for the file `s` comes to: a fault, a failure, or an image. -/
inductive Comes (img : Image) (g : Fin ELFSIZE → UInt8) (s : Source) (path : List UInt8)
    (argv : List (List UInt8)) (w₀ : World) : Except Fault (Int × World) → Prop
  | fault {e : Fault} (h : (fileFate img g s).Allows e) : Comes img g s path argv w₀ (.error e)
  | failed {w' : World} (h : Invisible w₀ w')
      (calm : lacking img (s.execFile g) w₀.mem = none →
        fileFate img g s = .inside ∧ fileSize g s = none) :
      Comes img g s path argv w₀ (.ok (-1, w'))
  | loaded {e : Elf × Source} {d : Page} {sz : Nat} {w : World} (he : s.elf g = some e)
      (h : Handed img (lacking img (s.execFile g) w₀.mem) w₀ d sz w)
      (calm : lacking img (s.execFile g) w₀.mem = none →
        fileFate img g s = .inside ∧ fileSize g s = some sz) :
      Comes img g s path argv w₀ (install img path argv e.1.entry d sz w)

/-- `bad` with the inode locked. -/
theorem bad_invisible {pgdir : Option Page} (hr : Ready img w₀) (hb : Begun w₀ c w)
    (hm : pgdir.forM (Mem.freevm img) w.mem = .ok ((), m))
    (hframe : ∀ x ∉ w₀.mem.freelist, m.pt x = w₀.mem.pt x ∧ m.bytes x = w₀.mem.bytes x) :
    ∃ w', Invisible w₀ w' ∧ bad img pgdir (some c) w = .ok (-1, w') := by
  obtain ⟨w', hbad, hended, rfl, hproc⟩ := bad_begun hb (hr.unlocked c) hm
  exact ⟨w', ⟨hended, hproc, hr.agree hframe⟩, hbad⟩

theorem execPlan_some {e : Elf × Source} (he : s.elf g = some e) : execPlan img (s.execFile g)
    = .pgdir :: (kernelPlan img ++
      segmentsPlan stackPlan (e.2.headers e.1.phnum e.1.phoff) (kernelHas img) 0) := by
  have helf : (s.execFile g).elf = true := by rw [Source.execFile, he]; rfl
  have hheaders : (s.execFile g).headers = e.2.headers e.1.phnum e.1.phoff := by
    rw [Source.execFile, he]
    rfl
  rw [execPlan, if_pos helf, hheaders]

/-- The run up to the stack. -/
theorem execInode_run (hr : Ready img w₀) (hb : Begun w₀ c w) (ho : Opened c s w)
    (hmem : w.mem = w₀.mem) (hs : Spared img (s.execFile g) w₀.mem) :
    Comes img g s path argv w₀ (execInode (.inImage w₀.mem) img g path argv c w) := by
  obtain ⟨w₁, hkept, hmem₁, hnone, hsome⟩ := readElf_source (.inImage w₀.mem) g ho
  have hb₁ := hb.kept hkept
  rw [hmem] at hmem₁
  unfold execInode
  cases he : s.elf g with
  | none =>
    have hfate : fileFate img g s = .inside ∧ fileSize g s = none := by
      rw [fileFate, fileSize, he]
      exact ⟨rfl, rfl⟩
    have hm : (none : Option Page).forM (Mem.freevm img) w₁.mem = .ok ((), w₁.mem) := rfl
    obtain ⟨w', hinv, hbad⟩ := bad_invisible hr hb₁ hm fun x _ => by
      rw [hmem₁]
      exact ⟨rfl, rfl⟩
    rw [run_bind (hnone he).1]
    dsimp only
    rw [hbad]
    exact .failed hinv fun _ => hfate
  | some e =>
    obtain ⟨hopen, hread⟩ := hsome e he
    have hheader : (Watch.inImage w₀.mem).header ELFSIZE (s.read 0 ELFSIZE).1 = true := rfl
    have hfate : fileFate img g s = e.2.fate e.1.phnum e.1.phoff (kernelHas img) 0 := by
      rw [fileFate, he]
      rfl
    have hsize : fileSize g s = finalSize (e.2.headers e.1.phnum e.1.phoff) 0 := by
      rw [fileSize, he]
      rfl
    have hdue : Due False _ (lacking img (s.execFile g) w₀.mem) w₀.mem :=
      ⟨by rw [lacking, execPlan_some he], False.elim⟩
    rw [hheader, if_pos rfl] at hread
    obtain ⟨r, m, hsetup, hframe, hcalm, hdir⟩ := setupkvm_calls hr.pool hdue
    rw [run_bind hread]
    dsimp only
    rw [run_bind (onMem_ok (hmem₁ ▸ hsetup))]
    have hb₂ := hb₁.kept (.mem w₁ m)
    cases r with
    | none =>
      have hm : (none : Option Page).forM (Mem.freevm img) m = .ok ((), m) := rfl
      obtain ⟨w', hinv, hbad⟩ := bad_invisible hr hb₂ hm hframe
      dsimp only
      rw [hbad]
      exact .failed hinv fun hK => absurd hK (hcalm rfl)
    | some d =>
      have hK : lacking img (s.execFile g) w₀.mem ≠ some .pgtab := by
        refine hs.resolve_right fun hshort => ?_
        obtain ⟨m', hfail⟩ := setupkvm_short hr.pool hshort
        rw [hsetup] at hfail
        cases hfail
      obtain ⟨hlayout, hd, hdue'⟩ := hdir d rfl
      have hload := loadSegments_fate hr.pool hK (w := { w₁ with mem := m })
        ⟨hlayout, hd, hdue'⟩ (hopen.mem m)
      rw [← hfate, ← hsize] at hload
      dsimp only
      cases hrun : loadSegments (.inImage w₀.mem) img d c e.1.phnum e.1.phoff 0
          { w₁ with mem := m } with
      | error f =>
        rw [run_bind_error hrun]
        exact .fault (hload.error rfl hrun)
      | ok x =>
        obtain ⟨q, w₂⟩ := x
        have hloaded := hload.ok rfl hrun
        have hb₃ := hb₂.kept ((loadSegments_opened (hopen.mem m)).ok rfl hrun).2.1
        rw [run_bind hrun]
        cases q with
        | none =>
          obtain ⟨m', hfree, hframe'⟩ := hloaded.fresh.freevm hr.pool
          have hm : (some d).forM (Mem.freevm img) w₂.mem = .ok ((), m') := hfree
          obtain ⟨w', hinv, hbad⟩ := bad_invisible hr hb₃ hm hframe'
          dsimp only
          rw [hbad]
          exact .failed hinv fun hnone => (hloaded.calm hnone).imp_right Eq.symm
        | some sz =>
          obtain ⟨w₃, hput, hended, hmem₃, hproc⟩ := hb₃.put (hr.unlocked c)
          have hend : endOp w₃ = .ok ((), { w₃ with ops := .endOp :: w₃.ops }) := rfl
          dsimp only
          rw [run_bind hput, run_bind hend]
          refine .loaded he ⟨hended, hproc.trans hb₃.proc, hK, ?_⟩ fun hnone =>
            (hloaded.calm hnone).imp_right Eq.symm
          show ∃ has, Building img w₀.mem d _ (stackPlan has sz) has sz w₃.mem
          rw [hmem₃]
          exact hloaded.passed sz rfl

/-! ## A process with one page -/

/-- The memory of a process with one page, with `n` free pages. -/
def procMemory (n : Nat) (fails : List Bool) : Memory :=
  { Memory.start with
    freelist := List.range' 0x404 n
    pt := Mem.single 0x400 0x401 0x402 0
    fails := fails }

/-- The process finds the one file of the file system under the name `a`. -/
def procWorld (n : Nat) (fails : List Bool) (bytes : List UInt8) : World :=
  caller (procMemory n fails) (oneFile Fs.T_FILE 0 bytes)

/-- The node of a file with one link. -/
def fileNode (bytes : List UInt8) : Fs.Node := ⟨Fs.T_FILE, 0, 0, 1, bytes⟩

variable {n : Nat} {fails : List Bool} {bytes : List UInt8}

theorem freeable_single (x : Page) (hx : 0 < tree (Mem.single 0x400 0x401 0x402 0) 0x400 x) :
    Mem.Freeable Mem.smallImage x := by
  rw [Mem.tree_single (by decide) (by decide)] at hx
  have hmem : x = 0x400 ∨ x = 0x401 ∨ x = 0x402 := by
    by_contra hne
    rw [not_or, not_or] at hne
    rw [Mem.one_of_ne (Ne.symm hne.1), Mem.one_of_ne (Ne.symm hne.2.1),
      Mem.one_of_ne (Ne.symm hne.2.2)] at hx
    exact absurd hx (lt_irrefl 0)
  rcases hmem with rfl | rfl | rfl <;> exact ⟨by decide, by decide⟩

theorem ready_proc (n : Nat) (fails : List Bool)
    (hb : Built (fileNode bytes) (oneFile Fs.T_FILE 0 bytes)) (hn : n ≤ 100) :
    Ready Mem.smallImage (procWorld n fails bytes) := by
  have hdir : (fileNode bytes).type ≠ Fs.T_DIR := (by decide : Fs.T_FILE ≠ Fs.T_DIR)
  refine ⟨hb.idle (oneFile_ok ..) hdir _, ⟨List.nodup_range', fun p hp => ?_⟩,
    Mem.count_range_single n, freeable_single⟩
  have hp' := List.mem_range'_1.mp hp
  have hle : 0x404 + n ≤ 0xE000 := by omega
  exact ⟨le_trans (by decide) hp'.1, hp'.2.trans_le hle⟩

theorem sourceAt_proc (n : Nat) (fails : List Bool)
    (hb : Built (fileNode bytes) (oneFile Fs.T_FILE 0 bytes)) :
    sourceAt (procWorld n fails bytes) [97] = some (.file bytes) := hb.sourceAt _

theorem namei_proc (n : Nat) (fails : List Bool)
    (hb : Built (fileNode bytes) (oneFile Fs.T_FILE 0 bytes)) : ∃ c u,
    Fs.namei (procWorld n fails bytes).proc.cwd [97] (procWorld n fails bytes).fs
      = .ok (some c, u) :=
  hb.namei (oneFile_ok ..) (by decide : Fs.T_FILE ≠ Fs.T_DIR) (procMemory n fails)

theorem allocPlan_length (has : Mem.Present) (oldsz newsz : Nat) :
    (Mem.allocPlan has oldsz newsz).length ≤ 2 * (pgroundup newsz - pgroundup oldsz) := by
  unfold Mem.allocPlan
  split
  · exact Nat.zero_le _
  · refine (Mem.plan_length_pages _ _ _).trans ?_
    rw [Mem.newPages, List.length_range']
    exact le_refl _

theorem stackPlan_length (has : Mem.Present) (sz : Nat) : (stackPlan has sz).length ≤ 4 := by
  refine (allocPlan_length ..).trans ?_
  have htop : pgroundup sz * PGSIZE + 2 * PGSIZE = (pgroundup sz + 2) * PGSIZE := by rw [Nat.add_mul]
  rw [htop, Mem.pgroundup_mul, Mem.pgroundup_mul]
  omega

/-- Enough pages for a program of at most one segment. -/
theorem lacking_none {f : ExecFile} (hs : f.headers = [] ∨ ∃ vaddr memsz filesz read,
      f.headers = [.load vaddr memsz filesz read] ∧
        2 * pgroundup ((vaddr + memsz) % 2 ^ 32) + 69 ≤ n) (hn : 69 ≤ n) :
    lacking img f (procMemory n []) = none := by
  have hkernel := Mem.kernelPlan_length img
  have hsegments : (segmentsPlan stackPlan f.headers (kernelHas img) 0).length + 65 ≤ n := by
    rcases hs with hnil | ⟨vaddr, memsz, filesz, read, hload, hle⟩
    · rw [hnil, segmentsPlan]
      have := stackPlan_length (kernelHas img) 0
      omega
    · have halloc := allocPlan_length (kernelHas img) 0 ((vaddr + memsz) % 2 ^ 32)
      rw [hload, segmentsPlan, List.length_append]
      split
      · rw [List.length_nil]
        omega
      · rw [segmentsPlan]
        have := stackPlan_length (Mem.allocHas (kernelHas img) 0 ((vaddr + memsz) % 2 ^ 32))
          (Mem.allocSize 0 ((vaddr + memsz) % 2 ^ 32))
        omega
  refine Mem.firstFailure_calm _ _ ?_
  show _ ≤ (List.range' 0x404 n).length
  rw [List.length_range', execPlan]
  split
  · rw [List.length_cons, List.length_append]
    omega
  · exact Nat.zero_le n

/-- A program of 84 bytes at the address 0. -/
def plain : List UInt8 := elfHeader 1 ++ progHeader 0 0 84 100 0

theorem built_plain : Built (fileNode plain) (oneFile Fs.T_FILE 0 plain) := by
  constructor <;> decide +kernel

theorem headers_plain : ((Source.file plain).execFile fun _ => 0).headers = [.load 0 100 84 1] := rfl

theorem fileFate_tame (h : ∀ hd ∈ (s.execFile g).headers, Tame hd) : fileFate img g s = .inside := by
  have hcov : Covers (kernelHas img) 0 := ⟨by decide, fun v hv => absurd hv (Nat.not_lt_zero v)⟩
  unfold fileFate
  cases he : s.elf g with
  | none => rfl
  | some e =>
    rw [Source.execFile, he] at h
    exact Source.fate_inside hcov h

theorem fate_plain : fileFate Mem.smallImage (fun _ => 0) (.file plain) = .inside := by
  refine fileFate_tame fun hd hmem => ?_
  rw [headers_plain, List.mem_singleton] at hmem
  subst hmem
  exact ⟨⟨0, rfl⟩, by decide⟩

theorem lacking_plain : lacking Mem.smallImage ((Source.file plain).execFile fun _ => 0)
    (procWorld 100 [] plain).mem = none :=
  lacking_none (.inr ⟨0, 100, 84, 1, headers_plain, by decide⟩) (by decide)

theorem Fate.allows_strays {e : Fault} (h : Fate.strays.Allows e) : e = .watched := by
  cases e with
  | watched => rfl
  | mem p => cases h.1
  | _ => exact h.elim

theorem Fate.allows_panics {e : Fault} (h : Fate.panics.Allows e) :
    e = .mem .loadAlign ∨ e = .mem .loadAddr := by
  cases e with
  | mem p => exact h.2.imp (congrArg Fault.mem) (congrArg Fault.mem)
  | watched => cases h
  | _ => exact h.elim

section Exec

variable {t : FsState} (hr : Ready img w) (hn : Fs.namei w.proc.cwd path w.fs = .ok (some c, t))
  (hs : sourceAt w path = some s)

include hr hn hs

theorem exec_run (hspared : Spared img (s.execFile g) w.mem) (argv : List (List UInt8)) :
    Comes img g s path argv w (exec (.inImage w.mem) img g path argv w) := by
  obtain ⟨w₁, hbegun, hopen, hmem, hexec⟩ := exec_found hr.toIdle hn hs
  rw [hexec]
  exact execInode_run hr hbegun hopen hmem hspared

theorem exec_unwatched (hspared : Spared img (s.execFile g) w.mem)
    (hfate : fileFate img g s ≠ .strays) (argv : List (List UInt8)) :
    exec (.inImage w.mem) img g path argv w ≠ .error .watched := by
  have hrun := exec_run hr hn hs hspared argv
  intro hwatch
  rw [hwatch] at hrun
  generalize hx : Except.error Fault.watched = x at hrun
  cases hrun with
  | fault h =>
    cases hx
    exact hfate h
  | failed h calm => cases hx
  | loaded he h calm => exact (silent_install ..).never _ hx.symm

/-- If the file does not stray, `exec` has the outcome of the run that is watched. -/
theorem exec_eq (hspared : Spared img (s.execFile g) w.mem) (hfate : fileFate img g s ≠ .strays)
    (argv : List (List UInt8)) :
    exec Watch.none img g path argv w = exec (.inImage w.mem) img g path argv w :=
  ((observes_exec (.inImage w.mem) img g path argv w).resolve_left
    (exec_unwatched hr hn hs hspared hfate argv)).symm

/-- With enough memory, the file that strays is seen to do so. -/
theorem exec_watched (hK : lacking img (s.execFile g) w.mem = none)
    (hfate : fileFate img g s = .strays) (argv : List (List UInt8)) :
    exec (.inImage w.mem) img g path argv w = .error .watched := by
  have hrun := exec_run hr hn hs (spared_of_enough hK) argv
  generalize exec (.inImage w.mem) img g path argv w = x at hrun
  cases hrun with
  | fault h =>
    rw [hfate] at h
    rw [Fate.allows_strays h]
  | failed h calm =>
    rw [(calm hK).1] at hfate
    cases hfate
  | loaded he h calm =>
    rw [(calm hK).1] at hfate
    cases hfate

/-- The outcome of a file that does not stray. -/
theorem exec_outcome (hspared : Spared img (s.execFile g) w.mem)
    (hfate : fileFate img g s ≠ .strays) (hargs : ∀ s ∈ argv, s.length < 2 ^ 25) :
    (fileFate img g s = .panics ∧ (exec Watch.none img g path argv w = .error (.mem .loadAlign) ∨
      exec Watch.none img g path argv w = .error (.mem .loadAddr))) ∨ ∃ r w',
      exec Watch.none img g path argv w = .ok (r, w') ∧
      (lacking img (s.execFile g) w.mem = none → fileFate img g s = .inside ∧
        ∀ sz, fileSize g s = some sz → pgroundup sz + 2 < 0x80000 → Room argv → r = 0) ∧
      (r = -1 ∧ Invisible w w' ∨
        r = 0 ∧ Ended w w' ∧ ∃ e sz w₂ m₁, s.elf g = some e ∧
          exec Watch.none img g path argv w = install img path argv e.1.entry w'.proc.pgdir sz w₂ ∧
          Mem.makeStack img w'.proc.pgdir sz w₂.mem = .ok (some w'.proc.sz, m₁) ∧
          Installed path argv e.1.entry m₁ w.proc w') := by
  have hrun := exec_run hr hn hs hspared argv
  rw [exec_eq hr hn hs hspared hfate argv]
  generalize exec (.inImage w.mem) img g path argv w = x at hrun ⊢
  cases hrun with
  | fault h =>
    cases hf : fileFate img g s with
    | inside => exact absurd (hf ▸ h) (Fate.not_allows_inside _)
    | strays => exact absurd hf hfate
    | panics =>
      rw [hf] at h
      exact .inl ⟨rfl, (Fate.allows_panics h).imp (congrArg _) (congrArg _)⟩
  | failed h calm =>
    refine .inr ⟨-1, _, rfl, fun hK => ⟨(calm hK).1, fun sz hsz => ?_⟩, .inl ⟨rfl, h⟩⟩
    rw [(calm hK).2] at hsz
    cases hsz
  | @loaded e d sz w₂ he h calm =>
    obtain ⟨has, hbuild⟩ := h.image
    obtain ⟨r, w', hinstall, hrest, hfits, hpost⟩ :=
      install_run path e.1.entry hr h.proc h.sound hbuild hargs
    refine .inr ⟨r, w', hinstall, fun hK => ⟨(calm hK).1, fun sz' hsz hlt hroom => ?_⟩, ?_⟩
    · rw [(calm hK).2] at hsz
      cases hsz
      exact hfits hK hlt hroom
    · rcases hpost with ⟨rfl, hproc, hagree⟩ | ⟨rfl, rfl, m₁, hstack, hinst⟩
      · exact .inl ⟨rfl, h.toEnded.rest hrest, hproc.trans h.proc, hagree⟩
      · exact .inr ⟨rfl, h.toEnded.rest hrest, e, sz, w₂, m₁, he, rfl, hstack, h.proc ▸ hinst⟩

end Exec

/-! ## Results -/

/-- A segment whose end wraps around: it is to be loaded to where the kernel has page `0x402`, which
belongs to the process, and the image gets one page. There are two bytes to read, and one is in the
file. -/
def stray : List UInt8 :=
  elfHeader 1 ++ progHeader 83 (0x80402 * PGSIZE) 2 (2 ^ 32 - 0x80402 * PGSIZE + PGSIZE) 7

theorem built_stray : Built (fileNode stray) (oneFile Fs.T_FILE 0 stray) := by
  constructor <;> decide +kernel

theorem elf_stray : (Source.file stray).elf (fun _ => 0)
    = some (⟨ELF_MAGIC, 0, 52, 1⟩, .file stray) := rfl

theorem headers_stray : ((Source.file stray).execFile fun _ => 0).headers
    = [.load (0x80402 * PGSIZE) (2 ^ 32 - 0x80402 * PGSIZE + PGSIZE) 2 0] := rfl

theorem lacking_stray : lacking Mem.smallImage ((Source.file stray).execFile fun _ => 0)
    (procWorld 100 [] stray).mem = none :=
  lacking_none (.inr ⟨_, _, _, _, headers_stray, by decide⟩) (by decide)

theorem fate_stray : fileFate Mem.smallImage (fun _ => 0) (.file stray) = .strays := by
  have hentry : Mem.kernelEntry Mem.smallImage (0x80000 + 0x402) = _ :=
    Mem.kernelEntry_data (by decide) (by decide)
  have hchunks : (Source.file stray).chunks (pgroundup 2) 83 2 = [1] := rfl
  have hsegment : segmentFate (kernelHas Mem.smallImage) 0
      ⟨1, 83, 0x80402 * PGSIZE, 2, 2 ^ 32 - 0x80402 * PGSIZE + PGSIZE⟩ (.file stray) = .strays :=
    segmentFate_strays rfl (by decide) (by decide) ⟨0x80402, Nat.mul_comm ..⟩ hchunks Nat.one_pos
      (by decide) (Mem.kernelHas_of_entry hentry)
  have hret : ((Source.file stray).read (52 % 2 ^ 32) PHSIZE).1.ret = PHSIZE := rfl
  have hph : Ph.decode (overlay (fun _ => 0) ((Source.file stray).read (52 % 2 ^ 32) PHSIZE).1.bytes)
      = ⟨1, 83, 0x80402 * PGSIZE, 2, 2 ^ 32 - 0x80402 * PGSIZE + PGSIZE⟩ := rfl
  have hfate : (Source.file stray).fate (0 + 1) 52 (kernelHas Mem.smallImage) 0 = .strays :=
    Source.fate_strays hret hph hsegment
  rw [fileFate, elf_stray, Option.elim_some]
  exact hfate

/-- A segment at the address 1. -/
def crooked : List UInt8 := elfHeader 1 ++ progHeader 0 1 1 1 0

theorem built_crooked : Built (fileNode crooked) (oneFile Fs.T_FILE 0 crooked) := by
  constructor <;> decide +kernel

theorem lacking_crooked : lacking Mem.smallImage ((Source.file crooked).execFile fun _ => 0)
    (procWorld 100 [] crooked).mem = none :=
  lacking_none (.inr ⟨1, 1, 1, 1, rfl, by decide⟩) (by decide)

theorem fate_crooked : fileFate Mem.smallImage (fun _ => 0) (.file crooked) = .panics := by
  decide +kernel

theorem built_empty : Built (fileNode []) (oneFile Fs.T_FILE 0 []) := by
  constructor <;> decide +kernel

end StrideXv6.Exec
