import StrideXv6.Exec.Call

set_option autoImplicit false

/-! # A stack without a guard page

`allocuvm` does not look at the result of `mappages`. If there is no memory for the page table of the
guard page, but there is when the page of the stack comes to be mapped, `exec` goes on, and the
process runs with nothing mapped below its stack (`exec_unguarded`).
-/

namespace StrideXv6.Exec

open Hoare Function
open Mem (Memory Page Image Pte PGSIZE KERNBASE Pool Layout Fresh Agree userLoad entryAt total space
  tree pdx kernelPlan kernelHas)
open Fs (NINODE FsState)

variable {img : Image} {m m' m₀ : Memory} {d : Page} {w w' : World} {c : Fin NINODE} {s : Source}
  {g : Fin ELFSIZE → UInt8} {path : List UInt8} {F : List Bool} {n : Nat}

/-! ## Calls of kalloc -/

/-- Since the free list had `n` pages and `F` was to come, all calls of `kalloc` have succeeded. -/
def Called (F : List Bool) (n : Nat) (m : Memory) : Prop :=
  ∃ j, m.fails = F.drop j ∧ m.freelist.length + j = n ∧ true ∉ F.take j

theorem kalloc_called (F : List Bool) (n : Nat) :
    Triple (Called F n) Mem.kalloc (fun r m => r ≠ none → Called F n m) fun _ => True := by
  refine triple_of_forall fun m ⟨j, hfails, hlen, hok⟩ => ?_
  by_cases hex : Mem.Exhausted m.fails m.freelist.length
  · exact triple_exact (Mem.kalloc_none hex) fun h => absurd rfl h
  · obtain ⟨p, ps, hfree, hrun⟩ := Mem.kalloc_some hex
    have hhead : F[j]? ≠ some true := by
      intro h
      refine hex (.inl ?_)
      rw [hfails, List.headD_eq_head?_getD, List.head?_drop, h]
      rfl
    refine triple_exact hrun fun _ => ⟨j + 1, ?_, ?_, ?_⟩
    · rw [hfails, List.tail_drop]
    · rw [hfree, List.length_cons] at hlen
      dsimp only
      omega
    · rw [List.take_add_one, List.mem_append]
      rintro (h | h)
      · exact hok h
      · exact hhead (Option.mem_toList.mp h)

theorem walkpgdir_called (F : List Bool) (n : Nat) (d : Page) (v : Nat) :
    Triple (Called F n) (Mem.walkpgdir d v true) (fun r m => r ≠ none → Called F n m)
      fun _ => True := by
  refine triple_of_forall fun m hm => triple_step (a := m) (t := m) rfl ?_
  cases m.pt d (pdx v) with
  | some e => exact triple_exact rfl fun _ => hm
  | none =>
    refine triple_call (kalloc_called F n) hm (fun _ _ => trivial) fun r m₁ h₁ => ?_
    cases r with
    | none => exact triple_exact rfl fun h => absurd rfl h
    | some t => exact triple_step rfl (triple_step rfl (triple_exact rfl fun _ => h₁ (Option.some_ne_none t)))

theorem mappages_called (F : List Bool) (n : Nat) (d : Page) (wr u : Bool) (k v : Nat) (pa : Page) :
    Triple (Called F n) (Mem.mappages d wr u k v pa) (fun b m => b = true → Called F n m)
      fun _ => True := by
  induction k generalizing v pa with
  | zero => exact triple_of_forall fun m hm => triple_exact rfl fun _ => hm
  | succ k ih =>
    rw [Mem.mappages]
    refine triple_bind (walkpgdir_called F n d v) fun r => triple_of_forall fun m hm => ?_
    cases r with
    | none => exact triple_exact rfl fun h => absurd h Bool.false_ne_true
    | some tj =>
      have hm := hm (Option.some_ne_none tj)
      refine triple_step (a := m) (t := m) rfl ?_
      by_cases hsome : (m.pt tj.1 tj.2).isSome = true
      · rw [if_pos hsome]
        exact triple_fail rfl trivial
      · rw [if_neg hsome]
        refine triple_step rfl ?_
        exact triple_conseq (ih (v + 1) (pa + 1)) (fun _ hx => hx ▸ hm) (fun _ _ h => h) fun _ h => h

theorem mapKernel_called (F : List Bool) (n : Nat) (d : Page) (l : List Mem.Kmap) :
    Triple (Called F n) (Mem.mapKernel d l) (fun b m => b = true → Called F n m) fun _ => True := by
  induction l with
  | nil => exact triple_of_forall fun m hm => triple_exact rfl fun _ => hm
  | cons k l ih =>
    refine triple_bind (mappages_called F n d _ _ _ _ _) fun b => ?_
    cases b with
    | false => exact triple_of_forall fun m _ => triple_exact rfl fun h => absurd h Bool.false_ne_true
    | true => exact triple_conseq ih (fun _ h => h rfl) (fun _ _ h => h) fun _ h => h

theorem setupkvm_called (hrun : Mem.setupkvm img m = .ok (some d, m')) :
    Called m.fails m.freelist.length m' := by
  have hstart : Called m.fails m.freelist.length m := ⟨0, rfl, rfl, List.not_mem_nil⟩
  obtain ⟨r, m₁, hk, h⟩ := exists_of_bind_ok hrun
  have h₁ := (kalloc_called _ _).ok hstart hk
  cases r with
  | none => cases h
  | some d' =>
    obtain ⟨x, m₂, hclear, h⟩ := exists_of_bind_ok h
    cases hclear
    obtain ⟨b, m₃, hmap, h⟩ := exists_of_bind_ok h
    cases b with
    | false => cases h
    | true =>
      cases h
      exact (mapKernel_called _ _ d (Mem.kmap img)).ok (by exact h₁ (Option.some_ne_none d)) hmap rfl

/-! ## The memory that is left -/

theorem pdx_kernelPages {v : Nat} (hv : v ∈ Mem.kernelPages img) : 512 ≤ pdx v := by
  obtain ⟨k, hk, hv⟩ := List.mem_flatMap.mp hv
  have hrange := List.mem_range'_1.mp hv
  have h1 := img.linked
  have h2 := img.ordered
  have h3 := img.fits
  have hk' : 0x80000 ≤ k.virt ∧ k.virt + k.pages ≤ 2 ^ 20 := by
    simp only [Mem.kmap, List.mem_cons, List.not_mem_nil, or_false] at hk
    rcases hk with rfl | rfl | rfl | rfl <;> simp only [Mem.Kmap.pages, Mem.physPages] <;> omega
  unfold pdx
  omega

theorem markAll_other {has : Mem.Present} {i : Nat} {vs : List Nat} (h : ∀ v ∈ vs, pdx v ≠ i) :
    Mem.markAll has vs i = has i := by
  induction vs generalizing has with
  | nil => rfl
  | cons v vs ih =>
    refine (ih fun u hu => h u (List.mem_cons_of_mem _ hu)).trans ?_
    exact update_of_ne (h v List.mem_cons_self).symm ..

/-- The kernel part has no table for the first pages. -/
theorem kernelHas_zero (img : Image) : kernelHas img 0 = false :=
  markAll_other fun v hv => by
    have := pdx_kernelPages hv
    omega

/-- What `kalloc` is to do: the kernel part gets its pages, the guard page gets one, but its table is
missing. -/
def unlucky (img : Image) : List Bool := List.replicate ((kernelPlan img).length + 2) false ++ [true]

theorem firstFailure_replicate (ks ks' : List Mem.Kind) (F : List Bool) {free : Nat}
    (h : ks.length ≤ free) :
    Mem.firstFailure (ks ++ ks') (List.replicate ks.length false ++ F) free
      = Mem.firstFailure ks' F (free - ks.length) := by
  induction ks generalizing free with
  | nil => rfl
  | cons k ks ih =>
    rw [List.length_cons] at h
    rw [List.cons_append, Mem.firstFailure, if_neg]
    · rw [List.length_cons, List.replicate_succ, List.cons_append, List.tail_cons,
        ih (by omega), Nat.sub_sub, Nat.add_comm 1]
    · rw [List.length_cons, List.replicate_succ, List.cons_append, List.headD_cons]
      rintro (h0 | h0)
      · cases h0
      · omega

/-- After `setupkvm`, the next call of `kalloc` succeeds and the one after it fails. -/
theorem setupkvm_unlucky (hp : Pool img m) (hfails : m.fails = unlucky img)
    (hlen : (kernelPlan img).length + 4 ≤ m.freelist.length) : ∃ d m',
      Mem.setupkvm img m = .ok (some d, m') ∧ Layout img m d (fun _ => true) 0 m' ∧
        Mem.Dir m'.pt d (kernelHas img) ∧ m'.fails = [false, true] ∧ 3 ≤ m'.freelist.length := by
  have hcount : (kernelPlan img).length + 2
      = (Mem.Kind.pgdir :: (kernelPlan img ++ [.page])).length := by
    rw [List.length_cons, List.length_append]
    rfl
  have hdue : ∀ ks, Mem.Due False (.pgdir :: (kernelPlan img ++ (.page :: ks)))
      (Mem.firstFailure ks [true] (m.freelist.length - ((kernelPlan img).length + 2))) m := by
    intro ks
    refine ⟨?_, False.elim⟩
    have hsplit : Mem.Kind.pgdir :: (kernelPlan img ++ (.page :: ks))
        = (.pgdir :: (kernelPlan img ++ [.page])) ++ ks := by
      rw [List.cons_append, List.append_assoc]
      rfl
    rw [hfails, unlucky, hsplit, hcount, firstFailure_replicate _ _ _ (by omega)]
  obtain ⟨r, m', hrun, -, hcalm, hsome⟩ := setupkvm_calls hp (hdue [])
  cases r with
  | none => exact absurd rfl (hcalm rfl)
  | some d =>
    obtain ⟨hlayout, hdir, -⟩ := hsome d rfl
    have hfirst : Mem.firstFailure [.page, .pgtab] m'.fails m'.freelist.length = some .pgtab :=
      (setupkvm_due hp (hdue [.pgtab]) hrun).2.first
    obtain ⟨j, hj, hfree, hok⟩ := setupkvm_called hrun
    rw [hfails, unlucky] at hj hok
    have hle : j ≤ (kernelPlan img).length + 2 := by
      by_contra hlt
      refine hok ?_
      rw [List.take_of_length_le (by rw [List.length_append, List.length_replicate]; exact Nat.lt_of_not_le hlt)]
      exact List.mem_append_right _ (List.mem_singleton_self true)
    rw [List.drop_append_of_le_length (by rwa [List.length_replicate]), List.drop_replicate] at hj
    refine ⟨d, m', hrun, hlayout, hdir, ?_⟩
    obtain ⟨i, hi⟩ : ∃ i, (kernelPlan img).length + 2 - j = i := ⟨_, rfl⟩
    rw [hi] at hj
    rw [hj] at hfirst
    rcases i with _ | _ | i
    · cases hfirst
    · exact ⟨hj, by omega⟩
    · rw [List.replicate_succ, List.replicate_succ] at hfirst
      have hlong : ¬ m'.freelist.length = 0 ∧ ¬ m'.freelist.length - 1 = 0 := by omega
      simp [Mem.firstFailure, hlong.1, hlong.2] at hfirst

/-! ## The stack -/

/-- An image of two pages that was built with pages that were free in `m₀`: the page of the stack is
there, and the one below is not. -/
structure Unguarded (img : Image) (m₀ : Memory) (d : Page) (m : Memory) : Prop where
  guard : entryAt m.pt d 0 = none
  stack : Mem.Accessible m d 1
  user : Mem.UserDir img m d
  le : ∀ x, total (space d) m x ≤ m₀.freelist.count x
  frame : ∀ x ∉ m₀.freelist, m.pt x = m₀.pt x ∧ m.bytes x = m₀.bytes x

theorem Unguarded.outside {x : Page} (h : Unguarded img m₀ d m) (hx : x ∉ m₀.freelist) :
    total (space d) m x = 0 := by
  have := h.le x
  rw [List.count_eq_zero_of_not_mem hx] at this
  exact Nat.le_zero.mp this

theorem makeStack_unlucky (hp : Pool img m₀) (h : Layout img m₀ d (fun _ => true) 0 m)
    (hdir : Mem.Dir m.pt d (kernelHas img)) (hfails : m.fails = [false, true])
    (hfree : 3 ≤ m.freelist.length) :
    ∃ m', Mem.makeStack img d 0 m = .ok (some (2 * PGSIZE), m') ∧ Unguarded img m₀ d m' := by
  have hsound := h.toFresh.sound hp
  have htable : Mem.hasTable d m (pdx 0) = false := (hdir 0 (by decide)).trans (kernelHas_zero img)
  have htable' : Mem.hasTable d m (pdx (0 + 1)) = false := htable
  have hcourse : Mem.allocCourse d m 0 (2 * PGSIZE) = ⟨[false, true], false⟩ := by
    have h1 : ¬ Mem.Exhausted [false, true] m.freelist.length := by
      rintro (h | h)
      · cases h
      · omega
    have h2 : ¬ Mem.Exhausted [] (m.freelist.length - 1) := by
      rintro (h | h)
      · cases h
      · omega
    have h3 : ¬ Mem.Exhausted [] (m.freelist.length - 1 - 1) := by
      rintro (h | h)
      · cases h
      · omega
    show Mem.course (Mem.hasTable d m) m.fails m.freelist.length (0 + 1 + 1) 0 = _
    rw [hfails, Mem.course, if_neg h1, htable, if_neg Bool.false_ne_true, if_pos (.inl rfl)]
    show (Mem.course (Mem.hasTable d m) [] (m.freelist.length - 1) (0 + 1) (0 + 1)).cons false = _
    rw [Mem.course, if_neg h2, htable', if_neg Bool.false_ne_true, List.tail_nil, if_neg h3]
    rfl
  have hsize : 2 * PGSIZE < KERNBASE := by decide
  obtain ⟨m₁, hgrown, hrun⟩ := Mem.allocuvm_run hsound (Nat.zero_le _) hsize
    fun u _ hu => h.above u (Nat.zero_le _) (hu.trans (by decide))
  rw [hcourse] at hgrown hrun
  rw [if_neg Bool.false_ne_true] at hrun
  obtain ⟨p, hpfree, hstack, -⟩ := hgrown.mapped 1 rfl
  have hguard : entryAt m₁.pt d 0 = none := hgrown.lost 0 rfl
  obtain ⟨e, he⟩ := Option.isSome_iff_exists.mp ((hgrown.dir 0).mpr (.inr ⟨1, rfl, rfl⟩))
  have hcell : m₁.pt e.page 0 = none := (Mem.entryAt_of_some (v := 0) he).symm.trans hguard
  -- the entry of the guard page is cleared although it is empty
  let m₂ : Memory := { m₁ with
    bytes := Function.update m₁.bytes e.page
      (Mem.putWord (m₁.bytes e.page) 0 (Mem.pteWord none)) }
  have hclear : Mem.clearpteu d 0 m₁ = .ok ((), m₂) := by
    have hpt : Mem.setPte m₁.pt e.page 0 none = m₁.pt := by
      rw [Mem.setPte, ← hcell, update_eq_self, update_eq_self]
    rw [Mem.clearpteu, run_bind (Mem.walkpgdir_false d 0 m₁), show m₁.pt d (pdx 0) = some e from he,
      Option.map_some]
    dsimp only
    rw [run_get, show m₁.pt e.page (Mem.ptx 0) = none from hcell]
    show Except.ok ((), { m₂ with pt := Mem.setPte m₁.pt e.page 0 none }) = Except.ok ((), m₂)
    rw [hpt]
  have hle : ∀ x, total (space d) m₁ x ≤ m₀.freelist.count x := fun x =>
    (hgrown.le x).trans (h.total x).le
  refine ⟨m₂, ?_, hguard, ⟨_, hstack, rfl⟩, ⟨(hgrown.sound hsound).space, ?_⟩, hle, fun x hx => ?_⟩
  · have hpage : 2 * PGSIZE / PGSIZE - 2 = 0 := by decide
    have hne : 2 * PGSIZE ≠ 0 := by decide
    refine (run_bind hrun).trans ?_
    rw [if_neg hne, hpage]
    exact (run_bind hclear).trans rfl
  · rintro v hv hlt ⟨c, hc, hu⟩
    rw [show entryAt m₂.pt d v = _ from hgrown.kept v hlt (.inr (hv.trans' (by decide))), h.kernel v hv hlt] at hc
    rw [Mem.kernelEntry_u hc] at hu
    cases hu
  · obtain ⟨hout, h1, h2⟩ := h.frame x hx
    have hzero : total (space d) m x = 0 := by
      rw [h.total, List.count_eq_zero_of_not_mem hx]
    have hne : x ≠ e.page := by
      rintro rfl
      have hpos := Mem.tree_table_pos (by decide) he
      have hx₁ := hle e.page
      rw [List.count_eq_zero_of_not_mem hx] at hx₁
      simp only [total, space] at hx₁
      omega
    obtain ⟨h3, h4⟩ := hgrown.frame x hzero
    refine ⟨h3.trans h1, ?_⟩
    show Function.update m₁.bytes e.page _ x = _
    rw [update_of_ne hne, h4, h2]

theorem pushArgs_unguarded (hp : Pool img m₀) (null : Mem.M (Option Pte))
    (h : Unguarded img m₀ d m) : ∃ sp m',
    pushArgs img null d (2 * PGSIZE) [] m = .ok (some sp, m') ∧ Unguarded img m₀ d m' := by
  have hpage : ∀ a, 2 * PGSIZE - 16 ≤ a → a < 2 * PGSIZE - 16 + 16 → a / PGSIZE = 1 := by
    unfold PGSIZE
    omega
  obtain ⟨e, he, hu⟩ := h.stack
  have htab : Mem.Tabled m d (2 * PGSIZE - 16) 16 := by
    intro a h1 h2 _ hnone
    rw [hpage a h1 h2] at hnone
    rw [Mem.entryAt_of_none hnone] at he
    cases he
  have hsp : 2 * PGSIZE - 16 < 2 ^ 32 := by decide
  have hlen : ([0xFFFFFFFF, 0, 2 * PGSIZE - 4, 0].flatMap wordBytes).length ≤ 16 := le_rfl
  obtain ⟨r, m', hrun, hc⟩ := Mem.copyoutLoop_exact null hlen h.user hsp htab
  obtain rfl : r = true := by
    refine hc.result.mpr ⟨by decide, fun a h1 h2 => ?_⟩
    rw [hpage a h1 h2]
    exact h.stack
  obtain ⟨hent, htotal, hframe⟩ := hc.kept h.user
  have hle : ∀ x, total (space d) m' x ≤ m₀.freelist.count x := fun x => (htotal x).le.trans (h.le x)
  refine ⟨2 * PGSIZE - 16, m', ?_, (hent 0).trans h.guard, ⟨e, (hent 1).trans he, hu⟩,
    ⟨⟨fun x => ?_, fun v hv c hcv => h.user.given v hv c ((hent v).symm.trans hcv)⟩, ?_⟩, hle,
    fun x hx => ?_⟩
  · rw [pushArgs, run_bind (a := some (2 * PGSIZE, [])) (t := m) rfl]
    dsimp only
    exact (run_bind (a := true) (t := m') hrun).trans rfl
  · have hcount := List.nodup_iff_count_le_one.mp hp.nodup x
    exact (Nat.le_add_left ..).trans ((hle x).trans hcount)
  · rintro v hv hlt ⟨c, hcv, hcu⟩
    exact h.user.kernel v hv hlt ⟨c, (hent v).symm.trans hcv, hcu⟩
  · obtain ⟨h1, h2⟩ := hframe x (h.outside hx)
    obtain ⟨h3, h4⟩ := h.frame x hx
    exact ⟨h1.trans h3, h2.trans h4⟩

/-! ## The call -/

theorem install_unlucky (path : List UInt8) (entry : Nat) (hr : Ready img w) (w₁ : World)
    (hproc : w₁.proc = w.proc) (h : Layout img w.mem d (fun _ => true) 0 w₁.mem)
    (hdir : Mem.Dir w₁.mem.pt d (kernelHas img)) (hfails : w₁.mem.fails = [false, true])
    (hfree : 3 ≤ w₁.mem.freelist.length) : ∃ w',
      install img path [] entry d 0 w₁ = .ok (0, w') ∧ w'.proc.pgdir = d ∧
        w'.proc.sz = 2 * PGSIZE ∧ entryAt w'.mem.pt d 0 = none := by
  obtain ⟨m₂, hstack, h₂⟩ := makeStack_unlucky hr.pool h hdir hfails hfree
  obtain ⟨sp, m₃, hpush, h₃⟩ := pushArgs_unguarded hr.pool (Mem.nullPte w₁.proc.pgdir) h₂
  obtain ⟨m₄, hold, hagree⟩ := hr.freevm h₃.le h₃.frame
  have hpush' := onMem_ok (w := { w₁ with mem := m₂ }) hpush
  have hcommit := commit_eq (w := { w₁ with mem := m₃ }) (d := d) path entry (2 * PGSIZE) sp
    (hproc ▸ hold)
  have hinstall : install img path [] entry d 0 w₁
      = commit img path entry d (2 * PGSIZE) sp { w₁ with mem := m₃ } := by
    rw [install, run_bind (onMem_ok hstack)]
    dsimp only
    rw [run_get, run_bind hpush']
  exact ⟨_, hinstall.trans hcommit, rfl, rfl, (hagree.entry 0).trans h₃.guard⟩

/-- **The page below the stack may be missing**: for a program without segments, with that one
failure of `kalloc`. -/
theorem exec_unguarded {e : Elf × Source} {t : FsState} (hr : Ready img w)
    (hn : Fs.namei w.proc.cwd path w.fs = .ok (some c, t)) (hs : sourceAt w path = some s)
    (he : s.elf g = some e) (hph : e.1.phnum = 0) (hfails : w.mem.fails = unlucky img)
    (hlen : (kernelPlan img).length + 4 ≤ w.mem.freelist.length) : ∃ w',
      exec Watch.none img g path [] w = .ok (0, w') ∧ w'.proc.sz = 2 * PGSIZE ∧
        entryAt w'.mem.pt w'.proc.pgdir 0 = none := by
  obtain ⟨w₁, hbegun, hopen, hmem, hexec⟩ := exec_found hr.toIdle hn hs
  obtain ⟨w₂, hkept, hmem₂, -, hsome⟩ := readElf_source Watch.none g hopen
  obtain ⟨-, hread⟩ := hsome _ he
  have hheader : Watch.none.header ELFSIZE (s.read 0 ELFSIZE).1 = true := rfl
  rw [hheader, if_pos rfl] at hread
  obtain ⟨d, m, hsetup, hlayout, hdir, hfails', hfree⟩ := setupkvm_unlucky hr.pool hfails hlen
  have hb := (hbegun.kept hkept).kept (.mem w₂ m)
  obtain ⟨w₃, hput, -, hmem₃, hproc⟩ := hb.put (hr.unlocked c)
  have hend : endOp w₃ = .ok ((), { w₃ with ops := .endOp :: w₃.ops }) := rfl
  have hmem₃ : w₃.mem = m := hmem₃
  rw [← hmem₃] at hlayout hdir hfails' hfree
  obtain ⟨w', hinstall, rfl, hsz, hnone⟩ := install_unlucky path e.1.entry hr
    { w₃ with ops := .endOp :: w₃.ops } (hproc.trans hb.proc) hlayout hdir hfails' hfree
  refine ⟨w', ?_, hsz, hnone⟩
  rw [hexec, execInode, run_bind hread]
  dsimp only
  rw [run_bind (onMem_ok ((hmem₂.trans hmem) ▸ hsetup)), hph]
  refine (run_bind (a := some 0) (t := { w₂ with mem := m }) rfl).trans ?_
  dsimp only
  rw [run_bind hput, run_bind hend]
  exact hinstall

/-- A program without segments. -/
def bare : List UInt8 := elfHeader 0

theorem built_bare : Built (fileNode bare) (oneFile Fs.T_FILE 0 bare) := by
  constructor <;> decide +kernel

theorem elf_bare : (Source.file bare).elf (fun _ => 0) = some (⟨ELF_MAGIC, 0, 52, 0⟩, .file bare) := rfl

end StrideXv6.Exec
