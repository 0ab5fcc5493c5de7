import StrideXv6.Lib.Run
import StrideXv6.Fs.Specs

set_option autoImplicit false

/-! # Block ownership over whole runs

Every function of `fs.c` that is called on a consistent file system leaves it consistent, and
gives no block to a pointer that another pointer holds (`exec_spec`). So along every run of
calls (`block_ownership`) the pointers of the allocated inodes are pairwise different and lie
in the data area, all of them and the blocks in front of the data area are marked, a block of a
file is mapped exactly if it lies below the size, and no call ever frees a free block.
-/

namespace StrideXv6.Fs

open Bytes Ownership Hoare Runs

variable {c : Fin NINODE} {s t : FsState}

/-- A block that a pointer holds after a call and did not hold before was held by no pointer
before. -/
def FreshBlocks (s t : FsState) : Prop :=
  ∀ q b, blockOwner t q = some b → blockOwner s q = some b ∨ ∀ q', blockOwner s q' ≠ some b

/-- Where pointers that are set stay, what is new is fresh: two pointers never hold one
block. -/
theorem FsOk.fresh_of_kept (ht : FsOk t)
    (h : ∀ q b, blockOwner s q = some b → blockOwner t q = some b) : FreshBlocks s t := by
  intro q b hq
  by_cases hold : ∃ q', blockOwner s q' = some b
  · obtain ⟨q', hq'⟩ := hold
    obtain rfl := ht.disk.blocks.owned.excl _ _ _ hq (h q' b hq')
    exact Or.inl hq'
  · exact Or.inr fun q' hq' => hold ⟨q', hq'⟩

theorem FsOk.fresh_of_confined (hs : FsOk s) (hc : Locked c s) (ht : FsOk t)
    (hconf : Confined c s t) (hk : PointersKept c s t) : FreshBlocks s t := by
  refine ht.fresh_of_kept ?_
  rintro ⟨i, p⟩ b hq
  have hct := hconf.locked hc
  by_cases hi : i = (s.icache c).inum
  · subst hi
    obtain ⟨hlt, -, hheld, hb⟩ := owner_eq_some.mp hq
    rw [← hs.d_eq hc] at hheld
    refine owner_eq_some.mpr ⟨hconf.sb.symm ▸ hlt, ?_, ?_, hb⟩
    · rw [← hconf.inum, ← ht.d_eq hct]
      exact ht.type_ne hct
    · rw [← hconf.inum, ← ht.d_eq hct, hk p (by rw [hheld]; exact hb), hheld]
  · have := hconf.ownerOf (q := (i, p)) hi
    rw [ownerOf, current_of_eq (ht.d_eq hct), ownerOf, current_of_eq (hs.d_eq hc)] at this
    exact this.trans hq

theorem Got.blockOwner_eq {i : Nat} (h : Got i c s t) : blockOwner t = blockOwner s := by
  cases h <;> rfl

theorem Got.sb_eq {i : Nat} (h : Got i c s t) : t.sb = s.sb := by
  cases h <;> rfl

/-- One call. -/
theorem exec_spec (f : Call) (h : FsOk s) (hf : f.Enabled s) :
    Triple (· = s) (exec f) (fun _ t => FsOk t ∧ FreshBlocks s t ∧ t.sb = s.sb)
      fun e => e ≠ .freeingFree := by
  have same : ∀ {t : FsState}, blockOwner t = blockOwner s → FreshBlocks s t :=
    fun he q b hq => Or.inl (he ▸ hq)
  cases f with
  | iget inum =>
    refine triple_call (iget_spec h hf) rfl (fun e he => by rw [he]; decide) ?_
    rintro c t ⟨hok, hgot⟩
    exact triple_exact rfl ⟨hok, same hgot.blockOwner_eq, hgot.sb_eq⟩
  | ialloc type =>
    have hty : type % 2 ^ 16 ≠ 0 := by rcases hf with rfl | rfl | rfl <;> decide
    refine triple_call (ialloc_spec h hty) rfl
      (fun e he => by rcases he with rfl | rfl <;> decide) ?_
    rintro c t ⟨hok, i, u, -, -, -, -, -, hsb, -, -, hown, -, -, hgot⟩
    exact triple_exact rfl ⟨hok, same (hgot.blockOwner_eq.trans hown), hgot.sb_eq.trans hsb⟩
  | ilock c =>
    refine triple_conseq (ilock_spec h hf) (fun _ hx => hx) ?_ fun e he => by rw [he.1]; decide
    rintro _ t ⟨hok, -, d, rfl⟩
    exact ⟨hok, same rfl, rfl⟩
  | readi c off n =>
    have hc : Locked c s := ⟨hf.1, hf.2⟩
    obtain ⟨nd, hnd⟩ : ∃ nd, node s (s.icache c).inum = some nd := by
      rw [h.node_eq hc, nodeOf, if_neg (h.type_ne hc)]
      exact ⟨_, rfl⟩
    refine (readi_spec h hc hnd off n).safe.next ?_
    rintro _ _ ⟨rfl, -⟩
    exact triple_exact rfl ⟨h, same rfl, rfl⟩
  | writei c off src =>
    have hc : Locked c s := ⟨hf.1, hf.2.1⟩
    obtain ⟨nd, hnd⟩ : ∃ nd, node s (s.icache c).inum = some nd := by
      rw [h.node_eq hc, nodeOf, if_neg (h.type_ne hc)]
      exact ⟨_, rfl⟩
    refine triple_call (writei_spec h hc hnd off hf.2.2) rfl (fun e he => by rw [he]; decide) ?_
    rintro _ t ⟨hok, hconf, hk, -⟩
    exact triple_exact rfl ⟨hok, h.fresh_of_confined hc hok hconf hk, hconf.sb⟩
  | update c major minor nlink =>
    have hc : Locked c s := ⟨hf.1, hf.2⟩
    refine triple_conseq (update_spec h hc major minor nlink) (fun _ hx => hx) ?_
      fun e he => he.elim
    rintro _ t ⟨hok, hconf, hk, -⟩
    exact ⟨hok, h.fresh_of_confined hc hok hconf hk, hconf.sb⟩
  | iput c =>
    refine triple_conseq (iput_spec h hf) (fun _ hx => hx) ?_ fun e he => he.elim
    rintro _ t hput
    exact ⟨hput.ok, fun q b hq => Or.inl (hput.owners q b hq), hput.sb⟩

theorem step_frame {f : Call} (h : FsOk s) (hst : step s f = some t) :
    FsOk t ∧ FreshBlocks s t ∧ t.sb = s.sb := by
  unfold step at hst
  split at hst
  · rename_i hf
    cases he : exec f s with
    | error e => simp [he] at hst
    | ok r =>
      simp only [he, Option.some.injEq] at hst
      exact hst ▸ (exec_spec f h hf).ok rfl he
  · simp at hst

theorem step_spec {f : Call} (h : FsOk s) (hst : step s f = some t) : FsOk t ∧ FreshBlocks s t :=
  (step_frame h hst).imp_right And.left

theorem FsOk.run (h : FsOk s) {tr : List (Trans FsState Call)} (hr : IsRun step s tr) :
    FsOk (last s tr) :=
  hr.invariant_last (C := fun _ => True) h (fun _ hst _ hx => (step_spec hx hst).1)
    fun _ _ => trivial

theorem block_ownership (h : FsOk s) {tr : List (Trans FsState Call)} (hr : IsRun step s tr) :
    (∀ x ∈ tr, DiskOk x.post.sb x.post.store ∧ FreshBlocks x.pre x.post) ∧
      (∀ b u, balloc (last s tr) = .ok (b, u) →
        u.sb.dataStart ≤ b ∧ b < u.sb.size ∧ ∀ q, blockOwner (last s tr) q ≠ some b) ∧
      ∀ f : Call, f.Enabled (last s tr) → exec f (last s tr) ≠ .error .freeingFree := by
  refine ⟨fun x hx => ?_, fun b u hb => ?_, fun f hf he => ?_⟩
  · obtain ⟨hpre, -⟩ := hr.invariant (C := fun _ => True) h
      (fun _ hst _ hx => (step_spec hx hst).1) (fun _ _ => trivial) x hx
    obtain ⟨hok, hfresh⟩ := step_spec hpre (hr.step_of_mem hx)
    exact ⟨hok.disk, hfresh⟩
  · obtain ⟨rfl, hlt, hbit⟩ := (balloc_spec (last s tr)).ok rfl hb
    obtain ⟨hdata, hun⟩ := (h.run hr).disk.blocks.free_block hbit
    exact ⟨hdata, hlt, hun⟩
  · exact (exec_spec f (h.run hr) hf).error rfl he rfl

/-! ### A blank image -/

/-- A disk of 20 blocks with room for 15 inodes: inodes in blocks 3 and 4, the bit map in block
5, data from block 6 on. -/
def smallSb : Superblock :=
  { size := 20, nblocks := 14, ninodes := 15, nlog := 1, logstart := 2, inodestart := 3,
    bmapstart := 5 }

def blankDisk : Disk := fun b =>
  if b = 1 then setWords (fun _ => 0) 0 [20, 14, 15, 1, 2, 3, 5]
  else if b = 5 then setByte (fun _ => 0) 0 63
  else fun _ => 0

/-- No inode is allocated, none is cached, and no process runs. -/
def blank : FsState :=
  { store := blankDisk
    sb := smallSb
    icache := fun _ => { inum := 0, ref := 0, valid := false, d := Dinode.fresh 0 }
    ftable := fun _ =>
      { type := .none, ref := 0, readable := false, writable := false, ip := 0, off := 0 }
    proc := fun _ => none }

theorem blank_ok : FsOk blank := by
  have hfree : ∀ i < 15, (dinode smallSb blankDisk i).type = 0 := by decide
  have hnone : ∀ q b, blockOwner blank q ≠ some b := by
    rintro ⟨i, p⟩ b hq
    obtain ⟨hi, ht, -⟩ := owner_eq_some.mp hq
    exact ht (hfree i hi)
  refine ⟨⟨⟨by decide, by decide, by decide, by decide⟩, by decide, ⟨⟨?_, ?_⟩, ?_, by decide⟩, ?_⟩,
    ?_, ?_, ?_⟩
  · exact fun q _ b hq => absurd hq (hnone q b)
  · exact fun q b hq => absurd hq (hnone q b)
  · exact fun q b hq => absurd hq (hnone q b)
  · exact fun i hi ht => absurd (hfree i hi) ht
  · exact fun _ hr => absurd hr (Nat.lt_irrefl 0)
  · exact fun _ _ hr => absurd hr (Nat.lt_irrefl 0)
  · exact fun _ hr => absurd hr (Nat.lt_irrefl 0)

/-- A file is created, grows over the direct blocks into the indirect block, and is removed. -/
def oneFile : List Call :=
  [.ialloc T_FILE, .ilock 0, .update 0 0 0 1, .writei 0 0 (List.replicate 6145 7),
    .update 0 0 0 0, .iput 0]

theorem block_ownership_blank :
    (trace step blank oneFile).length = 6 ∧
      ∀ x ∈ trace step blank oneFile,
        DiskOk x.post.sb x.post.store ∧ FreshBlocks x.pre x.post :=
  ⟨by decide +kernel, (block_ownership blank_ok (isRun_trace step blank oneFile)).1⟩

end StrideXv6.Fs
