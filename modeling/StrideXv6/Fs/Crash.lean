import StrideXv6.Fs.Invariant
import StrideXv6.Log.Atomicity

set_option autoImplicit false

/-! # The file system survives crashes

The functions of `fs.c` change blocks in the buffer cache, and `end_op` commits what the calls of a
group of operations have changed as one transaction. A crash loses the caches; the kernel that boots
next recovers the log. That leaves the blocks outside the log as before the group or as after it
(`act_disk`), and consistency depends on these blocks only (`DiskOk.congr`). So the disk stays
consistent (`crash_consistent`).
-/

namespace StrideXv6.Fs

open Runs
open Log (Layout Tx Clean)

variable {L : Layout} {sb : Superblock} {st st' d : Disk}

/-! ## The machine -/

/-- The file system as the caches show it, and the disk behind them. -/
structure Machine where
  mem : FsState
  disk : Disk

/-- After a reboot nothing is cached and no file is open. -/
def boot (d : Disk) : FsState := { blank with store := d, sb := decodeSb (d 1) }

/-- The calls between two commits, their transaction, and, if the machine crashes, the number of
blocks the commit has written by then and those that each interrupted recovery writes. -/
structure Act (L : Layout) where
  calls : List Call
  tx : Tx L
  crash : Option (Nat × List Nat)

def Act.event (a : Act L) : Log.Event L := a.crash.elim (.commit a.tx) fun c => .crash a.tx c.1 c.2

/-- Every block that the calls change goes through `log_write`. -/
def act (L : Layout) (m : Machine) (a : Act L) : Option Machine :=
  (Runs.exec step m.mem a.calls).bind fun s =>
    (Log.step L m.disk a.event).bind fun d =>
      if ∀ b < L.disksize, a.tx.apply m.mem.store b = s.store b then
        some ⟨if a.crash = none then s else boot d, d⟩
      else none

/-! ## The log is no part of the file system -/

/-- The superblock, the inodes, the bit map and the data lie outside the log. -/
def LogApart (sb : Superblock) (L : Layout) : Prop :=
  ∀ b < sb.size, b = 1 ∨ sb.inodestart ≤ b → L.Home b

theorem DiskOk.congr (h : DiskOk sb st) (hL : LogApart sb L)
    (he : ∀ b, L.Home b → st' b = st b) : DiskOk sb st' := by
  have hdata := h.layout.data
  have hmap := h.layout.bmap_lt
  have hbmap : sb.inodestart ≤ sb.bmapstart := le_trans (Nat.le_add_right ..) h.layout.bmap
  have hsuper : st' 1 = st 1 := he 1 (hL 1 (by omega) (Or.inl rfl))
  have hinode : ∀ i < sb.ninodes, dinode sb st' i = dinode sb st i := by
    intro i hi
    have hlt := (h.layout.iblock hi).2
    rw [dinode, dinode, he (IBLOCK sb i) (hL _ (by omega) (Or.inr (Nat.le_add_left ..)))]
  have hown : ∀ q b, owner sb st (dinode sb st) q = some b → st' b = st b := by
    intro q b hq
    obtain ⟨h1, h2⟩ := h.blocks.data q b hq
    exact he b (hL b h2 (Or.inr (by omega)))
  refine ⟨h.layout, (congrArg decodeSb hsuper).trans h.super, ?_, fun i hi ht => ?_⟩
  · rw [owner_congr_owned hinode hown]
    refine h.blocks.congr h.layout fun b hb => ?_
    have := sb.bblock hb
    rw [bit, bit, he _ (hL _ (by omega) (Or.inr (by omega)))]
  · rw [hinode i hi] at ht ⊢
    obtain ⟨hle, hmapped⟩ := h.sized i hi ht
    refine ⟨hle, fun bn => ?_⟩
    rw [mapped_congr fun ha => hown (i, .addr ind) _ (owner_ind hi ht ha), hmapped]

theorem DiskOk.boot (h : DiskOk sb d) : FsOk (boot d) := by
  have hsb : (Fs.boot d).sb = sb := h.super
  have hfree : ∀ c, ¬ 0 < ((Fs.boot d).icache c).ref := fun _ => Nat.lt_irrefl 0
  exact ⟨hsb ▸ h, fun c hc => (hfree c hc).elim, blank_ok.distinct, fun c hc => (hfree c hc).elim⟩

/-! ## Runs -/

/-- One group of calls, committed or interrupted. -/
theorem act_disk {m m' : Machine} {a : Act L} (hd : Clean L m.mem.store m.disk)
    (hst : act L m a = some m') :
    ∃ s, Runs.exec step m.mem a.calls = some s ∧
      m'.mem = (if a.crash = none then s else boot m'.disk) ∧
      (Clean L s.store m'.disk ∨ a.crash ≠ none ∧ Clean L m.mem.store m'.disk) := by
  unfold act at hst
  obtain ⟨s, hs, hst⟩ := Option.bind_eq_some_iff.mp hst
  obtain ⟨d, hstep, hst⟩ := Option.bind_eq_some_iff.mp hst
  obtain ⟨hlog, rfl⟩ := guard_some hst
  have hkept : Clean L (a.tx.apply m.mem.store) d → Clean L s.store d :=
    fun hc => ⟨hc.1, fun b hb => (hc.2 b hb).trans (hlog b hb.1)⟩
  refine ⟨s, hs, rfl, ?_⟩
  obtain ⟨ts, hts, hc⟩ := Log.step_refines hd hstep
  cases hcrash : a.crash <;> rw [Act.event, hcrash] at hts
  · cases hts with
    | commit _ h' => cases h'; exact Or.inl (hkept hc)
  · cases hts with
    | lost _ _ _ h' => cases h'; exact Or.inr ⟨by simp, hc⟩
    | kept _ _ _ h' => cases h'; exact Or.inl (hkept hc)

/-- What holds between commits. -/
structure Durable (sb : Superblock) (L : Layout) (m : Machine) : Prop where
  sb : m.mem.sb = sb
  ok : FsOk m.mem
  clean : Clean L m.mem.store m.disk

theorem Durable.act {m m' : Machine} {a : Act L} (hL : LogApart sb L) (h : Durable sb L m)
    (hst : act L m a = some m') : Durable sb L m' ∧ DiskOk sb m'.disk := by
  obtain ⟨s, hs, hmem, hd⟩ := act_disk h.clean hst
  obtain ⟨tr, hr, rfl, -⟩ := isRun_of_exec hs
  obtain ⟨hok, hsb⟩ := hr.invariant_last (C := fun _ => True) (I := fun t => FsOk t ∧ t.sb = sb)
    ⟨h.ok, h.sb⟩ (fun _ hst _ hx => (step_frame hx.1 hst).imp_right (·.2.trans hx.2))
    fun _ _ => trivial
  have hdisk : DiskOk sb m'.disk := by
    rcases hd with hd | ⟨-, hd⟩
    · exact (hsb ▸ hok.disk).congr hL hd.2
    · exact (h.sb ▸ h.ok.disk).congr hL hd.2
  refine ⟨?_, hdisk⟩
  by_cases hc : a.crash = none
  · rw [if_pos hc] at hmem
    exact ⟨hmem ▸ hsb, hmem ▸ hok, hmem ▸ hd.resolve_right fun h => h.1 hc⟩
  · rw [if_neg hc] at hmem
    exact ⟨hmem ▸ hdisk.super, hmem ▸ hdisk.boot, hmem ▸ ⟨hd.elim (·.1) (·.2.1), fun _ _ => rfl⟩⟩

/-- **The file system is consistent after any crash.** Along every run of groups of calls, each
committed or cut off by a crash anywhere in its commit or in recovery, the caches and the disk are
consistent, and the disk has all that the group wrote or, after a crash, nothing of it. -/
theorem crash_consistent {m : Machine} {tr : List (Trans Machine (Act L))}
    (hL : LogApart m.mem.sb L) (hok : FsOk m.mem) (hd : Clean L m.mem.store m.disk)
    (hr : IsRun (act L) m tr) :
    ∀ x ∈ tr, FsOk x.post.mem ∧ DiskOk x.post.mem.sb x.post.disk ∧
      ∃ s, Runs.exec step x.pre.mem x.ev.calls = some s ∧
        (Clean L s.store x.post.disk ∨
          x.ev.crash ≠ none ∧ Clean L x.pre.mem.store x.post.disk) := by
  intro x hx
  obtain ⟨hpre, -⟩ := hr.invariant (C := fun _ => True) (I := Durable m.mem.sb L) ⟨rfl, hok, hd⟩
    (fun _ hst _ h => (h.act hL hst).1) (fun _ _ => trivial) x hx
  obtain ⟨hpost, hdisk⟩ := hpre.act hL (hr.step_of_mem hx)
  obtain ⟨s, hs, -, hdone⟩ := act_disk hpre.clean (hr.step_of_mem hx)
  exact ⟨hpost.ok, hpost.sb.symm ▸ hdisk, s, hs, hdone⟩

/-- Five blocks of log behind the blank image. -/
def behindBlank : Layout :=
  { start := 20, size := 5, disksize := 25, pos := by decide, inDisk := by decide,
    int := by decide }

/-- The inodes after `ialloc` has taken the first one. -/
def firstInode : Block := putDinode (blankDisk 3) 1 (Dinode.fresh T_FILE)

/-- `ialloc`, interrupted when the header is written, and again when the block is installed. -/
def allocCrash : Act behindBlank :=
  { calls := [.ialloc T_FILE]
    tx := { updates := [(3, firstInode)], home := by simp [Layout.Home, behindBlank],
            fits := by decide, cap := by decide }
    crash := some (2, [1]) }

theorem crash_consistent_allocCrash :
    ∃ m, act behindBlank ⟨boot blankDisk, blankDisk⟩ allocCrash = some m ∧
      FsOk m.mem ∧ DiskOk m.mem.sb m.disk := by
  have happly : ∀ b, allocCrash.tx.apply blankDisk b = Function.update blankDisk 3 firstInode b := by
    intro b
    by_cases hb : b = 3 <;> simp [Tx.apply, Tx.cache, allocCrash, Log.setDirty, hb]
  obtain ⟨s, hs, hst⟩ : ∃ s, Runs.exec step (boot blankDisk) allocCrash.calls = some s ∧
    s.store = Function.update blankDisk 3 firstInode := ⟨_, rfl, rfl⟩
  obtain ⟨d, hd⟩ : ∃ d, Log.step behindBlank blankDisk allocCrash.event = some d := ⟨_, rfl⟩
  have hm : act behindBlank ⟨boot blankDisk, blankDisk⟩ allocCrash = some ⟨boot d, d⟩ := by
    rw [act, hs, Option.bind_some, hd, Option.bind_some, if_pos fun b _ => hst ▸ happly b]
    rfl
  obtain ⟨hok, hdisk, -⟩ := crash_consistent (m := ⟨boot blankDisk, blankDisk⟩)
    (by unfold LogApart; decide) blank_ok.disk.boot ⟨by decide, fun _ _ => rfl⟩
    (.cons hm (.nil _)) _ (List.mem_singleton.mpr rfl)
  exact ⟨_, hm, hok, hdisk⟩

end StrideXv6.Fs
