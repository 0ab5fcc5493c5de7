import StrideXv6.Fs.Logging
import StrideXv6.Fs.Invariant

set_option autoImplicit false

/-! # What `writei` writes, `readi` reads

The law of the two functions on one inode without holes, in terms of the bytes of the file
(`write_read_law`). All that is asked of the rest of the disk is that no block belongs to two
inodes and that the bit map marks those that belong to one (`Work`), and, for a write, that
there are as many free blocks as the range needs.
-/

namespace StrideXv6.Fs

open Bytes Ownership Hoare Recording Logging Runs

variable {c : Fin NINODE} {s t u : FsState}
variable {src : List UInt8} {off : Nat}

theorem resized_d (c : Fin NINODE) (n : Nat) (t : FsState) :
    ((resized c n t).icache c).d = { (t.icache c).d with size := n } :=
  congrArg Inode.d (withDinode_icache_self t c { (t.icache c).d with size := n })

/-- Writing the inode to disk does not change what the file contains. -/
theorem contents_resized {n : Nat} (h : Work c t)
    (hs : Sized t.store { (t.icache c).d with size := n }) :
    Sized (resized c n t).store ((resized c n t).icache c).d ∧
      contents (resized c n t).store ((resized c n t).icache c).d
        = contents t.store { (t.icache c).d with size := n } := by
  have hw : Work c (t.withDinode c { (t.icache c).d with size := n }) := h.withDinode rfl h.type
  have hd := resized_d c n t
  rw [hd]
  have hdata : ∀ p, held t.store { (t.icache c).d with size := n } p ≠ 0 →
      (resized c n t).store (held t.store { (t.icache c).d with size := n } p)
        = t.store (held t.store { (t.icache c).d with size := n } p) := by
    rw [← hd]
    exact fun p hp => putInode_elsewhere _ hw.layout hw.inum _
      (Or.inr (hw.blocks.data _ _ (hw.owner_held hp)).1)
  refine ⟨⟨hs.le, fun bn => ?_⟩, contents_congr hs hdata⟩
  rw [← hs.mapped, mapped_congr fun ha => hdata (.addr ind) ha]

/-- A write that is not refused overwrites, and the file still has no holes. -/
theorem Logging.Wrote.contents_eq {bs r r' : List Nat}
    (h : Wrote c off src s t u bs r r') (hs : Sized s.store (s.icache c).d)
    (hacc : ¬ Refused (s.icache c).d off src.length) :
    Sized u.store (u.icache c).d ∧ (u.icache c).d.type = (s.icache c).d.type ∧
      contents u.store (u.icache c).d = overwrite (contents s.store (s.icache c).d) off src := by
  obtain ⟨h1, h3⟩ : off ≤ (s.icache c).d.size ∧ off + src.length ≤ MAXFILE * BSIZE := by
    unfold Refused at hacc; omega
  have hsize : (t.icache c).d.size = (s.icache c).d.size := by rw [h.written.rest]
  have htype : (t.icache c).d.type = (s.icache c).d.type := by rw [h.written.rest]
  rw [h.state]
  by_cases hgrow : 0 < src.length ∧ (s.icache c).d.size < off + src.length
  · rw [if_pos hgrow]
    have hmax : off + src.length = max (s.icache c).d.size (off + src.length) := by omega
    have hsz := h.written.sized hs h1 h3
      (d := { (t.icache c).d with size := off + src.length }) rfl hmax
    obtain ⟨hsz', hcont⟩ := contents_resized h.written.work hsz
    refine ⟨hsz', ?_, hcont.trans (h.written.contents_eq hs h1 rfl hmax)⟩
    rw [resized_d, htype]
  · rw [if_neg hgrow]
    have hmax : (t.icache c).d.size = max (s.icache c).d.size (off + src.length) := by omega
    exact ⟨h.written.sized hs h1 h3 rfl hmax, htype, h.written.contents_eq hs h1 rfl hmax⟩

/-- `readi` on a file without holes. -/
theorem readi_sized (hs : Sized s.store (s.icache c).d) (htype : (s.icache c).d.type ≠ T_DEV)
    {off n : Nat} (hoff : off < 2 ^ 32) (hn : n < 2 ^ 32) :
    readi c off n s = .ok (if (s.icache c).d.size < off ∨ 2 ^ 32 ≤ off + n then none
      else some (((contents s.store (s.icache c).d).drop off).take n), s) := by
  rw [readi_eq off n fun bn hbn => ?_]
  · have hiff : ((s.icache c).d.type = T_DEV ∨ off > (s.icache c).d.size ∨
        (off + n) % 2 ^ 32 < off) ↔ ((s.icache c).d.size < off ∨ 2 ^ 32 ≤ off + n) := by
      simp only [htype, false_or]
      omega
    rw [if_congr hiff rfl rfl]
  · obtain ⟨x, h1, h2, rfl⟩ := hbn
    rw [hs.mapped, BSIZE_eq]
    split at h2 <;> omega

theorem take_drop_overwrite {l : List UInt8} (src : List UInt8) (h : off ≤ l.length) :
    ((overwrite l off src).drop off).take src.length = src := by
  have hlen : (l.take off).length = off := by rw [List.length_take]; omega
  rw [overwrite, List.append_assoc, List.drop_left' hlen, List.take_left]

/-- What is known after a write that was not refused. -/
theorem writei_wrote (h : Work c s) (hdev : (s.icache c).d.type ≠ T_DEV)
    (hacc : ¬ Refused (s.icache c).d off src.length) {n : Option Nat}
    (hw : writei c off src s = .ok (n, u)) :
    n = some src.length ∧ ∃ t bs r r', Wrote c off src s t u bs r r' := by
  obtain ⟨l, hl⟩ := (records_writei c off src).exists_ok hw []
  obtain ⟨hn, t, bs, r, r', -, hwr⟩ := (Logging.writei_spec h hdev hacc).ok rfl hl
  exact ⟨hn, t, bs, r, r', hwr⟩

/-- With enough free blocks, a write that is not refused succeeds. -/
theorem writei_succeeds (h : Work c s) (hdev : (s.icache c).d.type ≠ T_DEV)
    (hacc : ¬ Refused (s.icache c).d off src.length)
    (hfree : needed s.store (s.icache c).d (span off src.length) ≤ (freeBlocks s).length) :
    ∃ t, writei c off src s = .ok (some src.length, t) := by
  have hnot : Triple (· = (s, [])) (Logging.writei c off src)
      (fun n _ => n = some src.length) fun _ => False :=
    triple_conseq (Logging.writei_spec h hdev hacc) (fun _ hx => hx) (fun _ _ hq => hq.1)
      fun e he => absurd he.2 (Nat.not_lt.mpr hfree)
  obtain ⟨n, x, hx, rfl⟩ := hnot.exists_ok rfl
  exact ⟨x.1, (records_writei c off src).ok hx⟩

/-- **The law of `writei` and `readi`** on a file or directory without holes. A write is refused,
and then changes nothing, exactly if its range starts behind the end, wraps or is longer than a
file can be; otherwise it succeeds if there are enough free blocks, its bytes are what `readi`
returns, the other bytes stay, and the size is as large as it has to be. A read fails exactly if
it starts behind the end or wraps, and otherwise returns the bytes of the file. -/
theorem write_read_law (h : Work c s) (hs : Sized s.store (s.icache c).d)
    (htype : (s.icache c).d.type = T_FILE ∨ (s.icache c).d.type = T_DIR) (off : Nat)
    (hoff : off < 2 ^ 32) (src : List UInt8) (hsrc : src.length < 2 ^ 32) :
    (∀ t, writei c off src s = .ok (none, t) ↔ Refused (s.icache c).d off src.length ∧ t = s) ∧
    (¬ Refused (s.icache c).d off src.length →
      needed s.store (s.icache c).d (span off src.length) ≤ (freeBlocks s).length →
      ∃ t, writei c off src s = .ok (some src.length, t) ∧
        readi c off src.length t = .ok (some src, t) ∧
        (t.icache c).d.size = max (s.icache c).d.size (off + src.length) ∧
        ∀ x < (s.icache c).d.size, (x < off ∨ off + src.length ≤ x) →
          fileByte t.store (t.icache c).d x = fileByte s.store (s.icache c).d x) ∧
    ∀ off < 2 ^ 32, ∀ n < 2 ^ 32,
      (readi c off n s = .ok (none, s) ↔ (s.icache c).d.size < off ∨ 2 ^ 32 ≤ off + n) ∧
      (¬ ((s.icache c).d.size < off ∨ 2 ^ 32 ≤ off + n) →
        ∃ bytes, readi c off n s = .ok (some bytes, s) ∧
          bytes.length = min n ((s.icache c).d.size - off) ∧
          ∀ i < bytes.length, bytes.getD i 0 = fileByte s.store (s.icache c).d (off + i)) := by
  have hdev : (s.icache c).d.type ≠ T_DEV := by
    rcases htype with ht | ht <;> rw [ht] <;> decide
  refine ⟨fun t => ⟨fun hw => ?_, ?_⟩, fun hacc hfree => ?_, fun off hoff n hn => ⟨?_, fun hr => ?_⟩⟩
  · by_cases href : Refused (s.icache c).d off src.length
    · rw [(records_writei c off src).ok (writei_refused (l := []) hdev hoff hsrc href)] at hw
      cases hw
      exact ⟨href, rfl⟩
    · cases (writei_wrote h hdev href hw).1
  · rintro ⟨href, rfl⟩
    exact (records_writei c off src).ok (writei_refused (l := []) hdev hoff hsrc href)
  · obtain ⟨t, ht⟩ := writei_succeeds h hdev hacc hfree
    obtain ⟨-, _, _, _, _, hwr⟩ := writei_wrote h hdev hacc ht
    obtain ⟨hsz, hty, hcont⟩ := hwr.contents_eq hs hacc
    have hle : off ≤ (contents s.store (s.icache c).d).length := by
      rw [length_contents]
      unfold Refused at hacc
      omega
    have hsize : (t.icache c).d.size = max (s.icache c).d.size (off + src.length) := by
      rw [← length_contents t.store, hcont, length_overwrite src hle, length_contents]
    refine ⟨t, ht, ?_, hsize, fun x hx hout => ?_⟩
    · rw [readi_sized hsz (hty ▸ hdev) hoff hsrc, if_neg, hcont, take_drop_overwrite src hle]
      unfold Refused at hacc
      omega
    · rw [← getD_contents t.store (t.icache c).d (by omega), hcont, getD_overwrite src hle,
        if_neg (by omega), getD_contents _ _ hx]
  · rw [readi_sized hs hdev hoff hn]
    split <;> simp_all
  · refine ⟨_, by rw [readi_sized hs hdev hoff hn, if_neg hr], ?_, fun i hi => ?_⟩
    · rw [List.length_take, List.length_drop, length_contents]
    · rw [List.length_take, List.length_drop, length_contents] at hi
      rw [← getD_contents s.store (s.icache c).d (by omega)]
      simp only [List.getD_eq_getElem?_getD, List.getElem?_take_of_lt (by omega : i < n),
        List.getElem?_drop]

/-- A new file on the blank image. -/
def newFile : FsState :=
  last blank (trace step blank [.ialloc T_FILE, .ilock 0, .update 0 0 0 1])

theorem newFile_ok : FsOk newFile := blank_ok.run (isRun_trace ..)

theorem locked_newFile : Locked 0 newFile := ⟨by decide +kernel, by decide +kernel⟩

theorem write_read_law_newFile :
    needed newFile.store (newFile.icache 0).d (span 0 [7].length) ≤ (freeBlocks newFile).length ∧
      ∃ t, writei 0 0 [7] newFile = .ok (some 1, t) ∧ readi 0 0 1 t = .ok (some [7], t) ∧
        (t.icache 0).d.size = max (newFile.icache 0).d.size 1 := by
  have hfree : needed newFile.store (newFile.icache 0).d (span 0 [7].length)
      ≤ (freeBlocks newFile).length := by decide +kernel
  have hlaw := write_read_law (newFile_ok.work locked_newFile)
    (newFile_ok.sized locked_newFile) (Or.inl (by decide +kernel)) 0 (by decide) [7] (by decide)
  obtain ⟨t, hw, hr, hs, -⟩ := hlaw.2.1 (by decide +kernel) hfree
  exact ⟨hfree, t, hw, hr, hs⟩

end StrideXv6.Fs
