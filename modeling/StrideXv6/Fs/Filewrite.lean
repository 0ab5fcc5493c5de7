import StrideXv6.Fs.Transfer
import StrideXv6.Fs.Sysfile

set_option autoImplicit false

/-! # The transactions of `filewrite`

`filewrite` cuts a write into sections, each between `begin_op` and `end_op`, and bounds the
bytes of a section by a share of `LOGSIZE`, while `begin_op` reserves `MAXOPBLOCKS` blocks for
it. The blocks that a section logs are counted here from the inode and the bit map before it
(`Wrote.card_logged`). A section of full length logs at least 13 data blocks, more than
`MAXOPBLOCKS`; and so do many shorter ones (`filewrite_fits_iff`).
-/

namespace StrideXv6.Fs

open Bytes Ownership Hoare Recording Logging

/-- `int max = ((LOGSIZE-1-1-2) / 2) * 512` -/
def sectionMax : Nat := (LOGSIZE - 1 - 1 - 2) / 2 * 512

/-- A section of `filewrite`, from `begin_op` to `end_op`. -/
def writeSection (f : Fin NFILE) (src : List UInt8) : LogM (Option Nat) := do
  let ff := (← quiet get).ftable f
  quiet (ilock ff.ip)
  let r ← Logging.writei ff.ip ff.off src
  match r with
  | some n =>
    if 0 < n then
      quiet (setFile f { ff with off := (ff.off + n) % 2 ^ 32 })
      return some n
    else return some n
  | none => return none

/-- The loop of `filewrite`; every turn writes at least one byte, so `fuel` turns are enough for
as many bytes. It ends with whether all bytes are written. -/
def filewriteLoop (f : Fin NFILE) : Nat → List UInt8 →
    StateT (FsState × List (List Nat)) (Except Panic) Bool
  | 0, _ => return true
  | _ + 1, [] => return true
  | fuel + 1, a :: src => do
    let r ← collect (writeSection f ((a :: src).take sectionMax))
    match r with
    | none => return false
    | some n =>
      if n = ((a :: src).take sectionMax).length then
        filewriteLoop f fuel ((a :: src).drop n)
      else throw .shortFilewrite

/-- `filewrite`, with `none` for `-1`; the records are the sections. The write to a pipe does not
concern the file system. -/
def filewrite (pipewrite : FsM (Option Nat)) (f : Fin NFILE) (addr : Nat → UInt8) (n : Int) :
    StateT (FsState × List (List Nat)) (Except Panic) (Option Nat) := do
  let ff := (← quiet get).ftable f
  if ff.writable = false then return none
  else
    match ff.type with
    | .pipe => quiet pipewrite
    | .inode => do
      let all ← filewriteLoop f n.toNat ((List.range n.toNat).map addr)
      return if all = true ∧ 0 ≤ n then some n.toNat else none
    | .none => throw .filewrite

/-! ## The blocks of a section -/

/-- The number of distinct blocks that a write logs: the data blocks, the bit map blocks of the
blocks it takes, the indirect block and the inode block. -/
def writeCost (c : Fin NINODE) (s : FsState) (off n : Nat) : Nat :=
  (span off n).length
    + (((freeBlocks s).take (needed s.store (s.icache c).d (span off n))).map
        (BBLOCK s.sb)).toFinset.card
    + (if ∃ bn ∈ span off n, ThroughInd s.store (s.icache c).d bn then 1 else 0)
    + (inodeLog c s off n).length

variable {c : Fin NINODE} {s t u : FsState}
variable {src : List UInt8} {f : Fin NFILE}

/-- The blocks that are taken are the first free ones. -/
theorem Logging.WriteLog.taken_eq {bns bs r : List Nat} (h : WriteLog c bns s t bs r) :
    bs = (freeBlocks s).take (needed s.store (s.icache c).d bns) := by
  rw [h.allocs.free, ← h.length, List.take_left]

theorem mem_freeBlocks {b : Nat} :
    b ∈ freeBlocks s ↔ b < s.sb.size ∧ bit s.sb s.store b = false := by
  simp [freeBlocks]

/-- Every block of the range is mapped after the write. -/
theorem Logging.Wrote.mapped_ne {off : Nat} {bs r r' : List Nat}
    (h : Wrote c off src s t u bs r r') {bn : Nat} (hbn : bn ∈ span off src.length) :
    mapped t.store (t.icache c).d bn ≠ 0 :=
  (h.written.mapped bn).mpr (Or.inr (mem_span.mp hbn))

theorem mapped_data (h : Work c s) {bn : Nat} (hm : mapped s.store (s.icache c).d bn ≠ 0) :
    s.sb.dataStart ≤ mapped s.store (s.icache c).d bn ∧
      mapped s.store (s.icache c).d bn ≠ (s.icache c).d.addrs ind := by
  obtain ⟨p, hp⟩ := place_of_mapped hm
  have hown := h.owner_place hp hm
  refine ⟨(h.blocks.data _ _ hown).1, fun he => ?_⟩
  rw [he] at hown hm
  exact place_ne_ind hp (Prod.mk.inj (h.blocks.owned.excl _ _ _ hown (h.owner_addr hm))).2

/-- The data blocks that a write to the blocks `bns` of the file logs; `t` is the state after. -/
def dataLog (c : Fin NINODE) (t : FsState) (bns : List Nat) : Finset Nat :=
  bns.toFinset.image (mapped t.store (t.icache c).d)

def indLog (c : Fin NINODE) (s t : FsState) (bns : List Nat) : Finset Nat :=
  if ∃ bn ∈ bns, ThroughInd s.store (s.icache c).d bn then {(t.icache c).d.addrs ind} else ∅

section Logged

variable {off : Nat} {src : List UInt8} {bs r r' : List Nat}

theorem Logging.Wrote.toFinset_logged (h : Wrote c off src s t u bs r r') :
    r'.toFinset = dataLog c t (span off src.length) ∪ (bs.map (BBLOCK s.sb)).toFinset
      ∪ indLog c s t (span off src.length) ∪ (inodeLog c s off src.length).toFinset := by
  have hind : ∀ y, y ∈ indLog c s t (span off src.length) ↔
      (∃ bn ∈ span off src.length, ThroughInd s.store (s.icache c).d bn) ∧
        y = (t.icache c).d.addrs ind := by
    intro y
    rw [indLog]
    split <;> simp_all
  have hdata : ∀ y, y ∈ dataLog c t (span off src.length) ↔
      ∃ bn ∈ span off src.length, y = mapped t.store (t.icache c).d bn := by
    intro y
    simp only [dataLog, Finset.mem_image, List.mem_toFinset, eq_comm]
  ext y
  rw [h.logged, List.toFinset_append, Finset.mem_union, List.mem_toFinset, h.log.logged,
    Finset.mem_union, Finset.mem_union, Finset.mem_union, hind, hdata, List.mem_toFinset,
    List.mem_toFinset, ← or_assoc, or_comm (a := y ∈ bs.map (BBLOCK s.sb))]

theorem Logging.Wrote.data_of_mem (h : Wrote c off src s t u bs r r') {y : Nat}
    (hy : y ∈ dataLog c t (span off src.length)) :
    s.sb.dataStart ≤ y ∧ y ≠ (t.icache c).d.addrs ind := by
  obtain ⟨bn, hbn, rfl⟩ := Finset.mem_image.mp hy
  rw [← h.written.confined.sb]
  exact mapped_data h.written.work (h.mapped_ne (List.mem_toFinset.mp hbn))

theorem Logging.Wrote.ind_of_mem (h : Wrote c off src s t u bs r r') {y : Nat}
    (hy : y ∈ indLog c s t (span off src.length)) :
    s.sb.dataStart ≤ y ∧ y = (t.icache c).d.addrs ind := by
  unfold indLog at hy
  split at hy
  · rename_i hex
    obtain ⟨bn, hbn, hle, -⟩ := hex
    have h0 : (t.icache c).d.addrs ind ≠ 0 := fun h0 => h.mapped_ne hbn (mapped_zero_of_ind hle h0)
    have hw := h.written.work
    rw [Finset.mem_singleton.mp hy, ← h.written.confined.sb]
    exact ⟨(hw.blocks.data _ _ (hw.owner_addr h0)).1, rfl⟩
  · exact absurd hy (Finset.notMem_empty y)

theorem Logging.Wrote.map_of_mem (h : Wrote c off src s t u bs r r') {y : Nat}
    (hy : y ∈ (bs.map (BBLOCK s.sb)).toFinset) : s.sb.bmapstart ≤ y ∧ y < s.sb.dataStart := by
  rw [h.log.taken_eq] at hy
  obtain ⟨b, hb, rfl⟩ := List.mem_map.mp (List.mem_toFinset.mp hy)
  exact s.sb.bblock (mem_freeBlocks.mp (List.mem_of_mem_take hb)).1

theorem inode_of_mem (h : Work c s) {n y : Nat} (hy : y ∈ (inodeLog c s off n).toFinset) :
    y < s.sb.bmapstart := by
  rw [List.mem_toFinset] at hy
  unfold inodeLog at hy
  split at hy
  · rw [List.mem_singleton.mp hy]
    exact (h.layout.iblock h.inum).2
  · exact absurd hy List.not_mem_nil

theorem Logging.Wrote.card_data (h : Wrote c off src s t u bs r r') :
    (dataLog c t (span off src.length)).card = (span off src.length).length := by
  rw [dataLog, Finset.card_image_of_injOn, List.toFinset_card_of_nodup (nodup_span ..)]
  intro bn hbn bn' hbn' he
  exact h.written.work.mapped_inj (h.mapped_ne (List.mem_toFinset.mp hbn')) he

/-- The data blocks, the bit map blocks, the indirect block and the inode block are all
different. -/
theorem Logging.Wrote.card_logged (hs : Work c s) (h : Wrote c off src s t u bs r r') :
    r'.toFinset.card = writeCost c s off src.length := by
  have hlt := hs.layout.bmap_lt
  rw [h.toFinset_logged, Finset.card_union_of_disjoint, Finset.card_union_of_disjoint,
    Finset.card_union_of_disjoint, h.card_data, writeCost, h.log.taken_eq]
  · congr 1
    · congr 1
      rw [indLog]
      split <;> rfl
    · rw [inodeLog]
      split <;> rfl
  · refine Finset.disjoint_left.mpr fun y hy hy' => ?_
    have h1 := h.data_of_mem hy
    have h2 := h.map_of_mem hy'
    omega
  · refine Finset.disjoint_left.mpr fun y hy hy' => ?_
    have h2 := h.ind_of_mem hy'
    rcases Finset.mem_union.mp hy with hy | hy
    · exact (h.data_of_mem hy).2 h2.2
    · have h1 := h.map_of_mem hy
      omega
  · refine Finset.disjoint_left.mpr fun y hy hy' => ?_
    have h2 := inode_of_mem hs hy'
    rcases Finset.mem_union.mp hy with hy | hy
    · rcases Finset.mem_union.mp hy with hy | hy
      · have h1 := (h.data_of_mem hy).1
        omega
      · have h1 := h.map_of_mem hy
        omega
    · have h1 := h.ind_of_mem hy
      omega

end Logged

/-! ## The sections -/

/-- The state after `ilock`. -/
def loaded (c : Fin NINODE) (s : FsState) : FsState :=
  if (s.icache c).valid = true then s
  else s.withInode c
    { s.icache c with d := dinode s.sb s.store (s.icache c).inum, valid := true }

theorem ilock_eq (h : ((loaded c s).icache c).d.type ≠ 0) : ilock c s = .ok ((), loaded c s) := by
  unfold loaded at *
  refine run_get.trans ?_
  by_cases hv : (s.icache c).valid = true
  · rw [if_pos hv, if_pos hv]
    rfl
  · rw [if_neg hv] at h
    rw [if_neg hv, if_neg hv, run_bind (readInode_eq ..), run_bind (setInode_eq ..), if_neg]
    · rfl
    · simpa using h

/-- A section logs nothing if the write is refused, and else what `writeCost` says. -/
theorem writeSection_ok {r : Option Nat} {l : List Nat}
    (hc : (s.ftable f).ip = c) (hw : Work c (loaded c s))
    (htype : ((loaded c s).icache c).d.type ≠ T_DEV) (hoff : (s.ftable f).off < 2 ^ 32)
    (hsrc : src.length < 2 ^ 32) (h : writeSection f src (s, []) = .ok (r, t, l)) :
    if Refused ((loaded c s).icache c).d (s.ftable f).off src.length then r = none ∧ l = []
    else r = some src.length ∧
      l.toFinset.card = writeCost c (loaded c s) (s.ftable f).off src.length := by
  unfold writeSection at h
  rw [run_bind (quiet_ok [] rfl)] at h
  rw [hc, run_bind (quiet_ok [] (ilock_eq hw.type))] at h
  obtain ⟨n, ⟨u, l'⟩, hwrite, hrest⟩ := exists_of_bind_ok h
  -- what follows the write only moves the offset of the file
  have hlast : r = n ∧ l = l' := by
    cases n with
    | none =>
      cases hrest
      exact ⟨rfl, rfl⟩
    | some n =>
      dsimp only at hrest
      split at hrest <;> cases hrest <;> exact ⟨rfl, rfl⟩
  obtain ⟨rfl, rfl⟩ := hlast
  split
  · rename_i href
    rw [writei_refused htype hoff hsrc href] at hwrite
    cases hwrite
    exact ⟨rfl, rfl⟩
  · rename_i hacc
    obtain ⟨hr, t', bs, r', r'', hl, hwr⟩ := (Logging.writei_spec hw htype hacc).ok rfl hwrite
    rw [List.nil_append] at hl
    dsimp only at hl
    exact ⟨hr, by rw [hl, hwr.card_logged hw]⟩

theorem collect_ok {α : Type} {m : LogM α} {ls ls' : List (List Nat)} {a : α}
    (h : collect m (s, ls) = .ok (a, t, ls')) :
    ∃ l, m (s, []) = .ok (a, t, l) ∧ ls' = ls ++ [l] := by
  unfold collect at h
  cases hm : m (s, []) with
  | error e => rw [hm] at h; cases h
  | ok x =>
    rw [hm] at h
    obtain ⟨a', t', l⟩ := x
    cases h
    exact ⟨l, rfl, rfl⟩

/-- The loop only adds sections. -/
theorem filewriteLoop_adds {fuel : Nat} {ls ls' : List (List Nat)} {b : Bool}
    (h : filewriteLoop f fuel src (s, ls) = .ok (b, t, ls')) : ls <+: ls' := by
  induction fuel generalizing src s ls with
  | zero =>
    cases h
    exact List.prefix_rfl
  | succ fuel ih =>
    cases src with
    | nil =>
      cases h
      exact List.prefix_rfl
    | cons a src =>
      obtain ⟨r, ⟨u, l'⟩, hsec, hrest⟩ := exists_of_bind_ok h
      obtain ⟨l, -, rfl⟩ := collect_ok hsec
      cases r with
      | none =>
        cases hrest
        exact List.prefix_append ls [l]
      | some n =>
        dsimp only at hrest
        split at hrest
        · exact (List.prefix_append ls [l]).trans (ih hrest)
        · cases hrest

/-- What has to hold of the file and the bit map before the call: the write is refused, or it
is one section and the blocks of that are few enough. -/
def Fits (c : Fin NINODE) (s : FsState) (off n : Nat) : Prop :=
  Refused (s.icache c).d off (min n sectionMax) ∨
    n < sectionMax ∧ writeCost c s off n ≤ MAXOPBLOCKS

theorem sectionMax_eq : sectionMax = 6656 := rfl

/-- A full section has more data blocks than its reservation. -/
theorem lt_writeCost (c : Fin NINODE) (s : FsState) (off : Nat) :
    MAXOPBLOCKS < writeCost c s off sectionMax := by
  have hlen : MAXOPBLOCKS < (span off sectionMax).length := by
    rw [span, if_neg (by decide), List.length_range', BSIZE_eq, sectionMax_eq, MAXOPBLOCKS]
    omega
  unfold writeCost
  omega

theorem filewriteLoop_fits {b : Bool} {ls : List (List Nat)}
    (hc : (s.ftable f).ip = c) (hw : Work c (loaded c s))
    (htype : ((loaded c s).icache c).d.type ≠ T_DEV) (hoff : (s.ftable f).off < 2 ^ 32)
    (h : filewriteLoop f src.length src (s, []) = .ok (b, t, ls)) :
    (∀ l ∈ ls, l.toFinset.card ≤ MAXOPBLOCKS) ↔
      Fits c (loaded c s) (s.ftable f).off src.length := by
  cases src with
  | nil =>
    cases h
    refine iff_of_true (fun l hl => absurd hl List.not_mem_nil) (Or.inr ⟨by decide, ?_⟩)
    simp [writeCost, span, inodeLog, needed]
  | cons a src =>
    generalize hlen : (a :: src).length = n at h ⊢
    have htake : ((a :: src).take sectionMax).length = min n sectionMax := by
      rw [List.length_take, hlen, Nat.min_comm]
    obtain ⟨fuel, rfl⟩ : ∃ fuel, n = fuel + 1 := ⟨src.length, hlen.symm⟩
    obtain ⟨r, ⟨u, l'⟩, hsec, hrest⟩ := exists_of_bind_ok h
    obtain ⟨l, hl, rfl⟩ := collect_ok hsec
    have hone := writeSection_ok hc hw htype hoff
      (by rw [htake, sectionMax_eq]; omega) hl
    rw [htake] at hone
    split at hone
    · rename_i href
      obtain ⟨rfl, rfl⟩ := hone
      cases hrest
      refine iff_of_true (fun l hl => ?_) (Or.inl href)
      rw [List.mem_singleton.mp hl]
      exact Nat.zero_le _
    · rename_i hacc
      obtain ⟨rfl, hcard⟩ := hone
      dsimp only at hrest
      rw [if_pos htake.symm] at hrest
      have hmem := (filewriteLoop_adds hrest).subset (List.mem_singleton.mpr rfl)
      by_cases hlt : fuel + 1 < sectionMax
      · -- the only section
        rw [min_eq_left hlt.le] at *
        rw [List.drop_of_length_le hlen.le] at hrest
        have hls : ls = [l] := by cases fuel <;> cases hrest <;> rfl
        subst hls
        simp only [List.mem_singleton, forall_eq, hcard, Fits, min_eq_left hlt.le, hacc, hlt,
          true_and, false_or]
      · rw [min_eq_right (Nat.not_lt.mp hlt)] at *
        refine iff_of_false (fun hall => ?_) ?_
        · have := hall l hmem
          rw [hcard] at this
          exact absurd (lt_writeCost c (loaded c s) (s.ftable f).off) (Nat.not_lt.mpr this)
        · rw [Fits, min_eq_right (Nat.not_lt.mp hlt)]
          exact not_or.mpr ⟨hacc, fun hx => hlt hx.1⟩

/-- **The reservation of `filewrite`.** For every call on a regular file that ends, each section
between `begin_op` and `end_op` logs at most `MAXOPBLOCKS` distinct blocks if and only if the
write is refused, or it is shorter than `sectionMax` and the blocks it logs, counted from the
inode and the bit map before the call, are at most `MAXOPBLOCKS`. -/
theorem filewrite_fits_iff {pipewrite : FsM (Option Nat)} {f : Fin NFILE} {addr : Nat → UInt8}
    {n : Int} {r : Option Nat} {ls : List (List Nat)}
    (hwr : (s.ftable f).writable = true) (hino : (s.ftable f).type = .inode)
    (hc : (s.ftable f).ip = c) (hw : Work c (loaded c s))
    (htype : ((loaded c s).icache c).d.type = T_FILE) (hoff : (s.ftable f).off < 2 ^ 32)
    (h : filewrite pipewrite f addr n (s, []) = .ok (r, t, ls)) :
    (∀ l ∈ ls, l.toFinset.card ≤ MAXOPBLOCKS) ↔ Fits c (loaded c s) (s.ftable f).off n.toNat := by
  unfold filewrite at h
  rw [run_bind (quiet_ok [] rfl)] at h
  rw [if_neg (by rw [hwr]; decide), hino] at h
  obtain ⟨b, ⟨u, l'⟩, hloop, hrest⟩ := exists_of_bind_ok h
  cases hrest
  have hdev : ((loaded c s).icache c).d.type ≠ T_DEV := by rw [htype]; decide
  have hlen : ((List.range n.toNat).map addr).length = n.toNat := by simp
  have hfits := filewriteLoop_fits hc hw hdev hoff (by rw [hlen]; exact hloop)
  rwa [hlen] at hfits

/-- The new file, open for writing at its start. -/
def openedFile : FsState :=
  { newFile with ftable := fun _ =>
      { type := .inode, ref := 1, readable := true, writable := true, ip := 0, off := 0 } }

theorem work_openedFile : Work 0 openedFile :=
  have h := newFile_ok.work locked_newFile
  ⟨h.layout, h.super, h.inum, h.type, h.blocks⟩

theorem loaded_openedFile : loaded 0 openedFile = openedFile :=
  if_pos locked_newFile.valid

/-- Writing one block to the new file. -/
theorem filewrite_fits_openedFile : Fits 0 openedFile 0 512 ∧
    ∃ r t ls, filewrite (pure none) 0 (fun _ => 7) 512 (openedFile, []) = .ok (r, t, ls) ∧
      ∀ l ∈ ls, l.toFinset.card ≤ MAXOPBLOCKS := by
  have hfits : Fits 0 openedFile 0 512 := Or.inr ⟨by decide, by decide +kernel⟩
  have hok : (filewrite (pure none) 0 (fun _ => 7) 512 (openedFile, [])).toBool = true := by
    decide +kernel
  cases h : filewrite (pure none) 0 (fun _ => 7) 512 (openedFile, []) with
  | error e => rw [h] at hok; cases hok
  | ok x =>
    obtain ⟨r, t, ls⟩ := x
    refine ⟨hfits, r, t, ls, rfl, ?_⟩
    have hw : Work 0 (loaded 0 openedFile) := by rw [loaded_openedFile]; exact work_openedFile
    refine (filewrite_fits_iff (c := 0) rfl rfl rfl hw ?_ (by decide) h).mpr ?_
    · rw [loaded_openedFile]
      decide +kernel
    · rw [loaded_openedFile]
      exact hfits

/-- Writing 4097 bytes to the new file: nine data blocks, the bit map block and the inode block
are logged in one section. -/
theorem filewrite_exceeds :
    (filewrite (pure none) 0 (fun _ => 7) 4097 (openedFile, [])).toOption.map
      (fun x => (x.1, x.2.2.map fun l => l.toFinset.card)) = some (some 4097, [11]) ∧
    MAXOPBLOCKS < 11 := by
  decide +kernel

end StrideXv6.Fs
