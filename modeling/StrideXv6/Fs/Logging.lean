import StrideXv6.Lib.Recording
import StrideXv6.Fs.Content

set_option autoImplicit false

/-! # The blocks that a write takes and logs

A copy of `writei`, and of the functions it calls, that records the block number of every call
of `log_write`; without the records it is `writei` (`records_writei`).

From the inode and the bit map before the write one can tell which blocks it takes: as many of
the free blocks as `needed` says, in their order. The loop of `writei` fails exactly if there
are not that many, and otherwise it logs the blocks it writes to, the bit map blocks of those it
takes, and the indirect block if it sets an entry there (`writeLoop_spec`).
-/

namespace StrideXv6.Fs.Logging

open Bytes Ownership Hoare Recording

abbrev LogM := StateT (FsState × List Nat) (Except Panic)

def logWrite (b : Nat) (data : Block) : LogM Unit :=
  record b >>= fun _ => quiet (Fs.logWrite b data)

def balloc : LogM Nat := do
  let s ← quiet get
  match (List.range s.sb.size).find? fun b => !bit s.sb s.store b with
  | some b =>
    logWrite (BBLOCK s.sb b) (setBit (s.store (BBLOCK s.sb b)) (b % BPB))
    logWrite b fun _ => 0
    return b
  | none => throw .outOfBlocks

def loadAddr (c : Fin NINODE) (k : Fin (NDIRECT + 1)) : LogM Nat := do
  let ip ← quiet (inode c)
  if ip.d.addrs k = 0 then
    let addr ← balloc
    quiet (setDinode c (setAddr ip.d k addr))
    return addr
  else return ip.d.addrs k

def bmap (c : Fin NINODE) (bn : Nat) : LogM Nat :=
  if h : bn < NDIRECT then loadAddr c ⟨bn, Nat.lt_succ_of_lt h⟩
  else if bn - NDIRECT < NINDIRECT then do
    let ind ← loadAddr c (Fin.last NDIRECT)
    let bp ← quiet (bread ind)
    let addr := getLE bp (4 * (bn - NDIRECT)) 4
    if addr = 0 then
      let addr ← balloc
      logWrite ind (setLE bp (4 * (bn - NDIRECT)) 4 addr)
      return addr
    else return addr
  else throw .outOfRange

def writeLoop (c : Fin NINODE) : Nat → Nat → List UInt8 → LogM Nat
  | 0, off, _ => return off
  | _ + 1, off, [] => return off
  | fuel + 1, off, a :: src => do
    let addr ← bmap c (off / BSIZE)
    let bp ← quiet (bread addr)
    let m := min (src.length + 1) (BSIZE - off % BSIZE)
    logWrite addr (blit bp (off % BSIZE) ((a :: src).take m))
    writeLoop c fuel (off + m) ((a :: src).drop m)

def iupdate (c : Fin NINODE) : LogM Unit := do
  let s ← quiet get
  let ip := s.icache c
  logWrite (IBLOCK s.sb ip.inum)
    (putDinode (s.store (IBLOCK s.sb ip.inum)) (ip.inum % IPB) ip.d)

def writei (c : Fin NINODE) (off : Nat) (src : List UInt8) : LogM (Option Nat) := do
  let ip ← quiet (inode c)
  let n := src.length
  if ip.d.type = T_DEV then
    return if ip.d.major = CONSOLE then some n else none
  else if off > ip.d.size ∨ (off + n) % 2 ^ 32 < off then return none
  else if (off + n) % 2 ^ 32 > MAXFILE * BSIZE then return none
  else
    let off' ← writeLoop c n off src
    let ip ← quiet (inode c)
    if 0 < n ∧ off' > ip.d.size then
      quiet (setDinode c { ip.d with size := off' })
      iupdate c
      return some n
    else return some n

/-! ## The copies -/

theorem records_logWrite (b : Nat) (data : Block) :
    Records (logWrite b data) (Fs.logWrite b data) :=
  records_record b (records_quiet _)

theorem records_balloc : Records balloc Fs.balloc := by
  refine (records_quiet _).bind fun s => ?_
  cases (List.range s.sb.size).find? fun b => !bit s.sb s.store b with
  | none => exact records_throw _
  | some b =>
    exact (records_logWrite _ _).bind fun _ => (records_logWrite _ _).bind fun _ => records_pure b

theorem records_loadAddr (c : Fin NINODE) (k : Fin (NDIRECT + 1)) :
    Records (loadAddr c k) (Fs.loadAddr c k) :=
  (records_quiet _).bind fun _ => .ite
    (records_balloc.bind fun _ => (records_quiet _).bind fun _ => records_pure _) (records_pure _)

theorem records_bmap (c : Fin NINODE) (bn : Nat) : Records (bmap c bn) (Fs.bmap c bn) := by
  unfold bmap Fs.bmap
  split
  · exact records_loadAddr c _
  · refine .ite ((records_loadAddr c _).bind fun _ => (records_quiet _).bind fun _ => .ite ?_ ?_)
      (records_throw _)
    · exact records_balloc.bind fun _ => (records_logWrite _ _).bind fun _ => records_pure _
    · exact records_pure _

theorem records_writeLoop (c : Fin NINODE) (fuel off : Nat) (src : List UInt8) :
    Records (writeLoop c fuel off src) (Fs.writeLoop c fuel off src) := by
  induction fuel generalizing off src with
  | zero => exact records_pure off
  | succ fuel ih =>
    cases src with
    | nil => exact records_pure off
    | cons a src =>
      exact (records_bmap c _).bind fun _ => (records_quiet _).bind fun _ =>
        (records_logWrite _ _).bind fun _ => ih _ _

theorem records_iupdate (c : Fin NINODE) : Records (iupdate c) (Fs.iupdate c) :=
  (records_quiet _).bind fun _ => records_logWrite _ _

theorem records_writei (c : Fin NINODE) (off : Nat) (src : List UInt8) :
    Records (writei c off src) (Fs.writei c off src) := by
  refine (records_quiet _).bind fun ip => .ite (records_pure _) (.ite (records_pure _)
    (.ite (records_pure _) ((records_writeLoop c _ _ _).bind fun _ => ?_)))
  refine (records_quiet _).bind fun _ => .ite ?_ (records_pure _)
  exact (records_quiet _).bind fun _ => (records_iupdate c).bind fun _ => records_pure _

/-! ## Free blocks -/

/-- The free blocks, in the order in which `balloc` takes them. -/
def freeBlocks (s : FsState) : List Nat :=
  (List.range s.sb.size).filter fun b => !bit s.sb s.store b

/-- The blocks `bs` are taken. -/
structure Allocs (bs : List Nat) (s t : FsState) : Prop where
  sb : t.sb = s.sb
  free : freeBlocks s = bs ++ freeBlocks t

variable {c : Fin NINODE} {s t u : FsState} {l : List Nat}
variable {bn a : Nat} {bs r : List Nat} {d : Dinode} {st : Disk}

theorem Allocs.trans {bs bs' : List Nat} (h : Allocs bs s t) (h' : Allocs bs' t u) :
    Allocs (bs ++ bs') s u :=
  ⟨h'.sb.trans h.sb, by rw [h.free, h'.free, List.append_assoc]⟩

theorem Allocs.length {bs : List Nat} (h : Allocs bs s t) :
    (freeBlocks s).length = bs.length + (freeBlocks t).length := by
  rw [h.free, List.length_append]

/-- Only the bit map tells which blocks are free. -/
theorem allocs_nil_of_bit (hsb : t.sb = s.sb)
    (h : ∀ b < s.sb.size, bit s.sb t.store b = bit s.sb s.store b) : Allocs [] s t := by
  refine ⟨hsb, ?_⟩
  rw [List.nil_append, freeBlocks, freeBlocks, hsb]
  refine List.filter_congr fun b hb => ?_
  rw [h b (List.mem_range.mp hb)]

theorem allocs_write {b : Nat} (hb : s.sb.dataStart ≤ b) (v : Block) :
    Allocs [] s (s.withStore (Function.update s.store b v)) :=
  allocs_nil_of_bit rfl fun _ hb' => bit_data _ hb v hb'

/-- The first free block is taken. -/
theorem allocs_taken {b : Nat} (hb : s.sb.dataStart ≤ b)
    (hf : (List.range s.sb.size).find? (fun b => !bit s.sb s.store b) = some b) :
    Allocs [b] s (s.withStore (taken s.sb s.store b)) := by
  refine ⟨rfl, ?_⟩
  have hhead : (freeBlocks s).head? = some b := by rw [freeBlocks, List.head?_filter, hf]
  obtain ⟨rest, hrest⟩ := List.head?_eq_some_iff.mp hhead
  have hnd : (b :: rest).Nodup := hrest ▸ List.nodup_range.filter _
  have hnext : freeBlocks (s.withStore (taken s.sb s.store b))
      = (freeBlocks s).filter fun x => !decide (x = b) := by
    rw [freeBlocks, freeBlocks, List.filter_filter]
    refine List.filter_congr fun x hx => ?_
    show (!bit s.sb (taken s.sb s.store b) x) = _
    rw [bit_taken hb (List.mem_range.mp hx), Bool.not_or]
  rw [hnext, hrest, List.filter_cons_of_neg (by simp), List.singleton_append]
  congr 1
  refine (List.filter_eq_self.mpr fun x hx => ?_).symm
  have hne : x ≠ b := fun he => (List.nodup_cons.mp hnd).1 (he ▸ hx)
  simpa using hne

theorem logWrite_eq (s : FsState) (l : List Nat) (b : Nat) (v : Block) :
    logWrite b v (s, l) = .ok ((), s.withStore (Function.update s.store b v), l ++ [b]) := rfl

theorem balloc_spec (h : Work c s) :
    Triple (· = (s, l)) balloc
      (fun b x => Allocs [b] s x.1 ∧ x.1.icache = s.icache ∧ x.2 = l ++ [BBLOCK s.sb b, b])
      fun e => e = .outOfBlocks ∧ freeBlocks s = [] := by
  refine triple_step (quiet_ok l rfl) ?_
  cases hf : (List.range s.sb.size).find? fun b => !bit s.sb s.store b with
  | none =>
    refine triple_fail rfl ⟨rfl, List.head?_eq_none_iff.mp ?_⟩
    rw [freeBlocks, List.head?_filter, hf]
  | some b =>
    have hbit : bit s.sb s.store b = false := by simpa using List.find?_some hf
    have hdata := (h.blocks.free_block hbit).1
    refine triple_step (logWrite_eq ..) (triple_step (logWrite_eq ..) (triple_exact rfl ?_))
    exact ⟨allocs_taken hdata hf, rfl, List.append_assoc ..⟩

/-! ## One block -/

/-- What `loadAddr` takes and logs. -/
inductive LoadedLog (c : Fin NINODE) (k : Fin (NDIRECT + 1)) (a : Nat) (s : FsState)
    (l : List Nat) : FsState × List Nat → Prop where
  | present (hk : (s.icache c).d.addrs k ≠ 0) (ha : a = (s.icache c).d.addrs k) :
      LoadedLog c k a s l (s, l)
  | alloc {t : FsState} (hk : (s.icache c).d.addrs k = 0) (ht : Allocs [a] s t) :
      LoadedLog c k a s l (t, l ++ [BBLOCK s.sb a, a])

theorem loadAddr_spec (c : Fin NINODE) (k : Fin (NDIRECT + 1)) (h : Work c s) :
    Triple (· = (s, l)) (loadAddr c k)
      (fun a x => Loaded c k a s x.1 ∧ LoadedLog c k a s l x)
      fun e => e = .outOfBlocks ∧ (s.icache c).d.addrs k = 0 ∧ freeBlocks s = [] := by
  have hlog : Triple (· = (s, l)) (loadAddr c k) (fun a x => LoadedLog c k a s l x)
      fun e => e = .outOfBlocks ∧ (s.icache c).d.addrs k = 0 ∧ freeBlocks s = [] := by
    refine triple_step (quiet_ok l rfl) ?_
    by_cases hk : (s.icache c).d.addrs k = 0
    · rw [if_pos hk]
      refine triple_call (balloc_spec h) rfl (fun _ he => ⟨he.1, hk, he.2⟩) ?_
      rintro b ⟨t, l'⟩ ⟨ha, -, rfl⟩
      refine triple_step (quiet_ok _ rfl) (triple_exact rfl ?_)
      exact .alloc hk ⟨ha.sb, ha.free⟩
    · rw [if_neg hk]
      exact triple_exact rfl (.present hk rfl)
  have hplain := (records_loadAddr c k).triple (Fs.loadAddr_spec c k h)
  exact triple_conseq (triple_and (triple_conseq hplain (fun _ hx => congrArg Prod.fst hx)
    (fun _ _ hq => hq) fun _ he => he) hlog) (fun _ hx => hx) (fun _ _ hq => hq) fun _ he => he.2

/-- The number of blocks that `bmap` takes for block `bn`. -/
def needs (st : Disk) (d : Dinode) (bn : Nat) : Nat :=
  if mapped st d bn ≠ 0 then 0 else if NDIRECT ≤ bn ∧ d.addrs ind = 0 then 2 else 1

/-- What `bmap` takes and logs. -/
structure MappingLog (c : Fin NINODE) (bn a : Nat) (s t : FsState) (bs r : List Nat) : Prop where
  allocs : Allocs bs s t
  length : bs.length = needs s.store (s.icache c).d bn
  logged : ∀ y, y ∈ r ↔ y ∈ bs.map (BBLOCK s.sb) ∨
    mapped s.store (s.icache c).d bn = 0 ∧ (y = a ∨ NDIRECT ≤ bn ∧ y = (t.icache c).d.addrs ind)
  direct : bn < NDIRECT → (t.icache c).d.addrs ind = (s.icache c).d.addrs ind

theorem mapped_zero_of_ind {bn : Nat} (hbn : NDIRECT ≤ bn)
    (h0 : d.addrs ind = 0) : mapped st d bn = 0 := by
  by_cases hi : bn - NDIRECT < NINDIRECT
  · rw [mapped_place (place_indirect (by omega) hi), held, if_pos h0]
  · refine mapped_eq_zero ?_
    rw [MAXFILE]
    omega

theorem needs_mapped {bn : Nat} (h : mapped st d bn ≠ 0) :
    needs st d bn = 0 := if_pos h

theorem needs_two {bn : Nat} (hbn : NDIRECT ≤ bn) (h : d.addrs ind = 0) : needs st d bn = 2 := by
  rw [needs, if_neg (not_not.mpr (mapped_zero_of_ind hbn h)), if_pos ⟨hbn, h⟩]

theorem needs_one {bn : Nat} (h : mapped st d bn = 0)
    (hbn : bn < NDIRECT ∨ d.addrs ind ≠ 0) : needs st d bn = 1 := by
  rw [needs, if_neg (not_not.mpr h), if_neg]
  rintro ⟨h1, h2⟩
  exact hbn.elim (by omega) fun h3 => h3 h2

theorem mappingLog_mapped (h : mapped s.store (s.icache c).d bn ≠ 0) :
    MappingLog c bn a s s [] [] :=
  ⟨⟨rfl, rfl⟩, (needs_mapped h).symm, by simp [h], fun _ => rfl⟩

/-- A direct block. -/
theorem LoadedLog.mappingLog (hd : bn < NDIRECT) {x : FsState × List Nat}
    (hl : Loaded c ⟨bn, Nat.lt_succ_of_lt hd⟩ a s x.1)
    (h : LoadedLog c ⟨bn, Nat.lt_succ_of_lt hd⟩ a s l x) :
    ∃ bs r, x.2 = l ++ r ∧ MappingLog c bn a s x.1 bs r := by
  have hm : mapped s.store (s.icache c).d bn = (s.icache c).d.addrs ⟨bn, Nat.lt_succ_of_lt hd⟩ :=
    mapped_place (place_direct hd)
  cases h with
  | present hk ha => exact ⟨[], [], (List.append_nil l).symm, mappingLog_mapped (hm ▸ hk)⟩
  | alloc hk ht =>
    have hne : ind ≠ ⟨bn, Nat.lt_succ_of_lt hd⟩ := fun he => by
      have := congrArg Fin.val he
      rw [Fin.val_last] at this
      exact absurd hd (Nat.not_lt.mpr this.le)
    refine ⟨[a], _, rfl, ht, (needs_one (hm.trans hk) (Or.inl hd)).symm, ?_, fun _ => ?_⟩
    · simp [hm, hk, Nat.not_le.mpr hd]
    · rw [hl.d, setAddr_addrs, Function.update_of_ne hne]

/-- A block whose entry in the indirect block `x` is set. -/
theorem LoadedLog.mappingLog_entry {bn x b : Nat} {l' : List Nat} (hbn : NDIRECT ≤ bn)
    (h : LoadedLog c ind x s l (t, l')) (hm : mapped s.store (s.icache c).d bn = 0)
    (hb : Allocs [b] t u) (hx : (u.icache c).d.addrs ind = x) :
    ∃ bs r, l' ++ [BBLOCK t.sb b, b] ++ [x] = l ++ r ∧ MappingLog c bn b s u bs r := by
  cases h with
  | present hk _ =>
    refine ⟨[b], _, List.append_assoc .., hb, (needs_one hm (Or.inr hk)).symm, ?_,
      fun hd => absurd hbn (Nat.not_le.mpr hd)⟩
    simp [hm, hbn, hx]
  | alloc hk ht =>
    refine ⟨[x, b], [BBLOCK s.sb x, x] ++ ([BBLOCK t.sb b, b] ++ [x]), ?_, ht.trans hb,
      (needs_two hbn hk).symm, ?_, fun hd => absurd hbn (Nat.not_le.mpr hd)⟩
    · simp only [List.append_assoc]
    · intro y
      simp only [ht.sb, hm, hbn, hx, List.mem_append, List.mem_cons, List.map_cons, List.map_nil,
        List.not_mem_nil, true_and]
      tauto

theorem LoadedLog.few {bn x : Nat} {l' : List Nat} (hbn : NDIRECT ≤ bn)
    (h : LoadedLog c ind x s l (t, l')) (hm : mapped s.store (s.icache c).d bn = 0)
    (hfree : freeBlocks t = []) :
    (freeBlocks s).length < needs s.store (s.icache c).d bn := by
  cases h with
  | present hk _ =>
    rw [needs_one hm (Or.inr hk), hfree]
    exact Nat.one_pos
  | alloc hk ht =>
    rw [needs_two hbn hk, ht.length, hfree]
    exact Nat.one_lt_two

theorem bmap_log (c : Fin NINODE) {bn : Nat} (hbn : bn < MAXFILE) (h : Work c s) :
    Triple (· = (s, l)) (bmap c bn)
      (fun a x => ∃ bs r, x.2 = l ++ r ∧ MappingLog c bn a s x.1 bs r)
      fun e => e = .outOfBlocks ∧
        (freeBlocks s).length < needs s.store (s.icache c).d bn := by
  unfold bmap
  by_cases hd : bn < NDIRECT
  · rw [dif_pos hd]
    refine triple_conseq (loadAddr_spec c _ h) (fun _ hx => hx) (fun a x hx => hx.2.mappingLog hd hx.1) ?_
    rintro e ⟨he, hk, hfree⟩
    have hm : mapped s.store (s.icache c).d bn = 0 := (mapped_place (place_direct hd)).trans hk
    exact ⟨he, by rw [needs_one hm (Or.inl hd), hfree]; exact Nat.one_pos⟩
  · have hi : bn - NDIRECT < NINDIRECT := by
      rw [MAXFILE_eq] at hbn
      rw [NDIRECT_eq, NINDIRECT_eq]
      omega
    have hle : NDIRECT ≤ bn := Nat.not_lt.mp hd
    rw [dif_neg hd, if_pos hi]
    refine triple_call (loadAddr_spec c _ h) rfl ?_ ?_
    · rintro e ⟨he, hk, hfree⟩
      exact ⟨he, by rw [needs_two hle hk, hfree]; exact Nat.two_pos⟩
    rintro x ⟨t, l'⟩ ⟨hl, hll⟩
    dsimp only at hl
    have hx : (t.icache c).d.addrs ind = x := by rw [hl.d]; simp [setAddr]
    have hx0 : (t.icache c).d.addrs ind ≠ 0 := hx ▸ hl.ne
    have hm : getLE (t.store x) (4 * (bn - NDIRECT)) 4 = mapped s.store (s.icache c).d bn := by
      rw [← (hl.still h).mapped, mapped_place (place_indirect hd hi), held, if_neg hx0, hx]
    refine triple_step (quiet_ok l' rfl) ?_
    dsimp only
    by_cases ha : getLE (t.store x) (4 * (bn - NDIRECT)) 4 = 0
    · rw [if_pos ha]
      rw [hm] at ha
      refine triple_call (balloc_spec hl.work) rfl
        (fun e he => ⟨he.1, hll.few hle ha he.2⟩) ?_
      rintro b ⟨u, l''⟩ ⟨hal, hc, rfl⟩
      refine triple_step (logWrite_eq ..) (triple_exact rfl ?_)
      have hds : u.sb.dataStart ≤ x := by
        rw [hal.sb, ← hx]
        exact (hl.work.blocks.data _ _ (hl.work.owner_addr hx0)).1
      exact hll.mappingLog_entry hle ha (hal.trans (allocs_write hds _))
        ((congrArg (fun f : Fin NINODE → Inode => (f c).d.addrs ind) hc).trans hx)
    · rw [if_neg ha]
      rw [hm] at ha
      cases hll with
      | present _ _ =>
        exact triple_exact rfl ⟨[], [], (List.append_nil l).symm, mappingLog_mapped ha⟩
      | alloc h0 _ => exact absurd (mapped_zero_of_ind hle h0) ha

theorem bmap_spec (c : Fin NINODE) {bn : Nat} (hbn : bn < MAXFILE) (h : Work c s) :
    Triple (· = (s, l)) (bmap c bn)
      (fun a x => Mapping c bn a s x.1 ∧
        ∃ bs r, x.2 = l ++ r ∧ MappingLog c bn a s x.1 bs r)
      fun e => e = .outOfBlocks ∧
        (freeBlocks s).length < needs s.store (s.icache c).d bn := by
  have hplain := (records_bmap c bn).triple (Fs.bmap_spec c hbn h)
  exact triple_conseq (triple_and (triple_conseq hplain (fun _ hx => congrArg Prod.fst hx)
    (fun _ _ hq => hq) fun _ he => he) (bmap_log c hbn h)) (fun _ hx => hx) (fun _ _ hq => hq)
    fun _ he => he.2

/-! ## The loop -/

/-- The blocks of a file that hold the `n` bytes from `off` on. -/
def span (off n : Nat) : List Nat :=
  if n = 0 then [] else List.range' (off / BSIZE) ((off + n - 1) / BSIZE - off / BSIZE + 1)

theorem mem_span {off n bn : Nat} : bn ∈ span off n ↔ Touched off n bn := by
  unfold span Touched
  rw [BSIZE_eq]
  split
  · simp only [List.not_mem_nil, false_iff, not_exists]
    omega
  · rw [List.mem_range'_1]
    constructor
    · intro h
      exact ⟨max off (bn * 512), by omega, by omega, by omega⟩
    · rintro ⟨x, h1, h2, rfl⟩
      omega

/-- One turn of the loop treats one block. -/
theorem span_step {off n m : Nat} (hn : 0 < n) (hm : min n (BSIZE - off % BSIZE) = m) :
    span off n = off / BSIZE :: span (off + m) (n - m) := by
  rw [BSIZE_eq] at hm
  unfold span
  rw [if_neg hn.ne', BSIZE_eq, List.range'_succ]
  congr 1
  split
  · rw [show (off + n - 1) / 512 - off / 512 = 0 by omega]
    rfl
  · rw [show (off + m) / 512 = off / 512 + 1 by omega]
    congr 1
    omega

theorem nodup_span (off n : Nat) : (span off n).Nodup := by
  unfold span
  split
  · exact List.nodup_nil
  · exact List.nodup_range'

/-- Block `bn` is to be mapped through the indirect block. -/
def ThroughInd (st : Disk) (d : Dinode) (bn : Nat) : Prop := NDIRECT ≤ bn ∧ mapped st d bn = 0

instance (st : Disk) (d : Dinode) (bn : Nat) : Decidable (ThroughInd st d bn) :=
  inferInstanceAs (Decidable (_ ∧ _))

/-- The number of blocks that are taken to map the blocks `bns`. -/
def needed (st : Disk) (d : Dinode) (bns : List Nat) : Nat :=
  (bns.filter fun bn => mapped st d bn = 0).length
    + if (∃ bn ∈ bns, ThroughInd st d bn) ∧ d.addrs ind = 0 then 1 else 0

/-- The blocks `bns` have been mapped and written. -/
structure WriteLog (c : Fin NINODE) (bns : List Nat) (s t : FsState) (bs r : List Nat) :
    Prop where
  allocs : Allocs bs s t
  length : bs.length = needed s.store (s.icache c).d bns
  logged : ∀ y, y ∈ r ↔ y ∈ bs.map (BBLOCK s.sb) ∨
    (∃ bn ∈ bns, y = mapped t.store (t.icache c).d bn) ∨
    (∃ bn ∈ bns, ThroughInd s.store (s.icache c).d bn) ∧ y = (t.icache c).d.addrs ind

theorem writeLog_nil (c : Fin NINODE) (s : FsState) : WriteLog c [] s s [] [] :=
  ⟨⟨rfl, rfl⟩, rfl, by simp⟩

/-- After `bn` has been mapped, as many blocks less are needed as that took. -/
theorem needed_cons {st st' : Disk} {d d' : Dinode} {bn : Nat} {bns : List Nat}
    (hother : ∀ bn' ∈ bns, mapped st' d' bn' = mapped st d bn')
    (hind : NDIRECT ≤ bn → d'.addrs ind ≠ 0)
    (hkept : d.addrs ind ≠ 0 → d'.addrs ind = d.addrs ind)
    (hdirect : bn < NDIRECT → d'.addrs ind = d.addrs ind) :
    needed st d (bn :: bns) = needs st d bn + needed st' d' bns := by
  have hfilter : (bns.filter fun bn => mapped st' d' bn = 0)
      = bns.filter fun bn => mapped st d bn = 0 :=
    List.filter_congr fun bn' h => by rw [hother bn' h]
  have hex : (∃ bn' ∈ bns, ThroughInd st' d' bn') ↔ ∃ bn' ∈ bns, ThroughInd st d bn' := by
    refine exists_congr fun bn' => and_congr_right fun h => ?_
    rw [ThroughInd, ThroughInd, hother bn' h]
  unfold needed
  rw [hfilter]
  simp only [hex, List.exists_mem_cons_iff]
  by_cases hm : mapped st d bn = 0
  · rw [List.filter_cons_of_pos (by simpa using hm), List.length_cons]
    by_cases hbn : NDIRECT ≤ bn
    · by_cases h0 : d.addrs ind = 0
      · rw [needs_two hbn h0, if_pos ⟨Or.inl ⟨hbn, hm⟩, h0⟩, if_neg fun h => hind hbn h.2]
        omega
      · rw [needs_one hm (Or.inr h0), if_neg fun h => h0 h.2, if_neg fun h => hind hbn h.2]
        omega
    · have hnot : ¬ ThroughInd st d bn := fun h => hbn h.1
      rw [needs_one hm (Or.inl (by omega)), hdirect (by omega)]
      simp only [hnot, false_or]
      omega
  · have hnot : ¬ ThroughInd st d bn := fun h => hm h.2
    have hsame : d'.addrs ind = 0 ↔ d.addrs ind = 0 := by
      by_cases hbn : NDIRECT ≤ bn
      · have h0 : d.addrs ind ≠ 0 := fun h0 => hm (mapped_zero_of_ind hbn h0)
        rw [hkept h0]
      · rw [hdirect (by omega)]
    rw [List.filter_cons_of_neg (by simpa using hm), needs_mapped hm]
    simp only [hnot, hsame, false_or]
    omega

theorem mapped_kept {st st' : Disk} {d d' : Dinode} {bn : Nat}
    (h : ∀ p, held st d p ≠ 0 → held st' d' p = held st d p) (hm : mapped st d bn ≠ 0) :
    mapped st' d' bn = mapped st d bn := by
  obtain ⟨p, hp⟩ := place_of_mapped hm
  rw [mapped_place hp] at hm
  rw [mapped_place hp, mapped_place hp, h p hm]

/-- The turn of the loop that maps `bn` and writes into it: it takes `s` over `t` to `u`. -/
structure Turn (c : Fin NINODE) (bn a : Nat) (s t u : FsState) (bs r : List Nat) : Prop where
  mapping : Mapping c bn a s t
  log : MappingLog c bn a s t bs r
  write : Allocs [] t u
  cache : u.icache = t.icache
  mapped : ∀ bn', mapped u.store (u.icache c).d bn' = mapped t.store (t.icache c).d bn'

theorem Mapping.turn (h : Mapping c bn a s t) (hlog : MappingLog c bn a s t bs r) (v : Block) :
    Turn c bn a s t (t.withStore (Function.update t.store a v)) bs r := by
  have hm : Fs.mapped t.store (t.icache c).d bn ≠ 0 := by rw [h.addr]; exact h.ne
  have hds : t.sb.dataStart ≤ a := by
    obtain ⟨p, hp⟩ := place_of_mapped hm
    exact h.addr ▸ (h.work.blocks.data _ _ (h.work.owner_place hp hm)).1
  have hind := h.work.ind_write hm v
  rw [h.addr] at hind
  exact ⟨h, hlog, allocs_write hds v, rfl, fun _ => mapped_congr hind⟩

theorem Turn.allocs (h : Turn c bn a s t u bs r) :
    Allocs bs s u := by
  have := h.log.allocs.trans h.write
  rwa [List.append_nil] at this

theorem Turn.addr (h : Turn c bn a s t u bs r) :
    Fs.mapped u.store (u.icache c).d bn = a := (h.mapped bn).trans h.mapping.addr

theorem Turn.others {bs r bns : List Nat} (h : Turn c bn a s t u bs r)
    (hbn : bn ∉ bns) : ∀ bn' ∈ bns,
    Fs.mapped u.store (u.icache c).d bn' = Fs.mapped s.store (s.icache c).d bn' := fun bn' hb =>
  (h.mapped bn').trans (h.mapping.others bn' fun he => hbn (he ▸ hb))

theorem Turn.ind (h : Turn c bn a s t u bs r)
    (hle : NDIRECT ≤ bn) : (u.icache c).d.addrs Fs.ind ≠ 0 := fun h0 =>
  h.mapping.ne (h.addr ▸ mapped_zero_of_ind hle h0)

theorem Turn.needed_eq {bs r bns : List Nat} (h : Turn c bn a s t u bs r)
    (hbn : bn ∉ bns) : needed s.store (s.icache c).d (bn :: bns)
      = bs.length + needed u.store (u.icache c).d bns := by
  rw [h.log.length]
  refine needed_cons (h.others hbn) h.ind (fun h0 => ?_) fun hd => ?_
  · rw [h.cache]
    exact h.mapping.pointers (.addr Fs.ind) h0
  · rw [h.cache]
    exact h.log.direct hd

theorem regroup_logged {B B' A X M Z T I : Prop} (h : M ∨ A ↔ A ∨ T ∧ I) :
    ((B ∨ M) ∨ A) ∨ (B' ∨ X ∨ Z ∧ I) ↔ (B ∨ B') ∨ (A ∨ X) ∨ (T ∨ Z) ∧ I := by
  tauto

/-- One turn of the loop, before the rest of them. -/
theorem Turn.writeLog {bns bs bs' r r' : List Nat} {v : FsState}
    (h : Turn c bn a s t u bs r) (hbn : bn ∉ bns)
    (hptr : ∀ p, held u.store (u.icache c).d p ≠ 0 →
      held v.store (v.icache c).d p = held u.store (u.icache c).d p)
    (hrest : WriteLog c bns u v bs' r') :
    WriteLog c (bn :: bns) s v (bs ++ bs') (r ++ [a] ++ r') := by
  have hv : Fs.mapped v.store (v.icache c).d bn = a :=
    (mapped_kept hptr (by rw [h.addr]; exact h.mapping.ne)).trans h.addr
  have hex : (∃ bn' ∈ bns, ThroughInd u.store (u.icache c).d bn') ↔
      ∃ bn' ∈ bns, ThroughInd s.store (s.icache c).d bn' := by
    refine exists_congr fun bn' => and_congr_right fun hb => ?_
    rw [ThroughInd, ThroughInd, h.others hbn bn' hb]
  refine ⟨h.allocs.trans hrest.allocs, ?_, fun y => ?_⟩
  · rw [List.length_append, hrest.length, h.needed_eq hbn]
  · -- the indirect block, once there, is the same to the end
    have hvind : NDIRECT ≤ bn → (v.icache c).d.addrs Fs.ind = (t.icache c).d.addrs Fs.ind :=
      fun hle => by
        rw [← h.cache]
        exact hptr (.addr Fs.ind) (h.ind hle)
    have hthis : Fs.mapped s.store (s.icache c).d bn = 0 ∧
        (y = a ∨ NDIRECT ≤ bn ∧ y = (t.icache c).d.addrs Fs.ind) ∨ y = a ↔
        y = a ∨ ThroughInd s.store (s.icache c).d bn ∧ y = (v.icache c).d.addrs Fs.ind := by
      by_cases hle : NDIRECT ≤ bn
      · simp only [ThroughInd, hle, hvind hle, true_and]
        tauto
      · simp only [ThroughInd, hle, false_and, or_false]
        tauto
    simp only [List.mem_append, List.mem_singleton, List.map_append, h.log.logged, hrest.logged,
      h.allocs.sb, List.exists_mem_cons_iff, hv, hex]
    exact regroup_logged hthis

theorem needs_le_needed (st : Disk) (d : Dinode) (bn : Nat) (bns : List Nat) :
    needs st d bn ≤ needed st d (bn :: bns) := by
  unfold needed
  by_cases hm : mapped st d bn = 0
  · rw [List.filter_cons_of_pos (by simpa using hm), List.length_cons]
    by_cases hi : NDIRECT ≤ bn ∧ d.addrs ind = 0
    · rw [needs_two hi.1 hi.2, if_pos ⟨⟨bn, List.mem_cons_self, hi.1, hm⟩, hi.2⟩]
      omega
    · rw [needs_one hm (by omega)]
      omega
  · rw [needs_mapped hm]
    exact Nat.zero_le _

theorem writeLoop_nil (h : Work c s) (off : Nat) (l : List Nat) :
    off = off + ([] : List UInt8).length ∧ Written c off [] s s ∧
      ∃ bs r, l = l ++ r ∧ WriteLog c (span off ([] : List UInt8).length) s s bs r :=
  ⟨rfl, Written.nil h off, [], [], (List.append_nil l).symm, writeLog_nil c s⟩

theorem writeLoop_spec (c : Fin NINODE) (fuel off : Nat) (src : List UInt8) (s : FsState)
    (l : List Nat) (h : Work c s) (hfuel : src.length ≤ fuel)
    (hoff : off + src.length ≤ MAXFILE * BSIZE) :
    Triple (· = (s, l)) (writeLoop c fuel off src)
      (fun off' x => off' = off + src.length ∧ Written c off src s x.1 ∧
        ∃ bs r, x.2 = l ++ r ∧ WriteLog c (span off src.length) s x.1 bs r)
      fun e => e = .outOfBlocks ∧
        (freeBlocks s).length < needed s.store (s.icache c).d (span off src.length) := by
  induction fuel generalizing off src s l with
  | zero =>
    obtain rfl : src = [] := List.eq_nil_of_length_eq_zero (by omega)
    exact triple_exact rfl (writeLoop_nil h off l)
  | succ fuel ih =>
    cases src with
    | nil => exact triple_exact rfl (writeLoop_nil h off l)
    | cons a src =>
      have hbn : off / BSIZE < MAXFILE := by
        rw [List.length_cons] at hoff
        exact (Nat.div_lt_iff_lt_mul (by decide)).mpr (by omega)
      generalize hm : min (src.length + 1) (BSIZE - off % BSIZE) = m
      have hspan : span off (a :: src).length
          = off / BSIZE :: span (off + m) ((a :: src).length - m) :=
        span_step (Nat.succ_pos _) hm
      refine triple_call (bmap_spec c hbn h) rfl ?_ ?_
      · rintro e ⟨he, hfew⟩
        rw [hspan]
        exact ⟨he, hfew.trans_le (needs_le_needed ..)⟩
      rintro addr ⟨t, l'⟩ ⟨ht, bs, r, rfl, hlog⟩
      have hmod : off % BSIZE < BSIZE := Nat.mod_lt _ (by decide)
      have htake : ((a :: src).take m).length = m := by
        rw [List.length_take, List.length_cons]; omega
      have hdrop : ((a :: src).drop m).length = (a :: src).length - m := List.length_drop ..
      have hw := ht.written ((a :: src).take m) rfl (by omega) (by omega)
      refine triple_step (quiet_ok _ rfl) (triple_step (logWrite_eq ..) ?_)
      rw [hm]
      have hturn := Mapping.turn ht hlog (blit (t.store addr) (off % BSIZE) ((a :: src).take m))
      generalize t.withStore (Function.update t.store addr
        (blit (t.store addr) (off % BSIZE) ((a :: src).take m))) = u at hw hturn ⊢
      have hbns : off / BSIZE ∉ span (off + m) ((a :: src).length - m) :=
        (List.nodup_cons.mp (hspan ▸ nodup_span off _)).1
      refine triple_conseq (ih _ _ _ _ hw.work ?_ ?_) (fun _ hx => hx) ?_ ?_
      · rw [hdrop, List.length_cons] at *; omega
      · rw [hdrop, List.length_cons] at *; omega
      · rintro off' ⟨v, l''⟩ ⟨rfl, hv, bs', r', rfl, hrest⟩
        rw [hdrop] at hrest
        refine ⟨?_, ?_, bs ++ bs', r ++ [addr] ++ r', ?_, ?_⟩
        · rw [hdrop, List.length_cons] at *; omega
        · have := hw.append (by rw [htake]; exact hv)
          rwa [List.take_append_drop] at this
        · simp only [List.append_assoc]
        · rw [hspan]
          exact hturn.writeLog hbns hv.pointers hrest
      · rintro e ⟨he, hfew⟩
        rw [hdrop] at hfew
        rw [hspan, hturn.needed_eq hbns, hturn.allocs.length]
        exact ⟨he, Nat.add_lt_add_left hfew _⟩

/-! ## The whole write -/

/-- `writei` does not take the range: it does not start in the file, wraps, or is too long. -/
def Refused (d : Dinode) (off n : Nat) : Prop :=
  d.size < off ∨ 2 ^ 32 ≤ off + n ∨ MAXFILE * BSIZE < off + n

instance (d : Dinode) (off n : Nat) : Decidable (Refused d off n) :=
  inferInstanceAs (Decidable (_ ∨ _))

/-- `ip->size = n; iupdate(ip)` -/
def resized (c : Fin NINODE) (n : Nat) (t : FsState) : FsState :=
  let u := t.withDinode c { (t.icache c).d with size := n }
  u.withStore (putInode u.sb u.store (u.icache c).inum (u.icache c).d)

theorem iupdate_eq (s : FsState) (l : List Nat) (c : Fin NINODE) :
    iupdate c (s, l)
      = .ok ((), s.withStore (putInode s.sb s.store (s.icache c).inum (s.icache c).d),
          l ++ [IBLOCK s.sb (s.icache c).inum]) := rfl

theorem writei_refused {off : Nat} {src : List UInt8} (htype : (s.icache c).d.type ≠ T_DEV)
    (hoff : off < 2 ^ 32) (hsrc : src.length < 2 ^ 32)
    (href : Refused (s.icache c).d off src.length) : writei c off src (s, l) = .ok (none, s, l) := by
  refine (run_bind (quiet_ok l rfl)).trans ?_
  rw [if_neg htype]
  by_cases h1 : off > (s.icache c).d.size ∨ (off + src.length) % 2 ^ 32 < off
  · rw [if_pos h1]
    rfl
  · have h2 : (off + src.length) % 2 ^ 32 > MAXFILE * BSIZE := by
      unfold Refused at href
      omega
    rw [if_neg h1, if_pos h2]
    rfl

/-- The inode block that a write logs: it is written if the file grows. -/
def inodeLog (c : Fin NINODE) (s : FsState) (off n : Nat) : List Nat :=
  if 0 < n ∧ (s.icache c).d.size < off + n then [IBLOCK s.sb (s.icache c).inum] else []

/-- A write that is not refused. -/
structure Wrote (c : Fin NINODE) (off : Nat) (src : List UInt8) (s t u : FsState)
    (bs r r' : List Nat) : Prop where
  written : Written c off src s t
  log : WriteLog c (span off src.length) s t bs r
  state : u = if 0 < src.length ∧ (s.icache c).d.size < off + src.length then
    resized c (off + src.length) t else t
  logged : r' = r ++ inodeLog c s off src.length

theorem writei_spec {off : Nat} {src : List UInt8} (h : Work c s)
    (htype : (s.icache c).d.type ≠ T_DEV) (hacc : ¬ Refused (s.icache c).d off src.length) :
    Triple (· = (s, l)) (writei c off src)
      (fun n x => n = some src.length ∧ ∃ t bs r r', x.2 = l ++ r' ∧
        Wrote c off src s t x.1 bs r r')
      fun e => e = .outOfBlocks ∧
        (freeBlocks s).length < needed s.store (s.icache c).d (span off src.length) := by
  obtain ⟨h1, h2, h3⟩ : off ≤ (s.icache c).d.size ∧ off + src.length < 2 ^ 32 ∧
      off + src.length ≤ MAXFILE * BSIZE := by unfold Refused at hacc; omega
  refine triple_step (quiet_ok l rfl) ?_
  rw [if_neg htype, if_neg (by omega), if_neg (by omega)]
  refine (writeLoop_spec c src.length off src s l h le_rfl h3).next ?_
  rintro _ ⟨t, l'⟩ ⟨rfl, hw, bs, r, rfl, hlog⟩
  have hsize : (t.icache c).d.size = (s.icache c).d.size := by rw [hw.rest]
  refine triple_step (quiet_ok _ rfl) ?_
  by_cases hgrow : 0 < src.length ∧ (s.icache c).d.size < off + src.length
  · rw [if_pos (by rw [hsize]; exact hgrow)]
    refine triple_step (quiet_ok _ (setDinode_eq ..)) (triple_step (iupdate_eq ..)
      (triple_exact rfl ?_))
    refine ⟨rfl, t, bs, r, _, List.append_assoc .., hw, hlog, ?_, ?_⟩
    · rw [if_pos hgrow]
      rfl
    · rw [inodeLog, if_pos hgrow, withDinode_icache_self, withDinode_sb, hw.confined.sb]
      dsimp only
      rw [hw.confined.inum]
  · rw [if_neg (by rw [hsize]; exact hgrow)]
    refine triple_exact rfl ⟨rfl, t, bs, r, r, rfl, hw, hlog, ?_, ?_⟩
    · rw [if_neg hgrow]
    · rw [inodeLog, if_neg hgrow, List.append_nil]

end StrideXv6.Fs.Logging
