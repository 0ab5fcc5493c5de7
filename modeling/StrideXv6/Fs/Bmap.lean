import StrideXv6.Lib.Hoare
import StrideXv6.Fs.Owner

set_option autoImplicit false

/-! # The blocks of a file

While the contents of a cached inode are changed, its copy in memory is ahead of the disk.
`Work c` is what holds then: the block layer is in order if the copy in entry `c` is taken for
the inode. `Confined c s t` says that between `s` and `t` nothing changed that belongs to
another inode; every function that works on an inode stays within it, and what is known about
other inodes carries over from there.

`bmap_spec` is the specification of `bmap`: it maps the block asked for, keeps the other
blocks of the file and what is in them, and does nothing if the block was there.
-/

namespace StrideXv6.Fs

open Bytes Ownership Hoare Function

/-! ## Block `bn` of a file -/

/-- The pointer to block `bn` of a file. -/
def place (bn : Nat) : Option Ptr :=
  if h : bn < NDIRECT then some (.addr ⟨bn, Nat.lt_succ_of_lt h⟩)
  else if h : bn - NDIRECT < NINDIRECT then some (.entry ⟨bn - NDIRECT, h⟩)
  else none

/-- The block that holds block `bn` of the file, `0` if there is none. -/
def mapped (st : Disk) (d : Dinode) (bn : Nat) : Nat := ((place bn).map (held st d)).getD 0

variable {bn : Nat}

theorem place_direct (h : bn < NDIRECT) :
    place bn = some (.addr ⟨bn, Nat.lt_succ_of_lt h⟩) := dif_pos h

theorem place_indirect (h : ¬ bn < NDIRECT) (h' : bn - NDIRECT < NINDIRECT) :
    place bn = some (.entry ⟨bn - NDIRECT, h'⟩) := by
  rw [place, dif_neg h, dif_pos h']

theorem place_eq_some (h : bn < MAXFILE) : ∃ p, place bn = some p := by
  rw [MAXFILE_eq] at h
  by_cases hd : bn < NDIRECT
  · exact ⟨_, place_direct hd⟩
  · have : bn - NDIRECT < NINDIRECT := by rw [NDIRECT_eq, NINDIRECT_eq] at *; omega
    exact ⟨_, place_indirect hd this⟩

variable {p : Ptr}

theorem place_lt (h : place bn = some p) : bn < MAXFILE := by
  by_contra hlt
  rw [MAXFILE_eq] at hlt
  have h1 : ¬ bn < NDIRECT := by rw [NDIRECT_eq]; omega
  have h2 : ¬ bn - NDIRECT < NINDIRECT := by rw [NDIRECT_eq, NINDIRECT_eq]; omega
  simp [place, h1, h2] at h

theorem place_ne_ind (h : place bn = some p) : p ≠ .addr ind := by
  rintro rfl
  unfold place at h
  split at h
  · rename_i hd
    simp only [Option.some.injEq, Ptr.addr.injEq] at h
    have : bn = NDIRECT := congrArg Fin.val h
    omega
  · split at h <;> simp at h

theorem place_inj {bn bn' : Nat} (h : place bn = some p) (h' : place bn' = some p) :
    bn = bn' := by
  have hlt := place_lt h
  have hlt' := place_lt h'
  by_cases hd : bn < NDIRECT <;> by_cases hd' : bn' < NDIRECT
  · rw [place_direct hd] at h
    rw [place_direct hd', ← h] at h'
    simpa [eq_comm] using h'
  · rw [place_direct hd] at h
    rw [place_indirect hd' (by rw [MAXFILE_eq] at hlt'; rw [NDIRECT_eq, NINDIRECT_eq]; omega),
      ← h] at h'
    simp at h'
  · rw [place_direct hd', ← h,
      place_indirect hd (by rw [MAXFILE_eq] at hlt; rw [NDIRECT_eq, NINDIRECT_eq]; omega)] at h'
    simp at h'
  · rw [place_indirect hd (by rw [MAXFILE_eq] at hlt; rw [NDIRECT_eq, NINDIRECT_eq]; omega)] at h
    rw [place_indirect hd' (by rw [MAXFILE_eq] at hlt'; rw [NDIRECT_eq, NINDIRECT_eq]; omega),
      ← h] at h'
    simp only [Option.some.injEq, Ptr.entry.injEq, Fin.mk.injEq] at h'
    omega

variable {d : Dinode} {st : Disk}

theorem mapped_place (h : place bn = some p) :
    mapped st d bn = held st d p := by
  simp [mapped, h]

/-- A block of the file that is mapped has a place among the pointers. -/
theorem place_of_mapped (h : mapped st d bn ≠ 0) : ∃ p, place bn = some p :=
  Option.ne_none_iff_exists'.mp fun hp => h (by simp [mapped, hp])

theorem mapped_of_held (h : ∀ p, held st d p = 0) : mapped st d bn = 0 := by
  by_contra hm
  obtain ⟨p, hp⟩ := place_of_mapped hm
  exact hm ((mapped_place hp).trans (h p))

theorem mapped_eq_zero (h : MAXFILE ≤ bn) :
    mapped st d bn = 0 := by
  cases hp : place bn with
  | none => simp [mapped, hp]
  | some p => have := place_lt hp; omega

theorem held_congr {st st' : Disk}
    (h : d.addrs ind ≠ 0 → st' (d.addrs ind) = st (d.addrs ind)) : held st' d p = held st d p := by
  cases p with
  | addr k => rfl
  | entry j =>
    by_cases ha : d.addrs ind = 0
    · simp [held, ha]
    · simp [held, ha, h ha]

/-- What is mapped depends on the pointers of the inode and on the indirect block. -/
theorem mapped_congr {st st' : Disk} (h : d.addrs ind ≠ 0 → st' (d.addrs ind) = st (d.addrs ind)) :
    mapped st' d bn = mapped st d bn := by
  cases hp : place bn with
  | none => simp [mapped, hp]
  | some p => rw [mapped_place hp, mapped_place hp, held_congr h]

theorem mapped_of_addrs {d d' : Dinode} (h : d'.addrs = d.addrs) (bn : Nat) :
    mapped st d' bn = mapped st d bn := by
  have : held st d' = held st d := by
    funext p
    cases p <;> simp [held, h]
  rw [mapped, mapped, this]

/-- A file has no holes: block `bn` is mapped exactly if it is below the size. -/
structure Sized (st : Disk) (d : Dinode) : Prop where
  le : d.size ≤ MAXFILE * BSIZE
  mapped : ∀ bn, mapped st d bn ≠ 0 ↔ bn < (d.size + BSIZE - 1) / BSIZE

/-! ## Working on one inode -/

/-- The inodes, with the copy in entry `c` for the one it caches. -/
def current (c : Fin NINODE) (s : FsState) : Nat → Dinode :=
  Function.update (dinode s.sb s.store) (s.icache c).inum (s.icache c).d

abbrev ownerOf (c : Fin NINODE) (s : FsState) : Nat × Ptr → Option Nat :=
  owner s.sb s.store (current c s)

structure Work (c : Fin NINODE) (s : FsState) : Prop where
  layout : s.sb.Ok
  super : decodeSb (s.store 1) = s.sb
  inum : (s.icache c).inum < s.sb.ninodes
  type : (s.icache c).d.type ≠ 0
  blocks : BlocksOk s.sb s.store (ownerOf c s)

/-- Nothing of another inode changes. -/
structure Confined (c : Fin NINODE) (s t : FsState) : Prop where
  sb : t.sb = s.sb
  super : t.store 1 = s.store 1
  cache : ∀ c', c' ≠ c → t.icache c' = s.icache c'
  entry : t.icache c = { s.icache c with d := (t.icache c).d }
  dinode : ∀ i < s.sb.ninodes, i ≠ (s.icache c).inum →
    dinode s.sb t.store i = dinode s.sb s.store i
  owned : ∀ q b, q.1 ≠ (s.icache c).inum → ownerOf c s q = some b → t.store b = s.store b
  ftable : t.ftable = s.ftable
  proc : t.proc = s.proc

variable {c : Fin NINODE} {s t u : FsState}
variable {k : Fin (NDIRECT + 1)} {j : Fin NINDIRECT} {a : Nat} {b : Nat}

theorem current_self : current c s (s.icache c).inum = (s.icache c).d := update_self ..

theorem current_ne {i : Nat} (h : i ≠ (s.icache c).inum) :
    current c s i = dinode s.sb s.store i := update_of_ne h ..

theorem Confined.inum (h : Confined c s t) : (t.icache c).inum = (s.icache c).inum := by
  rw [h.entry]

theorem Confined.refl (c : Fin NINODE) (s : FsState) : Confined c s s :=
  ⟨rfl, rfl, fun _ _ => rfl, rfl, fun _ _ _ => rfl, fun _ _ _ _ => rfl, rfl, rfl⟩

/-- The other inodes own what they owned. -/
theorem Confined.ownerOf (h : Confined c s t) {q : Nat × Ptr} (hq : q.1 ≠ (s.icache c).inum) :
    ownerOf c t q = ownerOf c s q := by
  obtain ⟨i, p⟩ := q
  have hi : i ≠ (s.icache c).inum := hq
  unfold Fs.ownerOf
  rw [h.sb]
  apply owner_congr
  · intro hlt
    rw [current_ne hi, current_ne (h.inum ▸ hi), h.sb, h.dinode i hlt hi]
  · intro hlt ht ha
    exact h.owned (i, .addr ind) _ hq (owner_ind hlt ht ha)

theorem Confined.trans (h : Confined c s t) (h' : Confined c t u) : Confined c s u where
  sb := h'.sb.trans h.sb
  super := h'.super.trans h.super
  cache c' hc := (h'.cache c' hc).trans (h.cache c' hc)
  entry := by rw [h'.entry, h.entry]
  dinode i hi hne := by
    have := h'.dinode i (h.sb ▸ hi) (h.inum ▸ hne)
    rw [h.sb] at this
    rw [this, h.dinode i hi hne]
  owned q b hq hb := by
    rw [h'.owned q b (h.inum ▸ hq) ((h.ownerOf hq).trans hb), h.owned q b hq hb]
  ftable := h'.ftable.trans h.ftable
  proc := h'.proc.trans h.proc

/-- What is mapped is owned. -/
theorem Work.owner_place (h : Work c s) (hp : place bn = some p)
    (hm : mapped s.store (s.icache c).d bn ≠ 0) :
    ownerOf c s ((s.icache c).inum, p) = some (mapped s.store (s.icache c).d bn) := by
  rw [mapped_place hp] at *
  exact owner_eq_some.mpr ⟨h.inum, by rw [current_self]; exact h.type, by rw [current_self], hm⟩

theorem Work.owner_addr (h : Work c s) (hk : (s.icache c).d.addrs k ≠ 0) :
    ownerOf c s ((s.icache c).inum, .addr k) = some ((s.icache c).d.addrs k) :=
  owner_eq_some.mpr
    ⟨h.inum, by rw [current_self]; exact h.type, by rw [current_self]; rfl, hk⟩

/-! ### The single writes -/

def FsState.withStore (s : FsState) (st : Disk) : FsState := { s with store := st }

def FsState.withDinode (s : FsState) (c : Fin NINODE) (d : Dinode) : FsState :=
  { s with icache := Function.update s.icache c { s.icache c with d := d } }

@[simp] theorem withStore_store (s : FsState) (st : Disk) : (s.withStore st).store = st := rfl
@[simp] theorem withStore_sb (s : FsState) (st : Disk) : (s.withStore st).sb = s.sb := rfl
@[simp] theorem withStore_icache (s : FsState) (st : Disk) :
    (s.withStore st).icache = s.icache := rfl
@[simp] theorem withDinode_store (s : FsState) (c : Fin NINODE) (d : Dinode) :
    (s.withDinode c d).store = s.store := rfl
@[simp] theorem withDinode_sb (s : FsState) (c : Fin NINODE) (d : Dinode) :
    (s.withDinode c d).sb = s.sb := rfl
@[simp] theorem withDinode_icache_self (s : FsState) (c : Fin NINODE) (d : Dinode) :
    (s.withDinode c d).icache c = { s.icache c with d := d } := update_self ..

theorem logWrite_eq (s : FsState) (b : Nat) (v : Block) :
    logWrite b v s = .ok ((), s.withStore (Function.update s.store b v)) := rfl

theorem setDinode_eq (s : FsState) (c : Fin NINODE) (d : Dinode) :
    setDinode c d s = .ok ((), s.withDinode c d) := rfl

theorem iupdate_eq (s : FsState) (c : Fin NINODE) :
    iupdate c s
      = .ok ((), s.withStore (putInode s.sb s.store (s.icache c).inum (s.icache c).d)) := rfl

theorem confined_withDinode (c : Fin NINODE) (s : FsState) (d : Dinode) :
    Confined c s (s.withDinode c d) where
  sb := rfl
  super := rfl
  cache c' hc := by simp [FsState.withDinode, hc]
  entry := by simp [FsState.withDinode]
  dinode _ _ _ := rfl
  owned _ _ _ _ := rfl
  ftable := rfl
  proc := rfl

theorem current_withDinode (c : Fin NINODE) (s : FsState) (d : Dinode) :
    current c (s.withDinode c d) = Function.update (current c s) (s.icache c).inum d := by
  simp [current, FsState.withDinode]

theorem ownerOf_setAddr (c : Fin NINODE) (s : FsState) (k : Fin (NDIRECT + 1)) (a : Nat) :
    ownerOf c (s.withDinode c (setAddr (s.icache c).d k a))
      = owner s.sb s.store (Function.update (current c s) (s.icache c).inum
          (setAddr (current c s (s.icache c).inum) k a)) := by
  rw [ownerOf, current_withDinode, current_self, withDinode_sb, withDinode_store]

theorem current_withStore {i : Nat} (h : dinode s.sb st i = dinode s.sb s.store i) :
    current c (s.withStore st) i = current c s i := by
  simp [current, FsState.withStore, update_apply, h]

/-- Changing other fields of the inode than its pointers. -/
theorem Work.withDinode (h : Work c s) (ha : d.addrs = (s.icache c).d.addrs)
    (ht : d.type ≠ 0) : Work c (s.withDinode c d) := by
  refine ⟨h.layout, h.super, by simpa using h.inum, by simpa using ht, ?_⟩
  have : ownerOf c (s.withDinode c d) = ownerOf c s := by
    funext ⟨i, p⟩
    rw [ownerOf, current_withDinode]
    by_cases hi : i = (s.icache c).inum
    · subst hi
      have hheld : held s.store d p = held s.store (s.icache c).d p := by
        cases p <;> simp [held, ha]
      simp [owner, ht, h.type, current_self, hheld]
    · simp [owner, hi]
  rw [this]
  exact h.blocks

/-- Writing a block the inode itself owns. -/
theorem Work.confined_write (h : Work c s)
    (ha : ownerOf c s ((s.icache c).inum, p) = some a) (v : Block) :
    Confined c s (s.withStore (Function.update s.store a v)) where
  sb := rfl
  super := by
    have h1 := (h.blocks.data _ _ ha).1
    have h2 := h.layout.bmap_lt
    exact update_of_ne (by omega) ..
  cache _ _ := rfl
  entry := rfl
  dinode i hi _ := dinode_data _ h.layout hi (h.blocks.data _ _ ha).1 v
  owned q b hq hb := by
    apply update_of_ne
    rintro rfl
    exact hq (congrArg Prod.fst (h.blocks.owned.excl _ _ _ hb ha))
  ftable := rfl
  proc := rfl

/-- Writing data. -/
theorem Work.write_data (h : Work c s)
    (ha : ownerOf c s ((s.icache c).inum, p) = some a) (hp : p ≠ .addr ind) (v : Block) :
    Work c (s.withStore (Function.update s.store a v)) where
  layout := h.layout
  super := by
    have := (h.confined_write ha v).super
    rw [this]
    exact h.super
  inum := h.inum
  type := h.type
  blocks := by
    have hdata := (h.blocks.data _ _ ha).1
    have hown : ownerOf c (s.withStore (Function.update s.store a v)) = ownerOf c s :=
      (owner_congr_owned (fun i hi => current_withStore (dinode_data _ h.layout hi hdata v))
        fun _ _ _ => rfl).trans (owner_data h.blocks ha hp v)
    rw [hown]
    exact h.blocks.congr h.layout fun b hb => bit_data _ hdata v hb

/-! ## `balloc` -/

theorem balloc_eq (hf : (List.range s.sb.size).find? (fun b => !bit s.sb s.store b) = some b) :
    balloc s = .ok (b, s.withStore (taken s.sb s.store b)) := by
  unfold balloc
  simp only [bind, StateT.bind, get, getThe, MonadStateOf.get, StateT.get, pure, Except.pure,
    Except.bind, hf]
  rfl

theorem balloc_spec (s : FsState) :
    Triple (· = s) balloc
      (fun b t => t = s.withStore (taken s.sb s.store b) ∧ b < s.sb.size ∧
        bit s.sb s.store b = false)
      (· = .outOfBlocks) := by
  refine triple_step rfl ?_
  cases hf : (List.range s.sb.size).find? fun b => !bit s.sb s.store b with
  | none => exact triple_fail rfl rfl
  | some b =>
    have hmem := List.mem_of_find?_eq_some hf
    have hbit := List.find?_some hf
    exact triple_exact rfl ⟨rfl, List.mem_range.mp hmem, by simpa using hbit⟩

/-- The state after `balloc`: the block `b` is marked, zeroed, and nobody's yet. -/
structure Taken (c : Fin NINODE) (b : Nat) (s t : FsState) : Prop where
  work : Work c t
  confined : Confined c s t
  cache : t.icache = s.icache
  disk : ∀ i < s.sb.ninodes, dinode s.sb t.store i = dinode s.sb s.store i
  same : ownerOf c t = ownerOf c s
  kept : ∀ q x, ownerOf c s q = some x → t.store x = s.store x
  data : s.sb.dataStart ≤ b ∧ b < s.sb.size
  bit : bit s.sb t.store b = true
  unowned : ∀ q, ownerOf c t q ≠ some b
  zero : t.store b = fun _ => 0

theorem Work.taken (h : Work c s) (hb : b < s.sb.size) (hbit : Fs.bit s.sb s.store b = false) :
    Taken c b s (s.withStore (Fs.taken s.sb s.store b)) := by
  obtain ⟨hdata, hun⟩ := h.blocks.free_block hbit
  have hdin : ∀ i < s.sb.ninodes,
      dinode s.sb (Fs.taken s.sb s.store b) i = dinode s.sb s.store i :=
    fun i hi => dinode_taken h.layout hdata hb hi
  have hkept : ∀ q x, ownerOf c s q = some x → Fs.taken s.sb s.store b x = s.store x := by
    intro q x hq
    apply taken_elsewhere h.layout hb (Or.inr (h.blocks.data q x hq).1)
    rintro rfl
    exact hun q hq
  have hsuper : Fs.taken s.sb s.store b 1 = s.store 1 := by
    have := h.layout.bmap_lt
    exact taken_elsewhere h.layout hb (Or.inl rfl) (by omega)
  have hsame : ownerOf c (s.withStore (Fs.taken s.sb s.store b)) = ownerOf c s :=
    owner_congr_owned (fun i hi => current_withStore (hdin i hi)) hkept
  refine
    { work := ⟨h.layout, ?_, h.inum, h.type, ?_⟩
      confined := ⟨rfl, hsuper, fun _ _ => rfl, rfl, fun i hi _ => hdin i hi,
        fun q x _ hq => hkept q x hq, rfl, rfl⟩
      cache := rfl
      disk := hdin
      same := hsame
      kept := hkept
      data := ⟨hdata, hb⟩
      bit := ?_
      unowned := fun q => hsame ▸ hun q
      zero := update_self .. }
  · show decodeSb (Fs.taken s.sb s.store b 1) = s.sb
    rw [hsuper, h.super]
  · rw [hsame]
    exact h.blocks.alloc h.layout hb hbit
  · show Fs.bit s.sb (Fs.taken s.sb s.store b) b = true
    rw [bit_taken hdata hb]
    simp

/-! ## `loadAddr` -/

/-- The block taken becomes block pointer `k` of the inode. -/
theorem Taken.work_setAddr (h : Taken c b s t) (hk : (s.icache c).d.addrs k = 0) :
    Work c (t.withDinode c (setAddr (s.icache c).d k b)) := by
  have hds : 1 < s.sb.dataStart := by
    have := (h.confined.sb ▸ h.work.layout).bmap_lt
    omega
  have hb0 : b ≠ 0 := by have := h.data.1; omega
  have hd : (t.icache c).d = (s.icache c).d := by rw [h.cache]
  have hinum : (t.icache c).inum = (s.icache c).inum := by rw [h.cache]
  have hcur : current c (t.withDinode c (setAddr (s.icache c).d k b))
      = Function.update (current c t) (t.icache c).inum
          (setAddr (current c t (t.icache c).inum) k b) := by
    rw [current_withDinode, current_self, hd]
  refine ⟨h.work.layout, h.work.super, ?_, ?_, ?_⟩
  · simpa using h.work.inum
  · have := h.work.type
    rw [hd] at this
    simpa [setAddr] using this
  · have hown : ownerOf c (t.withDinode c (setAddr (s.icache c).d k b))
        = Function.update (ownerOf c t) ((t.icache c).inum, .addr k) (some b) := by
      rw [ownerOf, hcur]
      exact owner_setAddr h.work.inum (by rw [current_self]; exact h.work.type) hb0
        (by rw [current_self, hd]; exact hk) fun _ => h.zero
    have hdata : t.sb.dataStart ≤ b ∧ b < t.sb.size := h.confined.sb ▸ h.data
    rw [hown]
    exact h.work.blocks.give _ hdata (h.confined.sb ▸ h.bit) h.unowned

/-- The effect of `loadAddr`. -/
structure Loaded (c : Fin NINODE) (k : Fin (NDIRECT + 1)) (a : Nat) (s t : FsState) : Prop where
  work : Work c t
  confined : Confined c s t
  disk : ∀ i < s.sb.ninodes, dinode s.sb t.store i = dinode s.sb s.store i
  d : (t.icache c).d = setAddr (s.icache c).d k a
  kept : ∀ q x, ownerOf c s q = some x → t.store x = s.store x
  ne : a ≠ 0
  zero : (s.icache c).d.addrs k = 0 → t.store a = fun _ => 0
  same : (s.icache c).d.addrs k ≠ 0 → t = s

/-- Pointers that are set stay. -/
theorem Loaded.pointers (hs : Work c s) (h : Loaded c k a s t)
    (p : Ptr) (hp : held s.store (s.icache c).d p ≠ 0) :
    held t.store (t.icache c).d p = held s.store (s.icache c).d p := by
  by_cases hk : (s.icache c).d.addrs k = 0
  · have hind : (s.icache c).d.addrs ind ≠ 0 → t.store ((s.icache c).d.addrs ind)
        = s.store ((s.icache c).d.addrs ind) := fun ha => h.kept _ _ (hs.owner_addr ha)
    rw [h.d]
    cases p with
    | addr k' =>
      have : k' ≠ k := by rintro rfl; exact hp hk
      simp [held, this]
    | entry j =>
      have ha : (s.icache c).d.addrs ind ≠ 0 := fun ha => hp (by simp [held, ha])
      have : ind ≠ k := by rintro rfl; exact ha hk
      simp [held, this, ha, hind ha]
  · rw [h.same hk]

theorem loadAddr_spec (c : Fin NINODE) (k : Fin (NDIRECT + 1)) (h : Work c s) :
    Triple (· = s) (loadAddr c k) (fun a t => Loaded c k a s t)
      fun e => e = .outOfBlocks ∧ (s.icache c).d.addrs k = 0 := by
  refine triple_step rfl ?_
  by_cases hk : (s.icache c).d.addrs k = 0
  · rw [if_pos hk]
    refine triple_call (balloc_spec s) rfl (fun _ he => ⟨he, hk⟩) ?_
    rintro b t ⟨rfl, hb, hbit⟩
    have ht := h.taken hb hbit
    refine triple_step rfl (triple_exact rfl ?_)
    have hds := h.layout.bmap_lt
    exact
      { work := ht.work_setAddr hk
        confined := ht.confined.trans (confined_withDinode c _ _)
        disk := ht.disk
        d := by simp
        kept := ht.kept
        ne := by have := ht.data.1; omega
        zero := fun _ => ht.zero
        same := fun h0 => absurd hk h0 }
  · rw [if_neg hk]
    refine triple_exact rfl ?_
    exact
      { work := h
        confined := Confined.refl c s
        disk := fun _ _ => rfl
        d := by simp [setAddr]
        kept := fun _ _ _ => rfl
        ne := hk
        zero := fun h0 => absurd h0 hk
        same := fun _ => rfl }

/-! ## `bmap` -/

/-- The effect of `bmap`. -/
structure Mapping (c : Fin NINODE) (bn a : Nat) (s t : FsState) : Prop where
  work : Work c t
  confined : Confined c s t
  disk : ∀ i < s.sb.ninodes, dinode s.sb t.store i = dinode s.sb s.store i
  rest : (t.icache c).d = { (s.icache c).d with addrs := (t.icache c).d.addrs }
  addr : mapped t.store (t.icache c).d bn = a
  ne : a ≠ 0
  others : ∀ bn', bn' ≠ bn →
    mapped t.store (t.icache c).d bn' = mapped s.store (s.icache c).d bn'
  data : ∀ bn', mapped s.store (s.icache c).d bn' ≠ 0 →
    t.store (mapped s.store (s.icache c).d bn') = s.store (mapped s.store (s.icache c).d bn')
  pointers : ∀ p, held s.store (s.icache c).d p ≠ 0 →
    held t.store (t.icache c).d p = held s.store (s.icache c).d p
  same : mapped s.store (s.icache c).d bn ≠ 0 → t = s

theorem mapped_setAddr_direct {bn bn' : Nat} (h : bn < NDIRECT) (hne : bn' ≠ bn) (a : Nat) :
    mapped st (setAddr d ⟨bn, Nat.lt_succ_of_lt h⟩ a) bn' = mapped st d bn' := by
  cases hp : place bn' with
  | none => simp [mapped, hp]
  | some p =>
    have hpk : p ≠ .addr ⟨bn, Nat.lt_succ_of_lt h⟩ := by
      rintro rfl
      exact hne (place_inj hp (place_direct h))
    rw [mapped_place hp, mapped_place hp]
    cases p with
    | addr k =>
      have : k ≠ ⟨bn, Nat.lt_succ_of_lt h⟩ := fun he => hpk (congrArg _ he)
      simp [held, setAddr, this]
    | entry j =>
      have : ind ≠ ⟨bn, Nat.lt_succ_of_lt h⟩ := by
        intro he
        have : NDIRECT = bn := congrArg Fin.val he
        omega
      simp [held, setAddr, this]

/-- A new indirect block lists nothing, so it changes nothing in what is mapped. -/
theorem mapped_setAddr_ind {bn a : Nat} (h : d.addrs ind = 0)
    (hz : st a = fun _ => 0) : mapped st (setAddr d ind a) bn = mapped st d bn := by
  cases hp : place bn with
  | none => simp [mapped, hp]
  | some p =>
    rw [mapped_place hp, mapped_place hp]
    cases p with
    | addr k =>
      have : k ≠ ind := fun he => place_ne_ind hp (congrArg _ he)
      simp [held, setAddr, this]
    | entry j => simp [held, setAddr, h, hz, getLE, byteAt]

/-- The indirect block is owned, so its contents are kept along with what is mapped. -/
theorem Loaded.mapped_eq (h : Loaded c k a s t) (hs : Work c s) (bn : Nat) :
    mapped t.store (s.icache c).d bn = mapped s.store (s.icache c).d bn :=
  mapped_congr fun ha => h.kept _ _ (hs.owner_addr ha)

theorem Loaded.data (h : Loaded c k a s t) (hs : Work c s)
    (bn : Nat) (hm : mapped s.store (s.icache c).d bn ≠ 0) :
    t.store (mapped s.store (s.icache c).d bn) = s.store (mapped s.store (s.icache c).d bn) := by
  obtain ⟨p, hp⟩ := place_of_mapped hm
  exact h.kept _ _ (hs.owner_place hp hm)

theorem Loaded.mapping_direct {bn a : Nat} (hbn : bn < NDIRECT) (hs : Work c s)
    (h : Loaded c ⟨bn, Nat.lt_succ_of_lt hbn⟩ a s t) : Mapping c bn a s t where
  work := h.work
  confined := h.confined
  disk := h.disk
  rest := by rw [h.d]; rfl
  addr := by rw [h.d, mapped_place (place_direct hbn)]; simp [held, setAddr]
  ne := h.ne
  others bn' hne := by rw [h.d, mapped_setAddr_direct hbn hne, h.mapped_eq hs]
  data := h.data hs
  pointers := h.pointers hs
  same hm := h.same (by rwa [mapped_place (place_direct hbn)] at hm)

/-- A step that maps nothing: the file keeps its blocks and what is in them. -/
structure Still (c : Fin NINODE) (s t : FsState) : Prop where
  confined : Confined c s t
  disk : ∀ i < s.sb.ninodes, dinode s.sb t.store i = dinode s.sb s.store i
  rest : (t.icache c).d = { (s.icache c).d with addrs := (t.icache c).d.addrs }
  mapped : ∀ bn, mapped t.store (t.icache c).d bn = mapped s.store (s.icache c).d bn
  data : ∀ bn, Fs.mapped s.store (s.icache c).d bn ≠ 0 →
    t.store (Fs.mapped s.store (s.icache c).d bn) = s.store (Fs.mapped s.store (s.icache c).d bn)
  pointers : ∀ p, held s.store (s.icache c).d p ≠ 0 →
    held t.store (t.icache c).d p = held s.store (s.icache c).d p

theorem Still.trans (h : Still c s t) (h' : Still c t u) : Still c s u where
  confined := h.confined.trans h'.confined
  disk i hi := by
    have := h'.disk i (h.confined.sb ▸ hi)
    rw [h.confined.sb] at this
    rw [this, h.disk i hi]
  rest := by rw [h'.rest, h.rest]
  mapped bn := (h'.mapped bn).trans (h.mapped bn)
  data bn hm := by
    have := h'.data bn (by rwa [h.mapped bn])
    rw [h.mapped bn] at this
    rw [this, h.data bn hm]
  pointers p hp := (h'.pointers p (by rwa [h.pointers p hp])).trans (h.pointers p hp)

theorem Still.mapping {bn a : Nat} (h : Still c s t) (ht : Mapping c bn a t u)
    (h0 : Fs.mapped s.store (s.icache c).d bn = 0) : Mapping c bn a s u where
  work := ht.work
  confined := h.confined.trans ht.confined
  disk i hi := by
    have := ht.disk i (h.confined.sb ▸ hi)
    rw [h.confined.sb] at this
    rw [this, h.disk i hi]
  rest := by rw [ht.rest, h.rest]
  addr := ht.addr
  ne := ht.ne
  others bn' hne := (ht.others bn' hne).trans (h.mapped bn')
  data bn hm := by
    have := ht.data bn (by rwa [h.mapped bn])
    rw [h.mapped bn] at this
    rw [this, h.data bn hm]
  pointers p hp := (ht.pointers p (by rwa [h.pointers p hp])).trans (h.pointers p hp)
  same hm := absurd h0 hm

/-- Loading the indirect block. -/
theorem Loaded.still (hs : Work c s) (h : Loaded c ind a s t) : Still c s t where
  confined := h.confined
  disk := h.disk
  rest := by rw [h.d]; rfl
  mapped bn := by
    by_cases h0 : (s.icache c).d.addrs ind = 0
    · rw [h.d, mapped_setAddr_ind h0 (h.zero h0), h.mapped_eq hs]
    · rw [h.same h0]
  data := h.data hs
  pointers := h.pointers hs

theorem Taken.still (hs : Work c s) (h : Taken c b s t) : Still c s t where
  confined := h.confined
  disk := h.disk
  rest := by rw [h.cache]
  mapped bn := by
    rw [h.cache]
    exact mapped_congr fun ha => h.kept _ _ (hs.owner_addr ha)
  data bn hm := by
    obtain ⟨p, hp⟩ := place_of_mapped hm
    exact h.kept _ _ (hs.owner_place hp hm)
  pointers p _ := by
    rw [h.cache]
    exact held_congr fun ha => h.kept _ _ (hs.owner_addr ha)

/-- The block is listed in the indirect block: then the indirect block was there before. -/
theorem Loaded.mapping_present {bn a x : Nat} (hs : Work c s)
    (h : Loaded c ind x s t) (hp : place bn = some (.entry j))
    (ha : mapped t.store (t.icache c).d bn = a) (hne : a ≠ 0) : Mapping c bn a s t where
  work := h.work
  confined := h.confined
  disk := h.disk
  rest := (h.still hs).rest
  addr := ha
  ne := hne
  others bn' _ := (h.still hs).mapped bn'
  data := h.data hs
  pointers := h.pointers hs
  same hm := by
    apply h.same
    intro h0
    rw [mapped_place hp] at hm
    simp [held, h0] at hm

/-- The disk with block number `b` in entry `j` of the indirect block. -/
def setEntry (st : Disk) (d : Dinode) (j : Fin NINDIRECT) (b : Nat) : Disk :=
  Function.update st (d.addrs ind) (setLE (st (d.addrs ind)) (4 * j) 4 b)

theorem held_setEntry (hx : d.addrs ind ≠ 0) (j : Fin NINDIRECT) (hb : b < 2 ^ 32) (p : Ptr) :
    held (setEntry st d j b) d p = if p = .entry j then b else held st d p := by
  cases p with
  | addr k => simp [held]
  | entry j' =>
    have hj : j.val < 128 := j.isLt
    simp only [held, hx, if_false, setEntry, update_self, Ptr.entry.injEq]
    split
    · rename_i hjj
      subst hjj
      rw [getLE_setLE_self _ _ (by rw [BSIZE_eq]; omega), Nat.mod_eq_of_lt (by omega)]
    · rename_i hjj
      have : j'.val ≠ j.val := fun he => hjj (Fin.ext he)
      rw [getLE_setLE_of_disjoint _ _ (by omega)]

theorem mapped_setEntry (hx : d.addrs ind ≠ 0)
    {b bn : Nat} (hb : b < 2 ^ 32) (hp : place bn = some (.entry j)) (bn' : Nat) :
    mapped (setEntry st d j b) d bn' = if bn' = bn then b else mapped st d bn' := by
  cases hp' : place bn' with
  | none =>
    have : bn' ≠ bn := by rintro rfl; simp [hp] at hp'
    simp [mapped, hp', this]
  | some p =>
    have : p = .entry j ↔ bn' = bn := by
      constructor
      · rintro rfl; exact place_inj hp' hp
      · rintro rfl; exact Option.some.inj (hp'.symm.trans hp)
    simp only [mapped_place hp', held_setEntry hx j hb, this]

theorem Work.setEntry (h : Work c s) (hx : (s.icache c).d.addrs ind ≠ 0) (j : Fin NINDIRECT)
    (hd : s.sb.dataStart ≤ b ∧ b < s.sb.size) (hbit : bit s.sb s.store b = true)
    (hun : ∀ q, ownerOf c s q ≠ some b) :
    Work c (s.withStore (setEntry s.store (s.icache c).d j b)) := by
  have hown := h.owner_addr hx
  have hdata := (h.blocks.data _ _ hown).1
  have hconf := h.confined_write hown (setLE (s.store ((s.icache c).d.addrs ind)) (4 * j) 4 b)
  have h0 : b ≠ 0 := by have := h.layout.bmap_lt; omega
  have h32 : b < 2 ^ 32 := by have := h.layout.int; omega
  refine ⟨h.layout, ?_, h.inum, h.type, ?_⟩
  · exact (congrArg decodeSb hconf.super).trans h.super
  · have howner : ownerOf c (s.withStore (Fs.setEntry s.store (s.icache c).d j b))
        = Function.update (ownerOf c s) ((s.icache c).inum, .entry j) (some b) := by
      have hse := owner_setEntry h.blocks h.inum (by rw [current_self]; exact h.type)
        (by rw [current_self]; exact hx) j h0 h32
      rw [current_self] at hse
      exact (owner_congr_owned (fun i hi => current_withStore (dinode_data _ h.layout hi hdata _))
        fun _ _ _ => rfl).trans hse
    rw [howner]
    exact (h.blocks.give _ hd hbit hun).congr h.layout fun x hx' => bit_data _ hdata _ hx'

/-- A block that nobody owns is stored in an empty entry of the indirect block. -/
theorem Work.mapping_entry {bn b : Nat} (h : Work c s)
    (hp : place bn = some (.entry j)) (hx : (s.icache c).d.addrs ind ≠ 0)
    (hd : s.sb.dataStart ≤ b ∧ b < s.sb.size) (hbit : bit s.sb s.store b = true)
    (hun : ∀ q, ownerOf c s q ≠ some b) (h0 : mapped s.store (s.icache c).d bn = 0) :
    Mapping c bn b s (s.withStore (Fs.setEntry s.store (s.icache c).d j b)) := by
  have hown := h.owner_addr hx
  have hdata := (h.blocks.data _ _ hown).1
  have hb32 : b < 2 ^ 32 := by have := h.layout.int; omega
  refine
    { work := h.setEntry hx j hd hbit hun
      confined := h.confined_write hown _
      disk := fun i hi => dinode_data _ h.layout hi hdata _
      rest := rfl
      addr := (mapped_setEntry hx hb32 hp bn).trans (if_pos rfl)
      ne := by have := h.layout.bmap_lt; omega
      others := fun bn' hne => (mapped_setEntry hx hb32 hp bn').trans (if_neg hne)
      data := fun bn' hm => ?_
      pointers := fun p hpp => (held_setEntry hx j hb32 p).trans (if_neg ?_)
      same := fun hm => absurd h0 hm }
  swap
  · rintro rfl
    rw [mapped_place hp] at h0
    exact hpp h0
  cases hp' : place bn' with
  | none => simp [mapped, hp'] at hm
  | some p =>
    -- the indirect block itself is not mapped
    have hne : mapped s.store (s.icache c).d bn' ≠ (s.icache c).d.addrs ind := by
      intro he
      have := h.owner_place hp' hm
      rw [he] at this
      exact place_ne_ind hp' (Prod.mk.inj (h.blocks.owned.excl _ _ _ this hown)).2
    exact update_of_ne hne ..

theorem bmap_spec (c : Fin NINODE) (hbn : bn < MAXFILE) (h : Work c s) :
    Triple (· = s) (bmap c bn) (fun a t => Mapping c bn a s t)
      fun e => e = .outOfBlocks ∧ mapped s.store (s.icache c).d bn = 0 := by
  unfold bmap
  by_cases hd : bn < NDIRECT
  · rw [dif_pos hd]
    exact triple_conseq (loadAddr_spec c _ h) (fun _ hx => hx)
      (fun _ _ hl => hl.mapping_direct hd h)
      fun _ he => ⟨he.1, (mapped_place (place_direct hd)).trans he.2⟩
  · have hi : bn - NDIRECT < NINDIRECT := by
      rw [MAXFILE_eq] at hbn
      rw [NDIRECT_eq, NINDIRECT_eq]
      omega
    have hp := place_indirect hd hi
    rw [dif_neg hd, if_pos hi]
    refine triple_call (loadAddr_spec c _ h) rfl (fun _ he => ⟨he.1, ?_⟩) ?_
    · rw [mapped_place hp, held, if_pos he.2]
    intro x t hl
    have hx : (t.icache c).d.addrs ind = x := by rw [hl.d]; simp [setAddr]
    have hx0 : (t.icache c).d.addrs ind ≠ 0 := hx ▸ hl.ne
    have hm : getLE (t.store x) (4 * (bn - NDIRECT)) 4 = mapped t.store (t.icache c).d bn := by
      rw [mapped_place hp, held, if_neg hx0, hx]
    refine triple_step rfl ?_
    by_cases ha : getLE (t.store x) (4 * (bn - NDIRECT)) 4 = 0
    · rw [if_pos ha]
      have hm0 := ((hl.still h).mapped bn).symm.trans (hm ▸ ha)
      refine triple_call (balloc_spec t) rfl (fun _ he => ⟨he, hm0⟩) ?_
      rintro b _ ⟨rfl, hb, hbit⟩
      have ht := hl.work.taken hb hbit
      have hstill := ht.still hl.work
      refine triple_step rfl (triple_exact rfl ?_)
      have h0 := (hstill.mapped bn).trans (hm ▸ ha)
      have hent := ht.work.mapping_entry hp hx0 ht.data ht.bit ht.unowned h0
      have hbp : Fs.setEntry (Fs.taken t.sb t.store b) (t.icache c).d ⟨bn - NDIRECT, hi⟩ b
          = Function.update (Fs.taken t.sb t.store b) x
              (setLE (t.store x) (4 * (bn - NDIRECT)) 4 b) := by
        rw [Fs.setEntry, hx]
        congr 2
        exact ht.kept _ _ (hx ▸ hl.work.owner_addr hx0)
      show Mapping c bn b s ((t.withStore (Fs.taken t.sb t.store b)).withStore
        (Function.update (Fs.taken t.sb t.store b) x (setLE (t.store x) (4 * (bn - NDIRECT)) 4 b)))
      rw [← hbp]
      exact ((hl.still h).trans hstill).mapping hent hm0
    · rw [if_neg ha]
      exact triple_exact rfl (hl.mapping_present h hp hm.symm ha)

end StrideXv6.Fs
