import StrideXv6.Fs.Content

set_option autoImplicit false

/-! # The consistent file system

`DiskOk` is the invariant of the disk: the superblock describes it, the block layer is in order
(`BlocksOk`) and no file has holes. `FsOk` adds the inode cache: an inode is cached at most
once, and a valid copy is what the disk has. This is the state in which the functions of
`fs.c` are called, and each of them leaves it so.

A function that works on one inode leaves `FsOk` for `Work` and comes back when it has written
the inode (`FsOk.close`).
-/

namespace StrideXv6.Fs

open Bytes Ownership Hoare Function

/-- The blocks the inodes on disk own. -/
abbrev blockOwner (s : FsState) : Nat × Ptr → Option Nat := owner s.sb s.store (dinode s.sb s.store)

structure DiskOk (sb : Superblock) (st : Disk) : Prop where
  layout : sb.Ok
  super : decodeSb (st 1) = sb
  blocks : BlocksOk sb st (owner sb st (dinode sb st))
  sized : ∀ i < sb.ninodes, (dinode sb st i).type ≠ 0 → Sized st (dinode sb st i)

structure FsOk (s : FsState) : Prop where
  disk : DiskOk s.sb s.store
  inum : ∀ c, 0 < (s.icache c).ref → (s.icache c).inum < s.sb.ninodes
  distinct : ∀ c c', 0 < (s.icache c).ref → 0 < (s.icache c').ref →
    (s.icache c).inum = (s.icache c').inum → c = c'
  coherent : ∀ c, 0 < (s.icache c).ref → (s.icache c).valid = true →
    (s.icache c).d = dinode s.sb s.store (s.icache c).inum ∧ (s.icache c).d.type ≠ 0

/-- The entry is in use and holds a copy of its inode, as after `ilock`. -/
structure Locked (c : Fin NINODE) (s : FsState) : Prop where
  ref : 0 < (s.icache c).ref
  valid : (s.icache c).valid = true

variable {c : Fin NINODE} {s t u : FsState} {sb : Superblock} {st : Disk}

theorem dinode_fits (sb : Superblock) (st : Disk) (i : Nat) : (dinode sb st i).Fits where
  type := getLE_lt _ _ 2
  major := getLE_lt _ _ 2
  minor := getLE_lt _ _ 2
  nlink := getLE_lt _ _ 2
  size := getLE_lt _ _ 4
  addrs _ := getLE_lt _ _ 4

theorem FsOk.d_eq (h : FsOk s) (hc : Locked c s) :
    (s.icache c).d = dinode s.sb s.store (s.icache c).inum := (h.coherent c hc.ref hc.valid).1

theorem FsOk.type_ne (h : FsOk s) (hc : Locked c s) : (s.icache c).d.type ≠ 0 :=
  (h.coherent c hc.ref hc.valid).2

theorem FsOk.fits (h : FsOk s) (hc : Locked c s) : (s.icache c).d.Fits :=
  h.d_eq hc ▸ dinode_fits _ _ _

theorem FsOk.sized (h : FsOk s) (hc : Locked c s) : Sized s.store (s.icache c).d := by
  have ht := h.type_ne hc
  rw [h.d_eq hc] at *
  exact h.disk.sized _ (h.inum c hc.ref) ht

/-- With the inode written back there is nothing ahead of the disk. -/
theorem current_of_eq (h : (s.icache c).d = dinode s.sb s.store (s.icache c).inum) :
    current c s = dinode s.sb s.store := by
  rw [current, h]
  exact update_eq_self ..

theorem FsOk.work (h : FsOk s) (hc : Locked c s) : Work c s where
  layout := h.disk.layout
  super := h.disk.super
  inum := h.inum c hc.ref
  type := h.type_ne hc
  blocks := by
    rw [ownerOf, current_of_eq (h.d_eq hc)]
    exact h.disk.blocks

theorem Confined.locked (h : Confined c s t) (hc : Locked c s) : Locked c t :=
  ⟨by rw [h.entry]; exact hc.ref, by rw [h.entry]; exact hc.valid⟩

/-- The indirect block of another inode is as before, so its blocks are. -/
theorem Confined.mapped_other (h : Confined c s t) {i : Nat}
    (hi : i < s.sb.ninodes) (hne : i ≠ (s.icache c).inum)
    (ht : (Fs.dinode s.sb s.store i).type ≠ 0) (bn : Nat) :
    mapped t.store (Fs.dinode s.sb s.store i) bn
      = mapped s.store (Fs.dinode s.sb s.store i) bn := by
  apply mapped_congr
  intro ha
  have hown : Fs.ownerOf c s (i, .addr ind) = some ((Fs.dinode s.sb s.store i).addrs ind) := by
    rw [← current_ne hne] at *
    exact owner_ind hi ht ha
  exact h.owned (i, .addr ind) _ hne hown

theorem FsOk.close (h : FsOk s) (hc : Locked c s) (hconf : Confined c s t) (hw : Work c t)
    (hd : (t.icache c).d = dinode t.sb t.store (t.icache c).inum)
    (hsz : Sized t.store (t.icache c).d) : FsOk t := by
  have hct := hconf.locked hc
  refine ⟨⟨hw.layout, hw.super, ?_, fun i hi ht => ?_⟩, fun c' hr => ?_, fun c₁ c₂ h1 h2 he => ?_,
    fun c' hr hv => ?_⟩
  · have := hw.blocks
    rwa [ownerOf, current_of_eq hd] at this
  · by_cases hne : i = (t.icache c).inum
    · rw [hne, ← hd]
      exact hsz
    · rw [hconf.sb] at *
      rw [hconf.inum] at hne
      rw [hconf.dinode i hi hne] at *
      obtain ⟨hle, hmap⟩ := h.disk.sized i hi ht
      refine ⟨hle, fun bn => ?_⟩
      rw [hconf.mapped_other hi hne ht, hmap]
  · by_cases hcc : c' = c
    · rw [hcc]; exact hw.inum
    · rw [hconf.cache c' hcc] at *
      rw [hconf.sb]
      exact h.inum c' hr
  · have key : ∀ c', 0 < (t.icache c').ref →
        0 < (s.icache c').ref ∧ (t.icache c').inum = (s.icache c').inum := by
      intro c' hr
      by_cases hcc : c' = c
      · rw [hcc]; exact ⟨hc.ref, hconf.inum⟩
      · rw [hconf.cache c' hcc] at *; exact ⟨hr, rfl⟩
    obtain ⟨h1, e1⟩ := key c₁ h1
    obtain ⟨h2, e2⟩ := key c₂ h2
    exact h.distinct c₁ c₂ h1 h2 (e1 ▸ e2 ▸ he)
  · by_cases hcc : c' = c
    · rw [hcc]; exact ⟨hd, hw.type⟩
    · rw [hconf.cache c' hcc] at *
      have hne : (s.icache c').inum ≠ (s.icache c).inum :=
        fun he => hcc (h.distinct c' c hr hc.ref he)
      rw [hconf.sb, hconf.dinode _ (h.inum c' hr) hne]
      exact h.coherent c' hr hv

/-! ## Writing an inode -/

/-- Pointers of an inode being worked on fit their fields. -/
theorem Work.addrs_fit (h : Work c s) (k : Fin (NDIRECT + 1)) :
    (s.icache c).d.addrs k < 2 ^ 32 := by
  by_cases h0 : (s.icache c).d.addrs k = 0
  · omega
  · have h1 := (h.blocks.data _ _ (h.owner_addr h0)).2
    have h2 := h.layout.int
    omega

theorem Work.iupdate (h : Work c s) (hf : (s.icache c).d.Fits) {t : FsState}
    (ht : t = s.withStore (putInode s.sb s.store (s.icache c).inum (s.icache c).d)) :
    Work c t ∧ Confined c s t ∧ (t.icache c).d = dinode t.sb t.store (t.icache c).inum := by
  subst ht
  have hsuper := putInode_elsewhere s.store h.layout h.inum (s.icache c).d (Or.inl rfl)
  have hdata : ∀ b, s.sb.dataStart ≤ b →
      putInode s.sb s.store (s.icache c).inum (s.icache c).d b = s.store b :=
    fun b hb => putInode_elsewhere s.store h.layout h.inum (s.icache c).d (Or.inr hb)
  have hself : dinode s.sb (putInode s.sb s.store (s.icache c).inum (s.icache c).d)
      (s.icache c).inum = (s.icache c).d := dinode_putInode_self _ hf
  refine ⟨⟨h.layout, (congrArg decodeSb hsuper).trans h.super, h.inum, h.type, ?_⟩,
    ⟨rfl, hsuper, fun _ _ => rfl, rfl, fun i _ hne => dinode_putInode_ne _ _ hne,
      fun q b _ hb => hdata b (h.blocks.data q b hb).1, rfl, rfl⟩, hself.symm⟩
  have hown : ownerOf c (s.withStore (putInode s.sb s.store (s.icache c).inum (s.icache c).d))
      = ownerOf c s := by
    apply owner_congr_owned
    · intro i _
      by_cases hne : i = (s.icache c).inum
      · subst hne
        rw [current_self]
        exact current_self
      · exact current_withStore (dinode_putInode_ne _ _ hne)
    · exact fun q b hb => hdata b (h.blocks.data q b hb).1
  rw [hown]
  exact h.blocks.congr h.layout fun b hb => bit_putInode _ h.layout h.inum _ hb

section Put

variable {i : Nat} {d : Dinode}

/-- The new inode owns what the one on disk owns. -/
def SameBlocks (sb : Superblock) (st : Disk) (i : Nat) (d : Dinode) : Prop :=
  ∀ p, (if d.type ≠ 0 then ptr (held st d p) else none) = owner sb st (dinode sb st) (i, p)

/-- An indirect block is owned, so it lies in the data area. -/
theorem DiskOk.ind_put (h : DiskOk sb st) (hi : i < sb.ninodes) (hown : SameBlocks sb st i d)
    (ht : d.type ≠ 0) (ha : d.addrs ind ≠ 0) :
    putInode sb st i d (d.addrs ind) = st (d.addrs ind) := by
  have := hown (.addr ind)
  rw [if_pos ht, held, ptr, if_neg ha] at this
  exact putInode_elsewhere st h.layout hi d (Or.inr (h.blocks.data _ _ this.symm).1)

theorem DiskOk.ind_put_other (h : DiskOk sb st) (hi : i < sb.ninodes) {i' : Nat}
    (hi' : i' < sb.ninodes) (ht : (dinode sb st i').type ≠ 0)
    (ha : (dinode sb st i').addrs ind ≠ 0) :
    putInode sb st i d ((dinode sb st i').addrs ind) = st ((dinode sb st i').addrs ind) :=
  putInode_elsewhere st h.layout hi d (Or.inr (h.blocks.data _ _ (owner_ind hi' ht ha)).1)

theorem DiskOk.owner_put (h : DiskOk sb st) (hi : i < sb.ninodes) (hf : d.Fits)
    (hown : SameBlocks sb st i d) :
    owner sb (putInode sb st i d) (dinode sb (putInode sb st i d)) = owner sb st (dinode sb st) := by
  have hself : dinode sb (putInode sb st i d) i = d := dinode_putInode_self _ hf
  funext ⟨i', p⟩
  by_cases hii : i' = i
  · subst hii
    rw [← hown p]
    by_cases ht : d.type = 0
    · simp [owner, hself, ht]
    · have : held (putInode sb st i' d) d p = held st d p := held_congr (h.ind_put hi hown ht)
      simp [owner, hself, ht, hi, this]
  · exact owner_congr (fun _ => dinode_putInode_ne _ _ hii) (h.ind_put_other hi)

theorem DiskOk.put (h : DiskOk sb st) (hi : i < sb.ninodes) (hf : d.Fits)
    (hsz : d.type ≠ 0 → Sized st d) (hown : SameBlocks sb st i d) :
    DiskOk sb (putInode sb st i d) := by
  have hself : dinode sb (putInode sb st i d) i = d := dinode_putInode_self _ hf
  refine ⟨h.layout, ?_, ?_, fun i' hi' ht => ?_⟩
  · rw [putInode_elsewhere st h.layout hi d (Or.inl rfl), h.super]
  · rw [h.owner_put hi hf hown]
    exact h.blocks.congr h.layout fun b hb => bit_putInode _ h.layout hi _ hb
  · by_cases hii : i' = i
    · subst hii
      rw [hself] at *
      obtain ⟨hle, hmap⟩ := hsz ht
      exact ⟨hle, fun bn => by rw [mapped_congr (h.ind_put hi hown ht), hmap]⟩
    · rw [dinode_putInode_ne _ _ hii] at *
      obtain ⟨hle, hmap⟩ := h.sized i' hi' ht
      exact ⟨hle, fun bn => by rw [mapped_congr (h.ind_put_other hi hi' ht), hmap]⟩

end Put

/-! ## Freeing blocks -/

theorem bfree_ok {b : Nat} (hsuper : decodeSb (s.store 1) = s.sb) (hb : bit s.sb s.store b = true) :
    bfree b s = .ok ((), s.withStore (unmark s.sb s.store b)) := by
  have hs : { s with sb := decodeSb (s.store 1) } = s := by rw [hsuper]
  have : bfree b s = (if bit (decodeSb (s.store 1)) s.store b = false then throw .freeingFree
      else logWrite (BBLOCK (decodeSb (s.store 1)) b)
        (clearBit (s.store (BBLOCK (decodeSb (s.store 1)) b)) (b % BPB)) : FsM Unit)
      { s with sb := decodeSb (s.store 1) } := rfl
  rw [this, hs, hsuper, if_neg (by simp [hb])]
  rfl

/-- Freeing a block of the inode leaves all owned blocks as they are. -/
theorem Work.confined_unmark (h : Work c s) {q : Nat × Ptr} {b : Nat}
    (hb : ownerOf c s q = some b) :
    Confined c s (s.withStore (unmark s.sb s.store b)) where
  sb := rfl
  super := unmark_elsewhere _ h.layout (h.blocks.data _ _ hb).2 (Or.inl rfl)
  cache _ _ := rfl
  entry := rfl
  dinode _ hi _ := dinode_unmark _ h.layout hi (h.blocks.data _ _ hb).2
  owned _ _ _ hb' :=
    unmark_elsewhere _ h.layout (h.blocks.data _ _ hb).2 (Or.inr (h.blocks.data _ _ hb').1)
  ftable := rfl
  proc := rfl

/-- A direct block is freed and its pointer cleared. -/
theorem Work.freeAddr (h : Work c s) {k : Fin (NDIRECT + 1)} (hk : k ≠ ind)
    (ha : (s.icache c).d.addrs k ≠ 0) :
    Work c ((s.withStore (unmark s.sb s.store ((s.icache c).d.addrs k))).withDinode c
      (setAddr (s.icache c).d k 0)) := by
  have hown := h.owner_addr ha
  have hsize := (h.blocks.data _ _ hown).2
  have hconf := h.confined_unmark hown
  refine ⟨h.layout, (congrArg decodeSb hconf.super).trans h.super, ?_, ?_, ?_⟩
  · simpa using h.inum
  · simpa [setAddr] using h.type
  · have hsame : ownerOf c (s.withStore (unmark s.sb s.store ((s.icache c).d.addrs k)))
        = ownerOf c s :=
      owner_congr_owned
        (fun i hi => current_withStore (dinode_unmark _ h.layout hi hsize))
        fun q b hb => unmark_elsewhere _ h.layout hsize (Or.inr (h.blocks.data q b hb).1)
    have hclear : ownerOf c ((s.withStore (unmark s.sb s.store ((s.icache c).d.addrs k))).withDinode
        c (setAddr (s.icache c).d k 0))
        = Function.update (ownerOf c s) ((s.icache c).inum, .addr k) none := by
      rw [← hsame]
      exact (ownerOf_setAddr c (s.withStore _) k 0).trans (owner_clearAddr hk)
    rw [hclear]
    exact h.blocks.free hown

theorem freeDirect_spec (c : Fin NINODE) (k : Fin NDIRECT) (h : Work c s) :
    Triple (· = s) (freeDirect c k)
      (fun _ t => Work c t ∧ Confined c s t ∧
        (t.icache c).d = setAddr (s.icache c).d k.castSucc 0)
      fun _ => False := by
  have hk : k.castSucc ≠ ind := by
    intro he
    have : k.val = NDIRECT := congrArg Fin.val he
    omega
  refine triple_step rfl ?_
  by_cases ha : (s.icache c).d.addrs k.castSucc = 0
  · rw [if_pos ha]
    have hd : (s.icache c).d = setAddr (s.icache c).d k.castSucc 0 := by
      rw [setAddr, ← ha, update_eq_self]
    exact triple_exact rfl ⟨h, Confined.refl c s, hd⟩
  · rw [if_neg ha]
    have hown := h.owner_addr ha
    refine triple_step (bfree_ok h.super (h.blocks.owned.marked _ _ hown)) ?_
    refine triple_exact (setDinode_eq ..) ⟨h.freeAddr hk ha, ?_, ?_⟩
    · exact (h.confined_unmark hown).trans (confined_withDinode c _ _)
    · rw [withDinode_icache_self]

/-- The entries `l` of the indirect block of inode `i` have been given up. -/
def erased (i : Nat) (l : List Nat) (own : Nat × Ptr → Option Nat) (q : Nat × Ptr) : Option Nat :=
  match q with
  | (i', .entry j) => if i' = i ∧ j.val ∈ l then none else own (i', .entry j)
  | (i', .addr k) => own (i', .addr k)

theorem erased_nil (i : Nat) (own : Nat × Ptr → Option Nat) : erased i [] own = own := by
  funext ⟨i', p⟩
  cases p <;> simp [erased]

theorem erased_snoc (i : Nat) (l : List Nat) (own : Nat × Ptr → Option Nat) (j : Fin NINDIRECT) :
    erased i (l ++ [j.val]) own = Function.update (erased i l own) (i, .entry j) none := by
  funext ⟨i', p⟩
  cases p with
  | addr k => simp [erased]
  | entry j' =>
    by_cases hq : i' = i ∧ j' = j
    · obtain ⟨rfl, rfl⟩ := hq
      simp [erased]
    · have : ¬ (i' = i ∧ j'.val = j.val) := fun he => hq ⟨he.1, Fin.ext he.2⟩
      rw [update_of_ne (by simpa using hq)]
      simp only [erased, List.mem_append, List.mem_singleton]
      by_cases hi : i' = i
      · have hj : j'.val ≠ j.val := fun he => this ⟨hi, he⟩
        simp [hi, hj]
      · simp [hi]

/-- While the entries are freed: those in `l` are, and only the bit map has changed. -/
structure Freeing (c : Fin NINODE) (s : FsState) (l : List Nat) (t : FsState) : Prop where
  eq : t = s.withStore t.store
  blocks : BlocksOk s.sb t.store (erased (s.icache c).inum l (ownerOf c s))
  disk : ∀ i < s.sb.ninodes, dinode s.sb t.store i = dinode s.sb s.store i
  elsewhere : ∀ b, Elsewhere s.sb b → t.store b = s.store b

theorem Freeing.free {l : List Nat} (hs : Work c s) (h : Freeing c s l t)
    {q : Nat × Ptr} {b : Nat} (hq : erased (s.icache c).inum l (ownerOf c s) q = some b) :
    bfree b t = .ok ((), s.withStore (unmark s.sb t.store b)) ∧
      BlocksOk s.sb (unmark s.sb t.store b)
        (Function.update (erased (s.icache c).inum l (ownerOf c s)) q none) ∧
      (∀ i < s.sb.ninodes, dinode s.sb (unmark s.sb t.store b) i = dinode s.sb s.store i) ∧
      ∀ x, Elsewhere s.sb x → unmark s.sb t.store b x = s.store x := by
  have hb := (h.blocks.data _ _ hq).2
  have hsuper : decodeSb (t.store 1) = s.sb := by
    rw [h.elsewhere 1 (Or.inl rfl), hs.super]
  have hok : bfree b (s.withStore t.store) = _ :=
    bfree_ok hsuper (h.blocks.owned.marked _ _ hq)
  refine ⟨h.eq ▸ hok, h.blocks.free hq, fun i hi => ?_, fun x hx => ?_⟩
  · rw [dinode_unmark _ hs.layout hi hb, h.disk i hi]
  · rw [unmark_elsewhere _ hs.layout hb hx, h.elsewhere x hx]

theorem freeEntry_spec {l : List Nat} {x : Nat} (hs : Work c s) (j : Fin NINDIRECT)
    (hx : (s.icache c).d.addrs ind = x) (hx0 : x ≠ 0) (hj : j.val ∉ l) :
    Triple (Freeing c s l) (freeEntry (s.store x) j) (fun _ => Freeing c s (l ++ [j.val]))
      fun _ => False := by
  refine triple_of_forall fun t h => ?_
  have hheld : held s.store (s.icache c).d (.entry j) = getLE (s.store x) (4 * j) 4 := by
    rw [held, hx, if_neg hx0]
  have hown : erased (s.icache c).inum l (ownerOf c s) ((s.icache c).inum, .entry j)
      = ptr (getLE (s.store x) (4 * j) 4) := by
    rw [erased, if_neg (by simp [hj]), ownerOf, owner, current_self, hheld,
      if_pos ⟨hs.inum, hs.type⟩]
  unfold freeEntry
  by_cases h0 : getLE (s.store x) (4 * j) 4 = 0
  · rw [if_pos h0]
    rw [h0, ptr, if_pos rfl] at hown
    refine triple_exact rfl ⟨h.eq, ?_, h.disk, h.elsewhere⟩
    rw [erased_snoc, ← hown, update_eq_self]
    exact h.blocks
  · rw [if_neg h0]
    rw [ptr, if_neg h0] at hown
    obtain ⟨hok, hblocks, hdisk, helse⟩ := h.free hs hown
    exact triple_exact hok ⟨rfl, erased_snoc _ _ _ j ▸ hblocks, hdisk, helse⟩

/-- The indirect block goes last. -/
theorem Freeing.work_clearInd (hs : Work c s) (hx : (s.icache c).d.addrs ind ≠ 0)
    (h : Freeing c s (List.range NINDIRECT) t) :
    bfree ((s.icache c).d.addrs ind) t
        = .ok ((), s.withStore (unmark s.sb t.store ((s.icache c).d.addrs ind))) ∧
      Work c ((s.withStore (unmark s.sb t.store ((s.icache c).d.addrs ind))).withDinode c
        (setAddr (s.icache c).d ind 0)) ∧
      Confined c s ((s.withStore (unmark s.sb t.store ((s.icache c).d.addrs ind))).withDinode c
        (setAddr (s.icache c).d ind 0)) := by
  have hown : erased (s.icache c).inum (List.range NINDIRECT) (ownerOf c s)
      ((s.icache c).inum, .addr ind) = some ((s.icache c).d.addrs ind) := hs.owner_addr hx
  obtain ⟨hok, hblocks, hdisk, helse⟩ := h.free hs hown
  have hconf : Confined c s (s.withStore (unmark s.sb t.store ((s.icache c).d.addrs ind))) :=
    ⟨rfl, helse 1 (Or.inl rfl), fun _ _ => rfl, rfl, fun i hi _ => hdisk i hi,
      fun q b _ hb => helse b (Or.inr (hs.blocks.data q b hb).1), rfl, rfl⟩
  refine ⟨hok, ⟨hs.layout, ?_, ?_, ?_, ?_⟩, hconf.trans (confined_withDinode c _ _)⟩
  · exact (congrArg decodeSb hconf.super).trans hs.super
  · simpa using hs.inum
  · simpa [setAddr] using hs.type
  · have hsame : ownerOf c (s.withStore (unmark s.sb t.store ((s.icache c).d.addrs ind)))
        = ownerOf c s :=
      owner_congr_owned (fun i hi => current_withStore (hdisk i hi))
        fun q b hb => helse b (Or.inr (hs.blocks.data q b hb).1)
    have hclear : ownerOf c
        ((s.withStore (unmark s.sb t.store ((s.icache c).d.addrs ind))).withDinode c
          (setAddr (s.icache c).d ind 0))
        = Function.update (erased (s.icache c).inum (List.range NINDIRECT) (ownerOf c s))
            ((s.icache c).inum, .addr ind) none := by
      rw [← hsame]
      refine (ownerOf_setAddr c (s.withStore _) ind 0).trans (owner_clearInd.trans ?_)
      funext q
      obtain ⟨i', p⟩ := q
      cases p with
      | addr k => by_cases hq : i' = (s.icache c).inum ∧ k = ind <;> simp [erased, hq, ownerOf]
      | entry j => by_cases hq : i' = (s.icache c).inum <;> simp [erased, hq, ownerOf]
    rw [hclear]
    exact hblocks

theorem freeIndirect_spec (c : Fin NINODE) (h : Work c s) :
    Triple (· = s) (freeIndirect c)
      (fun _ t => Work c t ∧ Confined c s t ∧ (t.icache c).d = setAddr (s.icache c).d ind 0)
      fun _ => False := by
  refine triple_step rfl ?_
  by_cases hx : (s.icache c).d.addrs ind = 0
  · rw [if_pos hx]
    have hd : (s.icache c).d = setAddr (s.icache c).d ind 0 := by
      rw [setAddr, ← hx, update_eq_self]
    exact triple_exact rfl ⟨h, Confined.refl c s, hd⟩
  · rw [if_neg hx]
    refine triple_step rfl ?_
    have hloop : Triple (Freeing c s [])
        (forM (List.range NINDIRECT) (freeEntry (s.store ((s.icache c).d.addrs ind))))
        (fun _ => Freeing c s (List.range NINDIRECT)) fun _ => False := by
      refine triple_forM (I := Freeing c s) _ fun l₁ j l₂ hl => ?_
      have hj : j < NINDIRECT := List.mem_range.mp (by rw [hl]; simp)
      have hnd : (l₁ ++ j :: l₂).Nodup := hl ▸ List.nodup_range
      have hnot : j ∉ l₁ := fun hmem => (List.nodup_append.mp hnd).2.2 j hmem j (by simp) rfl
      exact freeEntry_spec h ⟨j, hj⟩ rfl hx hnot
    have hstart : Freeing c s [] s :=
      ⟨rfl, (erased_nil _ _).symm ▸ h.blocks, fun _ _ => rfl, fun _ _ => rfl⟩
    refine triple_call hloop hstart (fun _ he => he) ?_
    intro _ t ht
    obtain ⟨hok, hwork, hconf⟩ := ht.work_clearInd h hx
    refine triple_step hok (triple_exact (setDinode_eq ..) ⟨hwork, hconf, ?_⟩)
    rw [withDinode_icache_self]

theorem freeDirects_spec (c : Fin NINODE) (h : Work c s) :
    Triple (· = s) (forM (List.finRange NDIRECT) (freeDirect c))
      (fun _ t => Work c t ∧ Confined c s t ∧
        (t.icache c).d = { (s.icache c).d with addrs := (t.icache c).d.addrs } ∧
        ∀ k : Fin NDIRECT, (t.icache c).d.addrs k.castSucc = 0)
      fun _ => False := by
  refine triple_conseq (triple_forM (I := fun l t => Work c t ∧ Confined c s t ∧
      (t.icache c).d = { (s.icache c).d with addrs := (t.icache c).d.addrs } ∧
      ∀ k ∈ l, (t.icache c).d.addrs k.castSucc = 0) _ fun l₁ k l₂ _ => ?_) ?_ ?_ fun _ he => he
  · refine triple_of_forall fun t ht => ?_
    obtain ⟨hw, hconf, hrest, hzero⟩ := ht
    refine (freeDirect_spec c k hw).post ?_
    rintro _ u ⟨hwu, hcu, hdu⟩
    refine ⟨hwu, hconf.trans hcu, ?_, fun k' hk' => ?_⟩
    · rw [hdu, setAddr, hrest]
    · rw [hdu, setAddr_addrs]
      rcases List.mem_append.mp hk' with hk' | hk'
      · by_cases hkk : k' = k
        · simp [hkk]
        · rw [update_of_ne (by simpa using hkk)]
          exact hzero k' hk'
      · simp [List.mem_singleton.mp hk']
  · rintro _ rfl
    exact ⟨h, Confined.refl c _, rfl, by simp⟩
  · rintro _ t ⟨hw, hconf, hrest, hzero⟩
    exact ⟨hw, hconf, hrest, fun k => hzero k (List.mem_finRange k)⟩

/-- The inode without its contents. -/
def Dinode.truncated (d : Dinode) : Dinode := { d with size := 0, addrs := fun _ => 0 }

theorem itrunc_spec (c : Fin NINODE) (h : Work c s) (hf : (s.icache c).d.Fits) :
    Triple (· = s) (itrunc c)
      (fun _ t => Work c t ∧ Confined c s t ∧ (t.icache c).d = (s.icache c).d.truncated ∧
        (t.icache c).d = dinode t.sb t.store (t.icache c).inum)
      fun _ => False := by
  refine (freeDirects_spec c h).next ?_
  rintro _ t ⟨hwt, hct, hdt, hzt⟩
  refine (freeIndirect_spec c hwt).next ?_
  rintro _ u ⟨hwu, hcu, hdu⟩
  have haddrs : (u.icache c).d.addrs = fun _ => 0 := by
    funext k
    rw [hdu, setAddr_addrs]
    by_cases hk : k = ind
    · simp [hk]
    · have hlt : k.val < NDIRECT := by
        have := k.isLt
        have : k.val ≠ NDIRECT := fun he => hk (Fin.ext he)
        omega
      rw [update_of_ne hk]
      exact hzt ⟨k, hlt⟩
  have hd : { (u.icache c).d with size := 0 } = (s.icache c).d.truncated := by
    rw [Dinode.truncated, ← haddrs, hdu, setAddr, hdt]
  refine triple_step rfl (triple_step (setDinode_eq ..) ?_)
  rw [hd]
  have hfits : (s.icache c).d.truncated.Fits :=
    ⟨hf.type, hf.major, hf.minor, hf.nlink, Nat.two_pow_pos 32, fun _ => Nat.two_pow_pos 32⟩
  have hwork : Work c (u.withDinode c (s.icache c).d.truncated) :=
    hwu.withDinode haddrs.symm h.type
  have := hwork.iupdate (by simpa using hfits) rfl
  refine triple_exact rfl ⟨this.1, ?_, ?_, this.2.2⟩
  · exact ((hct.trans hcu).trans (confined_withDinode c u _)).trans this.2.1
  · simp

end StrideXv6.Fs
