import StrideXv6.Fs.Consistent

set_option autoImplicit false

/-! # The functions of `fs.c` on a consistent file system

To its callers an inode is its type, device numbers and link count with the bytes it holds: its
`node`, or `none` if the inode is free. Each function of `fs.c` is specified by what it does to
the nodes and to the entries of the inode cache; the blocks appear no more. In particular
`writei` overwrites the bytes of one node (`writei_spec`), `readi` returns them
(`readi_spec`), and `iput` frees a node exactly if it was the last user of one without links
(`iput_spec`).
-/

namespace StrideXv6.Fs

open Bytes Ownership Hoare Function

/-! ## Nodes -/

structure Node where
  type : Nat
  major : Nat
  minor : Nat
  nlink : Nat
  bytes : List UInt8
  deriving DecidableEq

/-- A free inode has a type of zero. -/
def nodeOf (st : Disk) (d : Dinode) : Option Node :=
  if d.type = 0 then none
  else some { type := d.type, major := d.major, minor := d.minor, nlink := d.nlink,
              bytes := contents st d }

def node (s : FsState) (i : Nat) : Option Node := nodeOf s.store (dinode s.sb s.store i)

variable {c : Fin NINODE} {s t u : FsState} {sb : Superblock} {st st' : Disk}

theorem contents_congr {d : Dinode} (hsz : Sized st d)
    (h : ∀ p, held st d p ≠ 0 → st' (held st d p) = st (held st d p)) :
    contents st' d = contents st d := by
  have hmap : ∀ bn, mapped st' d bn = mapped st d bn := fun bn =>
    mapped_congr fun ha => h (.addr ind) ha
  refine List.map_congr_left fun x hx => ?_
  have hlt : x < d.size := List.mem_range.mp hx
  have hm : mapped st d (x / BSIZE) ≠ 0 := by
    rw [hsz.mapped, BSIZE_eq]
    omega
  rw [fileByte, fileByte, hmap]
  cases hp : place (x / BSIZE) with
  | none => simp [mapped, hp] at hm
  | some p => rw [mapped_place hp] at *; rw [h p hm]

/-- A node depends on its inode and on the blocks the inode owns. -/
theorem node_congr (hok : DiskOk sb st) {i : Nat} (hi : i < sb.ninodes)
    (hd : dinode sb st' i = dinode sb st i)
    (h : ∀ p b, owner sb st (dinode sb st) (i, p) = some b → st' b = st b) :
    nodeOf st' (dinode sb st' i) = nodeOf st (dinode sb st i) := by
  rw [hd]
  by_cases ht : (dinode sb st i).type = 0
  · simp [nodeOf, ht]
  · have := contents_congr (hok.sized i hi ht) fun p hp =>
      h p _ (owner_eq_some.mpr ⟨hi, ht, rfl, hp⟩)
    simp [nodeOf, ht, this]

theorem Confined.node_other (h : Confined c s t) (hs : FsOk s) (hc : Locked c s) {i : Nat}
    (hi : i < s.sb.ninodes) (hne : i ≠ (s.icache c).inum) : node t i = node s i := by
  unfold node
  rw [h.sb]
  refine node_congr hs.disk hi (h.dinode i hi hne) fun p b hb => ?_
  refine h.owned (i, p) b hne ?_
  rwa [Fs.ownerOf, current_of_eq (hs.d_eq hc)]

/-- Writing one inode leaves the other nodes alone. -/
theorem node_putInode (hok : DiskOk sb st) {i i' : Nat} (hi : i < sb.ninodes) (d : Dinode)
    (hi' : i' < sb.ninodes) (hne : i' ≠ i) :
    nodeOf (putInode sb st i d) (dinode sb (putInode sb st i d) i')
      = nodeOf st (dinode sb st i') :=
  node_congr hok hi' (dinode_putInode_ne _ _ hne) fun _ _ hb =>
    putInode_elsewhere st hok.layout hi d (Or.inr (hok.blocks.data _ _ hb).1)

theorem FsOk.node_eq (h : FsOk s) (hc : Locked c s) :
    node s (s.icache c).inum = nodeOf s.store (s.icache c).d := by
  rw [node, ← h.d_eq hc]

/-! ## The inode cache -/

def FsState.withInode (s : FsState) (c : Fin NINODE) (ip : Inode) : FsState :=
  { s with icache := Function.update s.icache c ip }

theorem setInode_eq (s : FsState) (c : Fin NINODE) (ip : Inode) :
    setInode c ip s = .ok ((), s.withInode c ip) := rfl

@[simp] theorem withInode_icache_self (s : FsState) (c : Fin NINODE) (ip : Inode) :
    (s.withInode c ip).icache c = ip := update_self ..

theorem withInode_icache_ne (s : FsState) {c c' : Fin NINODE} (ip : Inode) (h : c' ≠ c) :
    (s.withInode c ip).icache c' = s.icache c' := update_of_ne h ..

/-- An entry may be replaced by one that is in order itself. -/
theorem FsOk.withInode (h : FsOk s) {ip : Inode} (hi : 0 < ip.ref → ip.inum < s.sb.ninodes)
    (hd : 0 < ip.ref → ∀ c', c' ≠ c → 0 < (s.icache c').ref → (s.icache c').inum ≠ ip.inum)
    (hv : 0 < ip.ref → ip.valid = true → ip.d = dinode s.sb s.store ip.inum ∧ ip.d.type ≠ 0) :
    FsOk (s.withInode c ip) := by
  refine ⟨h.disk, fun c' hr => ?_, fun c₁ c₂ h1 h2 he => ?_, fun c' hr hv' => ?_⟩
  · by_cases hc : c' = c
    · subst hc; rw [withInode_icache_self] at *; exact hi hr
    · rw [withInode_icache_ne _ _ hc] at *; exact h.inum c' hr
  · by_cases hc₁ : c₁ = c <;> by_cases hc₂ : c₂ = c
    · rw [hc₁, hc₂]
    · subst hc₁
      rw [withInode_icache_self, withInode_icache_ne _ _ hc₂] at *
      exact absurd he.symm (hd h1 c₂ hc₂ h2)
    · subst hc₂
      rw [withInode_icache_self, withInode_icache_ne _ _ hc₁] at *
      exact absurd he (hd h2 c₁ hc₁ h1)
    · rw [withInode_icache_ne _ _ hc₁, withInode_icache_ne _ _ hc₂] at *
      exact h.distinct c₁ c₂ h1 h2 he
  · by_cases hc : c' = c
    · subst hc; rw [withInode_icache_self] at *; exact hv hr hv'
    · rw [withInode_icache_ne _ _ hc] at *; exact h.coherent c' hr hv'

/-- The entry `iget` hands out: the one that caches the inode, with one more reference, or an
unused one. -/
inductive Got (i : Nat) (c : Fin NINODE) (s : FsState) : FsState → Prop where
  | shared (hr : 0 < (s.icache c).ref) (hi : (s.icache c).inum = i) :
      Got i c s (s.withInode c { s.icache c with ref := (s.icache c).ref + 1 })
  | recycled (hr : (s.icache c).ref = 0) :
      Got i c s (s.withInode c { s.icache c with inum := i, ref := 1, valid := false })

theorem iget_spec (h : FsOk s) {i : Nat} (hi : i < s.sb.ninodes) :
    Triple (· = s) (iget i) (fun c t => FsOk t ∧ Got i c s t)
      (· = .igetNoInodes) := by
  refine triple_step (eval_eq i s) (triple_step rfl ?_)
  cases hf : (List.finRange NINODE).find? fun c =>
      decide (0 < (s.icache c).ref ∧ (s.icache c).inum = i) with
  | some c =>
    have hc : 0 < (s.icache c).ref ∧ (s.icache c).inum = i := by
      simpa using List.find?_some hf
    refine triple_step (setInode_eq ..) (triple_exact rfl ⟨h.withInode (fun _ => ?_) ?_ ?_,
      Got.shared hc.1 hc.2⟩)
    · exact h.inum c hc.1
    · exact fun _ c' hne hr he => hne (h.distinct c' c hr hc.1 he)
    · exact fun _ hv => h.coherent c hc.1 hv
  | none =>
    have hnone : ∀ c', 0 < (s.icache c').ref → (s.icache c').inum ≠ i := by
      intro c' hr he
      have := List.find?_eq_none.mp hf c' (List.mem_finRange c')
      simp [hr, he] at this
    cases hg : (List.finRange NINODE).find? fun c => decide ((s.icache c).ref = 0) with
    | none => exact triple_fail rfl rfl
    | some c =>
      have hc : (s.icache c).ref = 0 := by simpa using List.find?_some hg
      refine triple_step (setInode_eq ..) (triple_exact rfl
        ⟨h.withInode (fun _ => hi) (fun _ c' _ hr => hnone c' hr) ?_, Got.recycled hc⟩)
      simp

/-- `ilock` reads the inode unless it is valid, and fails on a free one. -/
theorem ilock_spec (h : FsOk s) (hr : 0 < (s.icache c).ref) :
    Triple (· = s) (ilock c)
      (fun _ t => FsOk t ∧ Locked c t ∧ ∃ d,
        t = s.withInode c { s.icache c with d := d, valid := true })
      fun e => e = .noType ∧ node s (s.icache c).inum = none := by
  refine triple_step rfl ?_
  by_cases hv : (s.icache c).valid = true
  · rw [if_pos hv]
    have hs : s = s.withInode c { s.icache c with d := (s.icache c).d, valid := true } := by
      have : ({ s.icache c with d := (s.icache c).d, valid := true } : Inode) = s.icache c := by
        rw [← hv]
      rw [this, FsState.withInode, update_eq_self]
    exact triple_exact rfl ⟨h, ⟨hr, hv⟩, _, hs⟩
  · rw [if_neg hv]
    refine triple_step (readInode_eq ..) (triple_step (setInode_eq ..) ?_)
    by_cases ht : (dinode s.sb s.store (s.icache c).inum).type = 0
    · rw [if_pos ht]
      exact triple_fail rfl ⟨rfl, by simp [node, nodeOf, ht]⟩
    · rw [if_neg ht]
      refine triple_exact rfl ⟨h.withInode (fun _ => h.inum c hr) ?_ fun _ _ => ⟨rfl, ht⟩, ?_, _, rfl⟩
      · exact fun _ c' hne hr' he => hne (h.distinct c' c hr' hr he)
      · exact ⟨by simpa using hr, by simp⟩

/-! ## Writing an inode back -/

theorem Work.owner_held (h : Work c s) {p : Ptr} (hp : held s.store (s.icache c).d p ≠ 0) :
    ownerOf c s ((s.icache c).inum, p) = some (held s.store (s.icache c).d p) :=
  owner_eq_some.mpr ⟨h.inum, by rw [current_self]; exact h.type, by rw [current_self], hp⟩

/-- `iupdate` ends the work on an inode: what entry `c` holds becomes the node. -/
theorem iupdate_spec (h : FsOk s) (hc : Locked c s) (hconf : Confined c s t) (hw : Work c t)
    (hf : (t.icache c).d.Fits) (hsz : Sized t.store (t.icache c).d) :
    Triple (· = t) (iupdate c)
      (fun _ u => FsOk u ∧ Confined c s u ∧
        node u (s.icache c).inum = nodeOf t.store (t.icache c).d ∧
        ∀ p, held u.store (u.icache c).d p = held t.store (t.icache c).d p)
      fun _ => False := by
  obtain ⟨hwu, hcu, hdu⟩ := hw.iupdate hf rfl
  refine triple_exact (a := ()) (t := t.withStore (putInode t.sb t.store (t.icache c).inum
    (t.icache c).d)) rfl ?_
  have hdata : ∀ p, held t.store (t.icache c).d p ≠ 0 →
      putInode t.sb t.store (t.icache c).inum (t.icache c).d (held t.store (t.icache c).d p)
        = t.store (held t.store (t.icache c).d p) := fun p hp =>
    putInode_elsewhere _ hw.layout hw.inum _ (Or.inr (hw.blocks.data _ _ (hw.owner_held hp)).1)
  have hmap : ∀ bn, mapped (putInode t.sb t.store (t.icache c).inum (t.icache c).d)
      (t.icache c).d bn = mapped t.store (t.icache c).d bn := fun bn =>
    mapped_congr fun ha => hdata (.addr ind) ha
  have hok := h.close hc (hconf.trans hcu) hwu hdu ⟨hsz.le, fun bn => (hmap bn).symm ▸ hsz.mapped bn⟩
  refine ⟨hok, hconf.trans hcu, ?_, fun p => held_congr fun ha => hdata (.addr ind) ha⟩
  have hcont := contents_congr hsz hdata
  rw [← hconf.inum]
  refine (hok.node_eq ((hconf.trans hcu).locked hc)).trans ?_
  simp only [nodeOf, withStore_icache, withStore_store, hcont]

/-- The pointers of the inode that were set are as they were. -/
def PointersKept (c : Fin NINODE) (s t : FsState) : Prop :=
  ∀ p, held s.store (s.icache c).d p ≠ 0 →
    held t.store (t.icache c).d p = held s.store (s.icache c).d p

/-- Changing the fields of a node other than its contents. -/
theorem update_spec (h : FsOk s) (hc : Locked c s) (major minor nlink : Nat) :
    Triple (· = s) (update c major minor nlink)
      (fun _ t => FsOk t ∧ Confined c s t ∧ PointersKept c s t ∧ ∀ nd, node s (s.icache c).inum = some nd →
        node t (s.icache c).inum = some { nd with
          major := major % 2 ^ 16, minor := minor % 2 ^ 16, nlink := nlink % 2 ^ 16 })
      fun _ => False := by
  have hf := h.fits hc
  have hsz := h.sized hc
  refine triple_step rfl (triple_step (setDinode_eq ..) ?_)
  generalize hd : ({ (s.icache c).d with
      major := major % 2 ^ 16, minor := minor % 2 ^ 16, nlink := nlink % 2 ^ 16 } : Dinode) = d
  have hfit : d.Fits := by
    rw [← hd]
    exact ⟨hf.type, Nat.mod_lt _ (by decide), Nat.mod_lt _ (by decide), Nat.mod_lt _ (by decide),
      hf.size, hf.addrs⟩
  have haddrs : d.addrs = (s.icache c).d.addrs := by rw [← hd]
  have hsize : d.size = (s.icache c).d.size := by rw [← hd]
  have htype : d.type ≠ 0 := by rw [← hd]; exact h.type_ne hc
  have hsd : Sized s.store d :=
    ⟨hsize ▸ hsz.le, fun bn => by rw [mapped_of_addrs haddrs, hsize]; exact hsz.mapped bn⟩
  refine (iupdate_spec h hc (confined_withDinode c s d)
    ((h.work hc).withDinode haddrs htype) (by rwa [withDinode_icache_self])
    (by rwa [withDinode_icache_self])).post ?_
  rintro _ t ⟨hok, hconf, hnode, hheld⟩
  have hkept : PointersKept c s t := by
    intro p _
    rw [hheld p, withDinode_store, withDinode_icache_self]
    cases p <;> simp [held, haddrs]
  refine ⟨hok, hconf, hkept, fun nd hnd => ?_⟩
  have hcont : contents s.store d = contents s.store (s.icache c).d := by
    rw [contents, contents, hsize]
    exact List.map_congr_left fun x _ => fileByte_of_addrs haddrs x
  rw [h.node_eq hc, nodeOf, if_neg (h.type_ne hc), Option.some.injEq] at hnd
  rw [hnode, withDinode_icache_self, withDinode_store, nodeOf, if_neg htype, hcont, ← hnd, ← hd]

/-! ## Reading and writing -/

/-- `readi` of a file or directory. -/
theorem readi_spec (h : FsOk s) (hc : Locked c s) {nd : Node}
    (hnd : node s (s.icache c).inum = some nd) (off n : Nat) :
    Triple (· = s) (readi c off n)
      (fun r t => t = s ∧ r = if nd.type = T_DEV ∨ off > nd.bytes.length ∨ (off + n) % 2 ^ 32 < off
        then none else some ((nd.bytes.drop off).take n))
      fun _ => False := by
  have hn := hnd
  rw [h.node_eq hc, nodeOf, if_neg (h.type_ne hc), Option.some.injEq] at hn
  have hlen : nd.bytes.length = (s.icache c).d.size := by rw [← hn]; exact length_contents _ _
  have htype : nd.type = (s.icache c).d.type := by rw [← hn]
  have hbytes : nd.bytes = contents s.store (s.icache c).d := by rw [← hn]
  refine triple_exact (readi_eq _ _ fun bn hbn => ?_) ⟨rfl, by rw [hlen, htype, hbytes]⟩
  obtain ⟨x, h1, h2, rfl⟩ := hbn
  rw [(h.sized hc).mapped, BSIZE_eq]
  split at h2 <;> omega

/-- The effect of `writei` on a node: a device is left alone, a range that does not start in
the file or is too long is refused, and else the bytes are overwritten. -/
inductive WriteResult (nd : Node) (off : Nat) (src : List UInt8) : Option Nat → Node → Prop where
  | device (hdev : nd.type = T_DEV) :
      WriteResult nd off src (if nd.major = CONSOLE then some src.length else none) nd
  | refused (hfile : nd.type ≠ T_DEV)
      (hr : nd.bytes.length < off ∨ MAXFILE * BSIZE < off + src.length) :
      WriteResult nd off src none nd
  | done (hfile : nd.type ≠ T_DEV) (hoff : off ≤ nd.bytes.length)
      (hle : off + src.length ≤ MAXFILE * BSIZE) :
      WriteResult nd off src (some src.length) { nd with bytes := overwrite nd.bytes off src }

/-- A file stays without holes when it is extended from within or from its end. -/
theorem Written.sized {off : Nat} {src : List UInt8} (h : Written c off src s t)
    (hs : Sized s.store (s.icache c).d) (hoff : off ≤ (s.icache c).d.size)
    (hle : off + src.length ≤ MAXFILE * BSIZE) {d : Dinode}
    (hd : d.addrs = (t.icache c).d.addrs)
    (hsize : d.size = max (s.icache c).d.size (off + src.length)) : Sized t.store d := by
  refine ⟨by rw [hsize]; exact max_le hs.le hle, fun bn => ?_⟩
  rw [mapped_of_addrs hd, h.mapped, hs.mapped, hsize, BSIZE_eq]
  constructor
  · rintro (hlt | ⟨x, h1, h2, rfl⟩)
    · omega
    · rw [BSIZE_eq]
      omega
  · intro hlt
    by_cases hold : bn < ((s.icache c).d.size + 512 - 1) / 512
    · exact Or.inl hold
    · refine Or.inr ⟨max off (bn * 512), le_max_left _ _, by omega, ?_⟩
      rw [BSIZE_eq]
      omega

/-- A write within the file maps nothing new. -/
theorem Written.within {off : Nat} {src : List UInt8} (h : Written c off src s t)
    (hs : Sized s.store (s.icache c).d) (hle : off + src.length ≤ (s.icache c).d.size) :
    (t.icache c).d = (s.icache c).d := by
  refine h.same ?_
  rintro bn ⟨x, h1, h2, rfl⟩
  rw [hs.mapped, BSIZE_eq]
  omega

theorem writei_spec (h : FsOk s) (hc : Locked c s) {nd : Node}
    (hnd : node s (s.icache c).inum = some nd) (off : Nat) {src : List UInt8}
    (hsrc : src.length < 2 ^ 32) :
    Triple (· = s) (writei c off src)
      (fun r t => FsOk t ∧ Confined c s t ∧ PointersKept c s t ∧
        ∃ nd', node t (s.icache c).inum = some nd' ∧ WriteResult nd off src r nd')
      (· = .outOfBlocks) := by
  have hn := hnd
  rw [h.node_eq hc, nodeOf, if_neg (h.type_ne hc), Option.some.injEq] at hn
  have hlen : nd.bytes.length = (s.icache c).d.size := by rw [← hn]; exact length_contents _ _
  have htype : nd.type = (s.icache c).d.type := by rw [← hn]
  have hmajor : nd.major = (s.icache c).d.major := by rw [← hn]
  have hsz := h.sized hc
  have hmax : MAXFILE * BSIZE < 2 ^ 32 := by rw [MAXFILE_eq, BSIZE_eq]; decide
  have hsize := hsz.le
  refine triple_step rfl ?_
  by_cases hdev : (s.icache c).d.type = T_DEV
  · rw [if_pos hdev]
    refine triple_exact rfl ⟨h, Confined.refl c s, fun _ _ => rfl, nd, hnd, ?_⟩
    rw [← hmajor]
    exact WriteResult.device (htype.trans hdev)
  · rw [if_neg hdev]
    have hfile : nd.type ≠ T_DEV := htype ▸ hdev
    by_cases hrange : off > (s.icache c).d.size ∨ (off + src.length) % 2 ^ 32 < off
    · rw [if_pos hrange]
      refine triple_exact rfl ⟨h, Confined.refl c s, fun _ _ => rfl, nd, hnd, WriteResult.refused hfile ?_⟩
      omega
    · rw [if_neg hrange]
      by_cases hlong : (off + src.length) % 2 ^ 32 > MAXFILE * BSIZE
      · rw [if_pos hlong]
        refine triple_exact rfl ⟨h, Confined.refl c s, fun _ _ => rfl, nd, hnd, WriteResult.refused hfile ?_⟩
        omega
      · rw [if_neg hlong]
        have hle : off + src.length ≤ MAXFILE * BSIZE := by omega
        refine (writeLoop_spec c src.length off src s (h.work hc) (le_refl _) hle).next ?_
        rintro off' t ⟨rfl, ht⟩
        have hsame : (t.icache c).d.size = (s.icache c).d.size := by rw [ht.rest]
        have hty : (t.icache c).d.type = (s.icache c).d.type := by rw [ht.rest]
        have hoff : off ≤ (s.icache c).d.size := by omega
        -- the node that the pointers now in entry `c` describe
        have hnode : ∀ d : Dinode,
            d = { (t.icache c).d with size := max (s.icache c).d.size (off + src.length) } →
            nodeOf t.store d = some { nd with bytes := overwrite nd.bytes off src } := by
          intro d hd
          have hcont := ht.contents_eq hsz hoff (d := d) (by rw [hd]) (by rw [hd])
          have ht0 : d.type ≠ 0 := by rw [hd, hty]; exact h.type_ne hc
          rw [nodeOf, if_neg ht0, hcont, ← hn, hd, ht.rest]
        have hdone : WriteResult nd off src (some src.length)
            { nd with bytes := overwrite nd.bytes off src } :=
          WriteResult.done hfile (hlen ▸ hoff) hle
        refine triple_step rfl ?_
        by_cases hgrow : 0 < src.length ∧ off + src.length > (t.icache c).d.size
        · rw [if_pos hgrow]
          refine triple_step (setDinode_eq ..) ?_
          generalize hd : ({ (t.icache c).d with size := off + src.length } : Dinode) = d
          have hd' : d = { (t.icache c).d with size := max (s.icache c).d.size (off + src.length) } := by
            rw [max_eq_right (by omega), hd]
          have hw : Work c (t.withDinode c d) :=
            ht.work.withDinode (by rw [hd']) (by rw [hd', hty]; exact h.type_ne hc)
          have hf := h.fits hc
          have hfit : d.Fits := by
            rw [← hd, ht.rest]
            exact ⟨hf.type, hf.major, hf.minor, hf.nlink, lt_of_le_of_lt hle hmax,
              fun k => ht.work.addrs_fit k⟩
          refine (iupdate_spec h hc (ht.confined.trans (confined_withDinode c t d)) hw
            (by rwa [withDinode_icache_self]) ?_).safe.next ?_
          · rw [withDinode_icache_self, withDinode_store]
            exact ht.sized hsz hoff hle (by rw [hd']) (by rw [hd'])
          · rintro _ u ⟨hok, hconf, hu, hheld⟩
            rw [withDinode_icache_self, withDinode_store, hnode d hd'] at hu
            have hkept : PointersKept c s u := by
              intro p hp
              rw [← ht.pointers p hp, hheld p, withDinode_store, withDinode_icache_self, hd']
              cases p <;> rfl
            exact triple_exact rfl ⟨hok, hconf, hkept, _, hu, hdone⟩
        · rw [if_neg hgrow]
          have hin : off + src.length ≤ (s.icache c).d.size := by omega
          have hdt := ht.within hsz hin
          have hd' : (t.icache c).d
              = { (t.icache c).d with size := max (s.icache c).d.size (off + src.length) } := by
            rw [max_eq_left hin, ← hsame]
          have hdisk : (t.icache c).d = dinode t.sb t.store (t.icache c).inum := by
            rw [hdt, ht.confined.sb, ht.confined.inum, ht.disk _ (h.inum c hc.ref), h.d_eq hc]
          have hok := h.close hc ht.confined ht.work hdisk
            (ht.sized hsz hoff hle rfl (by rw [hsame, max_eq_left hin]))
          refine triple_exact rfl ⟨hok, ht.confined, ht.pointers, _, ?_, hdone⟩
          rw [← ht.confined.inum, hok.node_eq (ht.confined.locked hc), hnode _ hd']

/-! ## Allocating and freeing inodes -/

/-- `ialloc` takes a free inode, and hands out an entry for it. -/
theorem ialloc_spec (h : FsOk s) {type : Nat} (hty : type % 2 ^ 16 ≠ 0) :
    Triple (· = s) (ialloc type)
      (fun c t => FsOk t ∧ ∃ i u, 0 < i ∧ i < s.sb.ninodes ∧ node s i = none ∧ FsOk u ∧
        u.icache = s.icache ∧ u.sb = s.sb ∧ u.ftable = s.ftable ∧ u.proc = s.proc ∧
        blockOwner u = blockOwner s ∧
        node u i = some { type := type % 2 ^ 16, major := 0, minor := 0, nlink := 0, bytes := [] } ∧
        (∀ i' < s.sb.ninodes, i' ≠ i → node u i' = node s i') ∧ Got i c u t)
      fun e => e = .noInodes ∨ e = .igetNoInodes := by
  refine triple_step rfl ?_
  cases hf : (List.range' 1 (s.sb.ninodes - 1)).find? fun i =>
      (dinode s.sb s.store i).type == 0 with
  | none => exact triple_fail rfl (Or.inl rfl)
  | some i =>
    have hmem := List.mem_range'_1.mp (List.mem_of_find?_eq_some hf)
    have hfree : (dinode s.sb s.store i).type = 0 := by simpa using List.find?_some hf
    have hi : i < s.sb.ninodes := by omega
    have hfit : (Dinode.fresh (type % 2 ^ 16)).Fits :=
      ⟨Nat.mod_lt _ (by decide), Nat.two_pow_pos 16, Nat.two_pow_pos 16, Nat.two_pow_pos 16,
        Nat.two_pow_pos 32, fun _ => Nat.two_pow_pos 32⟩
    have hheld : ∀ p, held s.store (Dinode.fresh (type % 2 ^ 16)) p = 0 := by
      intro p; cases p <;> simp [held, Dinode.fresh]
    have hsame : SameBlocks s.sb s.store i (Dinode.fresh (type % 2 ^ 16)) := by
      intro p
      rw [hheld]
      simp [owner, hfree, ptr]
    have hdisk : DiskOk s.sb (putInode s.sb s.store i (Dinode.fresh (type % 2 ^ 16))) := by
      refine h.disk.put hi hfit (fun _ => ⟨Nat.zero_le _, fun bn => ?_⟩) hsame
      rw [mapped_of_held hheld, Dinode.fresh, BSIZE_eq]
      simp
    have hself : dinode s.sb (putInode s.sb s.store i (Dinode.fresh (type % 2 ^ 16))) i
        = Dinode.fresh (type % 2 ^ 16) := dinode_putInode_self _ hfit
    have hok : FsOk (s.withStore (putInode s.sb s.store i (Dinode.fresh (type % 2 ^ 16)))) := by
      refine ⟨hdisk, h.inum, h.distinct, fun c hr hv => ?_⟩
      have hne : (s.icache c).inum ≠ i := by
        intro he
        have := h.coherent c hr hv
        rw [this.1, he] at this
        exact this.2 hfree
      obtain ⟨h1, h2⟩ := h.coherent c hr hv
      exact ⟨h1.trans (dinode_putInode_ne _ _ hne).symm, h2⟩
    refine triple_step (logWrite_eq ..) (triple_conseq (iget_spec hok hi) (fun _ hx => hx) ?_
      fun _ he => Or.inr he)
    rintro c t ⟨hokt, hgot⟩
    refine ⟨hokt, i, _, by omega, hi, by simp [node, nodeOf, hfree], hok, rfl, rfl, rfl, rfl,
      h.disk.owner_put hi hfit hsame, ?_, fun i' hi' hne => ?_, hgot⟩
    · show nodeOf _ (dinode s.sb (putInode s.sb s.store i _) i) = _
      rw [hself, nodeOf, if_neg (by simpa [Dinode.fresh] using hty)]
      simp [Dinode.fresh, contents]
    · exact node_putInode h.disk hi _ hi' hne

/-- A last reference to an inode without links. -/
def LastUse (c : Fin NINODE) (s : FsState) : Prop :=
  (s.icache c).ref = 1 ∧ (s.icache c).valid = true ∧ (s.icache c).d.nlink = 0

instance : Decidable (LastUse c s) := inferInstanceAs (Decidable (_ ∧ _ ∧ _))

/-- The effect of `iput`. -/
structure Put (c : Fin NINODE) (s t : FsState) : Prop where
  ok : FsOk t
  sb : t.sb = s.sb
  ftable : t.ftable = s.ftable
  proc : t.proc = s.proc
  others : ∀ c', c' ≠ c → t.icache c' = s.icache c'
  inum : (t.icache c).inum = (s.icache c).inum
  ref : (t.icache c).ref = (s.icache c).ref - 1
  valid : 0 < (t.icache c).ref → (t.icache c).valid = (s.icache c).valid
  node : ∀ i < s.sb.ninodes,
    node t i = if i = (s.icache c).inum ∧ LastUse c s then none else node s i
  owners : ∀ q b, blockOwner t q = some b → blockOwner s q = some b

theorem held_truncated (st : Disk) (d : Dinode) (p : Ptr) : held st d.truncated p = 0 := by
  cases p <;> simp [held, Dinode.truncated]

theorem sized_truncated (st : Disk) (d : Dinode) : Sized st d.truncated := by
  refine ⟨Nat.zero_le _, fun bn => ?_⟩
  rw [mapped_of_held (held_truncated st d), Dinode.truncated, BSIZE_eq]
  simp

/-- After `itrunc` the inode is marked free on disk, and its entry is given up. -/
theorem put_of_freed (h : FsOk s) (hl : LastUse c s) (hconf : Confined c s t) (hw : Work c t)
    (hd : (t.icache c).d = (s.icache c).d.truncated)
    (hdisk : (t.icache c).d = dinode t.sb t.store (t.icache c).inum)
    (hst : u.store = putInode t.sb t.store (t.icache c).inum { (t.icache c).d with type := 0 })
    (hsb : u.sb = t.sb) (hft : u.ftable = t.ftable) (hpr : u.proc = t.proc)
    (hoth : ∀ c', c' ≠ c → u.icache c' = t.icache c')
    (hin : (u.icache c).inum = (t.icache c).inum) (href : (u.icache c).ref = 0) : Put c s u := by
  have hc : Locked c s := ⟨by rw [hl.1]; decide, hl.2.1⟩
  have hok : FsOk t := h.close hc hconf hw hdisk (hd ▸ sized_truncated _ _)
  have hct := hconf.locked hc
  have hf := hok.fits hct
  have hfit : Dinode.Fits { (t.icache c).d with type := 0 } :=
    ⟨Nat.two_pow_pos 16, hf.major, hf.minor, hf.nlink, hf.size, hf.addrs⟩
  have hnone : ∀ p, blockOwner t ((t.icache c).inum, p) = none := by
    intro p
    rw [blockOwner, owner, ← hdisk, hd, held_truncated]
    simp [ptr]
  have hsame : SameBlocks t.sb t.store (t.icache c).inum { (t.icache c).d with type := 0 } :=
    fun p => (hnone p).symm
  have hput := hok.disk.put hw.inum hfit (fun h0 => absurd rfl h0) hsame
  have hcc : ∀ c', 0 < (u.icache c').ref → c' ≠ c := by
    rintro c' hr rfl
    omega
  refine
    { ok := ⟨by rw [hsb, hst]; exact hput, fun c' hr => ?_, fun c₁ c₂ h1 h2 he => ?_,
        fun c' hr hv => ?_⟩
      sb := hsb.trans hconf.sb
      ftable := hft.trans hconf.ftable
      proc := hpr.trans hconf.proc
      others := fun c' hcc => (hoth c' hcc).trans (hconf.cache c' hcc)
      inum := hin.trans hconf.inum
      ref := by rw [href, hl.1]
      valid := fun h0 => by omega
      node := fun i hi => ?_
      owners := fun q b hq => ?_ }
  · rw [hoth c' (hcc c' hr)] at *
    rw [hsb]
    exact hok.inum c' hr
  · have hc₁ := hcc c₁ h1
    have hc₂ := hcc c₂ h2
    rw [hoth c₁ hc₁] at *
    rw [hoth c₂ hc₂] at *
    exact hok.distinct c₁ c₂ h1 h2 he
  · have hc' := hcc c' hr
    rw [hoth c' hc'] at *
    have hne : (t.icache c').inum ≠ (t.icache c).inum :=
      fun he => hc' (hok.distinct c' c hr hct.ref he)
    obtain ⟨h1, h2⟩ := hok.coherent c' hr hv
    rw [hsb, hst, dinode_putInode_ne _ _ hne]
    exact ⟨h1, h2⟩
  · unfold node
    rw [hsb, hst]
    by_cases hi' : i = (s.icache c).inum
    · rw [if_pos ⟨hi', hl⟩, hi', ← hconf.inum, dinode_putInode_self _ hfit, nodeOf, if_pos rfl]
    · rw [if_neg (fun he => hi' he.1)]
      exact (node_putInode hok.disk hw.inum _ (hconf.sb ▸ hi) (hconf.inum ▸ hi')).trans
        (hconf.node_other h hc hi hi')
  · rw [blockOwner, hsb, hst, hok.disk.owner_put hw.inum hfit hsame] at hq
    have hne : q.1 ≠ (s.icache c).inum := by
      intro he
      have hq' : q = ((t.icache c).inum, q.2) := by rw [hconf.inum, ← he]
      rw [hq'] at hq
      exact absurd (hq.symm.trans (hnone q.2)) (by simp)
    have := hconf.ownerOf hne
    rw [ownerOf, current_of_eq hdisk, ownerOf, current_of_eq (h.d_eq hc)] at this
    exact this.symm.trans hq

theorem iput_spec (h : FsOk s) (hr : 0 < (s.icache c).ref) :
    Triple (· = s) (iput c) (fun _ t => Put c s t) fun _ => False := by
  refine triple_step rfl ?_
  by_cases hl : (s.icache c).ref = 1 ∧ (s.icache c).valid = true ∧ (s.icache c).d.nlink = 0
  · rw [if_pos hl]
    have hc : Locked c s := ⟨hr, hl.2.1⟩
    refine (itrunc_spec c (h.work hc) (h.fits hc)).next ?_
    rintro _ t ⟨hw, hconf, hd, hdisk⟩
    have href : (t.icache c).ref = 1 := by rw [hconf.entry]; exact hl.1
    refine triple_step rfl (triple_step (setDinode_eq ..) (triple_step (iupdate_eq ..)
      (triple_step rfl (triple_exact (setInode_eq ..) ?_))))
    refine put_of_freed h hl hconf hw hd hdisk ?_ rfl rfl rfl (fun c' hcc => ?_) ?_ ?_
    · show putInode t.sb t.store ((t.withDinode c _).icache c).inum
        ((t.withDinode c _).icache c).d = _
      rw [withDinode_icache_self]
    · simp [FsState.withInode, FsState.withDinode, hcc]
    · simp
    · simp [href]
  · rw [if_neg hl]
    refine triple_exact (setInode_eq ..) ?_
    have hnl : ¬ LastUse c s := hl
    exact
      { ok := h.withInode (fun _ => h.inum c hr)
          (fun _ c' hne hr' he => hne (h.distinct c' c hr' hr he)) fun _ hv => h.coherent c hr hv
        sb := rfl
        ftable := rfl
        proc := rfl
        others := fun c' hne => withInode_icache_ne _ _ hne
        inum := by rw [withInode_icache_self]
        ref := by rw [withInode_icache_self]
        valid := fun _ => by rw [withInode_icache_self]
        node := fun i _ => by rw [if_neg (fun he => hnl he.2)]; rfl
        owners := fun _ _ hq => hq }

end StrideXv6.Fs
