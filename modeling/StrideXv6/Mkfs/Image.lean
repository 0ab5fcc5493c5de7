import StrideXv6.Fs.Names
import StrideXv6.Mkfs.Append

set_option autoImplicit false

/-! # The image that mkfs builds

After a run of `mkfs` that ends with `exit(0)` the image holds the root directory and one inode for
each file, in the order of the arguments (`nodes`, `main_spec`). As long as the inode area has room
for them, what the run leaves is the sealed image of `Append` except for the last two writes, the
rounded size of the root directory and the bit map (`exists_filled`). `mkfs_ok` is a condition under
which the run does not fail.

However many files there are, `freeinode_eq` counts the inodes.
-/

namespace StrideXv6.Mkfs

open Bytes Fs Hoare Ownership Function
open Bio (FSSIZE)

variable {s t : Image} {ns : List Node}
variable {files : List File}

/-! ## What the image holds -/

/-- The entries of the root directory. -/
def rootBytes (files : List File) : List UInt8 :=
  dirent ROOTINO dot ++ dirent ROOTINO dotdot ++
    (files.mapIdx fun j f => dirent (j + 2) f.stripped).flatten

def rootNode (files : List File) : Node := { newNode T_DIR with bytes := rootBytes files }

/-- A file with these contents. -/
def fileWith (bytes : List UInt8) : Node := { newNode T_FILE with bytes := bytes }

/-- The inodes from number 1 on. -/
def nodes (files : List File) : List Node := rootNode files :: files.map fun f => fileWith f.bytes

theorem length_dirent (i : Nat) (name : List UInt8) : (dirent i name).length = DESIZE :=
  length_encodeDirent i name

theorem dirent_ne_nil (i : Nat) (name : List UInt8) : dirent i name ≠ [] := by
  simp [dirent, encodeDirent]

theorem rootBytes_snoc (files : List File) (f : File) :
    rootBytes (files ++ [f]) = rootBytes files ++ dirent (files.length + 2) f.stripped := by
  simp [rootBytes, List.mapIdx_append]

theorem length_rootBytes (files : List File) :
    (rootBytes files).length = DESIZE * (files.length + 2) := by
  induction files using List.reverseRecOn with
  | nil => simp [rootBytes, length_dirent]; omega
  | append_singleton files f ih =>
    rw [rootBytes_snoc, List.length_append, ih, length_dirent, List.length_append]
    simp only [List.length_cons, List.length_nil]
    rw [← Nat.mul_succ]

theorem length_nodes (files : List File) : (nodes files).length = files.length + 1 := by
  simp [nodes]

/-! ## The blocks needed -/

/-- An entry of the root directory lies in one block. -/
theorem turns_root (n : Nat) : turns (DESIZE * n) DESIZE = 1 := by
  rw [turns, DESIZE, BSIZE_eq, if_neg (by decide)]
  omega

/-- A chunk lies in two blocks at most. -/
theorem turns_chunk (off : Nat) {n : Nat} (hn : n ≤ BSIZE) : turns off n ≤ 2 := by
  rw [turns]
  rw [BSIZE_eq] at *
  split <;> omega

/-- A bound for the blocks a file needs, with its entry in the root directory. -/
def cost (f : File) : Nat := 2 + 4 * f.reads.length

def budget (files : List File) : Nat := nmeta + 4 + (files.map cost).sum

theorem budget_snoc (files : List File) (f : File) :
    budget (files ++ [f]) = budget files + cost f := by
  simp [budget]
  omega

/-! ## Adding a file -/

theorem nodes_zero (files : List File) (rest : List Node) :
    (nodes files ++ rest)[0]? = some (rootNode files) := rfl

theorem rootNode_type (files : List File) : (rootNode files).type ≠ T_DEV := by
  show T_DIR ≠ T_DEV
  decide

theorem fileWith_type (bytes : List UInt8) : (fileWith bytes).type ≠ T_DEV := by
  show T_FILE ≠ T_DEV
  decide

/-- The contents of a file are appended to the inode made last. -/
theorem append_chunks_spec (reads : List (List UInt8)) (bytes : List UInt8)
    (hreads : ∀ p ∈ reads, p ≠ [] ∧ p.length ≤ BSIZE) (h : Holds (ns ++ [fileWith bytes]) s) :
    Triple (· = s) (forM reads (iappend (ns.length + 1)))
      (fun _ t => Holds (ns ++ [fileWith (bytes ++ reads.flatten)]) t ∧
        t.freeblock ≤ s.freeblock + 4 * reads.length)
      fun _ => FSSIZE < s.freeblock + 4 * reads.length ∨
        MAXFILE * BSIZE < (bytes ++ reads.flatten).length := by
  induction reads generalizing bytes s with
  | nil => exact triple_exact rfl ⟨by simpa using h, le_refl _⟩
  | cons p reads ih =>
    have hlast : (ns ++ [fileWith bytes])[ns.length]? = some (fileWith bytes) :=
      List.getElem?_concat_length
    obtain ⟨hne, hle⟩ := hreads p (by simp)
    have hturns := turns_chunk bytes.length hle
    have hset : (ns ++ [fileWith bytes]).set ns.length (fileWith (bytes ++ p))
        = ns ++ [fileWith (bytes ++ p)] := by
      rw [List.set_append_right _ _ (le_refl _)]
      simp
    rw [List.forM_cons]
    refine triple_call (iappend_spec h hlast (fileWith_type bytes) hne) rfl (fun _ he => ?_) ?_
    · have hb : (fileWith bytes).bytes.length = bytes.length := rfl
      simp only [hb, List.flatten_cons, List.length_append, List.length_cons] at he ⊢
      omega
    rintro _ t ⟨ht, hfb⟩
    replace hfb : t.freeblock ≤ s.freeblock + 2 * turns bytes.length p.length := hfb
    replace ht : Holds (ns ++ [fileWith (bytes ++ p)]) t := hset ▸ ht
    refine triple_conseq (ih _ (fun q hq => hreads q (by simp [hq])) ht) (fun _ hx => hx) ?_ ?_
    · rintro _ u ⟨hu, hle⟩
      refine ⟨by simpa using hu, ?_⟩
      rw [List.length_cons]
      omega
    · intro e he
      rw [List.append_assoc, ← List.flatten_cons] at he
      rw [List.length_cons]
      omega

/-- The file cannot be added to any image. -/
def File.Bad (f : File) : Prop := slash ∈ f.name ∨ MAXFILE * BSIZE < f.bytes.length

theorem addFile_spec (l : List File) (f : File) (h : Holds (nodes l) s)
    (hroom : l.length + 2 < area.ninodes) :
    Triple (· = s) (addFile ROOTINO f)
      (fun _ t => Holds (nodes (l ++ [f])) t ∧ t.freeblock ≤ s.freeblock + cost f)
      fun _ => FSSIZE < s.freeblock + cost f ∨ f.Bad := by
  unfold addFile
  by_cases hslash : slash ∈ f.name
  · rw [if_pos hslash]
    exact triple_fail rfl (Or.inr (Or.inl hslash))
  rw [if_neg hslash]
  have hroom' : (nodes l).length + 1 < area.ninodes := by rw [length_nodes]; exact hroom
  refine (ialloc_spec h T_FILE (by decide) (by decide) hroom').safe.next ?_
  rintro inum t ⟨rfl, hfb, ht⟩
  rw [length_nodes]
  have hsize : (rootNode l).bytes.length = DESIZE * (l.length + 2) := length_rootBytes l
  have hmax : DESIZE * (l.length + 2) + DESIZE ≤ MAXFILE * BSIZE := by
    rw [area_ninodes] at hroom
    rw [DESIZE, MAXFILE_eq, BSIZE_eq]
    omega
  have hturns : turns (rootNode l).bytes.length (dirent (l.length + 1 + 1) f.stripped).length
      = 1 := by
    rw [hsize, length_dirent, turns_root]
  refine triple_call (iappend_spec ht (nodes_zero l _) (rootNode_type l)
    (dirent_ne_nil (l.length + 1 + 1) f.stripped)) rfl (fun _ he => Or.inl ?_) ?_
  · rw [hturns, hsize, length_dirent] at he
    rw [cost]
    omega
  rintro _ u ⟨hu, hfb'⟩
  have hset : (nodes l ++ [newNode T_FILE]).set 0
      { rootNode l with bytes := (rootNode l).bytes ++ dirent (l.length + 1 + 1) f.stripped }
      = (rootNode (l ++ [f]) :: l.map fun f => fileWith f.bytes) ++ [fileWith []] := by
    rw [rootNode, rootNode, rootBytes_snoc]
    rfl
  rw [hset] at hu
  rw [hturns] at hfb'
  have hlen : (rootNode (l ++ [f]) :: l.map fun f => fileWith f.bytes).length = l.length + 1 := by
    simp
  have hchunks := append_chunks_spec f.reads [] f.chunks hu
  rw [hlen] at hchunks
  refine triple_conseq hchunks (fun _ hx => hx) ?_ fun e he => ?_
  · rintro _ v ⟨hv, hle⟩
    refine ⟨?_, by rw [cost]; omega⟩
    rw [nodes, List.map_append, List.map_singleton]
    exact hv
  · rw [File.Bad, File.bytes, cost]
    rw [List.nil_append] at he
    omega

/-! ## The whole program -/

/-- The image with its blocks cleared and its superblock written. -/
def cleared : Image :=
  { start with
    blocks := Function.update (fun _ _ => 0) 1 (encodeSb superblock)
    len := FSSIZE }

theorem cleared_blocks {b : Nat} (h : b ≠ 1) : cleared.blocks b = fun _ => 0 := by
  show Function.update (fun _ _ => 0) 1 (encodeSb superblock) b = _
  rw [update_of_ne h]

theorem clear_spec :
    Triple (· = start) (forM (List.range FSSIZE) fun i => wsect i fun _ => 0)
      (fun _ t => t = { start with len := FSSIZE }) fun _ => False := by
  rw [List.range_eq_range']
  refine (triple_forM_range' (I := fun n x => x = { start with len := n }) 0 FSSIZE
    fun i _ _ => ?_).post (fun _ t ht => ht.trans (by rw [Nat.zero_add]))
  refine triple_exact rfl ?_
  have hblocks : Function.update start.blocks i (fun _ => 0) = start.blocks :=
    update_eq_self i _
  have hlen : max i (i + 1) = i + 1 := by omega
  show Image.mk (Function.update start.blocks i fun _ => 0) (max i (i + 1)) _ _ = _
  rw [hblocks, hlen]

theorem cleared_holds : Holds [] cleared := by
  have hzero : ∀ i < area.ninodes, dinode area (sealed cleared) i = Dinode.fresh 0 := by
    intro i hi
    obtain ⟨h1, h2, -⟩ := iblock_range hi
    rw [dinode, sealed_of_ne h1 h2, cleared_blocks h1]
    simp [getDinode, getLE, byteAt, Dinode.fresh]
  have hnone : ∀ q b, owner area (sealed cleared) (dinode area (sealed cleared)) q ≠ some b := by
    rintro ⟨i, p⟩ b hq
    obtain ⟨hi, ht, -⟩ := owner_eq_some.mp hq
    rw [hzero i hi] at ht
    exact ht rfl
  refine ⟨⟨rfl, le_refl _, by decide, ?_, fun b hb => ?_⟩, rfl, by decide,
    ⟨area_ok, ?_, ⟨⟨?_, ?_⟩, ?_, fun b hb => ?_⟩, fun i hi ht => ?_⟩, fun i hi => ?_⟩
  · show Function.update (fun _ _ => 0) 1 (encodeSb superblock) 1 = _
    rw [update_self]
  · refine cleared_blocks ?_
    rintro rfl
    exact absurd hb (by decide)
  · have : sealed cleared 1 = encodeSb area := by
      rw [sealed, update_of_ne (by decide), update_self]
    rw [this, decodeSb_area]
  · exact fun q _ b hq => absurd hq (hnone q b)
  · exact fun q b hq => absurd hq (hnone q b)
  · exact fun q b hq => absurd hq (hnone q b)
  · rw [area_dataStart, nmeta_eq] at hb
    rw [bit_sealed (by decide) (by rw [BPB_eq]; omega)]
    exact decide_eq_true hb
  · rw [hzero i hi] at ht
    exact absurd rfl ht
  · rw [hzero i hi]
    cases i <;> rfl

/-- The image when all files have been added. -/
structure Filled (files : List File) (s : Image) : Prop where
  holds : Holds (nodes files) s
  le : s.freeblock ≤ budget files

/-- The last two writes: the rounded size of the root directory, and the bit map. -/
def finish (s : Image) : Image :=
  (s.putNode ROOTINO { dinode area (sealed s) ROOTINO with
    size := ((dinode area (sealed s) ROOTINO).size / BSIZE + 1) * BSIZE }).write area.bmapstart
    (usedMap s.freeblock)

theorem root_spec :
    Triple (· = cleared) (ialloc T_DIR)
      (fun inum t => inum = ROOTINO ∧ t.freeblock = nmeta ∧ Holds [newNode T_DIR] t)
      fun _ => False :=
  ialloc_spec cleared_holds T_DIR (by decide) (by decide) (by decide)

theorem dots_spec (h : Holds [newNode T_DIR] s) (hfb : s.freeblock = nmeta) :
    Triple (· = s) (do
      iappend ROOTINO (dirent ROOTINO dot)
      iappend ROOTINO (dirent ROOTINO dotdot))
      (fun _ t => Filled [] t) fun _ => False := by
  have hturns : ∀ n, turns (DESIZE * n) DESIZE = 1 := turns_root
  have hmax : DESIZE + DESIZE ≤ MAXFILE * BSIZE := by decide
  have hlen : (newNode T_DIR).bytes.length = DESIZE * 0 := rfl
  refine triple_call (iappend_spec h (j := 0) rfl (by decide) (dirent_ne_nil _ _)) rfl
    (fun _ he => ?_) ?_
  · rw [hlen, length_dirent, hturns, hfb, nmeta_eq, FSSIZE_eq] at he
    omega
  rintro _ t ⟨ht, hle⟩
  rw [hlen, length_dirent, hturns] at hle
  have hlen' : ((newNode T_DIR).bytes ++ dirent ROOTINO dot).length = DESIZE * 1 := by
    rw [List.length_append, length_dirent]; rfl
  refine triple_conseq (iappend_spec ht (j := 0) rfl (by decide) (dirent_ne_nil _ _))
    (fun _ hx => hx) ?_ fun _ he => ?_
  · rintro _ u ⟨hu, hle'⟩
    rw [hlen', length_dirent, hturns] at hle'
    refine ⟨?_, by rw [budget]; simp; omega⟩
    simpa [nodes, rootNode, rootBytes, newNode] using hu
  · rw [hlen', length_dirent, hturns] at he
    rw [nmeta_eq] at hfb
    rw [FSSIZE_eq] at he
    omega

theorem files_spec (files : List File) (hroom : files.length ≤ 206) (h : Filled [] s) :
    Triple (· = s) (forM files (addFile ROOTINO)) (fun _ t => Filled files t)
      fun _ => FSSIZE < budget files ∨ ∃ f ∈ files, f.Bad := by
  refine triple_conseq (triple_forM (I := fun l t => Filled l t) files fun l f l' hl => ?_)
    (fun x hx => hx ▸ h) (fun _ _ ht => ht) fun _ he => he
  have hlen : l.length + 1 + l'.length = files.length := by rw [hl]; simp; omega
  refine triple_of_forall fun t ht => triple_conseq
    (addFile_spec l f ht.holds (by rw [area_ninodes]; omega)) (fun _ hx => hx) ?_ fun _ he => ?_
  · rintro _ u ⟨hu, hle⟩
    exact ⟨hu, by have := ht.le; rw [budget_snoc]; omega⟩
  · have hbud : budget files = budget l + cost f + (l'.map cost).sum := by
      rw [hl, budget, budget]
      simp
      omega
    have := ht.le
    rcases he with he | he
    · exact Or.inl (by omega)
    · exact Or.inr ⟨f, by simp [hl], he⟩

theorem finish_spec (h : Filled files s) :
    Triple (· = s) (do
      fixRoot ROOTINO
      balloc (← get).freeblock)
      (fun _ t => t = finish s) fun _ => False := by
  have hi : ROOTINO < area.ninodes := by decide
  have hready := h.holds.ready
  have hfix : fixRoot ROOTINO s = .ok ((), s.putNode ROOTINO { dinode area (sealed s) ROOTINO with
      size := ((dinode area (sealed s) ROOTINO).size / BSIZE + 1) * BSIZE }) := by
    refine (run_bind (rinode_eq hready.len hi)).trans ?_
    exact winode_eq hready.len hi _
  refine triple_step hfix (triple_step rfl ?_)
  have hlt : s.freeblock < BSIZE * 8 := by
    have := hready.back
    rw [FSSIZE_eq] at this
    rw [BSIZE_eq]
    omega
  refine triple_exact (a := ()) (t := finish s) ?_ rfl
  exact congrFun (if_pos hlt) _

/-- `mkfs` with as many files as the inode area has room for. -/
theorem main_spec (files : List File) (hroom : files.length ≤ 206) :
    Triple (· = start) (main files)
      (fun _ t => ∃ s, Filled files s ∧ t = finish s)
      fun _ => FSSIZE < budget files ∨ ∃ f ∈ files, f.Bad := by
  unfold main
  refine clear_spec.safe.next ?_
  rintro _ _ rfl
  refine triple_step (a := ()) (t := cleared) rfl ?_
  refine root_spec.safe.next ?_
  rintro inum t ⟨rfl, hfb, ht⟩
  rw [if_pos rfl, ← bind_assoc]
  refine (dots_spec ht hfb).safe.next ?_
  intro _ u hu
  refine (files_spec files hroom hu).next ?_
  intro _ v hv
  exact triple_conseq (finish_spec hv) (fun _ hx => hx) (fun _ _ hw => ⟨v, hv, hw⟩)
    fun _ he => he.elim

theorem main_of_mkfs (h : mkfs files = .ok t) :
    main files start = .ok ((), t) := by
  unfold mkfs at h
  cases hm : main files start with
  | ok r =>
    rw [hm] at h
    exact congrArg _ (Prod.ext rfl (Except.ok.inj h))
  | error e =>
    rw [hm] at h
    simp at h

theorem exists_filled (h : mkfs files = .ok t) (hroom : files.length ≤ 206) :
    ∃ s, Filled files s ∧ t = finish s :=
  (main_spec files hroom).ok rfl (main_of_mkfs h)

/-- Files that fit make `mkfs` come to its end. -/
theorem mkfs_ok (hroom : files.length ≤ 206) (hfit : budget files ≤ FSSIZE)
    (hgood : ∀ f ∈ files, ¬ f.Bad) : ∃ t, mkfs files = .ok t := by
  unfold mkfs
  cases hm : main files start with
  | ok r => exact ⟨r.2, rfl⟩
  | error e =>
    rcases (main_spec files hroom).error rfl hm with he | ⟨f, hf, hbad⟩
    · omega
    · exact absurd hbad (hgood f hf)

/-! ## The number of inodes -/

/-- The program gives out no inode. -/
def KeepsInode {α : Type} (m : M α) : Prop :=
  ∀ n, Triple (fun s => s.freeinode = n) m (fun _ t => t.freeinode = n) fun _ => True

theorem keepsInode_bind {α β : Type} {m : M α} {f : α → M β} (hm : KeepsInode m)
    (hf : ∀ a, KeepsInode (f a)) : KeepsInode (m >>= f) :=
  fun n => triple_bind (hm n) fun a => hf a n

theorem keepsInode_pure {α : Type} (a : α) : KeepsInode (pure a : M α) :=
  fun _ => triple_of_forall fun _ hs => triple_exact rfl hs

theorem keepsInode_throw {α : Type} (e : Exit) : KeepsInode (throw e : M α) :=
  fun _ => triple_of_forall fun _ _ => triple_fail rfl trivial

theorem keepsInode_wsect (b : Nat) (v : Block) : KeepsInode (wsect b v) :=
  fun _ => triple_of_forall fun s hs => triple_exact (wsect_eq s b v) hs

theorem keepsInode_rsect (b : Nat) : KeepsInode (rsect b) := fun _ =>
  triple_of_forall fun s hs => triple_conseq (rsect_spec s b) (fun _ hx => hx)
    (fun _ _ hr => hr.2.1 ▸ hs) fun _ _ => trivial

theorem keepsInode_newBlock : KeepsInode newBlock :=
  fun _ => triple_of_forall fun s hs => triple_exact (newBlock_eq s) hs

theorem keepsInode_winode (i : Nat) (d : Dinode) : KeepsInode (winode i d) :=
  keepsInode_bind (keepsInode_rsect _) fun _ => keepsInode_wsect _ _

theorem keepsInode_rinode (i : Nat) : KeepsInode (rinode i) :=
  keepsInode_bind (keepsInode_rsect _) fun _ => keepsInode_pure _

theorem keepsInode_loadAddr (d : Dinode) (k : Fin (NDIRECT + 1)) : KeepsInode (loadAddr d k) := by
  unfold loadAddr
  split
  · exact keepsInode_bind keepsInode_newBlock fun _ => keepsInode_pure _
  · exact keepsInode_pure _

theorem keepsInode_blockFor (d : Dinode) (fbn : Nat) : KeepsInode (blockFor d fbn) := by
  unfold blockFor
  split
  · exact keepsInode_throw _
  split
  · exact keepsInode_loadAddr _ _
  refine keepsInode_bind (keepsInode_loadAddr _ _) fun r => ?_
  refine keepsInode_bind (keepsInode_rsect _) fun v => ?_
  split
  · exact keepsInode_bind keepsInode_newBlock fun b =>
      keepsInode_bind (keepsInode_wsect _ _) fun _ => keepsInode_pure _
  · exact keepsInode_pure _

theorem keepsInode_appendLoop (fuel : Nat) (d : Dinode) (off : Nat) (p : List UInt8) :
    KeepsInode (appendLoop fuel d off p) := by
  induction fuel generalizing d off p with
  | zero => exact keepsInode_pure _
  | succ fuel ih =>
    cases p with
    | nil => exact keepsInode_pure _
    | cons a p =>
      refine keepsInode_bind (keepsInode_blockFor _ _) fun r => ?_
      refine keepsInode_bind (keepsInode_rsect _) fun v => ?_
      exact keepsInode_bind (keepsInode_wsect _ _) fun _ => ih _ _ _

theorem keepsInode_iappend (i : Nat) (p : List UInt8) : KeepsInode (iappend i p) :=
  keepsInode_bind (keepsInode_rinode _) fun _ =>
    keepsInode_bind (keepsInode_appendLoop _ _ _ _) fun _ => keepsInode_winode _ _

theorem keepsInode_forM {α : Type} (l : List α) {f : α → M PUnit} (h : ∀ a, KeepsInode (f a)) :
    KeepsInode (forM l f) :=
  fun n => triple_forM (I := fun _ (s : Image) => s.freeinode = n) l fun _ a _ _ => h a n

theorem ialloc_inode (type n : Nat) :
    Triple (fun s => s.freeinode = n) (ialloc type) (fun _ t => t.freeinode = n + 1)
      fun _ => True := by
  refine triple_of_forall fun s hs => triple_step (a := s) (t := s) rfl (triple_step rfl ?_)
  refine triple_call (keepsInode_winode _ _ (n + 1)) (congrArg (· + 1) hs) (fun _ _ => trivial) ?_
  exact fun _ t ht => triple_exact rfl ht

theorem addFile_inode (rootino : Nat) (f : File) (n : Nat) :
    Triple (fun s => s.freeinode = n) (addFile rootino f) (fun _ t => t.freeinode = n + 1)
      fun _ => True := by
  unfold addFile
  split
  · exact triple_of_forall fun _ _ => triple_fail rfl trivial
  · exact triple_bind (ialloc_inode _ n) fun _ =>
      keepsInode_bind (keepsInode_iappend _ _) (fun _ => keepsInode_forM _ (keepsInode_iappend _))
        (n + 1)

theorem main_inode (files : List File) :
    Triple (· = start) (main files) (fun _ t => t.freeinode = files.length + 2)
      fun _ => True := by
  unfold main
  refine clear_spec.safe.next ?_
  rintro _ _ rfl
  refine triple_step (a := ()) (t := cleared) rfl ?_
  refine triple_call (ialloc_inode T_DIR 1) rfl (fun _ _ => trivial) ?_
  intro rootino t ht
  split
  · refine triple_call (keepsInode_iappend _ _ 2) ht (fun _ _ => trivial) fun _ u hu => ?_
    refine triple_call (keepsInode_iappend _ _ 2) hu (fun _ _ => trivial) fun _ v hv => ?_
    refine triple_call (triple_forM (I := fun l (s : Image) => s.freeinode = l.length + 2)
      (E := fun _ => True) files ?_) hv (fun _ _ => trivial) fun _ w hw => ?_
    · intro l f l' _
      refine (addFile_inode rootino f (l.length + 2)).post ?_
      intro _ x hx
      rw [hx, List.length_append]
      simp only [List.length_cons, List.length_nil]
    · refine triple_call (keepsInode_bind (keepsInode_rinode _) (fun _ => keepsInode_winode _ _)
        (files.length + 2)) hw (fun _ _ => trivial) fun _ x hx => ?_
      refine triple_step rfl ?_
      unfold balloc
      split
      · exact triple_exact rfl hx
      · exact triple_fail rfl trivial
  · exact triple_fail rfl trivial

theorem freeinode_eq (h : mkfs files = .ok t) :
    t.freeinode = files.length + 2 :=
  (main_inode files).ok rfl (main_of_mkfs h)

end StrideXv6.Mkfs
