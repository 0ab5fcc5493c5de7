import StrideXv6.Mkfs.Consistent

set_option autoImplicit false

/-! # Reading the image with the kernel

The kernel starts on an image of `mkfs` (`boot`), looks up a name in the root directory and reads
the file. `reads_back` says that it gets the bytes of the file with that name, for every file and
every range asked for. The rounded size of the root directory does not matter here: an entry that
exists is found before the lookup comes to the blocks that may be missing.
-/

namespace StrideXv6.Mkfs

open Bytes Fs Hoare Ownership
open Bio (FSSIZE)

variable {s t : Image} {files : List File} {c : Fin NINODE} {k : FsState}
variable {name : List UInt8} {j i : Nat}

/-- The kernel after `iinit`, with the image as its disk. -/
def boot (t : Image) : FsState :=
  { store := t.blocks
    sb := decodeSb (t.blocks 1)
    icache := fun _ => { inum := 0, ref := 0, valid := false, d := Dinode.fresh 0 }
    ftable := fun _ =>
      { type := .none, ref := 0, readable := false, writable := false, ip := slot, off := 0 }
    proc := fun _ => none }

/-- Look up a name in the root directory and read from the file: its type, its size and the
bytes. -/
def readFile (name : List UInt8) (off n : Nat) :
    FsM (Option (Nat × Nat × Option (List UInt8))) := do
  let dp ← iget ROOTINO
  ilock dp
  match ← dirlookup dp name with
  | none => return none
  | some (ip, _) =>
    ilock ip
    let d ← inode ip
    let r ← readi ip off n
    return some (d.d.type, d.d.size, r)

/-! ## Reading an inode of the image -/

/-- The kernel works on inode `i` of the image in entry `c`. -/
structure Open (t : Image) (c : Fin NINODE) (i : Nat) (k : FsState) : Prop where
  store : k.store = t.blocks
  d : (k.icache c).d = inodeOf t i

theorem Filled.fileByte_finish (h : Filled files s) {i x : Nat} (hi : Used (finish s) i)
    (hx : x < (dinode area (sealed s) i).size) :
    mapped (finish s).blocks (inodeOf (finish s) i) (x / BSIZE) ≠ 0 ∧
      fileByte (finish s).blocks (inodeOf (finish s) i) x
        = fileByte (sealed s) (dinode area (sealed s) i) x := by
  have hm : mapped (sealed s) (dinode area (sealed s) i) (x / BSIZE) ≠ 0 := by
    rw [(h.sized hi).mapped, BSIZE_eq]
    omega
  rw [fileByte, fileByte, h.mapped_finish hi, finish_data (h.mapped_range hi hm).1]
  exact ⟨hm, rfl⟩

theorem Filled.size_le (h : Filled files s) {i : Nat} (hi : Used (finish s) i) :
    (dinode area (sealed s) i).size ≤ (inodeOf (finish s) i).size := by
  rw [h.inodeOf_finish (h.used_lt hi)]
  split
  · rename_i hr
    rw [hr, rounded]
    rw [BSIZE_eq]
    show _ ≤ (_ / 512 + 1) * 512
    omega
  · exact le_refl _

/-- Reading a range that lies within what was written. -/
theorem Filled.readi_finish (h : Filled files s) {i : Nat} (hi : Used (finish s) i)
    (hk : Open (finish s) c i k) {nd : Node}
    (hnd : nodeOf (sealed s) (dinode area (sealed s) i) = some nd) (hdev : nd.type ≠ T_DEV)
    (off n : Nat) {m : Nat} (hoff : off ≤ nd.bytes.length) (hwrap : off + n < 2 ^ 32)
    (hm : (if off + n > (inodeOf (finish s) i).size then (inodeOf (finish s) i).size - off else n)
      = m)
    (hm' : (if off + n > nd.bytes.length then nd.bytes.length - off else n) = m) :
    readi c off n k = .ok (some ((nd.bytes.drop off).take n), k) := by
  have hty := h.type_ne hi
  rw [nodeOf, if_neg hty, Option.some.injEq] at hnd
  have hbytes : nd.bytes = contents (sealed s) (dinode area (sealed s) i) := by rw [← hnd]
  have hlen : nd.bytes.length = (dinode area (sealed s) i).size := by
    rw [hbytes, length_contents]
  have htype : (inodeOf (finish s) i).type = nd.type := by
    rw [h.inodeOf_finish (h.used_lt hi), ← hnd]
    split
    · rename_i hr
      rw [hr]
      rfl
    · rfl
  have hle : off + m ≤ (dinode area (sealed s) i).size := by
    rw [← hlen]
    split at hm' <;> omega
  have hbig := h.size_le hi
  have hrd := readi_eq (s := k) (c := c) off n fun bn hbn => by
    rw [hk.d, hm] at hbn
    obtain ⟨x, h1, h2, rfl⟩ := hbn
    rw [hk.d, hk.store]
    exact (h.fileByte_finish hi (by omega)).1
  have hsame : ((contents (finish s).blocks (inodeOf (finish s) i)).drop off).take n
      = (nd.bytes.drop off).take n := by
    rw [take_drop_contents (by omega) hm, hbytes, take_drop_contents hle (by rwa [← hlen])]
    refine List.map_congr_left fun x hx => ?_
    have := List.mem_range.mp hx
    exact (h.fileByte_finish hi (by omega)).2
  rw [hrd, hk.d, hk.store, htype, if_neg]
  · rw [hsame]
  · rw [Nat.mod_eq_of_lt hwrap]
    simp only [hdev, false_or, not_or]
    omega

/-! ## The entries of the root directory -/

/-- The entries: number and name. -/
def entries (files : List File) : List (Nat × List UInt8) :=
  (ROOTINO, dot) :: (ROOTINO, dotdot) :: files.mapIdx fun j f => (j + 2, f.stripped)

theorem rootBytes_eq (files : List File) :
    rootBytes files = ((entries files).map fun e => dirent e.1 e.2).flatten := by
  have hmap : (files.mapIdx fun j f => (j + 2, f.stripped)).map (fun e => dirent e.1 e.2)
      = files.mapIdx fun j f => dirent (j + 2) f.stripped := by
    refine List.ext_getElem (by simp) fun j h1 h2 => ?_
    simp
  simp [rootBytes, entries, hmap]

theorem length_entries (files : List File) : (entries files).length = files.length + 2 := by
  simp [entries]

/-- A part of a list of blocks of one length. -/
theorem take_drop_flatten {α : Type} {L : List (List α)} {m j : Nat}
    (hL : ∀ l ∈ L, l.length = m) {l : List α} (hj : L[j]? = some l) :
    (L.flatten.drop (m * j)).take m = l := by
  induction L generalizing j with
  | nil => simp at hj
  | cons a L ih =>
    have ha : a.length = m := hL a (by simp)
    cases j with
    | zero =>
      obtain rfl := Option.some.inj hj
      simp [ha]
    | succ j =>
      rw [List.flatten_cons, Nat.mul_succ, Nat.add_comm, ← List.drop_drop, ← ha,
        List.drop_left, ha]
      exact ih (fun l hl => hL l (by simp [hl])) hj

theorem rootBytes_entry (hj : (entries files)[j]? = some (i, name)) :
    ((rootBytes files).drop (DESIZE * j)).take DESIZE = dirent i name := by
  rw [rootBytes_eq]
  refine take_drop_flatten (fun l hl => ?_) (by rw [List.getElem?_map, hj]; rfl)
  obtain ⟨e, -, rfl⟩ := List.mem_map.mp hl
  exact length_dirent _ _

theorem Filled.root_node (h : Filled files s) :
    nodeOf (sealed s) (dinode area (sealed s) ROOTINO) = some (rootNode files) :=
  h.holds.node ROOTINO (by decide)

theorem Filled.readDirent_root (h : Filled files s) (hk : Open (finish s) c ROOTINO k)
    (hj : (entries files)[j]? = some (i, name)) (hi : i < 2 ^ 16) (e : Panic) :
    readDirent c (DESIZE * j) e k = .ok ({ inum := i, name := strncpy name DIRSIZ }, k) := by
  have hlt : j < files.length + 2 := by
    rw [← length_entries]
    exact (List.getElem?_eq_some_iff.mp hj).1
  have hlen : (rootNode files).bytes.length = DESIZE * (files.length + 2) := length_rootBytes files
  have hle : DESIZE * j + DESIZE ≤ DESIZE * (files.length + 2) := by
    rw [← Nat.mul_succ]
    exact Nat.mul_le_mul_left _ hlt
  have hsz := h.size_root
  have hfiles := h.length_le
  have hread := h.readi_finish h.used_root hk h.root_node (rootNode_type files)
    (DESIZE * j) DESIZE (m := DESIZE) (by omega) (by rw [DESIZE] at *; omega)
    (if_neg (by rw [hsz]; rw [DESIZE, BSIZE_eq] at *; omega)) (if_neg (by omega))
  rw [readDirent_eq e hread]
  · rw [show (rootNode files).bytes = rootBytes files from rfl, rootBytes_entry hj, dirent,
      decode_encodeDirent]
    dsimp only
    rw [Nat.mod_eq_of_lt hi]
  · rw [show (rootNode files).bytes = rootBytes files from rfl, rootBytes_entry hj, length_dirent]

/-! ## The lookup -/

theorem offsets_split {size j : Nat} (hj : DESIZE * j < size) :
    ∃ rest, offsets 0 size = (List.range j).map (DESIZE * ·) ++ DESIZE * j :: rest := by
  have hlt : j < (size + DESIZE - 1) / DESIZE := by rw [DESIZE] at *; omega
  obtain ⟨m, hm⟩ : ∃ m, (size + DESIZE - 1) / DESIZE = j + (m + 1) :=
    ⟨(size + DESIZE - 1) / DESIZE - j - 1, by omega⟩
  refine ⟨(List.range' (j + 1) m).map (DESIZE * ·), ?_⟩
  rw [offsets, hm, Nat.sub_zero, ← List.range'_append_1, List.map_append, Nat.zero_add,
    List.range'_succ, List.map_cons, List.range_eq_range']

theorem stripped_string (f : File) : 0 ∉ f.stripped := by
  unfold File.stripped
  split
  · exact fun h0 => f.string (List.mem_of_mem_tail h0)
  · exact f.string

theorem entries_string {e : Nat × List UInt8} (he : e ∈ entries files) : 0 ∉ e.2 := by
  simp only [entries, List.mem_cons, List.mem_mapIdx] at he
  rcases he with rfl | rfl | ⟨j, hj, rfl⟩
  · decide
  · decide
  · exact stripped_string _

/-- The names of the entries are different. -/
theorem entries_nodup (hnames : (files.map fun f => f.stripped.take DIRSIZ).Nodup)
    (hdots : ∀ f ∈ files, f.stripped.take DIRSIZ ≠ dot ∧ f.stripped.take DIRSIZ ≠ dotdot) :
    ((entries files).map fun e => e.2.take DIRSIZ).Nodup := by
  have hmap : (files.mapIdx fun j f => (j + 2, f.stripped)).map (fun e => e.2.take DIRSIZ)
      = files.map fun f => f.stripped.take DIRSIZ := by
    refine List.ext_getElem (by simp) fun j h1 h2 => ?_
    simp
  rw [entries, List.map_cons, List.map_cons, hmap, List.nodup_cons, List.nodup_cons]
  refine ⟨?_, ?_, hnames⟩
  · simp only [List.mem_cons, List.mem_map, not_or]
    refine ⟨by decide, ?_⟩
    rintro ⟨f, hf, he⟩
    exact (hdots f hf).1 he
  · simp only [List.mem_map]
    rintro ⟨f, hf, he⟩
    exact (hdots f hf).2 he

theorem entries_inum {e : Nat × List UInt8} (he : e ∈ entries files) :
    0 < e.1 ∧ e.1 < files.length + 2 := by
  simp only [entries, List.mem_cons, List.mem_mapIdx] at he
  rcases he with rfl | rfl | ⟨j, hj, rfl⟩
  · exact ⟨Nat.one_pos, by show 1 < _; omega⟩
  · exact ⟨Nat.one_pos, by show 1 < _; omega⟩
  · exact ⟨by show 0 < j + 2; omega, by show j + 2 < _; omega⟩

/-- The lookup of a name gets the inode of its entry. -/
theorem Filled.dirlookup_root (h : Filled files s) (hk : Open (finish s) c ROOTINO k)
    (hnodup : ((entries files).map fun e => e.2.take DIRSIZ).Nodup)
    {entry name : List UInt8} (hj : (entries files)[j]? = some (i, entry)) (hname : 0 ∉ name)
    (heq : name.take DIRSIZ = entry.take DIRSIZ) :
    dirlookup c name k = (do
      let ip ← iget i
      return some (ip, DESIZE * j) : FsM (Option (Fin NINODE × Nat))) k := by
  have hfiles := h.length_le
  have hsmall : ∀ {e}, e ∈ entries files → e.1 < 2 ^ 16 := fun he => by
    have := (entries_inum he).2
    omega
  have hjlt : j < files.length + 2 := by
    rw [← length_entries]
    exact (List.getElem?_eq_some_iff.mp hj).1
  have hmem : (i, entry) ∈ entries files := List.mem_of_getElem? hj
  have htype : (k.icache c).d.type = T_DIR := by
    have hty := h.type_ne h.used_root
    have hnode := h.root_node
    rw [nodeOf, if_neg hty, Option.some.injEq] at hnode
    rw [hk.d, h.inodeOf_finish (by decide), if_pos rfl]
    exact congrArg Node.type hnode
  have hsize : DESIZE * j < (k.icache c).d.size := by
    rw [hk.d, h.size_root]
    rw [DESIZE, BSIZE_eq]
    omega
  obtain ⟨rest, hrest⟩ := offsets_split hsize
  refine (run_bind (a := k.icache c) (t := k) rfl).trans ?_
  rw [if_neg (not_not.mpr htype), hrest, lookupLoop_skip]
  · rw [lookupLoop_hit _ (h.readDirent_root hk hj (hsmall hmem) _)]
    · exact Nat.ne_of_gt (entries_inum hmem).1
    · exact (namecmp_strncpy hname (entries_string hmem)).mpr heq
  · intro off hoff
    obtain ⟨j', hj', rfl⟩ := List.mem_map.mp hoff
    rw [List.mem_range] at hj'
    have hlt : j' < (entries files).length := by rw [length_entries]; omega
    have hget : (entries files)[j']? = some (entries files)[j'] := List.getElem?_eq_getElem hlt
    have hmem' : (entries files)[j'] ∈ entries files := List.getElem_mem hlt
    refine ⟨_, h.readDirent_root hk hget (hsmall hmem') _, Or.inr fun hcmp => ?_⟩
    have hsame := (namecmp_strncpy hname (entries_string hmem')).mp hcmp
    rw [heq] at hsame
    have hinj : j' = j := by
      refine (List.getElem?_inj (by simpa using hlt) hnodup).mp ?_
      simp [hj, hget, hsame]
    omega

/-! ## The whole way -/

theorem Filled.super (h : Filled files s) : (finish s).blocks 1 = encodeSb superblock := by
  have h1 := (iblock_range (i := ROOTINO) (by decide)).1
  have hbm : area.bmapstart ≠ 1 := by decide
  simp only [finish, Image.write, Image.putNode, Function.update_of_ne hbm.symm,
    Function.update_of_ne h1.symm]
  exact h.holds.ready.super

theorem Filled.file_node (h : Filled files s) {j : Nat} {f : File} (hj : files[j]? = some f) :
    nodeOf (sealed s) (dinode area (sealed s) (j + 2)) = some (fileWith f.bytes) := by
  have hlt := (List.getElem?_eq_some_iff.mp hj).1
  have hlen := h.length_le
  rw [h.holds.node (j + 2) (by rw [area_ninodes]; omega)]
  show (nodes files)[j + 1]? = _
  rw [nodes, List.getElem?_cons_succ, List.getElem?_map, hj]
  rfl

/-- Getting an inode of the image that is not cached, and locking it. -/
theorem Filled.iget_ilock (h : Filled files s) {i : Nat} (hi : Used (finish s) i)
    (hstore : k.store = (finish s).blocks) (hsb : k.sb = superblock)
    (hmiss : ∀ c, 0 < (k.icache c).ref → (k.icache c).inum ≠ i)
    (hfree : ∃ c, (k.icache c).ref = 0) :
    ∃ c k', iget i k = .ok (c, k') ∧ ∃ k'', ilock c k' = .ok ((), k'') ∧
      Open (finish s) c i k'' ∧ k''.sb = superblock ∧ (k''.icache c).inum = i ∧
      ∀ c', c' ≠ c → k''.icache c' = k.icache c' := by
  obtain ⟨c, -, hget⟩ := iget_miss hmiss hfree
  refine ⟨c, _, hget, ?_⟩
  generalize hk' : k.withInode c { k.icache c with inum := i, ref := 1, valid := false } = k'
  have hentry : k'.icache c = { k.icache c with inum := i, ref := 1, valid := false } := by
    rw [← hk', withInode_icache_self]
  have hd : dinode k'.sb k'.store (k'.icache c).inum = inodeOf (finish s) i := by
    rw [hentry, ← hk']
    show dinode k.sb k.store i = _
    rw [hsb, hstore]
    rfl
  have hty : (inodeOf (finish s) i).type ≠ 0 := by
    have := h.type_ne hi
    rw [h.inodeOf_finish (h.used_lt hi)]
    split
    · rename_i hr
      rw [hr] at this
      exact this
    · exact this
  refine ⟨_, ilock_read (by rw [hentry]) (by rwa [hd]), ⟨?_, ?_⟩, ?_, ?_, fun c' hne => ?_⟩
  · rw [← hstore, ← hk']
    rfl
  · rw [withInode_icache_self, hd]
  · rw [← hsb, ← hk']
    rfl
  · rw [withInode_icache_self, hentry]
  · rw [withInode_icache_ne _ _ hne, ← hk', withInode_icache_ne _ _ hne]

theorem Filled.reads_back (h : Filled files s)
    (hnodup : ((entries files).map fun e => e.2.take DIRSIZ).Nodup) {j : Nat} {f : File}
    (hj : files[j]? = some f) (hname : 0 ∉ name)
    (heq : name.take DIRSIZ = f.stripped.take DIRSIZ) {off n : Nat} (hoff : off ≤ f.bytes.length)
    (hwrap : off + n < 2 ^ 32) :
    ∃ u, readFile name off n (boot (finish s))
      = .ok (some (T_FILE, f.bytes.length, some ((f.bytes.drop off).take n)), u) := by
  have hlt := (List.getElem?_eq_some_iff.mp hj).1
  have hsb : (boot (finish s)).sb = superblock := by
    show decodeSb _ = _
    rw [h.super, decodeSb_superblock]
  obtain ⟨dp, k₁, hget₁, k₂, hlock₁, hopen₁, hsb₁, hinum₁, hrest₁⟩ :=
    h.iget_ilock h.used_root (k := boot (finish s)) rfl hsb
      (fun c hc => absurd hc (Nat.lt_irrefl 0)) ⟨slot, rfl⟩
  have hentry : (entries files)[j + 2]? = some (j + 2, f.stripped) := by
    simp [entries, List.getElem?_mapIdx, hj]
  have hfree : ∃ c, (k₂.icache c).ref = 0 := by
    obtain ⟨c, hc⟩ : ∃ c, c ≠ dp := by
      by_cases h0 : dp = slot
      · exact ⟨⟨1, by decide⟩, by rw [h0]; decide⟩
      · exact ⟨slot, fun he => h0 he.symm⟩
    exact ⟨c, by rw [hrest₁ c hc]; rfl⟩
  have hused : Used (finish s) (j + 2) := ⟨by omega, by rw [h.freeinode_eq]; omega⟩
  obtain ⟨ip, k₃, hget₂, k₄, hlock₂, hopen₂, -, -, -⟩ := h.iget_ilock hused hopen₁.store hsb₁
    (fun c hc => by
      by_cases hcc : c = dp
      · rw [hcc, hinum₁, ROOTINO]
        omega
      · rw [hrest₁ c hcc] at hc
        exact absurd hc (Nat.lt_irrefl 0)) hfree
  have hnode := h.file_node hj
  have hd : (k₄.icache ip).d = dinode area (sealed s) (j + 2) := by
    rw [hopen₂.d, h.inodeOf_finish (h.used_lt hused), if_neg (by rw [ROOTINO]; omega)]
  have hnd := hnode
  rw [nodeOf, if_neg (h.type_ne hused), Option.some.injEq] at hnd
  have hbytes := congrArg Node.bytes hnd
  have htype := congrArg Node.type hnd
  dsimp only [fileWith] at hbytes htype
  have hsize : (dinode area (sealed s) (j + 2)).size = f.bytes.length := by
    rw [← hbytes, length_contents]
  have hread := h.readi_finish hused hopen₂ hnode (fileWith_type _) off n hoff
    hwrap (by rw [← hopen₂.d, hd, hsize]; rfl) rfl
  refine ⟨k₄, ?_⟩
  have hlook : dirlookup dp name k₂ = .ok (some (ip, DESIZE * (j + 2)), k₃) := by
    rw [h.dirlookup_root hopen₁ hnodup hentry hname heq, run_bind hget₂]
    rfl
  unfold readFile
  rw [run_bind hget₁, run_bind hlock₁, run_bind hlook]
  dsimp only
  have hinode : inode ip k₄ = .ok (k₄.icache ip, k₄) := rfl
  rw [run_bind hlock₂, run_bind hinode, run_bind hread, hd, htype, hsize]
  rfl

/-- **What mkfs writes the kernel reads.** -/
theorem kernel_reads_files (h : mkfs files = .ok t) (hlen : files.length ≤ NINODES - 2)
    (hnames : (files.map fun f => f.stripped.take DIRSIZ).Nodup)
    (hdots : ∀ f ∈ files, f.stripped.take DIRSIZ ≠ dot ∧ f.stripped.take DIRSIZ ≠ dotdot) :
    ∀ f ∈ files, ∀ name, 0 ∉ name → name.take DIRSIZ = f.stripped.take DIRSIZ →
      ∀ off n, off ≤ f.bytes.length → off + n < 2 ^ 32 →
        ∃ u, readFile name off n (boot t)
          = .ok (some (T_FILE, f.bytes.length, some ((f.bytes.drop off).take n)), u) := by
  intro f hf name hname heq off n hoff hwrap
  obtain ⟨j, hj⟩ := List.mem_iff_getElem?.mp hf
  have hroom : files.length ≤ 206 := hlen.trans (by decide)
  obtain ⟨s, hs, rfl⟩ := exists_filled h hroom
  exact hs.reads_back (entries_nodup hnames hdots) hj hname heq hoff hwrap

/-- A file with three bytes that `read` returns in two pieces. -/
def hello : File :=
  { name := [95, 104, 105], reads := [[1, 2], [3]], string := by decide, chunks := by decide }

theorem kernel_reads_hello :
    ∃ t, mkfs [hello] = .ok t ∧ ∃ u, readFile [104, 105] 0 10 (boot t)
      = .ok (some (T_FILE, 3, some [1, 2, 3]), u) := by
  obtain ⟨t, ht⟩ : ∃ t, mkfs [hello] = .ok t := by
    refine mkfs_ok (by decide) (by decide) fun f hf => ?_
    rw [List.mem_singleton.mp hf, File.Bad]
    decide
  obtain ⟨u, hu⟩ := kernel_reads_files ht (by decide) (by decide) (by decide) hello (by simp)
    [104, 105] (by decide) (by decide) 0 10 (by decide) (by decide)
  have hbytes : hello.bytes = [1, 2, 3] := by decide
  rw [hbytes] at hu
  exact ⟨t, ht, u, hu⟩

end StrideXv6.Mkfs
