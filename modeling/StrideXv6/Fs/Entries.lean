import StrideXv6.Fs.Chunks
import StrideXv6.Fs.Names

set_option autoImplicit false

/-! # A directory is a map

The bytes of a directory are entries, and `dirlookup` finds the first one in use that has the name
(`dirlookup_eq`). `dirlink` puts a new entry in the first free place or at the end, so that it is
found under its name and nothing changes for the other names (`dirlink_map`). A name counts up to
its first `DIRSIZ` bytes.
-/

namespace StrideXv6.Fs

open Hoare Logging Runs

/-! ## Entries in the bytes of a directory -/

/-- Entry `k`. -/
def entry (l : List UInt8) (k : Nat) : Dirent := decodeDirent ((l.drop (DESIZE * k)).take DESIZE)

/-- Entry `k` is in use and has the name. -/
def Named (name : List UInt8) (l : List UInt8) (k : Nat) : Prop :=
  (entry l k).inum ≠ 0 ∧ namecmp name (entry l k).name = 0

instance (name l : List UInt8) (k : Nat) : Decidable (Named name l k) :=
  inferInstanceAs (Decidable (_ ∧ _))

/-- The inode number and the offset of the first entry with the name. -/
def lookup (l name : List UInt8) : Option (Nat × Nat) :=
  ((List.range (l.length / DESIZE)).find? fun k => Named name l k).map
    fun k => ((entry l k).inum, DESIZE * k)

/-- What `dirlookup` does once it has found an entry, or none. -/
def found : Option (Nat × Nat) → FsM (Option (Fin NINODE × Nat))
  | none => return none
  | some (i, off) => do
    let ip ← iget i
    return some (ip, off)

theorem DESIZE_eq : DESIZE = 16 := rfl

section Overwrite

variable {l e : List UInt8} {k : Nat}

/-- The bytes of an entry that is written. -/
theorem entry_overwrite_self (hk : DESIZE * k ≤ l.length) (he : e.length = DESIZE) :
    entry (overwrite l (DESIZE * k) e) k = decodeDirent e := by
  have htake := take_drop_overwrite e hk
  rw [he] at htake
  rw [entry, htake]

theorem entry_overwrite_ne (hk : DESIZE * k ≤ l.length) (he : e.length = DESIZE) {j : Nat}
    (hj : DESIZE * j + DESIZE ≤ l.length) (hne : j ≠ k) :
    entry (overwrite l (DESIZE * k) e) j = entry l j := by
  have hlen := length_overwrite e hk
  rw [DESIZE_eq] at *
  have hsame : ((overwrite l (16 * k) e).drop (16 * j)).take 16 = (l.drop (16 * j)).take 16 := by
    have heq : (((overwrite l (16 * k) e).drop (16 * j)).take 16).length
        = ((l.drop (16 * j)).take 16).length := by
      rw [List.length_take, List.length_take, List.length_drop, List.length_drop]
      omega
    refine List.ext_getElem heq fun x h1 h2 => ?_
    have hx : x < 16 := by
      rw [List.length_take] at h1
      omega
    rw [List.getElem_take, List.getElem_take, List.getElem_drop, List.getElem_drop,
      ← List.getD_eq_getElem _ 0, ← List.getD_eq_getElem _ 0, getD_overwrite e hk, if_neg (by omega)]
  rw [entry, entry, DESIZE_eq, hsame]

variable {name : List UInt8}

/-- Another entry than the one written has the name as before. -/
theorem named_overwrite_ne (hk : DESIZE * k ≤ l.length) (he : e.length = DESIZE) {j : Nat}
    (hj : DESIZE * j + DESIZE ≤ l.length) (hne : j ≠ k) :
    Named name (overwrite l (DESIZE * k) e) j ↔ Named name l j := by
  rw [Named, Named, entry_overwrite_ne hk he hj hne]

theorem entries_overwrite (hwf : DESIZE ∣ l.length) (hk : DESIZE * k ≤ l.length)
    (he : e.length = DESIZE) :
    (overwrite l (DESIZE * k) e).length / DESIZE = max (l.length / DESIZE) (k + 1) := by
  rw [length_overwrite e hk, he]
  obtain ⟨n, hn⟩ := hwf
  rw [hn, DESIZE_eq] at *
  omega

theorem lookup_eq_none : lookup l name = none ↔ ∀ k < l.length / DESIZE, ¬ Named name l k := by
  rw [lookup, Option.map_eq_none_iff, List.find?_eq_none]
  simp

theorem lookup_eq_some {i off : Nat} (h : lookup l name = some (i, off)) :
    ∃ k < l.length / DESIZE, i = (entry l k).inum ∧ off = DESIZE * k := by
  obtain ⟨k, hk, heq⟩ := Option.map_eq_some_iff.mp h
  obtain ⟨rfl, rfl⟩ := Prod.mk.inj heq
  exact ⟨k, List.mem_range.mp (List.mem_of_find?_eq_some hk), rfl, rfl⟩

/-- Nothing changes for a name that neither the new nor the old entry has. -/
theorem lookup_overwrite_ne (hwf : DESIZE ∣ l.length) (hk : DESIZE * k ≤ l.length)
    (he : e.length = DESIZE) (hold : k < l.length / DESIZE → ¬ Named name l k)
    (hnew : ¬ Named name (overwrite l (DESIZE * k) e) k) :
    lookup (overwrite l (DESIZE * k) e) name = lookup l name := by
  have hle : ∀ j < l.length / DESIZE, DESIZE * j + DESIZE ≤ l.length := by
    intro j hj
    rw [DESIZE_eq] at *
    omega
  have hfind : (List.range (l.length / DESIZE)).find? (fun j =>
        decide (Named name (overwrite l (DESIZE * k) e) j))
      = (List.range (l.length / DESIZE)).find? fun j => decide (Named name l j) := by
    refine List.find?_congr fun j hj => ?_
    have hj := List.mem_range.mp hj
    rw [decide_eq_decide]
    by_cases hjk : j = k
    · subst hjk
      exact iff_of_false hnew (hold hj)
    · exact named_overwrite_ne hk he (hle j hj) hjk
  have hlast : (List.range ((overwrite l (DESIZE * k) e).length / DESIZE)).find? (fun j =>
        decide (Named name (overwrite l (DESIZE * k) e) j))
      = (List.range (l.length / DESIZE)).find? fun j =>
          decide (Named name (overwrite l (DESIZE * k) e) j) := by
    rw [entries_overwrite hwf hk he]
    by_cases hin : k < l.length / DESIZE
    · rw [max_eq_left hin]
    · have hkl : k = l.length / DESIZE := by
        rw [DESIZE_eq] at *
        omega
      rw [max_eq_right (by omega), List.range_succ, List.find?_append, ← hkl]
      simp [hnew]
  unfold lookup
  rw [hlast, hfind]
  refine Option.map_congr fun j hj => ?_
  have hlt := List.mem_range.mp (List.mem_of_find?_eq_some hj)
  have hjk : j ≠ k := by
    rintro rfl
    exact hold hlt (by simpa using List.find?_some hj)
  rw [entry_overwrite_ne hk he (hle j hlt) hjk]

/-- A name that no entry had is found where it is written. -/
theorem lookup_overwrite_self (hwf : DESIZE ∣ l.length) (hk : DESIZE * k ≤ l.length)
    (he : e.length = DESIZE) (hnone : lookup l name = none)
    (hnew : Named name (overwrite l (DESIZE * k) e) k) :
    lookup (overwrite l (DESIZE * k) e) name = some ((decodeDirent e).inum, DESIZE * k) := by
  have hle : ∀ j < k, DESIZE * j + DESIZE ≤ l.length := by
    intro j hj
    rw [DESIZE_eq] at *
    omega
  have hfind : (List.range ((overwrite l (DESIZE * k) e).length / DESIZE)).find? (fun j =>
      decide (Named name (overwrite l (DESIZE * k) e) j)) = some k := by
    rw [entries_overwrite hwf hk he, List.find?_range_eq_some]
    refine ⟨by simpa using hnew, List.mem_range.mpr (by omega), fun j hj => ?_⟩
    have hj' : j < l.length / DESIZE := by
      have := hle j hj
      rw [DESIZE_eq] at *
      omega
    have := mt (named_overwrite_ne hk he (hle j hj) hj.ne).mp (lookup_eq_none.mp hnone j hj')
    simpa using this
  rw [lookup, hfind, Option.map_some, entry_overwrite_self hk he]

end Overwrite

/-! ## Names that count as the same -/

variable {p p' : List UInt8}

theorem strncmp_congr {n : Nat} (h : p.take n = p'.take n) (q : List UInt8) :
    strncmp p q n = strncmp p' q n := by
  induction n generalizing p p' q with
  | zero => rfl
  | succ n ih =>
    match p, p', h with
    | [], [], _ => rfl
    | a :: p, b :: p', h =>
      rw [List.take_succ_cons, List.take_succ_cons, List.cons.injEq] at h
      rw [strncmp, strncmp, h.1]
      exact if_congr Iff.rfl (ih h.2 q.tail) rfl

theorem strncpy_congr {n : Nat} (h : p.take n = p'.take n) :
    strncpy p n = strncpy p' n := by
  induction n generalizing p p' with
  | zero => rw [strncpy, strncpy]
  | succ n ih =>
    cases p with
    | nil =>
      cases p' with
      | nil => rfl
      | cons b p' => exact absurd h.symm (List.cons_ne_nil _ _)
    | cons a p =>
      cases p' with
      | nil => exact absurd h (List.cons_ne_nil _ _)
      | cons b p' =>
        rw [List.take_succ_cons, List.take_succ_cons, List.cons.injEq] at h
        rw [strncpy, strncpy, h.1, ih h.2]

theorem namecmp_congr (h : p.take DIRSIZ = p'.take DIRSIZ) (q : List UInt8) :
    namecmp p q = namecmp p' q := strncmp_congr h q

theorem dirlookup_congr (h : p.take DIRSIZ = p'.take DIRSIZ)
    (c : Fin NINODE) : dirlookup c p = dirlookup c p' := by
  have hloop : ∀ offs, lookupLoop c p offs = lookupLoop c p' offs := by
    intro offs
    induction offs with
    | nil => rfl
    | cons off offs ih => simp only [lookupLoop, ih, namecmp_congr h]
  simp only [dirlookup, hloop]

theorem dirlink_congr (h : p.take DIRSIZ = p'.take DIRSIZ)
    (c : Fin NINODE) (i : Nat) : dirlink c p i = dirlink c p' i := by
  simp only [dirlink, dirlookup_congr h, strncpy_congr h]

/-! ## Looking up -/

variable {c : Fin NINODE} {s t : FsState} {nd : Node}
variable {ip : Fin NINODE}

/-- The directory `nd` is locked in entry `c`. -/
structure LockedDir (c : Fin NINODE) (nd : Node) (s : FsState) : Prop where
  ok : FsOk s
  locked : Locked c s
  node : node s (s.icache c).inum = some nd
  type : nd.type = T_DIR
  wf : DESIZE ∣ nd.bytes.length

theorem LockedDir.d (h : LockedDir c nd s) :
    (s.icache c).d.type = T_DIR ∧ (s.icache c).d.size = nd.bytes.length := by
  have hn := h.node
  rw [h.ok.node_eq h.locked, nodeOf, if_neg (h.ok.type_ne h.locked), Option.some.injEq] at hn
  have htype := h.type
  rw [← hn] at htype
  refine ⟨htype, ?_⟩
  rw [← hn]
  exact (length_contents _ _).symm

theorem LockedDir.length_le (h : LockedDir c nd s) : nd.bytes.length ≤ MAXFILE * BSIZE :=
  h.d.2 ▸ (h.ok.sized h.locked).le

theorem readDirent_entry (h : LockedDir c nd s) {k : Nat} (hk : k < nd.bytes.length / DESIZE)
    (e : Panic) : readDirent c (DESIZE * k) e s = .ok (entry nd.bytes k, s) := by
  have hle := h.length_le
  have hwf := h.wf
  have hmax : MAXFILE * BSIZE < 2 ^ 31 := by rw [MAXFILE_eq, BSIZE_eq]; decide
  have hdev : nd.type ≠ T_DEV := by rw [h.type]; decide
  obtain ⟨r, t, hrun, rfl, hr⟩ :=
    (readi_spec h.ok h.locked h.node (DESIZE * k) DESIZE).exists_ok rfl
  rw [DESIZE_eq] at *
  rw [if_neg (by omega)] at hr
  rw [hr] at hrun
  refine readDirent_eq e hrun ?_
  rw [List.length_take, List.length_drop, DESIZE_eq]
  omega

theorem lookupLoop_found (h : LockedDir c nd s) (name : List UInt8) (ks : List Nat)
    (hks : ∀ k ∈ ks, k < nd.bytes.length / DESIZE) :
    lookupLoop c name (ks.map (DESIZE * ·)) s
      = found ((ks.find? fun k => Named name nd.bytes k).map
          fun k => ((entry nd.bytes k).inum, DESIZE * k)) s := by
  induction ks with
  | nil => rfl
  | cons k ks ih =>
    have hread := readDirent_entry h (hks k List.mem_cons_self) .dirlinkRead
    rw [List.map_cons, lookupLoop, run_bind hread]
    by_cases h0 : (entry nd.bytes k).inum = 0
    · have hnot : ¬ Named name nd.bytes k := fun hn => hn.1 h0
      rw [if_pos h0, ih fun j hj => hks j (List.mem_cons_of_mem k hj),
        List.find?_cons_of_neg (by simpa using hnot)]
    · rw [if_neg h0]
      by_cases hn : namecmp name (entry nd.bytes k).name = 0
      · have hyes : Named name nd.bytes k := ⟨h0, hn⟩
        rw [if_pos hn, List.find?_cons_of_pos (by simpa using hyes)]
        rfl
      · have hnot : ¬ Named name nd.bytes k := fun hx => hn hx.2
        rw [if_neg hn, ih fun j hj => hks j (List.mem_cons_of_mem k hj),
          List.find?_cons_of_neg (by simpa using hnot)]

theorem offsets_dir (h : LockedDir c nd s) :
    offsets 0 (s.icache c).d.size = (List.range (nd.bytes.length / DESIZE)).map (DESIZE * ·) := by
  have hwf := h.wf
  rw [offsets, h.d.2, Nat.sub_zero, List.range_eq_range']
  congr 2
  rw [DESIZE_eq] at *
  omega

/-- `dirlookup` is a lookup in the bytes of the directory. -/
theorem dirlookup_eq (h : LockedDir c nd s) (name : List UInt8) :
    dirlookup c name s = found (lookup nd.bytes name) s := by
  refine (run_bind (a := s.icache c) (t := s) rfl).trans ?_
  rw [if_neg (by rw [h.d.1]; decide), offsets_dir h]
  exact lookupLoop_found h name _ fun k hk => List.mem_range.mp hk

/-- A free place, or the end. -/
theorem emptyLoop_found (h : LockedDir c nd s) (last : Nat) (ks : List Nat)
    (hks : ∀ k ∈ ks, k < nd.bytes.length / DESIZE) :
    emptyLoop c last (ks.map (DESIZE * ·)) s
      = .ok (((ks.find? fun k => (entry nd.bytes k).inum = 0).map (DESIZE * ·)).getD last, s) := by
  induction ks with
  | nil => rfl
  | cons k ks ih =>
    have hread := readDirent_entry h (hks k List.mem_cons_self) .dirlinkRead
    rw [List.map_cons, emptyLoop, run_bind hread]
    by_cases h0 : (entry nd.bytes k).inum = 0
    · rw [if_pos h0, List.find?_cons_of_pos (by simpa using h0)]
      rfl
    · rw [if_neg h0, ih fun j hj => hks j (List.mem_cons_of_mem k hj),
        List.find?_cons_of_neg (by simpa using h0)]

theorem emptyLoop_dir (h : LockedDir c nd s) : ∃ k ≤ nd.bytes.length / DESIZE,
    emptyLoop c (((s.icache c).d.size + DESIZE - 1) / DESIZE * DESIZE)
        (offsets 0 (s.icache c).d.size) s = .ok (DESIZE * k, s) ∧
      (k < nd.bytes.length / DESIZE → (entry nd.bytes k).inum = 0) := by
  have hwf := h.wf
  have hlast : ((s.icache c).d.size + DESIZE - 1) / DESIZE * DESIZE
      = DESIZE * (nd.bytes.length / DESIZE) := by
    rw [h.d.2]
    rw [DESIZE_eq] at *
    omega
  rw [offsets_dir h, emptyLoop_found h _ _ fun k hk => List.mem_range.mp hk, hlast]
  cases hf : (List.range (nd.bytes.length / DESIZE)).find? fun k =>
      decide ((entry nd.bytes k).inum = 0) with
  | none => exact ⟨_, le_rfl, rfl, fun hlt => absurd hlt (lt_irrefl _)⟩
  | some k =>
    have hk := List.mem_range.mp (List.mem_of_find?_eq_some hf)
    exact ⟨k, hk.le, rfl, fun _ => by simpa using List.find?_some hf⟩

/-! ## Linking -/

/-- Within a file there is always room. -/
theorem LockedDir.room_within (h : LockedDir c nd s) {off n : Nat}
    (hle : off + n ≤ nd.bytes.length) : Room (s.icache c).inum off n s := by
  have hs := h.ok.sized h.locked
  have hmapped : ∀ bn ∈ span off n, mapped s.store (s.icache c).d bn ≠ 0 := by
    intro bn hbn
    obtain ⟨x, h1, h2, rfl⟩ := mem_span.mp hbn
    have hsize := h.d.2
    rw [hs.mapped, BSIZE_eq]
    omega
  unfold Room
  rw [← h.ok.d_eq h.locked, needed, List.filter_eq_nil_iff.mpr fun bn hbn => by
    simpa using hmapped bn hbn, if_neg]
  · exact Nat.zero_le _
  · rintro ⟨⟨bn, hbn, hth⟩, -⟩
    exact hmapped bn hbn hth.2

/-- `iget` fails only if every entry of the cache is in use. -/
theorem iget_cases (i : Nat) (s : FsState) : (∃ ip t, iget i s = .ok (ip, t) ∧ Got i ip s t) ∨
    (iget i s = .error .igetNoInodes ∧ ∀ c, 0 < (s.icache c).ref) := by
  rw [show iget i s = _ from (run_bind (eval_eq i s)).trans run_get]
  cases hf : (List.finRange NINODE).find? fun c =>
      decide (0 < (s.icache c).ref ∧ (s.icache c).inum = i) with
  | some c =>
    have hc : 0 < (s.icache c).ref ∧ (s.icache c).inum = i := by simpa using List.find?_some hf
    exact .inl ⟨c, _, rfl, .shared hc.1 hc.2⟩
  | none =>
    cases hg : (List.finRange NINODE).find? fun c => decide ((s.icache c).ref = 0) with
    | some c => exact .inl ⟨c, _, rfl, .recycled (by simpa using List.find?_some hg)⟩
    | none =>
      refine .inr ⟨rfl, fun c => Nat.pos_of_ne_zero fun h0 => ?_⟩
      simpa [h0] using List.find?_eq_none.mp hg c (List.mem_finRange c)

theorem iget_got {i : Nat} (h : iget i s = .ok (ip, t)) : Got i ip s t := by
  obtain ⟨ip', t', hrun, hgot⟩ | ⟨hrun, -⟩ := iget_cases i s
  · obtain ⟨rfl, rfl⟩ := Prod.mk.inj (Except.ok.inj (hrun.symm.trans h))
    exact hgot
  · nomatch hrun.symm.trans h

theorem Got.not_lastUse {i : Nat} (h : Got i ip s t) : ¬ LastUse ip t := by
  unfold LastUse
  cases h with
  | shared hr _ =>
    rw [withInode_icache_self]
    dsimp only
    omega
  | recycled _ =>
    rw [withInode_icache_self]
    exact fun hx => Bool.false_ne_true hx.2.1

/-- Unless it is the last use of an unlinked inode, `iput` only gives up the reference. -/
theorem iput_release (h : ¬ LastUse ip s) :
    iput ip s = .ok ((), s.withInode ip { s.icache ip with ref := (s.icache ip).ref - 1 }) := by
  unfold LastUse at h
  refine (run_bind (a := s.icache ip) (t := s) rfl).trans ?_
  rw [if_neg h]
  rfl

/-- Nothing of the file system differs but cache entries that were not in use. -/
structure Undisturbed (s t : FsState) : Prop where
  store : t.store = s.store
  sb : t.sb = s.sb
  cache : ∀ c, 0 < (s.icache c).ref → t.icache c = s.icache c
  ftable : t.ftable = s.ftable
  proc : t.proc = s.proc

theorem Undisturbed.node (h : Undisturbed s t) (i : Nat) : Fs.node t i = Fs.node s i := by
  unfold Fs.node
  rw [h.store, h.sb]

/-- What has just been found can be given back: it is not the last use of an unlinked inode. -/
theorem iput_got {i : Nat} (h : Got i ip s t) :
    ∃ u, iput ip t = .ok ((), u) ∧ Undisturbed s u := by
  refine ⟨_, iput_release h.not_lastUse, ?_⟩
  cases h with
  | shared hr _ =>
    refine ⟨rfl, rfl, fun c _ => ?_, rfl, rfl⟩
    by_cases hc : c = ip
    · subst hc
      rw [withInode_icache_self, withInode_icache_self]
      rfl
    · rw [withInode_icache_ne _ _ hc, withInode_icache_ne _ _ hc]
  | recycled hr =>
    refine ⟨rfl, rfl, fun c hc0 => ?_, rfl, rfl⟩
    have hc : c ≠ ip := by
      rintro rfl
      omega
    rw [withInode_icache_ne _ _ hc, withInode_icache_ne _ _ hc]

variable {n : List UInt8} {i : Nat}

/-- A name that is there is refused. -/
theorem dirlink_present {off : Nat}
    (hf : dirlookup c n s = .ok (some (ip, off), t)) (h : LockedDir c nd s) :
    ∃ u, dirlink c n i s = .ok (false, u) ∧ Undisturbed s u := by
  have hfound := hf
  rw [dirlookup_eq h] at hfound
  cases hl : lookup nd.bytes n with
  | none =>
    rw [hl] at hfound
    nomatch hfound
  | some r =>
    obtain ⟨j, off'⟩ := r
    rw [hl] at hfound
    obtain ⟨ip', t', hget, hrest⟩ := exists_of_bind_ok hfound
    obtain ⟨hip, rfl⟩ := Prod.mk.inj (Except.ok.inj hrest)
    obtain ⟨rfl, -⟩ := Prod.mk.inj (Option.some.inj hip)
    obtain ⟨u, hput, hu⟩ := iput_got (iget_got hget)
    refine ⟨u, (run_bind hf).trans ?_, hu⟩
    dsimp only
    rw [run_bind hput]
    rfl

theorem lookup_of_absent (hf : dirlookup c n s = .ok (none, t)) (h : LockedDir c nd s) :
    lookup nd.bytes n = none ∧ t = s := by
  rw [dirlookup_eq h] at hf
  cases hl : lookup nd.bytes n with
  | none =>
    rw [hl] at hf
    obtain ⟨-, rfl⟩ := Prod.mk.inj (Except.ok.inj hf)
    exact ⟨rfl, rfl⟩
  | some r =>
    rw [hl] at hf
    obtain ⟨ip, t', -, hrest⟩ := exists_of_bind_ok hf
    nomatch hrest

/-- A new entry at place `k`: the name is found there, and the others as before. -/
theorem lookup_linked {l m : List UInt8} {k : Nat} (hwf : DESIZE ∣ l.length)
    (hk : k ≤ l.length / DESIZE) (hfree : k < l.length / DESIZE → (entry l k).inum = 0)
    (hn : 0 ∉ n) (h0 : 0 < i) (hi : i < 65536) (hnone : lookup l n = none) (hm : 0 ∉ m) :
    lookup (overwrite l (DESIZE * k) (encodeDirent { inum := i % 2 ^ 16, name := strncpy n DIRSIZ }))
        m = if m.take DIRSIZ = n.take DIRSIZ then some (i, DESIZE * k) else lookup l m := by
  have hoff : DESIZE * k ≤ l.length := by
    rw [DESIZE_eq] at *
    omega
  have hmod : i % 2 ^ 16 = i := Nat.mod_eq_of_lt hi
  rw [hmod]
  have hlen := length_encodeDirent i n
  have hdec : decodeDirent (encodeDirent { inum := i, name := strncpy n DIRSIZ })
      = { inum := i, name := strncpy n DIRSIZ } := by rw [decode_encodeDirent, hmod]
  have hnamed : Named m (overwrite l (DESIZE * k)
      (encodeDirent { inum := i, name := strncpy n DIRSIZ })) k ↔ m.take DIRSIZ = n.take DIRSIZ := by
    rw [Named, entry_overwrite_self hoff hlen, hdec, namecmp_strncpy hm hn]
    exact and_iff_right h0.ne'
  split
  · rename_i heq
    have hm0 : lookup l m = none := by
      rw [lookup_eq_none] at hnone ⊢
      exact fun j hj hx => hnone j hj ⟨hx.1, namecmp_congr heq _ ▸ hx.2⟩
    rw [lookup_overwrite_self hwf hoff hlen hm0 (hnamed.mpr heq), hdec]
  · rename_i hne
    exact lookup_overwrite_ne hwf hoff hlen (fun hlt hx => hx.1 (hfree hlt))
      fun hx => hne (hnamed.mp hx)

/-- A name that is not there is entered, if there is a block for the entry. -/
theorem dirlink_absent (hf : dirlookup c n s = .ok (none, t)) (h : LockedDir c nd s)
    (hsize : nd.bytes.length < MAXFILE * BSIZE) (hn : 0 ∉ n) (h0 : 0 < i) (hi : i < 65536) :
    (dirlink c n i s = .error .outOfBlocks ∧
      ¬ Room (s.icache c).inum nd.bytes.length DESIZE s) ∨
    ∃ u l k, dirlink c n i s = .ok (true, u) ∧ Confined c s u ∧
      LockedDir c { nd with bytes := l } u ∧ k < l.length / DESIZE ∧
      entry l k = { inum := i, name := strncpy n DIRSIZ } ∧
      ∀ m, 0 ∉ m → lookup l m
        = if m.take DIRSIZ = n.take DIRSIZ then some (i, DESIZE * k) else lookup nd.bytes m := by
  obtain ⟨hnone, rfl⟩ := lookup_of_absent hf h
  obtain ⟨k, hk, hempty, hfree⟩ := emptyLoop_dir h
  have hwf := h.wf
  have hlen : (encodeDirent { inum := i % 2 ^ 16, name := strncpy n DIRSIZ }).length = DESIZE :=
    length_encodeDirent ..
  have hmax : DESIZE ∣ MAXFILE * BSIZE := by rw [MAXFILE_eq, BSIZE_eq]; decide
  have hmax' : MAXFILE * BSIZE < 2 ^ 32 := by rw [MAXFILE_eq, BSIZE_eq]; decide
  have hoff : DESIZE * k ≤ nd.bytes.length := by
    rw [DESIZE_eq] at *
    omega
  have hfit : DESIZE * k + DESIZE ≤ MAXFILE * BSIZE := by
    rw [DESIZE_eq] at *
    omega
  have hdev : nd.type ≠ T_DEV := by rw [h.type]; decide
  have hrun : dirlink c n i t = _ := (run_bind hf).trans
    ((run_bind (a := t.icache c) (t := t) rfl).trans (run_bind hempty))
  have hshort : (encodeDirent { inum := i % 2 ^ 16, name := strncpy n DIRSIZ }).length < 2 ^ 32 := by
    rw [hlen, DESIZE_eq]
    decide
  have hspec := writei_spec h.ok h.locked h.node (DESIZE * k) hshort
  cases hw : writei c (DESIZE * k)
      (encodeDirent { inum := i % 2 ^ 16, name := strncpy n DIRSIZ }) t with
  | error e =>
    obtain rfl := hspec.error rfl hw
    refine .inl ⟨hrun.trans ?_, fun hroom => ?_⟩
    · exact run_bind_error hw
    · have hr : Room (t.icache c).inum (DESIZE * k) DESIZE t := by
        by_cases hlt : k < nd.bytes.length / DESIZE
        · refine h.room_within ?_
          rw [DESIZE_eq] at *
          omega
        · have heq : DESIZE * k = nd.bytes.length := by
            rw [DESIZE_eq] at *
            omega
          rw [heq]
          exact hroom
      have hwhole : DESIZE * k
          + (encodeDirent { inum := i % 2 ^ 16, name := strncpy n DIRSIZ }).length
            ≤ MAXFILE * BSIZE := by
        rw [hlen]
        exact hfit
      obtain ⟨u, hu, -⟩ := writei_room (n := 0) h.ok h.locked h.node hdev hoff hwhole
        (by rw [hlen]; exact hr)
      have hne := hw.symm.trans hu
      contradiction
  | ok x =>
    obtain ⟨r, u⟩ := x
    obtain ⟨hok, hconf, -, nd', hnd', hres⟩ := hspec.ok rfl hw
    cases hres with
    | device hd => exact absurd hd hdev
    | refused _ hr => omega
    | done _ _ _ =>
      refine .inr ⟨u, _, k, hrun.trans ((run_bind hw).trans ?_), hconf, ?_, ?_, ?_,
        fun m hm => lookup_linked h.wf hk hfree hn h0 hi hnone hm⟩
      · dsimp only
        rw [if_pos hlen]
        rfl
      · refine ⟨hok, hconf.locked h.locked, hconf.inum ▸ hnd', h.type, ?_⟩
        rw [length_overwrite _ hoff, hlen]
        rw [DESIZE_eq] at *
        omega
      · rw [entries_overwrite hwf hoff hlen]
        omega
      · rw [entry_overwrite_self hoff hlen, decode_encodeDirent, Dirent.mk.injEq]
        exact ⟨by dsimp only; omega, rfl⟩

/-! ## The directory as a map -/

/-- `dirlookup` and `dirlink` on names: a name that is found is refused and nothing changes; any
other name is entered and then found with its inode number at the place of its entry, while
nothing changes for the names that differ from it in the first `DIRSIZ` bytes. If the entry would
need a block and none is free, `balloc` panics. -/
theorem dirlink_map (h : LockedDir c nd s) (hsize : nd.bytes.length < MAXFILE * BSIZE)
    (hn : 0 ∉ n) (h0 : 0 < i) (hi : i < 65536) :
    (∀ ip off t, dirlookup c n s = .ok (some (ip, off), t) →
      ∃ u, dirlink c n i s = .ok (false, u) ∧ Undisturbed s u) ∧
    (∀ t, dirlookup c n s = .ok (none, t) →
      (dirlink c n i s = .error .outOfBlocks ∧
        ¬ Room (s.icache c).inum nd.bytes.length DESIZE s) ∨
      ∃ u off, dirlink c n i s = .ok (true, u) ∧ Confined c s u ∧
        dirlookup c n u = found (some (i, off)) u ∧
        readDirent c off .dirlinkRead u = .ok ({ inum := i, name := strncpy n DIRSIZ }, u) ∧
        ∀ m, 0 ∉ m → m.take DIRSIZ ≠ n.take DIRSIZ →
          ∃ r, dirlookup c m s = found r s ∧ dirlookup c m u = found r u) ∧
    ∀ m, m.take DIRSIZ = n.take DIRSIZ →
      dirlookup c m = dirlookup c n ∧ dirlink c m i = dirlink c n i := by
  refine ⟨fun ip off t hf => dirlink_present hf h, fun t hf => ?_,
    fun m hm => ⟨dirlookup_congr hm c, dirlink_congr hm c i⟩⟩
  obtain hfull | ⟨u, l, k, hrun, hconf, hu, hk, hentry, hl⟩ := dirlink_absent hf h hsize hn h0 hi
  · exact .inl hfull
  refine .inr ⟨u, DESIZE * k, hrun, hconf, ?_, ?_, fun m hm hne => ⟨lookup nd.bytes m, ?_, ?_⟩⟩
  · rw [dirlookup_eq hu, hl n hn, if_pos rfl]
  · rw [← hentry]
    exact readDirent_entry hu hk _
  · exact dirlookup_eq h m
  · rw [dirlookup_eq hu, hl m hm, if_neg hne]

/-- A new directory. -/
def newDir : FsState :=
  last blank (trace step blank [.ialloc T_DIR, .ilock 0, .update 0 0 0 1])

theorem lockedDir_newDir : LockedDir 0
    { type := T_DIR, major := 0, minor := 0, nlink := 1, bytes := [] } newDir where
  ok := blank_ok.run (isRun_trace ..)
  locked := ⟨by decide +kernel, by decide +kernel⟩
  node := by decide +kernel
  type := rfl
  wf := ⟨0, rfl⟩

/-- Entering a name of 15 bytes: it is found under its first 14. -/
theorem dirlink_map_newDir :
    ∃ u off, dirlink 0 (List.replicate 15 97) 7 newDir = .ok (true, u) ∧
      dirlookup 0 (List.replicate 14 97) u = found (some (7, off)) u := by
  have hmap := dirlink_map (n := List.replicate 15 97) (i := 7) lockedDir_newDir (by decide)
    (by decide) (by decide) (by decide)
  obtain ⟨t, ht⟩ : ∃ t, dirlookup 0 (List.replicate 15 97) newDir = .ok (none, t) :=
    ⟨newDir, dirlookup_eq lockedDir_newDir _⟩
  obtain ⟨-, hfull⟩ | ⟨u, off, hrun, -, hfound, -⟩ := hmap.2.1 t ht
  · refine absurd ?_ hfull
    unfold Room
    decide +kernel
  · have hsame : (List.replicate 14 (97 : UInt8)).take DIRSIZ = (List.replicate 15 97).take DIRSIZ :=
      rfl
    exact ⟨u, off, hrun, dirlookup_congr hsame 0 ▸ hfound⟩

end StrideXv6.Fs
