import StrideXv6.Fs.Entries

set_option autoImplicit false

/-! # Path names

What `namex` does with a path. The elements that `skipelem` takes from a path one after the other
are its components, cut to `DIRSIZ` bytes (`elements_eq`). Looking them up from the root or the
current directory is a walk over the nodes of the file system (`follow`); `namei` takes it and
leaves one reference, to the inode it returns (`namei_ends`).
-/

namespace StrideXv6.Fs

open Hoare Runs

/-! ## The components of a path -/

/-- The parts between slashes that are not empty, cut to the length of a name. -/
def components (path : List UInt8) : List (List UInt8) :=
  ((path.splitOn slash).filter (· ≠ [])).map (·.take DIRSIZ)

/-- What `skipelem` yields, called again on the rest until there is none. -/
def elements (path : List UInt8) : List (List UInt8) :=
  match h : skipelem path with
  | none => []
  | some (rest, name) =>
    have := skipelem_length h
    name :: elements rest
termination_by path.length

theorem components_slash (path : List UInt8) : components (slash :: path) = components path := by
  simp [components, List.splitOn, List.splitOnP_cons_eq_if_modifyHead]

theorem components_dropWhile (path : List UInt8) :
    components (path.dropWhile (· = slash)) = components path := by
  induction path with
  | nil => rfl
  | cons a path ih =>
    by_cases ha : a = slash
    · subst ha
      rw [List.dropWhile_cons_of_pos (by simp), ih, components_slash]
    · rw [List.dropWhile_cons_of_neg (by simpa using ha)]

/-- A part without a slash is the first component. -/
theorem components_word {word rest : List UInt8} (hw : ∀ a ∈ word, a ≠ slash) (hne : word ≠ [])
    (hrest : rest.head? = none ∨ rest.head? = some slash) :
    components (word ++ rest) = word.take DIRSIZ :: components rest := by
  have hw' : ∀ a ∈ word, (a == slash) = false := fun a ha => by simpa using hw a ha
  cases rest with
  | nil =>
    rw [List.append_nil, components, List.splitOn, List.splitOnP_eq_singleton hw']
    simp [components, hne]
  | cons a rest =>
    obtain rfl : a = slash := by simpa using hrest
    rw [components, List.splitOn, List.splitOnP_append_cons_of_forall_mem hw' _ (by simp),
      components_slash]
    simp [components, List.splitOn, hne]

theorem components_eq_cons {path : List UInt8} (h : path.dropWhile (· = slash) ≠ []) :
    components (path.dropWhile (· = slash))
      = ((path.dropWhile (· = slash)).takeWhile (· ≠ slash)).take DIRSIZ ::
        components ((path.dropWhile (· = slash)).dropWhile (· ≠ slash)) := by
  have hhead := List.head?_dropWhile_not (fun a => decide (a = slash)) path
  generalize path.dropWhile (· = slash) = p at *
  obtain ⟨a, l, rfl⟩ := List.exists_cons_of_ne_nil h
  have ha : a ≠ slash := by simpa using hhead
  have hrest := List.head?_dropWhile_not (fun a => decide (a ≠ slash)) (a :: l)
  have hsplit := List.takeWhile_append_dropWhile (p := fun a => decide (a ≠ slash)) (l := a :: l)
  have hword : ∀ b ∈ (a :: l).takeWhile (· ≠ slash), b ≠ slash := fun b hb => by
    simpa using List.all_eq_true.mp List.all_takeWhile b hb
  have hne : (a :: l).takeWhile (· ≠ slash) ≠ [] := by
    rw [List.takeWhile_cons_of_pos (by simpa using ha)]
    exact List.cons_ne_nil _ _
  rw [← components_word hword hne, hsplit]
  cases hd : ((a :: l).dropWhile (· ≠ slash)).head? with
  | none => exact .inl rfl
  | some b =>
    rw [hd] at hrest
    exact .inr (by simpa using hrest)

theorem skipelem_none {path : List UInt8} (h : skipelem path = none) : components path = [] := by
  rw [← components_dropWhile]
  unfold skipelem at h
  dsimp only at h
  split at h
  · rename_i hnil
    rw [hnil]
    rfl
  · nomatch h

/-- The element taken is the first component, and the rest is empty only if it has none. -/
theorem skipelem_some {path rest name : List UInt8} (h : skipelem path = some (rest, name)) :
    components path = name :: components rest ∧ (rest = [] ↔ components rest = []) := by
  unfold skipelem at h
  dsimp only at h
  split at h
  · nomatch h
  rename_i hne
  obtain ⟨rfl, rfl⟩ := Prod.mk.inj (Option.some.inj h)
  refine ⟨?_, fun hnil => by rw [hnil]; rfl, fun hnil => ?_⟩
  · rw [← components_dropWhile path, components_eq_cons hne, components_dropWhile]
  · by_contra hrest
    rw [components_eq_cons hrest] at hnil
    exact List.cons_ne_nil _ _ hnil

theorem elements_eq (path : List UInt8) : elements path = components path := by
  induction path using elements.induct with
  | case1 path h =>
    rw [elements, skipelem_none h]
    split
    · rfl
    · rename_i hs
      nomatch hs.symm.trans h
  | case2 path rest name h hlen ih =>
    rw [elements, (skipelem_some h).1, ← ih]
    split
    · rename_i hs
      nomatch hs.symm.trans h
    · rename_i hs
      obtain ⟨rfl, rfl⟩ := Prod.mk.inj (Option.some.inj (hs.symm.trans h))
      rfl

/-! ## Walking -/

/-- Where the walk along a path ends. -/
inductive Walk where
  | inode (i : Nat)
  /-- A component is missing, or what is to be searched is not a directory. -/
  | absent
  /-- What is to be searched is not allocated: `ilock` panics. -/
  | free
  deriving DecidableEq

def Walk.bind : Walk → (Nat → Walk) → Walk
  | .inode i, f => f i
  | .absent, _ => .absent
  | .free, _ => .free

theorem Walk.bind_assoc (w : Walk) (f g : Nat → Walk) :
    (w.bind f).bind g = w.bind fun i => (f i).bind g := by
  cases w <;> rfl

/-- Where an entry leads. -/
def Walk.ofEntry : Option (Nat × Nat) → Walk
  | none => .absent
  | some (j, _) => .inode j

/-- Inode `i`, if it is a directory. -/
def directory (s : FsState) (i : Nat) : Walk :=
  match node s i with
  | none => .free
  | some nd => if nd.type = T_DIR then .inode i else .absent

/-- The inode with the name in directory `i`. -/
def search (s : FsState) (i : Nat) (name : List UInt8) : Walk :=
  match node s i with
  | none => .free
  | some nd => if nd.type = T_DIR then .ofEntry (lookup nd.bytes name) else .absent

/-- The components looked up one after the other, from inode `i` on. -/
def follow (s : FsState) : Nat → List (List UInt8) → Walk
  | i, [] => .inode i
  | i, name :: names => (search s i name).bind fun j => follow s j names

/-- The directory in which the last of the components is to be looked up. -/
def followParent (s : FsState) (i : Nat) (names : List (List UInt8)) : Walk :=
  (follow s i names.dropLast).bind (directory s)

/-- What `namex` looks for. -/
def target (parent : Bool) (s : FsState) (i : Nat) (names : List (List UInt8)) : Walk :=
  if parent then if names = [] then .absent else followParent s i names else follow s i names

/-- Only a directory is searched. -/
theorem search_eq (s : FsState) (i : Nat) (name : List UInt8) :
    search s i name = (directory s i).bind fun j => search s j name := by
  unfold directory
  cases hn : node s i with
  | none => simp only [search, hn, Walk.bind]
  | some nd =>
    by_cases hd : nd.type = T_DIR
    · simp only [hd, if_true, Walk.bind]
    · simp only [search, hn, hd, if_false, Walk.bind]

theorem follow_append (s : FsState) (i : Nat) (names names' : List (List UInt8)) :
    follow s i (names ++ names') = (follow s i names).bind fun j => follow s j names' := by
  induction names generalizing i with
  | nil => rfl
  | cons name names ih =>
    rw [List.cons_append, follow, follow, Walk.bind_assoc]
    exact congrArg _ (funext fun j => ih j)

/-- A walk fails exactly where a component is missing or what is to be searched is not a
directory. -/
theorem follow_absent_iff (s : FsState) (i : Nat) (names : List (List UInt8)) :
    follow s i names = .absent ↔ ∃ l name l' p nd, names = l ++ name :: l' ∧
      follow s i l = .inode p ∧ node s p = some nd ∧
      (nd.type ≠ T_DIR ∨ lookup nd.bytes name = none) := by
  constructor
  · intro h
    induction names generalizing i with
    | nil => nomatch h
    | cons name names ih =>
      rw [follow] at h
      unfold search at h
      cases hn : node s i with
      | none =>
        rw [hn] at h
        nomatch h
      | some nd =>
        rw [hn] at h
        dsimp only at h
        by_cases hd : nd.type = T_DIR
        · rw [if_pos hd] at h
          cases hl : lookup nd.bytes name with
          | none => exact ⟨[], name, names, i, nd, rfl, rfl, hn, .inr hl⟩
          | some r =>
            rw [hl] at h
            obtain ⟨l, name', l', p, nd', rfl, hp, hrest⟩ := ih r.1 h
            refine ⟨name :: l, name', l', p, nd', rfl, ?_, hrest⟩
            rw [follow, search, hn]
            dsimp only
            rw [if_pos hd, hl]
            exact hp
        · exact ⟨[], name, names, i, nd, rfl, rfl, hn, .inl hd⟩
  · rintro ⟨l, name, l', p, nd, rfl, hp, hn, hfail⟩
    rw [follow_append, hp, Walk.bind, follow, search, hn]
    dsimp only
    by_cases hd : nd.type = T_DIR
    · rw [if_pos hd, hfail.resolve_left (not_not_intro hd)]
      rfl
    · rw [if_neg hd]
      rfl

/-- The first component of a walk. -/
theorem target_cons (b : Bool) (s : FsState) (i : Nat) (name : List UInt8)
    (names : List (List UInt8)) : target b s i (name :: names) = (directory s i).bind fun i =>
      if b = true ∧ names = [] then .inode i
      else (search s i name).bind fun j => target b s j names := by
  cases b with
  | false =>
    simp only [target, Bool.false_eq_true, false_and, if_false]
    rw [follow, search_eq, Walk.bind_assoc]
  | true =>
    cases names with
    | nil =>
      simp only [target, and_self, if_true, reduceCtorEq, if_false]
      unfold followParent directory
      rw [List.dropLast_singleton, follow, Walk.bind]
      cases node s i with
      | none => rfl
      | some nd => by_cases hd : nd.type = T_DIR <;> simp [hd, Walk.bind]
    | cons n names =>
      simp only [target, reduceCtorEq, and_false, if_false, if_true]
      rw [followParent, List.dropLast_cons_cons, follow, search_eq, Walk.bind_assoc,
        Walk.bind_assoc]
      rfl

/-- The last lookup of a walk is made in the directory before. -/
theorem follow_of_parent (s : FsState) (i : Nat) {names : List (List UInt8)} {name : List UInt8}
    (h : names.getLast? = some name) :
    follow s i names = (followParent s i names).bind fun p => search s p name := by
  obtain ⟨l, rfl⟩ := List.getLast?_eq_some_iff.mp h
  rw [follow_append, followParent, List.dropLast_concat, Walk.bind_assoc]
  refine congrArg _ (funext fun p => ?_)
  rw [follow, ← search_eq]
  cases search s p name <;> rfl

theorem followParent_inode {s : FsState} {i p : Nat} {names : List (List UInt8)}
    (h : followParent s i names = .inode p) : ∃ nd, node s p = some nd ∧ nd.type = T_DIR := by
  unfold followParent at h
  cases hw : follow s i names.dropLast with
  | absent => rw [hw] at h; nomatch h
  | free => rw [hw] at h; nomatch h
  | inode q =>
    rw [hw, Walk.bind, directory] at h
    cases hn : node s q with
    | none => rw [hn] at h; nomatch h
    | some nd =>
      rw [hn] at h
      dsimp only at h
      split at h
      · rename_i hd
        obtain rfl := Walk.inode.inj h
        exact ⟨nd, hn, hd⟩
      · nomatch h

/-! ## References held on the way -/

variable {s t u : FsState} {c : Fin NINODE} {l : List (Fin NINODE)}

/-- Of the file system, `t` differs from `s` only in the references that are held in addition, one
for each member of `l`, and in what cache entries not used in `s` remember. -/
structure Holding (l : List (Fin NINODE)) (s t : FsState) : Prop where
  ok : FsOk t
  store : t.store = s.store
  sb : t.sb = s.sb
  ftable : t.ftable = s.ftable
  proc : t.proc = s.proc
  ref : ∀ c, (t.icache c).ref = (s.icache c).ref + l.count c
  inum : ∀ c, 0 < (s.icache c).ref → (t.icache c).inum = (s.icache c).inum

theorem Holding.node (h : Holding l s t) (i : Nat) : Fs.node t i = Fs.node s i := by
  unfold Fs.node
  rw [h.store, h.sb]

/-- Inode `i` can stand in a directory: if it has no links, it is still in use. -/
def Nameable (s : FsState) (i : Nat) : Prop :=
  i < s.sb.ninodes ∧ ∀ nd, node s i = some nd → nd.nlink = 0 →
    ∃ c, 0 < (s.icache c).ref ∧ (s.icache c).inum = i

/-- Directories consist of entries for inodes that can stand in one. -/
def DirsOk (s : FsState) : Prop :=
  ∀ i < s.sb.ninodes, ∀ nd, node s i = some nd → nd.type = T_DIR → DESIZE ∣ nd.bytes.length ∧
    ∀ name j off, lookup nd.bytes name = some (j, off) → Nameable s j

/-- At most one entry of the inode cache is not in use. -/
def Crowded (s : FsState) : Prop :=
  ∀ c c', (s.icache c).ref = 0 → (s.icache c').ref = 0 → c = c'

theorem Holding.pos (h : Holding (c :: l) s t) : 0 < (t.icache c).ref := by
  rw [h.ref, List.count_cons_self]
  omega

/-- A further reference. -/
theorem Holding.got (h : Holding l s t) {i : Nat} (hok : FsOk u) (hgot : Got i c t u) :
    Holding (c :: l) s u ∧ (u.icache c).inum = i := by
  have hne : ∀ c', c' ≠ c → u.icache c' = t.icache c' := by
    intro c' hc
    cases hgot <;> exact withInode_icache_ne _ _ hc
  have hold : ∀ c', c' ≠ c → (u.icache c').ref = (s.icache c').ref + (c :: l).count c' := by
    intro c' hc
    rw [hne c' hc, List.count_cons_of_ne (Ne.symm hc), h.ref]
  cases hgot with
  | shared hr hi =>
    refine ⟨⟨hok, h.store, h.sb, h.ftable, h.proc, fun c' => ?_, fun c' hc' => ?_⟩, ?_⟩
    · by_cases hc : c' = c
      · subst hc
        rw [withInode_icache_self, List.count_cons_self, ← Nat.add_assoc, ← h.ref]
      · exact hold c' hc
    · by_cases hc : c' = c
      · subst hc
        rw [withInode_icache_self]
        exact h.inum c' hc'
      · rw [hne c' hc, h.inum c' hc']
    · rw [withInode_icache_self]
      exact hi
  | recycled hr =>
    have hr' := h.ref c
    refine ⟨⟨hok, h.store, h.sb, h.ftable, h.proc, fun c' => ?_, fun c' hc' => ?_⟩, ?_⟩
    · by_cases hc : c' = c
      · subst hc
        rw [withInode_icache_self, List.count_cons_self]
        dsimp only
        omega
      · exact hold c' hc
    · have hc : c' ≠ c := by
        rintro rfl
        omega
      rw [hne c' hc, h.inum c' hc']
    · rw [withInode_icache_self]

/-- Giving up a reference. -/
theorem Holding.put (h : Holding (c :: l) s t) (hlast : ¬ LastUse c t) :
    ∃ u, iput c t = .ok ((), u) ∧ Holding l s u ∧ ∀ c', (u.icache c').inum = (t.icache c').inum := by
  have hok := ((iput_spec h.ok h.pos).ok rfl (iput_release hlast)).ok
  have hinum : ∀ c', ((t.withInode c { t.icache c with ref := (t.icache c).ref - 1 }).icache c').inum
      = (t.icache c').inum := by
    intro c'
    by_cases hc : c' = c
    · subst hc
      rw [withInode_icache_self]
    · rw [withInode_icache_ne _ _ hc]
  refine ⟨_, iput_release hlast, ⟨hok, h.store, h.sb, h.ftable, h.proc, fun c' => ?_,
    fun c' hc' => (hinum c').trans (h.inum c' hc')⟩, hinum⟩
  have href := h.ref c'
  by_cases hc : c' = c
  · subst hc
    rw [withInode_icache_self]
    rw [List.count_cons_self] at href
    dsimp only
    omega
  · rw [withInode_icache_ne _ _ hc, href, List.count_cons_of_ne (Ne.symm hc)]

/-- The reference given up is not the last one to an unlinked inode. -/
theorem Holding.not_lastUse (h : Holding (c :: l) s t) (hn : Nameable s (t.icache c).inum) :
    ¬ LastUse c t := by
  rintro ⟨href, hvalid, hlink⟩
  obtain ⟨-, htype⟩ := h.ok.coherent c h.pos hvalid
  have hnode := h.ok.node_eq ⟨h.pos, hvalid⟩
  rw [nodeOf, if_neg htype, h.node] at hnode
  obtain ⟨c', hr', hi'⟩ := hn.2 _ hnode hlink
  have href' := h.ref c'
  have hcc : c' = c := h.ok.distinct c' c (by omega) h.pos (by rw [h.inum c' hr', hi'])
  have hcount := h.ref c
  rw [List.count_cons_self] at hcount
  subst hcc
  omega

/-- Locking changes no reference. -/
theorem Holding.locked (h : Holding l s t) {d : Dinode} (hok : FsOk u)
    (hu : u = t.withInode c { t.icache c with d := d, valid := true }) :
    Holding l s u ∧ (u.icache c).inum = (t.icache c).inum := by
  subst hu
  refine ⟨⟨hok, h.store, h.sb, h.ftable, h.proc, fun c' => ?_, fun c' hc' => ?_⟩, ?_⟩
  · by_cases hc : c' = c
    · subst hc
      rw [withInode_icache_self, ← h.ref]
    · rw [withInode_icache_ne _ _ hc, h.ref]
  · by_cases hc : c' = c
    · subst hc
      rw [withInode_icache_self, ← h.inum c' hc']
    · rw [withInode_icache_ne _ _ hc, h.inum c' hc']
  · rw [withInode_icache_self]

/-! ## The loop of `namex` -/

/-- What the loop leaves behind: one reference to what it returns. -/
def Reached (b : Bool) (s : FsState) (i : Nat) (names : List (List UInt8)) :
    Option (Fin NINODE × List UInt8) → FsState → Prop
  | none, u => target b s i names = .absent ∧ Holding [] s u
  | some (c, name), u => target b s i names = .inode (u.icache c).inum ∧ Holding [c] s u ∧
      (b = true → names.getLast? = some name ∧ Locked c u)

/-- The panics of a walk. -/
def Stuck (s : FsState) (w : Walk) (e : Panic) : Prop :=
  e = .noType ∧ w = .free ∨ e = .igetNoInodes ∧ Crowded s

theorem Holding.perm {l' : List (Fin NINODE)} (h : Holding l s t) (hp : l.Perm l') :
    Holding l' s t :=
  ⟨h.ok, h.store, h.sb, h.ftable, h.proc, fun c => hp.count_eq c ▸ h.ref c, h.inum⟩

theorem Got.inum_kept {i : Nat} (h : Got i c s t) {c' : Fin NINODE} (hc : 0 < (s.icache c').ref) :
    (t.icache c').inum = (s.icache c').inum := by
  by_cases he : c' = c
  · subst he
    cases h with
    | shared _ _ => rw [withInode_icache_self]
    | recycled hr => omega
  · cases h <;> rw [withInode_icache_ne _ _ he]

/-- The lookup that is made in a locked inode, and that it is a directory. -/
theorem Holding.lockedDir (h : Holding l s t) (hdirs : DirsOk s) (hc : Locked c t)
    (hd : (t.icache c).d.type = T_DIR) : ∃ nd, Fs.node s (t.icache c).inum = some nd ∧
      LockedDir c nd t ∧ directory s (t.icache c).inum = .inode (t.icache c).inum := by
  have hnode := h.ok.node_eq hc
  rw [nodeOf, if_neg (h.ok.type_ne hc)] at hnode
  have hs := hnode
  rw [h.node] at hs
  refine ⟨_, hs, ⟨h.ok, hc, hnode, hd, ?_⟩, ?_⟩
  · exact (hdirs _ (h.sb ▸ h.ok.inum c hc.ref) _ hs hd).1
  · rw [directory, hs]
    exact if_pos hd

theorem triple_iput {R : Option (Fin NINODE × List UInt8) → FsState → Prop} {E : Panic → Prop}
    {r : Option (Fin NINODE × List UInt8)} (h : Holding (c :: l) s t) (hlast : ¬ LastUse c t)
    (hR : ∀ u, Holding l s u → R r u) :
    Triple (· = t) (do iput c; return r) R E := by
  obtain ⟨u, hrun, hu, -⟩ := h.put hlast
  exact triple_step hrun (triple_exact rfl (hR u hu))

/-- The lookup of one component: the directory is given up, and the inode found is held. -/
theorem triple_search {R : Option (Fin NINODE × List UInt8) → FsState → Prop} {E : Panic → Prop}
    {nd : Node} {name : List UInt8} {k : Fin NINODE → FsM (Option (Fin NINODE × List UInt8))}
    (hdirs : DirsOk s) (h : Holding [c] s t) (hld : LockedDir c nd t)
    (hn : Nameable s (t.icache c).inum)
    (hnone : search s (t.icache c).inum name = .absent → ∀ u, Holding [] s u → R none u)
    (hfull : Crowded s → E .igetNoInodes)
    (hsome : ∀ next u, search s (t.icache c).inum name = .inode (u.icache next).inum →
      Holding [next] s u → Nameable s (u.icache next).inum → Triple (· = u) (k next) R E) :
    Triple (· = t) (do
      match ← dirlookup c name with
      | none =>
        iunlockput c
        return none
      | some (next, _) =>
        iunlockput c
        k next) R E := by
  have hlast := h.not_lastUse hn
  have hnode := hld.node
  rw [h.node] at hnode
  have hsearch : search s (t.icache c).inum name = .ofEntry (lookup nd.bytes name) := by
    rw [search, hnode]
    exact if_pos hld.type
  have hfound := dirlookup_eq hld name
  cases hl : lookup nd.bytes name with
  | none =>
    rw [hl] at hsearch hfound
    exact triple_step hfound (triple_iput h hlast (hnone hsearch))
  | some r =>
    obtain ⟨j, off⟩ := r
    rw [hl] at hsearch hfound
    have hj := (hdirs _ hn.1 _ hnode hld.type).2 name j off hl
    obtain ⟨next, u, hget, hgot⟩ | ⟨hget, hall⟩ := iget_cases j t
    · have hoku := ((iget_spec h.ok (h.sb ▸ hj.1)).ok rfl hget).1
      obtain ⟨hu, hinum⟩ := h.got hoku hgot
      have hu := hu.perm (List.Perm.swap _ _ _)
      have hc := hgot.inum_kept h.pos
      obtain ⟨v, hput, hv, hsame⟩ := hu.put (hu.not_lastUse (hc ▸ hn))
      have hinum := (hsame next).trans hinum
      refine triple_step (hfound.trans (run_bind hget)) (triple_step hput ?_)
      exact hsome next v (hinum ▸ hsearch) hv (hinum ▸ hj)
    · refine triple_fail (run_bind_error (hfound.trans (run_bind_error hget))) (hfull ?_)
      -- Only the entry that is held was unused before.
      have hused : ∀ c', (s.icache c').ref = 0 → c' = c := by
        intro c' h0
        by_contra hne
        have hpos := hall c'
        rw [h.ref, h0, List.count_singleton, if_neg (by simpa using Ne.symm hne)] at hpos
        omega
      exact fun c₁ c₂ h1 h2 => (hused c₁ h1).trans (hused c₂ h2).symm

theorem namexLoop_spec (hdirs : DirsOk s) (b : Bool) (fuel : Nat) {ip : Fin NINODE}
    {path : List UInt8} (name : List UInt8) (hfuel : path.length < fuel)
    (h : Holding [ip] s t) (hn : Nameable s (t.icache ip).inum) :
    Triple (· = t) (namexLoop b fuel ip path name)
      (Reached b s (t.icache ip).inum (components path))
      (Stuck s (target b s (t.icache ip).inum (components path))) := by
  induction fuel generalizing ip path name t with
  | zero => omega
  | succ fuel ih =>
    unfold namexLoop
    cases hskip : skipelem path with
    | none =>
      rw [skipelem_none hskip]
      cases b with
      | true => exact triple_iput h (h.not_lastUse hn) fun u hu => ⟨rfl, hu⟩
      | false => exact triple_exact rfl ⟨rfl, h, fun hb => absurd hb Bool.false_ne_true⟩
    | some r =>
      obtain ⟨rest, elem⟩ := r
      obtain ⟨hcomp, hnil⟩ := skipelem_some hskip
      have hlen := skipelem_length hskip
      rw [hcomp]
      have htarget := target_cons b s (t.icache ip).inum elem (components rest)
      refine triple_call (ilock_spec h.ok h.pos) rfl ?_ ?_
      · rintro e ⟨rfl, hnone⟩
        rw [h.node] at hnone
        rw [directory, hnone] at htarget
        exact .inl ⟨rfl, htarget⟩
      rintro _ v ⟨hok, hlock, d, hv⟩
      obtain ⟨hheld, hinum⟩ := h.locked hok hv
      rw [← hinum] at hn htarget ⊢
      have hlast := hheld.not_lastUse hn
      refine triple_step rfl ?_
      by_cases hdir : (v.icache ip).d.type = T_DIR
      · obtain ⟨nd, hnd, hld, hdirectory⟩ := hheld.lockedDir hdirs hlock hdir
        rw [hdirectory, Walk.bind] at htarget
        rw [if_neg (not_not_intro hdir)]
        by_cases hstop : b = true ∧ rest = []
        · rw [if_pos ⟨hstop.1, hnil.mp hstop.2⟩] at htarget
          rw [if_pos hstop]
          refine triple_exact rfl ⟨htarget, hheld, fun _ => ⟨?_, hlock⟩⟩
          rw [hnil.mp hstop.2]
          rfl
        · rw [if_neg fun hx => hstop ⟨hx.1, hnil.mpr hx.2⟩] at htarget
          rw [if_neg hstop]
          refine triple_search hdirs hheld hld hn ?_ (fun hfull => .inr ⟨rfl, hfull⟩) ?_
          · intro hs u hu
            rw [hs] at htarget
            exact ⟨htarget, hu⟩
          · intro next u hs hu hnext
            rw [hs, Walk.bind] at htarget
            rw [htarget]
            refine (ih elem (by omega) hu hnext).post ?_
            rintro (_ | ⟨c, nm⟩) w hw
            · exact ⟨htarget.trans hw.1, hw.2⟩
            · refine ⟨htarget.trans hw.1, hw.2.1, fun hb => ⟨?_, (hw.2.2 hb).2⟩⟩
              rw [List.getLast?_cons, (hw.2.2 hb).1]
              rfl
      · have hnode := hheld.ok.node_eq hlock
        rw [nodeOf, if_neg (hheld.ok.type_ne hlock), hheld.node] at hnode
        rw [directory, hnode] at htarget
        dsimp only at htarget
        rw [if_neg hdir] at htarget
        rw [if_pos hdir]
        exact triple_iput hheld hlast fun u hu => ⟨htarget, hu⟩

/-! ## Paths -/

variable {cwd : Fin NINODE} {path : List UInt8}

/-- The inode at which a path starts. -/
def origin (s : FsState) (cwd : Fin NINODE) (path : List UInt8) : Nat :=
  if path.head? = some slash then ROOTINO else (s.icache cwd).inum

/-- A file system in which paths can be resolved: directories are in order, and the process has a
current directory. -/
structure Resolvable (cwd : Fin NINODE) (s : FsState) : Prop where
  ok : FsOk s
  dirs : DirsOk s
  root : Nameable s ROOTINO
  cwd : 0 < (s.icache cwd).ref

/-- What a walk ends at can stand in a directory. -/
theorem follow_nameable (hdirs : DirsOk s) {names : List (List UInt8)} {i j : Nat}
    (hi : Nameable s i) (h : follow s i names = .inode j) : Nameable s j := by
  induction names generalizing i with
  | nil =>
    obtain rfl := Walk.inode.inj h
    exact hi
  | cons name names ih =>
    rw [follow] at h
    unfold search at h
    cases hn : node s i with
    | none =>
      rw [hn] at h
      cases h
    | some nd =>
      rw [hn] at h
      dsimp only at h
      by_cases hd : nd.type = T_DIR
      · rw [if_pos hd] at h
        cases hl : lookup nd.bytes name with
        | none =>
          rw [hl] at h
          cases h
        | some r =>
          rw [hl] at h
          exact ih ((hdirs i hi.1 nd hn hd).2 name r.1 r.2 hl) h
      · rw [if_neg hd] at h
        cases h

theorem Resolvable.nameable (h : Resolvable cwd s) {path : List UInt8} {j : Nat}
    (hj : follow s (origin s cwd path) (components path) = .inode j) : Nameable s j := by
  refine follow_nameable h.dirs ?_ hj
  unfold origin
  split
  · exact h.root
  · exact ⟨h.ok.inum cwd h.cwd, fun _ _ _ => ⟨cwd, h.cwd, rfl⟩⟩

theorem FsOk.holding (h : FsOk s) : Holding [] s s :=
  ⟨h, rfl, rfl, rfl, rfl, fun _ => rfl, fun _ _ => rfl⟩

theorem namex_spec (h : Resolvable cwd s) (b : Bool) (path : List UInt8) :
    Triple (· = s) (namex cwd path b)
      (Reached b s (origin s cwd path) (components path))
      (Stuck s (target b s (origin s cwd path) (components path))) := by
  unfold namex origin
  by_cases hp : path.head? = some slash
  · rw [if_pos hp, if_pos hp]
    obtain ⟨ip, t, hget, hgot⟩ | ⟨hget, hall⟩ := iget_cases ROOTINO s
    · obtain ⟨ht, hinum⟩ := h.ok.holding.got ((iget_spec h.ok h.root.1).ok rfl hget).1 hgot
      have hspec := namexLoop_spec h.dirs b (path.length + 1) [] (Nat.lt_succ_self _) ht
        (hinum ▸ h.root)
      rw [hinum] at hspec
      exact triple_step hget hspec
    · refine triple_fail (run_bind_error hget) (.inr ⟨rfl, fun c _ h0 _ => ?_⟩)
      exact absurd h0 (hall c).ne'
  · rw [if_neg hp, if_neg hp]
    have hgot : Got (s.icache cwd).inum cwd s
        (s.withInode cwd { s.icache cwd with ref := (s.icache cwd).ref + 1 }) := .shared h.cwd rfl
    have hok : FsOk (s.withInode cwd { s.icache cwd with ref := (s.icache cwd).ref + 1 }) :=
      h.ok.withInode (fun _ => h.ok.inum cwd h.cwd)
        (fun _ c' hne hr he => hne (h.ok.distinct c' cwd hr h.cwd he))
        fun _ hv => h.ok.coherent cwd h.cwd hv
    obtain ⟨ht, hinum⟩ := h.ok.holding.got hok hgot
    have hspec := namexLoop_spec h.dirs b (path.length + 1) [] (Nat.lt_succ_self _) ht
      (hinum ▸ ⟨h.ok.inum cwd h.cwd, fun _ _ _ => ⟨cwd, h.cwd, rfl⟩⟩)
    rw [hinum] at hspec
    exact triple_step rfl hspec

/-- The outcome of a walk that is to end as `w` does: what is returned, and that one reference is
held to it and nothing else has changed. -/
def Ends (s : FsState) (w : Walk) : Except Panic (Option (Fin NINODE) × FsState) → Prop
  | .ok (some ip, t) => w = .inode (t.icache ip).inum ∧ Holding [ip] s t
  | .ok (none, t) => w = .absent ∧ Holding [] s t
  | .error e => Stuck s w e

theorem namei_ends (h : Resolvable cwd s) (path : List UInt8) :
    Ends s (follow s (origin s cwd path) (components path)) (namei cwd path s) := by
  have hspec := namex_spec h false path
  cases hrun : namex cwd path false s with
  | error e =>
    rw [show namei cwd path s = _ from run_bind_error hrun]
    exact hspec.error rfl hrun
  | ok x =>
    obtain ⟨r, t⟩ := x
    have hr := hspec.ok rfl hrun
    rw [show namei cwd path s = _ from run_bind hrun]
    cases r with
    | none => exact hr
    | some q => exact ⟨hr.1, hr.2.1⟩

/-- `namei` and `nameiparent` follow the components of the path. -/
theorem namei_components (h : Resolvable cwd s) (path : List UInt8) :
    elements path = components path ∧
    Ends s (follow s (origin s cwd path) (components path)) (namei cwd path s) ∧
    (follow s (origin s cwd path) (components path) = .absent ↔
      ∃ l name l' p nd, components path = l ++ name :: l' ∧
        follow s (origin s cwd path) l = .inode p ∧ node s p = some nd ∧
        (nd.type ≠ T_DIR ∨ lookup nd.bytes name = none)) ∧
    (components path = [] → (nameiparent cwd path s = .error .igetNoInodes ∧ Crowded s) ∨
      ∃ t, nameiparent cwd path s = .ok (none, t) ∧ Holding [] s t) ∧
    (components path ≠ [] →
      match nameiparent cwd path s with
      | .ok (some (dp, name), t) => Holding [dp] s t ∧ (components path).getLast? = some name ∧
          ∃ r, dirlookup dp name t = found r t ∧ Ends s (.ofEntry r) (namei cwd path s)
      | .ok (none, t) => Holding [] s t ∧ Ends s .absent (namei cwd path s)
      | .error e => (e = .noType ∧ Ends s .free (namei cwd path s)) ∨
          (e = .igetNoInodes ∧ Crowded s)) := by
  have hends := namei_ends h path
  have hspec := namex_spec h true path
  refine ⟨elements_eq path, hends, follow_absent_iff .., fun hnil => ?_, fun hne => ?_⟩
  · rw [hnil] at hspec
    cases hrun : nameiparent cwd path s with
    | error e =>
      obtain ⟨-, hfree⟩ | ⟨rfl, hfull⟩ := hspec.error rfl hrun
      · nomatch hfree
      · exact .inl ⟨rfl, hfull⟩
    | ok x =>
      obtain ⟨_ | ⟨dp, name⟩, t⟩ := x
      · exact .inr ⟨t, rfl, (hspec.ok rfl hrun).2⟩
      · nomatch (hspec.ok rfl hrun).1
  · have htarget : target true s (origin s cwd path) (components path)
        = followParent s (origin s cwd path) (components path) := by
      rw [target, if_pos rfl, if_neg hne]
    obtain ⟨name, hname⟩ : ∃ name, (components path).getLast? = some name :=
      ⟨_, List.getLast?_eq_some_getLast hne⟩
    have hfollow := follow_of_parent s (origin s cwd path) hname
    cases hrun : nameiparent cwd path s with
    | error e =>
      obtain ⟨rfl, hfree⟩ | hfull := hspec.error rfl hrun
      · rw [hfollow, ← htarget, hfree] at hends
        exact .inl ⟨rfl, hends⟩
      · exact .inr hfull
    | ok x =>
      obtain ⟨_ | ⟨dp, nm⟩, t⟩ := x
      · obtain ⟨habsent, ht⟩ := hspec.ok rfl hrun
        rw [hfollow, ← htarget, habsent] at hends
        exact ⟨ht, hends⟩
      · obtain ⟨hdp, ht, hlast⟩ := hspec.ok rfl hrun
        obtain ⟨hnm, hlock⟩ := hlast rfl
        obtain rfl := Option.some.inj (hname.symm.trans hnm)
        obtain ⟨nd, hnd, hdir⟩ := followParent_inode (htarget.symm.trans hdp)
        have hnode := hnd
        rw [← ht.node, ht.ok.node_eq hlock, nodeOf, if_neg (ht.ok.type_ne hlock)] at hnode
        obtain ⟨nd', hnd', hld, -⟩ := ht.lockedDir h.dirs hlock
          (by rw [← hdir, ← Option.some.inj hnode])
        obtain rfl := Option.some.inj (hnd.symm.trans hnd')
        refine ⟨ht, hname, lookup nd.bytes name, dirlookup_eq hld name, ?_⟩
        rw [hfollow, ← htarget, hdp, Walk.bind, search, hnd] at hends
        dsimp only at hends
        rwa [if_pos hdir] at hends

/-- A root directory with one entry, `a`, for itself, and a process in it. -/
def loopDir : FsState :=
  last blank (trace step blank [.ialloc T_DIR, .ilock 0, .update 0 0 0 1,
    .writei 0 0 (encodeDirent { inum := ROOTINO, name := strncpy [97] DIRSIZ })])

theorem resolvable_loopDir : Resolvable 0 loopDir := by
  have hroot : Nameable loopDir ROOTINO :=
    ⟨by decide +kernel, fun _ _ _ => ⟨0, by decide +kernel, by decide +kernel⟩⟩
  refine ⟨blank_ok.run (isRun_trace ..), fun i hi nd hnd hd => ?_, hroot, by decide +kernel⟩
  have hnodes : ∀ i < 15, i ≠ ROOTINO → node loopDir i = none := by decide +kernel
  obtain rfl : i = ROOTINO := by
    by_contra hne
    rw [hnodes i hi hne] at hnd
    nomatch hnd
  have hlen : (node loopDir ROOTINO).map (·.bytes.length) = some 16 := by decide +kernel
  have hentry : (node loopDir ROOTINO).map (fun nd => (entry nd.bytes 0).inum) = some ROOTINO := by
    decide +kernel
  rw [hnd] at hlen hentry
  have hlen : nd.bytes.length = 16 := Option.some.inj hlen
  have hentry : (entry nd.bytes 0).inum = ROOTINO := Option.some.inj hentry
  refine ⟨⟨1, hlen⟩, fun name j off hl => ?_⟩
  obtain ⟨k, hk, rfl, -⟩ := lookup_eq_some hl
  obtain rfl : k = 0 := by
    rw [DESIZE_eq] at hk
    omega
  rw [hentry]
  exact hroot

/-- The path `/a//a` leads to the root. -/
theorem namei_components_loopDir :
    components [slash, 97, slash, slash, 97] = [[97], [97]] ∧
      Ends loopDir (.inode ROOTINO) (namei 0 [slash, 97, slash, slash, 97] loopDir) := by
  have hpath := namei_components resolvable_loopDir [slash, 97, slash, slash, 97]
  have hfollow : follow loopDir (origin loopDir 0 [slash, 97, slash, slash, 97])
      (components [slash, 97, slash, slash, 97]) = .inode ROOTINO := by decide +kernel
  exact ⟨by decide +kernel, hfollow ▸ hpath.2.1⟩

end StrideXv6.Fs
