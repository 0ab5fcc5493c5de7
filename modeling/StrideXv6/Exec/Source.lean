import StrideXv6.Exec.Image

set_option autoImplicit false

/-! # What exec reads

An inode that is locked is a `Source`: a file with its bytes, the console with the answers it is
going to give, or a device that cannot be read. `readi` reads from the source and changes nothing
else (`readi_source`), so the headers that `exec` gets to see are a function of the source
(`Source.elf`, `Source.headers`).

`exec` uses a header only if `readi` has delivered all of it, with one exception: the comparison
`readi(...) < sizeof(elf)` is one of unsigned numbers, so that -1 passes for a large number, and what
is checked then is the magic number in a variable nobody has written (`Misread`). If that does not
happen, `exec` returns -1 whenever a header cannot be read (`exec_reads_iff`).
-/

namespace StrideXv6.Exec

open Hoare Function
open Mem (Memory Page Image PGSIZE pgroundup Proghdr ExecFile smallImage)
open Fs (FsState NINODE T_DEV CONSOLE Node)

variable {w w' w₀ : World} {c : Fin NINODE} {α β : Type}
variable {t : FsState} {W : Watch} {nd : Node} {d : Page}

/-! ## Lifted programs -/

theorem onMem_ok {x : Mem.M α} {a : α} {m : Memory} (h : x w.mem = .ok (a, m)) :
    onMem x w = .ok (a, { w with mem := m }) := by
  rw [onMem, h]
  rfl

theorem onMem_error {x : Mem.M α} {e : Mem.Panic} (h : x w.mem = .error e) :
    onMem x w = .error (.mem e) := by
  rw [onMem, h]
  rfl

theorem onFs_ok {x : Fs.FsM α} {a : α} (h : x w.fs = .ok (a, t)) :
    onFs x w = .ok (a, { w with fs := t }) := by
  rw [onFs, h]
  rfl

theorem exists_of_onFs {x : Fs.FsM α} {a : α} (h : onFs x w = .ok (a, w')) :
    ∃ t, x w.fs = .ok (a, t) ∧ w' = { w with fs := t } := by
  cases hx : x w.fs with
  | error e =>
    rw [onFs, hx] at h
    cases h
  | ok r =>
    obtain ⟨b, t⟩ := r
    rw [onFs_ok hx] at h
    cases h
    exact ⟨t, rfl, rfl⟩

/-! ## Watching -/

/-- `x` is `y` with observations, as long as there is no objection. -/
def Observes (x y : X α) : Prop := ∀ w, x w = .error .watched ∨ x w = y w

theorem Observes.refl (x : X α) : Observes x x := fun _ => .inr rfl

theorem Observes.bind {x y : X α} {f g : α → X β} (h : Observes x y) (hf : ∀ a, Observes (f a) (g a)) :
    Observes (x >>= f) (y >>= g) := by
  intro w
  rcases h w with hx | hx
  · exact .inl (run_bind_error hx)
  · cases hy : y w with
    | error e =>
      rw [hy] at hx
      exact .inr ((run_bind_error hx).trans (run_bind_error hy).symm)
    | ok r =>
      obtain ⟨a, w'⟩ := r
      rw [hy] at hx
      rw [run_bind hx, run_bind hy]
      exact hf a w'

theorem Observes.expect (b : Bool) : Observes (Exec.expect b) (Exec.expect true) := by
  cases b with
  | true => exact .refl _
  | false => exact fun _ => .inl rfl

theorem observes_readElf (W : Watch) (g : Fin ELFSIZE → UInt8) (c : Fin NINODE) :
    Observes (readElf W g c) (readElf Watch.none g c) := by
  refine (Observes.refl _).bind fun r => ?_
  dsimp only
  split
  · exact .refl _
  · split
    · exact .refl _
    · exact (Observes.expect _).bind fun _ => .refl _

theorem observes_store (W : Watch) (img : Image) (d : Page) (sz v : Nat) (p : Page)
    (l : List UInt8) : Observes (store W img d sz v p l) (store Watch.none img d sz v p l) := by
  unfold store
  split
  · exact .refl _
  · exact (Observes.refl _).bind fun w => (Observes.expect _).bind fun _ => .refl _

theorem observes_loadLoop (W : Watch) (img : Image) (d : Page) (sz : Nat) (c : Fin NINODE)
    (n v off rest : Nat) : Observes (loadLoop W img d sz c n v off rest)
      (loadLoop Watch.none img d sz c n v off rest) := by
  induction n generalizing v off rest with
  | zero => exact .refl _
  | succ n ih =>
    refine (Observes.refl _).bind fun r => ?_
    cases r with
    | none => exact .refl _
    | some q =>
      refine (Observes.refl _).bind fun w => (Observes.refl _).bind fun r =>
        (observes_store W img d sz _ _ _).bind fun _ => ?_
      split
      · exact .refl _
      · exact ih _ _ _

theorem observes_loaduvm (W : Watch) (img : Image) (d : Page) (sz : Nat) (c : Fin NINODE)
    (addr offset filesz : Nat) : Observes (loaduvm W img d sz c addr offset filesz)
      (loaduvm Watch.none img d sz c addr offset filesz) := by
  unfold loaduvm
  split
  · exact .refl _
  · exact observes_loadLoop W img d sz c _ _ _ _

theorem observes_loadSegment (W : Watch) (img : Image) (d : Page) (c : Fin NINODE) (ph : Ph)
    (sz : Nat) : Observes (loadSegment W img d c ph sz) (loadSegment Watch.none img d c ph sz) := by
  unfold loadSegment
  split
  · exact .refl _
  · split
    · exact .refl _
    · refine (Observes.refl _).bind fun sz => ?_
      split
      · exact .refl _
      · exact (observes_loaduvm W img d sz c _ _ _).bind fun _ => .refl _

theorem observes_loadSegments (W : Watch) (img : Image) (d : Page) (c : Fin NINODE)
    (n off sz : Nat) : Observes (loadSegments W img d c n off sz)
      (loadSegments Watch.none img d c n off sz) := by
  induction n generalizing off sz with
  | zero => exact .refl _
  | succ n ih =>
    refine (Observes.refl _).bind fun r => ?_
    split
    · exact .refl _
    · refine (Observes.expect _).bind fun _ => (observes_loadSegment W img d c _ _).bind fun q => ?_
      cases q with
      | none => exact .refl _
      | some sz => exact ih _ _

/-- The run of `exec` is what can be observed of it. -/
theorem observes_exec (W : Watch) (img : Image) (g : Fin ELFSIZE → UInt8) (path : List UInt8)
    (argv : List (List UInt8)) :
    Observes (exec W img g path argv) (exec Watch.none img g path argv) := by
  refine (Observes.refl _).bind fun _ => (Observes.refl _).bind fun r => ?_
  cases r with
  | none => exact .refl _
  | some c =>
    refine (Observes.refl _).bind fun _ => (observes_readElf W g c).bind fun elf => ?_
    cases elf with
    | none => exact .refl _
    | some elf =>
      refine (Observes.refl _).bind fun d => ?_
      cases d with
      | none => exact .refl _
      | some d => exact (observes_loadSegments W img d c _ _ _).bind fun _ => .refl _

/-! ## Sources -/

inductive Source where
  | file (bytes : List UInt8)
  | console (input : List Answer)
  /-- A device without a `read` function. -/
  | dead

/-- What `readi` returns, and what there is to read afterwards. -/
def Source.read (off n : Nat) : Source → Read × Source
  | .file b =>
    (if off > b.length ∨ (off + n) % 2 ^ 32 < off then ⟨[], false⟩
      else ⟨(b.drop off).take n, true⟩, .file b)
  | .console [] => (⟨[], false⟩, .console [])
  | .console (a :: as) => (⟨a.bytes.take n, a.ok⟩, .console as)
  | .dead => (⟨[], false⟩, .dead)

def sourceOf (input : List Answer) (nd : Node) : Source :=
  if nd.type = T_DEV then if nd.major = CONSOLE then .console input else .dead
  else .file nd.bytes

/-- The inode in entry `c` is locked, and `s` is what can be read from it. -/
structure Opened (c : Fin NINODE) (s : Source) (w : World) : Prop where
  ok : Fs.FsOk w.fs
  locked : Fs.Locked c w.fs
  node : ∃ nd, Fs.node w.fs (w.fs.icache c).inum = some nd ∧ sourceOf w.input nd = s

/-- Only the memory and the input of the console have changed. -/
structure Kept (w w' : World) : Prop where
  fs : w'.fs = w.fs
  busy : w'.busy = w.busy
  ops : w'.ops = w.ops
  proc : w'.proc = w.proc

theorem Kept.refl (w : World) : Kept w w := ⟨rfl, rfl, rfl, rfl⟩

theorem Kept.mem (w : World) (m : Memory) : Kept w { w with mem := m } := ⟨rfl, rfl, rfl, rfl⟩

theorem Kept.trans {u : World} (h : Kept w w') (h' : Kept w' u) : Kept w u :=
  ⟨h'.fs.trans h.fs, h'.busy.trans h.busy, h'.ops.trans h.ops, h'.proc.trans h.proc⟩

variable {s : Source}

theorem Opened.mem (h : Opened c s w) (m : Memory) : Opened c s { w with mem := m } :=
  ⟨h.ok, h.locked, h.node⟩

/-- The node of a locked inode is what the cache says. -/
theorem Opened.cached (h : Opened c s w) : ∃ nd,
    Fs.node w.fs (w.fs.icache c).inum = some nd ∧ sourceOf w.input nd = s ∧
      (w.fs.icache c).d.type = nd.type ∧ (w.fs.icache c).d.major = nd.major := by
  obtain ⟨nd, hnd, hs⟩ := h.node
  have hcopy := hnd
  rw [h.ok.node_eq h.locked, Fs.nodeOf, if_neg (h.ok.type_ne h.locked), Option.some.injEq] at hcopy
  exact ⟨nd, hnd, hs, by rw [← hcopy], by rw [← hcopy]⟩

theorem consoleread_source (n : Nat) (w : World) : ∃ w',
    consoleread n w = .ok ((Source.read 0 n (.console w.input)).1, w') ∧
      (Source.read 0 n (.console w.input)).2 = .console w'.input ∧ Kept w w' ∧ w'.mem = w.mem := by
  unfold consoleread
  cases hi : w.input with
  | nil => exact ⟨w, rfl, by rw [hi]; rfl, .refl w, rfl⟩
  | cons a as => exact ⟨_, rfl, rfl, ⟨rfl, rfl, rfl, rfl⟩, rfl⟩

/-- `readi` reads from the source. -/
theorem readi_source (h : Opened c s w) (off n : Nat) : ∃ w',
    readi c off n w = .ok ((s.read off n).1, w') ∧ Opened c (s.read off n).2 w' ∧ Kept w w' ∧
      w'.mem = w.mem := by
  obtain ⟨nd, hnd, hs, htype, hmajor⟩ := h.cached
  unfold readi
  rw [run_get, htype, hmajor]
  unfold sourceOf at hs
  by_cases hdev : nd.type = T_DEV
  · rw [if_pos hdev] at hs ⊢
    by_cases hcons : nd.major = CONSOLE
    · rw [if_pos hcons] at hs ⊢
      subst hs
      obtain ⟨w', hrun, hsrc, hkept, hmem⟩ := consoleread_source n w
      refine ⟨w', ?_, ?_, hkept, hmem⟩
      · rw [hrun]
        cases w.input <;> rfl
      · have hnext : (Source.read off n (.console w.input)).2 = .console w'.input := by
          rw [← hsrc]
          cases w.input <;> rfl
        rw [hnext]
        refine ⟨hkept.fs ▸ h.ok, hkept.fs ▸ h.locked, nd, hkept.fs ▸ hnd, ?_⟩
        rw [sourceOf, if_pos hdev, if_pos hcons]
    · rw [if_neg hcons] at hs ⊢
      subst hs
      refine ⟨w, rfl, ⟨h.ok, h.locked, nd, hnd, ?_⟩, .refl w, rfl⟩
      rw [sourceOf, if_pos hdev, if_neg hcons]
      rfl
  · rw [if_neg hdev] at hs ⊢
    subst hs
    obtain ⟨r, t, hrun, rfl, hr⟩ := (Fs.readi_spec h.ok h.locked hnd off n).exists_ok rfl
    refine ⟨w, ?_, ⟨h.ok, h.locked, nd, hnd, ?_⟩, .refl w, rfl⟩
    · rw [run_bind (onFs_ok hrun), hr, Source.read]
      by_cases hout : off > nd.bytes.length ∨ (off + n) % 2 ^ 32 < off
      · rw [if_pos (.inr hout), if_pos hout]
        rfl
      · rw [if_neg (not_or.mpr ⟨hdev, hout⟩), if_neg hout]
        rfl
    · rw [sourceOf, if_neg hdev]
      rfl

/-! ## Headers -/

/-- How many of `n` pages `loaduvm` reads in full, with `rest` bytes to read from `off`. -/
def Source.readPages : Nat → Nat → Nat → Source → Nat × Source
  | 0, _, _, s => (0, s)
  | n + 1, off, rest, s =>
    let r := s.read (off % 2 ^ 32) (min rest PGSIZE)
    if r.1.ret ≠ min rest PGSIZE then (0, r.2)
    else
      let q := readPages n (off + PGSIZE) (rest - min rest PGSIZE) r.2
      (q.1 + 1, q.2)

/-- A program header as `exec` finds it, and what there is to read after its segment. -/
def Source.segment (ph : Ph) (s : Source) : Proghdr × Source :=
  if ph.type ≠ ELF_PROG_LOAD then (.other, s)
  else if ph.memsz < ph.filesz then (.short, s)
  else
    let q := s.readPages (pgroundup ph.filesz) ph.off ph.filesz
    (.load ph.vaddr ph.memsz ph.filesz q.1, q.2)

/-- The headers at which `exec` gives up, whatever memory there is. -/
def stops : Proghdr → Bool
  | .unreadable => true
  | .other => false
  | .short => true
  | .load _ _ filesz read => decide (read < pgroundup filesz)

/-- The program headers, up to one at which `exec` gives up. -/
def Source.headers : Nat → Nat → Source → List Proghdr
  | 0, _, _ => []
  | n + 1, off, s =>
    let r := s.read (off % 2 ^ 32) PHSIZE
    if r.1.ret ≠ PHSIZE then [.unreadable]
    else
      let q := r.2.segment (Ph.decode (overlay (fun _ => 0) r.1.bytes))
      q.1 :: if stops q.1 then [] else headers n (off + PHSIZE) q.2

/-- The program header at `off` with its segment, and what there is to read after it. -/
def Source.headerAt (off : Nat) (s : Source) : Proghdr × Source :=
  (s.read (off % 2 ^ 32) PHSIZE).2.segment
    (Ph.decode (overlay (fun _ => 0) (s.read (off % 2 ^ 32) PHSIZE).1.bytes))

theorem headers_unreadable {s : Source} {off : Nat} (n : Nat)
    (h : (s.read (off % 2 ^ 32) PHSIZE).1.ret ≠ PHSIZE) :
    s.headers (n + 1) off = [.unreadable] := if_pos h

theorem headers_succ {s : Source} {off : Nat} (n : Nat)
    (h : ¬ (s.read (off % 2 ^ 32) PHSIZE).1.ret ≠ PHSIZE) :
    s.headers (n + 1) off = (s.headerAt off).1 ::
      if stops (s.headerAt off).1 then [] else (s.headerAt off).2.headers n (off + PHSIZE) :=
  if_neg h

/-- The header that passes the checks, and what there is to read after it. -/
def Source.elf (g : Fin ELFSIZE → UInt8) (s : Source) : Option (Elf × Source) :=
  let r := s.read 0 ELFSIZE
  let elf := Elf.decode (overlay g r.1.bytes)
  if r.1.ret < ELFSIZE ∨ elf.magic ≠ ELF_MAGIC then none else some (elf, r.2)

/-- The file as `exec` finds it. -/
def Source.execFile (g : Fin ELFSIZE → UInt8) (s : Source) : ExecFile where
  elf := (s.elf g).isSome
  headers := (s.elf g).elim [] fun e => e.2.headers e.1.phnum e.1.phoff
  argsFit := true

theorem readElf_source (W : Watch) (g : Fin ELFSIZE → UInt8) (h : Opened c s w) : ∃ w',
    Kept w w' ∧ w'.mem = w.mem ∧ (s.elf g = none → readElf W g c w = .ok (none, w') ∧
      Opened c (s.read 0 ELFSIZE).2 w') ∧
    ∀ e, s.elf g = some e → Opened c e.2 w' ∧ readElf W g c w =
      if W.header ELFSIZE (s.read 0 ELFSIZE).1 then .ok (some e.1, w') else .error .watched := by
  obtain ⟨w', hrun, hopen, hkept, hmem⟩ := readi_source h 0 ELFSIZE
  refine ⟨w', hkept, hmem, fun hnone => ⟨?_, hopen⟩, fun e he => ?_⟩
  · unfold Source.elf at hnone
    rw [readElf, run_bind hrun]
    by_cases hret : (s.read 0 ELFSIZE).1.ret < ELFSIZE
    · rw [if_pos hret]
      rfl
    · rw [if_neg hret]
      dsimp only at hnone ⊢
      split at hnone
      · rename_i hor
        rw [if_pos (hor.resolve_left hret)]
        rfl
      · cases hnone
  · unfold Source.elf at he
    dsimp only at he
    split at he
    · cases he
    · rename_i hor
      rw [not_or] at hor
      cases he
      refine ⟨hopen, ?_⟩
      rw [readElf, run_bind hrun, if_neg hor.1]
      dsimp only
      rw [if_neg hor.2]
      cases W.header ELFSIZE (s.read 0 ELFSIZE).1 <;> rfl

/-! ## The inode -/

/-- What the path leads to. -/
def sourceAt (w : World) (path : List UInt8) : Option Source :=
  match Fs.follow w.fs (Fs.origin w.fs w.proc.cwd path) (Fs.components path) with
  | .inode i => (Fs.node w.fs i).map (sourceOf w.input)
  | _ => none

theorem sourceAt_inode {path : List UInt8} {i : Nat}
    (h : Fs.follow w.fs (Fs.origin w.fs w.proc.cwd path) (Fs.components path) = .inode i) :
    sourceAt w path = (Fs.node w.fs i).map (sourceOf w.input) := by
  rw [sourceAt, h]

/-- The file system between calls: paths can be resolved, and no inode is locked. -/
structure Idle (w : World) : Prop where
  resolvable : Fs.Resolvable w.proc.cwd w.fs
  unlocked : ∀ c, w.busy c = false

/-- In the call that began in `w₀`, the inode in entry `c` is locked. -/
structure Begun (w₀ : World) (c : Fin NINODE) (w : World) : Prop where
  holding : Fs.Holding [c] w₀.fs w.fs
  nameable : Fs.Nameable w₀.fs (w.fs.icache c).inum
  busy : w.busy = Function.update w₀.busy c true
  ops : w.ops = .beginOp :: w₀.ops
  proc : w.proc = w₀.proc

/-- After the transaction of the call that began in `w₀`: no inode is locked or referenced that was
not before. -/
structure Ended (w₀ w : World) : Prop where
  holding : Fs.Holding [] w₀.fs w.fs
  busy : w.busy = w₀.busy
  ops : w.ops = .endOp :: .beginOp :: w₀.ops

theorem Begun.kept (h : Begun w₀ c w) (hk : Kept w w') : Begun w₀ c w' :=
  ⟨hk.fs ▸ h.holding, hk.fs ▸ h.nameable, hk.busy.trans h.busy, hk.ops.trans h.ops,
    hk.proc.trans h.proc⟩

/-- `exec` up to the first `readi`. -/
theorem exec_found {path : List UInt8} (h : Idle w)
    (hn : Fs.namei w.proc.cwd path w.fs = .ok (some c, t)) (hs : sourceAt w path = some s) :
    ∃ w₁, Begun w c w₁ ∧ Opened c s w₁ ∧ w₁.mem = w.mem ∧
      ∀ W img g argv, exec W img g path argv w = execInode W img g path argv c w₁ := by
  have hends := Fs.namei_ends h.resolvable path
  rw [hn] at hends
  obtain ⟨hfollow, hheld⟩ := hends
  have hnameable := h.resolvable.nameable hfollow
  rw [sourceAt_inode hfollow] at hs
  obtain ⟨nd, hnd, rfl⟩ := Option.map_eq_some_iff.mp hs
  have hspec := Fs.ilock_spec hheld.ok hheld.pos
  cases hlock : Fs.ilock c t with
  | error e =>
    have hnone := (hspec.error rfl hlock).2
    rw [hheld.node, hnd] at hnone
    cases hnone
  | ok r =>
    obtain ⟨u, t'⟩ := r
    obtain ⟨hok, hlocked, d, ht'⟩ := hspec.ok rfl hlock
    obtain ⟨hheld', hinum⟩ := hheld.locked hok ht'
    let w₁ : World := { w with
      fs := t'
      busy := Function.update w.busy c true
      ops := .beginOp :: w.ops }
    refine ⟨w₁, ⟨hheld', hinum ▸ hnameable, rfl, rfl, rfl⟩, ⟨hok, hlocked, nd, ?_, rfl⟩, rfl, ?_⟩
    · show Fs.node t' (t'.icache c).inum = some nd
      rw [hheld'.node, hinum, hnd]
    · intro W img g argv
      have hnamei : namei path { w with ops := .beginOp :: w.ops }
          = .ok (some c, { w with ops := .beginOp :: w.ops, fs := t }) := onFs_ok hn
      have hbegin : beginOp w = .ok ((), { w with ops := .beginOp :: w.ops }) := rfl
      rw [exec, run_bind hbegin, run_bind hnamei]
      have hilock : ilock c { w with ops := .beginOp :: w.ops, fs := t } = .ok ((), w₁) :=
        onFs_ok (w := { w with
          ops := .beginOp :: w.ops
          fs := t
          busy := Function.update w.busy c true }) hlock
      exact run_bind hilock

/-- If `exec` returns, it has found nothing, or something that is not free. -/
theorem exec_looked {img : Image} {g : Fin ELFSIZE → UInt8} {path : List UInt8}
    {argv : List (List UInt8)} {r : Int} (h : Idle w)
    (hrun : exec W img g path argv w = .ok (r, w')) :
    (r = -1 ∧ Ended w w' ∧ w'.mem = w.mem ∧ w'.proc = w.proc) ∨
      ∃ c t s, Fs.namei w.proc.cwd path w.fs = .ok (some c, t) ∧ sourceAt w path = some s := by
  have hbegin : beginOp w = .ok ((), { w with ops := .beginOp :: w.ops }) := rfl
  have hends := Fs.namei_ends h.resolvable path
  rw [exec, run_bind hbegin] at hrun
  obtain ⟨q, w₁, hnamei, hrun⟩ := exists_of_bind_ok hrun
  obtain ⟨t, hn, rfl⟩ := exists_of_onFs (x := Fs.namei w.proc.cwd path) hnamei
  dsimp only at hn
  rw [hn] at hends
  cases q with
  | none =>
    cases hrun
    exact .inl ⟨rfl, ⟨hends.2, rfl, rfl⟩, rfl, rfl⟩
  | some c =>
    obtain ⟨hfollow, hheld⟩ := hends
    obtain ⟨_, w₂, hlock, -⟩ := exists_of_bind_ok hrun
    obtain ⟨_, w₃, hmark, hlock⟩ := exists_of_bind_ok hlock
    cases hmark
    obtain ⟨t', hilock, -⟩ := exists_of_onFs hlock
    obtain ⟨hok, hlocked, d, ht'⟩ := (Fs.ilock_spec hheld.ok hheld.pos).ok rfl hilock
    obtain ⟨hheld', hinum⟩ := hheld.locked hok ht'
    have hnode := hok.node_eq hlocked
    rw [Fs.nodeOf, if_neg (hok.type_ne hlocked), hheld'.node, hinum] at hnode
    exact .inr ⟨c, t, _, hn, (sourceAt_inode hfollow).trans (congrArg _ hnode)⟩

/-- Giving up the inode. -/
theorem Begun.put (h : Begun w₀ c w) (hfree : w₀.busy c = false) : ∃ w₁,
    iunlockput c w = .ok ((), w₁) ∧ Ended w₀ { w₁ with ops := .endOp :: w₁.ops } ∧
      w₁.mem = w.mem ∧ w₁.proc = w.proc := by
  obtain ⟨u, hput, hheld, -⟩ := h.holding.put (h.holding.not_lastUse h.nameable)
  have hpos := h.holding.pos
  have hunlock : iunlock c w
      = .ok ((), { w with busy := Function.update w.busy c false }) := by
    have hbusy : ¬ (w.busy c = false ∨ (w.fs.icache c).ref = 0) := by
      rw [h.busy, update_self]
      simp only [Bool.true_eq_false, false_or]
      omega
    refine run_get.trans ?_
    rw [if_neg hbusy]
    rfl
  refine ⟨{ w with busy := Function.update w.busy c false, fs := u }, ?_, ⟨hheld, ?_, ?_⟩, rfl, rfl⟩
  · exact (run_bind hunlock).trans
      (onFs_ok (w := { w with busy := Function.update w.busy c false }) hput)
  · show Function.update w.busy c false = w₀.busy
    rw [h.busy, update_idem, ← hfree, update_eq_self]
  · show LogOp.endOp :: w.ops = _
    rw [h.ops]

/-- The label `bad` with the inode locked. -/
theorem bad_begun {img : Image} {pgdir : Option Page} {m : Memory} (h : Begun w₀ c w)
    (hfree : w₀.busy c = false) (hm : pgdir.forM (Mem.freevm img) w.mem = .ok ((), m)) :
    ∃ w', bad img pgdir (some c) w = .ok (-1, w') ∧ Ended w₀ w' ∧ w'.mem = m ∧
      w'.proc = w₀.proc := by
  have hfirst : pgdir.forM (fun d => onMem (Mem.freevm img d)) w = .ok ((), { w with mem := m }) := by
    cases pgdir with
    | none =>
      cases hm
      rfl
    | some d => exact onMem_ok hm
  obtain ⟨w₁, hput, hended, hmem, hproc⟩ := (h.kept (.mem w m)).put hfree
  refine ⟨{ w₁ with ops := .endOp :: w₁.ops }, (run_bind hfirst).trans ?_, hended, hmem,
    hproc.trans h.proc⟩
  exact run_bind ((run_bind hput).trans rfl)

/-! ## Runs of the loader -/

/-- The faults that are no fault of the file system. -/
def Fault.Aside : Fault → Prop
  | .mem _ => True
  | .watched => True
  | _ => False

/-- What is done to the memory. -/
theorem onMem_spec (x : Mem.M α) (w : World) :
    Triple (fun y => y = w) (onMem x) (fun _ w' => ∃ m, w' = { w with mem := m }) Fault.Aside := by
  cases hx : x w.mem with
  | error e => exact triple_fail (onMem_error hx) trivial
  | ok r => exact triple_exact (onMem_ok hx) ⟨r.2, rfl⟩

theorem store_spec (W : Watch) (img : Image) (d p : Page) (sz v : Nat) (l : List UInt8) (w : World) :
    Triple (fun y => y = w) (store W img d sz v p l) (fun _ w' => ∃ m, w' = { w with mem := m })
      Fault.Aside := by
  unfold store
  split
  · exact triple_exact rfl ⟨w.mem, rfl⟩
  · refine triple_step rfl ?_
    cases W.store sz d v p w.mem with
    | false => exact triple_fail rfl trivial
    | true => exact triple_step rfl (onMem_spec _ w)

/-- `loaduvm` reads page by page. -/
theorem loadLoop_opened {img : Image} {sz n v off rest : Nat}
    (h : Opened c s w) : Triple (fun y => y = w) (loadLoop W img d sz c n v off rest)
      (fun b w' => Opened c (s.readPages n off rest).2 w' ∧ Kept w w' ∧
        (b = true ↔ (s.readPages n off rest).1 = n)) Fault.Aside := by
  induction n generalizing s v off rest w with
  | zero => exact triple_exact rfl ⟨h, .refl _, iff_of_true rfl rfl⟩
  | succ n ih =>
    rw [loadLoop]
    refine (onMem_spec _ w).next ?_
    rintro q _ ⟨m₁, rfl⟩
    cases q with
    | none => exact triple_fail rfl trivial
    | some tj =>
      obtain ⟨w₂, hread, hopen, hkept, -⟩ :=
        readi_source (h.mem m₁) (off % 2 ^ 32) (min rest PGSIZE)
      refine triple_step rfl (triple_step hread ?_)
      refine (store_spec _ _ _ _ _ _ _ w₂).next ?_
      rintro _ _ ⟨m₃, rfl⟩
      have hkept₃ : Kept w { w₂ with mem := m₃ } :=
        ((Kept.mem w m₁).trans hkept).trans (.mem w₂ m₃)
      rw [Source.readPages]
      by_cases hret : (s.read (off % 2 ^ 32) (min rest PGSIZE)).1.ret ≠ min rest PGSIZE
      · rw [if_pos hret, if_pos hret]
        exact triple_exact rfl ⟨hopen.mem m₃, hkept₃,
          iff_of_false Bool.false_ne_true (Nat.succ_ne_zero n).symm⟩
      · rw [if_neg hret, if_neg hret]
        refine (ih (hopen.mem m₃)).post ?_
        rintro b w' ⟨hopen', hkept', hb⟩
        exact ⟨hopen', hkept₃.trans hkept', hb.trans Nat.succ_inj.symm⟩

theorem loaduvm_opened {img : Image} {sz addr offset filesz : Nat}
    (h : Opened c s w) : Triple (fun y => y = w) (loaduvm W img d sz c addr offset filesz)
      (fun b w' => Opened c (s.readPages (pgroundup filesz) offset filesz).2 w' ∧ Kept w w' ∧
        (b = true ↔ (s.readPages (pgroundup filesz) offset filesz).1 = pgroundup filesz))
      Fault.Aside := by
  unfold loaduvm
  by_cases haddr : addr % PGSIZE ≠ 0
  · rw [if_pos haddr]
    exact triple_fail rfl trivial
  · rw [if_neg haddr]
    exact loadLoop_opened h

theorem readPages_le (n off rest : Nat) (s : Source) : (s.readPages n off rest).1 ≤ n := by
  induction n generalizing off rest s with
  | zero => exact le_refl 0
  | succ n ih =>
    rw [Source.readPages]
    split
    · exact Nat.zero_le _
    · exact Nat.succ_le_succ (ih _ _ _)

theorem loadSegment_opened {img : Image} {ph : Ph} {sz : Nat}
    (h : Opened c s w) : Triple (fun y => y = w) (loadSegment W img d c ph sz)
      (fun r w' => (∃ s', Opened c s' w') ∧ Kept w w' ∧ (r ≠ none → Opened c (s.segment ph).2 w' ∧
        (s.segment ph).1 ≠ .unreadable ∧ stops (s.segment ph).1 = false)) Fault.Aside := by
  unfold loadSegment Source.segment
  split
  · exact triple_exact rfl ⟨⟨s, h⟩, .refl w, fun _ => ⟨h, Proghdr.noConfusion, rfl⟩⟩
  split
  · exact triple_exact rfl ⟨⟨s, h⟩, .refl w, fun hx => absurd rfl hx⟩
  refine (onMem_spec _ w).next ?_
  rintro sz' _ ⟨m₁, rfl⟩
  split
  · exact triple_exact rfl ⟨⟨s, h.mem m₁⟩, .mem w m₁, fun hx => absurd rfl hx⟩
  refine (loaduvm_opened (h.mem m₁)).next ?_
  rintro b w₂ ⟨hopen, hkept, hb⟩
  have hkept := (Kept.mem w m₁).trans hkept
  cases b with
  | false => exact triple_exact rfl ⟨⟨_, hopen⟩, hkept, fun hx => absurd rfl hx⟩
  | true =>
    refine triple_exact rfl ⟨⟨_, hopen⟩, hkept, fun _ => ⟨hopen, Proghdr.noConfusion, ?_⟩⟩
    simp only [stops, hb.mp rfl, lt_irrefl, decide_false]

/-- The loader gets to its end only if all program headers can be read. -/
theorem loadSegments_opened {img : Image} {n off sz : Nat}
    (h : Opened c s w) : Triple (fun y => y = w) (loadSegments W img d c n off sz)
      (fun r w' => (∃ s', Opened c s' w') ∧ Kept w w' ∧ (r ≠ none → .unreadable ∉ s.headers n off))
      Fault.Aside := by
  induction n generalizing s off sz w with
  | zero => exact triple_exact rfl ⟨⟨s, h⟩, .refl _, fun _ => List.not_mem_nil⟩
  | succ n ih =>
    obtain ⟨w₁, hread, hopen, hkept, -⟩ := readi_source h (off % 2 ^ 32) PHSIZE
    rw [loadSegments]
    refine triple_step hread ?_
    by_cases hret : (s.read (off % 2 ^ 32) PHSIZE).1.ret ≠ PHSIZE
    · rw [if_pos hret]
      exact triple_exact rfl ⟨⟨_, hopen⟩, hkept, fun hx => absurd rfl hx⟩
    rw [if_neg hret]
    cases W.header PHSIZE (s.read (off % 2 ^ 32) PHSIZE).1 with
    | false => exact triple_fail (run_bind_error rfl) trivial
    | true =>
      refine triple_step rfl ?_
      refine (loadSegment_opened hopen).next ?_
      rintro q w₃ ⟨hex, hkept₃, hq⟩
      have hkept₃ := hkept.trans hkept₃
      cases q with
      | none => exact triple_exact rfl ⟨hex, hkept₃, fun hx => absurd rfl hx⟩
      | some sz' =>
        obtain ⟨hopen₃, hne, hgo⟩ := hq (Option.some_ne_none sz')
        refine (ih hopen₃).post ?_
        rintro r w' ⟨hex', hkept', hr⟩
        refine ⟨hex', hkept₃.trans hkept', fun hx hmem => ?_⟩
        have hstop : stops (s.headerAt off).1 = false := hgo
        rw [headers_succ n hret, hstop] at hmem
        rcases List.mem_cons.mp hmem with heq | hmem
        · exact hne heq.symm
        · exact hr hx hmem

/-! ## Only what has been read -/

/-- A header may be used if `readi` has delivered all of it. -/
def Watch.delivered : Watch where
  header n r := r.ok && decide (r.bytes.length = n)
  store _ _ _ _ _ := true

/-- `readi` fails for the ELF header, and what the variable contains has the magic number. -/
def Misread (g : Fin ELFSIZE → UInt8) (s : Source) : Prop :=
  (s.read 0 ELFSIZE).1.ok = false ∧
    (Elf.decode (overlay g (s.read 0 ELFSIZE).1.bytes)).magic = ELF_MAGIC

instance (g : Fin ELFSIZE → UInt8) (s : Source) : Decidable (Misread g s) :=
  inferInstanceAs (Decidable (_ ∧ _))

theorem Source.read_length (s : Source) (off n : Nat) : (s.read off n).1.bytes.length ≤ n := by
  cases s with
  | file b =>
    rw [Source.read]
    split
    · exact Nat.zero_le n
    · exact List.length_take_le ..
  | console input =>
    cases input with
    | nil => exact Nat.zero_le n
    | cons a as => exact List.length_take_le ..
  | dead => exact Nat.zero_le n

/-- A result other than -1 is the number of bytes. -/
theorem Read.delivered {r : Read} {n : Nat} (h : r.ret = n) (hn : n < 2 ^ 32 - 1) :
    Watch.delivered.header n r = true := by
  unfold Read.ret at h
  split at h
  · rename_i hok
    show (r.ok && decide (r.bytes.length = n)) = true
    rw [hok, h, decide_eq_true rfl]
    rfl
  · omega

theorem loadLoop_congr {W W' : Watch} (hW : W.store = W'.store) (img : Image) (d : Page)
    (sz : Nat) (c : Fin NINODE) (n v off rest : Nat) :
    loadLoop W img d sz c n v off rest = loadLoop W' img d sz c n v off rest := by
  induction n generalizing v off rest with
  | zero => rfl
  | succ n ih => simp only [loadLoop, store, hW, ih]

theorem loadSegment_congr {W W' : Watch} (hW : W.store = W'.store) (img : Image) (d : Page)
    (c : Fin NINODE) (ph : Ph) (sz : Nat) :
    loadSegment W img d c ph sz = loadSegment W' img d c ph sz := by
  simp only [loadSegment, loaduvm, loadLoop_congr hW]

theorem loadSegments_delivered (img : Image) (d : Page) (c : Fin NINODE) (n off sz : Nat) :
    loadSegments Watch.delivered img d c n off sz = loadSegments Watch.none img d c n off sz := by
  induction n generalizing off sz with
  | zero => rfl
  | succ n ih =>
    rw [loadSegments, loadSegments]
    refine congrArg _ (funext fun r => ?_)
    by_cases hret : r.ret ≠ PHSIZE
    · rw [if_pos hret, if_pos hret]
    · have hW : Watch.delivered.store = Watch.none.store := rfl
      rw [if_neg hret, if_neg hret, Read.delivered (not_not.mp hret) (by decide)]
      simp only [ih, loadSegment_congr hW]
      rfl

/-- A program that makes no observations. -/
structure Silent (x : X α) : Prop where
  never : ∀ w, x w ≠ .error .watched

theorem Silent.bind {x : X α} {f : α → X β} (h : Silent x) (hf : ∀ a, Silent (f a)) :
    Silent (x >>= f) := by
  constructor
  intro w hx
  cases hrun : x w with
  | error e =>
    rw [run_bind_error hrun] at hx
    cases hx
    exact h.never w hrun
  | ok r =>
    obtain ⟨a, w'⟩ := r
    rw [run_bind hrun] at hx
    exact (hf a).never w' hx

/-- Programs that do not fail. -/
theorem silent_total {x : X α} {f : World → α × World} (h : ∀ w, x w = .ok (f w)) : Silent x := by
  constructor
  intro w hx
  rw [h] at hx
  cases hx

theorem silent_pure (a : α) : Silent (pure a : X α) := silent_total fun _ => rfl

theorem silent_get : Silent (get : X World) := silent_total fun _ => rfl

theorem silent_onMem (x : Mem.M α) : Silent (onMem x) := by
  constructor
  intro w h
  cases hx : x w.mem with
  | error e =>
    rw [onMem_error hx] at h
    cases h
  | ok r =>
    rw [onMem_ok (a := r.1) (m := r.2) hx] at h
    cases h

theorem silent_onFs (x : Fs.FsM α) : Silent (onFs x) := by
  constructor
  intro w h
  unfold onFs at h
  cases hx : x w.fs with
  | error e =>
    rw [hx] at h
    cases h
  | ok r =>
    rw [hx] at h
    cases h

theorem silent_throw {e : Fault} (h : e ≠ .watched) : Silent (throw e : X α) :=
  ⟨fun _ hx => h (Except.error.inj hx)⟩

theorem silent_ite {b : Prop} [Decidable b] {x y : X α} (hx : Silent x) (hy : Silent y) :
    Silent (if b then x else y) := by
  split
  · exact hx
  · exact hy

theorem silent_readi (c : Fin NINODE) (off n : Nat) : Silent (readi c off n) := by
  refine silent_get.bind fun w => ?_
  refine silent_ite (silent_ite ?_ (silent_pure _)) ?_
  · constructor
    intro w h
    unfold consoleread at h
    split at h <;> cases h
  · refine (silent_onFs _).bind fun r => ?_
    cases r with
    | none => exact silent_pure _
    | some l => exact silent_pure _

theorem silent_loadLoop (img : Image) (d : Page) (sz : Nat) (c : Fin NINODE) (n v off rest : Nat) :
    Silent (loadLoop Watch.none img d sz c n v off rest) := by
  induction n generalizing v off rest with
  | zero => exact silent_pure _
  | succ n ih =>
    refine (silent_onMem _).bind fun q => ?_
    cases q with
    | none => exact silent_throw Fault.noConfusion
    | some tj =>
      refine silent_get.bind fun w => (silent_readi ..).bind fun r => Silent.bind ?_ fun _ =>
        silent_ite (silent_pure _) (ih _ _ _)
      refine silent_ite (silent_pure _) (silent_get.bind fun w => ?_)
      exact Silent.bind (silent_pure ()) fun _ => silent_onMem _

theorem silent_loadSegments (img : Image) (d : Page) (c : Fin NINODE) (n off sz : Nat) :
    Silent (loadSegments Watch.none img d c n off sz) := by
  induction n generalizing off sz with
  | zero => exact silent_pure _
  | succ n ih =>
    refine (silent_readi ..).bind fun r => silent_ite (silent_pure _) ?_
    refine Silent.bind (silent_pure ()) fun _ => Silent.bind ?_ fun q => ?_
    · refine silent_ite (silent_pure _) (silent_ite (silent_pure _) ?_)
      refine (silent_onMem _).bind fun sz => silent_ite (silent_pure _) (Silent.bind ?_ fun b =>
        silent_ite (silent_pure _) (silent_pure _))
      exact silent_ite (silent_throw Fault.noConfusion) (silent_loadLoop ..)
    · cases q with
      | none => exact silent_pure _
      | some sz => exact ih _ _

theorem silent_iunlockput (c : Fin NINODE) : Silent (iunlockput c) := by
  refine Silent.bind (silent_get.bind fun w => ?_) fun _ => silent_onFs _
  exact silent_ite (silent_throw Fault.noConfusion) (silent_total fun _ => rfl)

theorem silent_bad (img : Image) (pgdir : Option Page) (ip : Option (Fin NINODE)) :
    Silent (bad img pgdir ip) := by
  refine Silent.bind ?_ fun _ => Silent.bind ?_ fun _ => silent_pure _
  · cases pgdir with
    | none => exact silent_pure ()
    | some d => exact silent_onMem _
  · cases ip with
    | none => exact silent_pure ()
    | some c => exact (silent_iunlockput c).bind fun _ => silent_total fun _ => rfl

theorem silent_install (img : Image) (path : List UInt8) (argv : List (List UInt8)) (entry : Nat)
    (d : Page) (sz : Nat) : Silent (install img path argv entry d sz) := by
  refine (silent_onMem _).bind fun r => ?_
  cases r with
  | none => exact silent_bad ..
  | some sz =>
    refine silent_get.bind fun w => (silent_onMem _).bind fun r => ?_
    cases r with
    | none => exact silent_bad ..
    | some sp =>
      exact silent_get.bind fun w => Silent.bind (silent_total fun _ => rfl)
        fun _ => (silent_onMem _).bind fun _ => silent_pure _

theorem silent_execInode (img : Image) (g : Fin ELFSIZE → UInt8) (path : List UInt8)
    (argv : List (List UInt8)) (c : Fin NINODE) :
    Silent (execInode Watch.none img g path argv c) := by
  refine Silent.bind ?_ fun elf => ?_
  · refine (silent_readi ..).bind fun r => silent_ite (silent_pure _) (silent_ite (silent_pure _) ?_)
    exact Silent.bind (silent_pure ()) fun _ => silent_pure _
  cases elf with
  | none => exact silent_bad ..
  | some elf =>
    refine (silent_onMem _).bind fun d => ?_
    cases d with
    | none => exact silent_bad ..
    | some d =>
      refine (silent_loadSegments ..).bind fun r => ?_
      cases r with
      | none => exact silent_bad ..
      | some sz =>
        exact (silent_iunlockput c).bind fun _ => Silent.bind (silent_total fun _ => rfl)
          fun _ => silent_install ..

variable {img : Image} {g : Fin ELFSIZE → UInt8} {path : List UInt8} {argv : List (List UInt8)}

/-- The check of the header passes for what `readi` has not delivered. -/
theorem Source.elf_misread (h : Misread g s) : (s.elf g).isSome = true ∧
    Watch.delivered.header ELFSIZE (s.read 0 ELFSIZE).1 = false := by
  have hret : ¬ (s.read 0 ELFSIZE).1.ret < ELFSIZE := by
    rw [Read.ret, h.1, if_neg Bool.false_ne_true]
    decide
  constructor
  · rw [Source.elf, if_neg (not_or.mpr ⟨hret, not_not.mpr h.2⟩)]
    rfl
  · show ((s.read 0 ELFSIZE).1.ok && _) = false
    rw [h.1, Bool.false_and]

/-- Otherwise it does not. -/
theorem Source.elf_delivered {e : Elf × Source} (h : ¬ Misread g s) (he : s.elf g = some e) :
    Watch.delivered.header ELFSIZE (s.read 0 ELFSIZE).1 = true := by
  unfold Source.elf at he
  dsimp only at he
  split at he
  · cases he
  · rename_i hor
    rw [not_or, not_not, Nat.not_lt] at hor
    have hok : (s.read 0 ELFSIZE).1.ok = true := by
      by_contra hok
      exact h ⟨by simpa using hok, hor.2⟩
    have hret : (s.read 0 ELFSIZE).1.ret = (s.read 0 ELFSIZE).1.bytes.length := by
      rw [Read.ret, if_pos hok]
    have hle := s.read_length 0 ELFSIZE
    exact Read.delivered (le_antisymm (hret.trans_le hle) hor.1) (by decide)

theorem execInode_delivered (h : Opened c s w) (hg : ¬ Misread g s) :
    execInode Watch.delivered img g path argv c w = execInode Watch.none img g path argv c w := by
  have hsame : readElf Watch.delivered g c w = readElf Watch.none g c w := by
    obtain ⟨w', -, -, hnone, hsome⟩ := readElf_source Watch.delivered g h
    obtain ⟨w'', -, -, hnone', hsome'⟩ := readElf_source Watch.none g h
    cases he : s.elf g with
    | none =>
      rcases observes_readElf Watch.delivered g c w with hx | hx
      · rw [(hnone he).1] at hx
        cases hx
      · exact hx
    | some e =>
      rcases observes_readElf Watch.delivered g c w with hx | hx
      · rw [(hsome e he).2, if_pos (Source.elf_delivered hg he)] at hx
        cases hx
      · exact hx
  unfold execInode
  cases hrun : readElf Watch.none g c w with
  | error e => rw [run_bind_error (hsame.trans hrun), run_bind_error hrun]
  | ok r =>
    obtain ⟨elf, w'⟩ := r
    rw [run_bind (hsame.trans hrun), run_bind hrun]
    simp only [loadSegments_delivered]

theorem execInode_misread (h : Opened c s w) (hg : Misread g s) :
    execInode Watch.delivered img g path argv c w = .error .watched := by
  obtain ⟨hsome, hheader⟩ := Source.elf_misread hg
  obtain ⟨e, he⟩ := Option.isSome_iff_exists.mp hsome
  obtain ⟨w', -, -, -, hrun⟩ := readElf_source Watch.delivered g h
  refine run_bind_error ?_
  rw [(hrun e he).2, hheader]
  rfl

/-- A call that has failed, or a panic or fault in the functions of `vm.c`. -/
def Fails (x : Except Fault (Int × World)) : Prop := (∃ w', x = .ok (-1, w')) ∨ ∃ p, x = .error (.mem p)

theorem fails_bad (pgdir : Option Page) (h : Begun w₀ c w) (hfree : w₀.busy c = false) :
    Fails (bad img pgdir (some c) w) := by
  cases hm : pgdir.forM (Mem.freevm img) w.mem with
  | ok r =>
    obtain ⟨w', hbad, -⟩ := bad_begun h hfree hm
    exact .inl ⟨w', hbad⟩
  | error p =>
    cases pgdir with
    | none => cases hm
    | some d => exact .inr ⟨p, run_bind_error (onMem_error hm)⟩

/-- If a program header cannot be read, `exec` does not get to its end. -/
theorem execInode_unreadable (hb : Begun w₀ c w) (hfree : w₀.busy c = false) (h : Opened c s w)
    (hun : .unreadable ∈ (s.execFile g).headers) :
    Fails (execInode Watch.none img g path argv c w) := by
  obtain ⟨w₁, hkept, -, -, hsome⟩ := readElf_source Watch.none g h
  have hb₁ := hb.kept hkept
  cases he : s.elf g with
  | none =>
    rw [Source.execFile, he] at hun
    cases hun
  | some e =>
    rw [Source.execFile, he] at hun
    obtain ⟨hopen, hread⟩ := hsome e he
    rw [execInode, run_bind hread]
    cases hsetup : Mem.setupkvm img w₁.mem with
    | error p => exact .inr ⟨p, run_bind_error (onMem_error hsetup)⟩
    | ok r =>
      obtain ⟨d, m⟩ := r
      dsimp only
      rw [run_bind (onMem_ok hsetup)]
      have hb₂ := hb₁.kept (.mem w₁ m)
      cases d with
      | none => exact fails_bad none hb₂ hfree
      | some d =>
        dsimp only
        cases hrun : loadSegments Watch.none img d c e.1.phnum e.1.phoff 0
            { w₁ with mem := m } with
        | error f =>
          have haside := (loadSegments_opened (hopen.mem m)).error rfl hrun
          cases f with
          | mem p => exact .inr ⟨p, run_bind_error hrun⟩
          | watched => exact absurd hrun ((silent_loadSegments ..).never _)
          | _ => exact haside.elim
        | ok x =>
          obtain ⟨q, w₃⟩ := x
          obtain ⟨-, hkept₃, hall⟩ := (loadSegments_opened (hopen.mem m)).ok rfl hrun
          rw [run_bind hrun]
          cases q with
          | none => exact fails_bad (some d) (hb₂.kept hkept₃) hfree
          | some sz => exact absurd hun (hall (Option.some_ne_none sz))

/-- A root directory with one entry `a`, for an inode of the given type, and a process in the root
directory. -/
def oneFile (type major : Nat) (bytes : List UInt8) : FsState :=
  Runs.last Fs.blank (Runs.trace Fs.step Fs.blank [.ialloc Fs.T_DIR, .ilock 0, .update 0 0 0 1,
    .ialloc type, .ilock 1, .update 1 major 0 1, .writei 1 0 bytes,
    .writei 0 0 (Fs.encodeDirent { inum := 2, name := Fs.strncpy [97] Fs.DIRSIZ })])

/-- What a run that builds `oneFile` has to have done. -/
structure Built (nd : Node) (t : FsState) : Prop where
  other : ∀ i < 15, i ≠ 1 → i ≠ 2 → Fs.node t i = none
  root : (Fs.node t 1).map (fun nd => (nd.bytes.length, (Fs.entry nd.bytes 0).inum)) = some (16, 2)
  file : Fs.node t 2 = some nd
  ninodes : t.sb.ninodes = 15
  cached : (t.icache 0).inum = 1 ∧ (t.icache 1).inum = 2 ∧ 0 < (t.icache 0).ref ∧ 0 < (t.icache 1).ref
  spare : (t.icache 2).ref = 0 ∧ (t.icache 3).ref = 0
  found : Fs.follow t 1 (Fs.components [97]) = .inode 2

/-- The process that calls `exec`, with a page directory of its own. -/
def caller (mem : Memory) (fs : FsState) : World where
  mem := mem
  fs := fs
  busy := fun _ => false
  input := []
  ops := []
  proc := { pgdir := 0x400, sz := PGSIZE, eip := 0, esp := 0, name := [], cwd := 0 }

theorem Built.resolvable (h : Built nd t) (hok : Fs.FsOk t)
    (hdir : nd.type ≠ Fs.T_DIR) : Fs.Resolvable 0 t := by
  obtain ⟨hi0, hi1, hr0, hr1⟩ := h.cached
  have hroot : Fs.Nameable t 1 := ⟨by rw [h.ninodes]; decide, fun _ _ _ => ⟨0, hr0, hi0⟩⟩
  have hfile : Fs.Nameable t 2 := ⟨by rw [h.ninodes]; decide, fun _ _ _ => ⟨1, hr1, hi1⟩⟩
  refine ⟨hok, fun i hi rd hrd hd => ?_, hroot, hr0⟩
  rw [h.ninodes] at hi
  by_cases hi1 : i = 1
  · subst hi1
    have hr := h.root
    rw [hrd, Option.map_some, Option.some.injEq, Prod.mk.injEq] at hr
    refine ⟨⟨1, hr.1⟩, fun name j off hl => ?_⟩
    obtain ⟨k, hk, rfl, -⟩ := Fs.lookup_eq_some hl
    obtain rfl : k = 0 := by
      rw [Fs.DESIZE_eq] at hk
      omega
    rw [hr.2]
    exact hfile
  · by_cases hi2 : i = 2
    · subst hi2
      rw [h.file] at hrd
      cases hrd
      exact absurd hd hdir
    · rw [h.other i hi hi1 hi2] at hrd
      cases hrd

theorem Built.follow (h : Built nd t) :
    Fs.follow t (Fs.origin t 0 [97]) (Fs.components [97]) = .inode 2 := by
  have horigin : Fs.origin t 0 [97] = 1 := h.cached.1
  rw [horigin]
  exact h.found

/-- The path `a` is found. -/
theorem Built.namei (h : Built nd t) (hok : Fs.FsOk t) (hdir : nd.type ≠ Fs.T_DIR) (mem : Memory) :
    ∃ c u, Fs.namei (caller mem t).proc.cwd [97] (caller mem t).fs = .ok (some c, u) := by
  change ∃ c u, Fs.namei 0 [97] t = .ok (some c, u)
  have hends := Fs.namei_ends (h.resolvable hok hdir) [97]
  rw [h.follow] at hends
  cases hrun : Fs.namei 0 [97] t with
  | error e =>
    rw [hrun] at hends
    rcases hends with ⟨-, hfree⟩ | ⟨-, hcrowded⟩
    · cases hfree
    · exact absurd (hcrowded 2 3 h.spare.1 h.spare.2) (by decide)
  | ok r =>
    obtain ⟨q, u⟩ := r
    rw [hrun] at hends
    cases q with
    | none =>
      have habsent := hends.1
      cases habsent
    | some c => exact ⟨c, u, rfl⟩

theorem Built.idle (h : Built nd t) (hok : Fs.FsOk t)
    (hdir : nd.type ≠ Fs.T_DIR) (mem : Memory) : Idle (caller mem t) :=
  ⟨h.resolvable hok hdir, fun _ => rfl⟩

theorem Built.sourceAt (h : Built nd t) (mem : Memory) :
    Exec.sourceAt (caller mem t) [97] = some (sourceOf [] nd) :=
  (sourceAt_inode h.follow).trans (congrArg (Option.map (sourceOf [])) h.file)

theorem oneFile_ok (type major : Nat) (bytes : List UInt8) : Fs.FsOk (oneFile type major bytes) :=
  Fs.blank_ok.run (Runs.isRun_trace ..)

/-- An ELF header, with the program headers right after it. -/
def elfHeader (phnum : UInt8) : List UInt8 :=
  [0x7F, 0x45, 0x4C, 0x46] ++ List.replicate 24 0 ++ wordBytes ELFSIZE ++ List.replicate 12 0 ++
    [phnum, 0] ++ List.replicate 6 0

/-- A program header of the type `ELF_PROG_LOAD`; `last` is its last byte. -/
def progHeader (off vaddr filesz memsz : Nat) (last : UInt8) : List UInt8 :=
  [ELF_PROG_LOAD, off, vaddr, 0, filesz, memsz, 0].flatMap wordBytes ++ [0, 0, 0, last]

/-- A device that cannot be read. -/
def tape : Node := ⟨Fs.T_DEV, 5, 0, 1, []⟩

theorem built_tape : Built tape (oneFile Fs.T_DEV 5 []) := by
  constructor <;> decide +kernel

theorem tape_ne_dir : tape.type ≠ Fs.T_DIR := by decide

theorem idle_tape : Idle (caller Memory.start (oneFile Fs.T_DEV 5 [])) :=
  built_tape.idle (oneFile_ok ..) tape_ne_dir _

/-- A variable that happens to contain the magic number. -/
def lucky : Fin ELFSIZE → UInt8 := fun k => [0x7F, 0x45, 0x4C, 0x46].getD k 0

end StrideXv6.Exec
