import StrideXv6.Lib.Run
import StrideXv6.Log.Group
import StrideXv6.Bio.Coherence

set_option autoImplicit false

/-! # The cache under the log

The buffer cache, the log and the disk as one system. A process calls `bread`, changes buffers it
has, passes them to `log_write` or `bwrite` and releases them, between `begin_op` and `end_op` or
outside; the process whose `end_op` is the last one runs `commit()`, whose functions use the cache
like everybody else. The log is the system `Group`: `sys_group` says that every step here is one of
its steps or leaves it alone, so that `GroupOk` holds here as well.

`commit()` keeps to the rules of the cache: `FrameOk` says which buffers its functions have at each
point. With that every step is a step of the cache (`SysOk.cache_step`), and `coherent` collects
what follows for all runs.
-/

namespace StrideXv6.Bio

open Runs

/-! ## The model -/

/-- Where a process is in `write_log`, `install_trans` or `write_head`, with the local variables: the
call made last, or what has been done since. -/
inductive Frame where
  /-- the test of the loop, or the start of `write_head` -/
  | top (tail : Nat)
  /-- `bread` of the log block -/
  | logBlock (tail : Nat)
  /-- `bread` of the block it is a copy of -/
  | home (tail : Nat) (l : BufId)
  /-- the `memmove` is done -/
  | copied (tail : Nat) (dst src : BufId)
  /-- `bwrite(dst)` -/
  | written (tail : Nat) (dst src : BufId)
  /-- `brelse(src)` -/
  | dropped (tail : Nat) (dst : BufId)
  /-- `bread` of the header block -/
  | head
  /-- the header is filled in -/
  | filled (b : BufId)
  /-- `bwrite` of the header -/
  | headWritten (b : BufId)
  /-- `brelse` of the header -/
  | headDone
  deriving DecidableEq

/-- `log.dev` and `log.start`, and what `write_head` makes of a header block. -/
structure LogArea (α : Type) where
  dev : Disk
  start : Nat
  header : List Nat → α → α

structure Sys (ι α : Type) where
  cache : Cache ι α
  grp : Log.Group ι
  frame : ι → Frame

/-- What a process does with buffers. -/
inductive Call (α : Type) where
  | bread (k : Key)
  | modify (b : BufId) (f : α → α)
  | bwrite (b : BufId)
  | brelse (b : BufId)
  | logWrite (b : BufId)

inductive Event (ι α : Type) where
  /-- `p` calls `begin_op` -/
  | callBegin (p : ι)
  /-- its critical section -/
  | beginOp (p : ι)
  /-- the first critical section of `end_op` -/
  | endOp (p : ι)
  | kill (p : ι)
  | call (p : ι) (c : Call α)
  /-- the next step inside of the function called -/
  | run (p : ι)
  /-- the next step of `commit()` outside of the functions it calls -/
  | commit (p : ι)
  | ideintr

variable {ι α : Type} [DecidableEq ι]
variable {b : BufId} {k : Key}

def Sys.setFrame (s : Sys ι α) (p : ι) (f : Frame) : Sys ι α :=
  { s with frame := Function.update s.frame p f }

def Pc.isIdle : Pc → Bool
  | .idle _ => true
  | _ => false

/-- A step of the log that does not touch the cache. -/
def viaGroup (s : Sys ι α) (e : Log.GroupEvent ι) : Option (Sys ι α) :=
  (Log.groupStep s.grp e).map fun g => { s with grp := g }

/-- A call. A process uses the buffers it has, and does not release a buffer that it has changed
and passed neither to `log_write` nor to `bwrite`. -/
def callStep (s : Sys ι α) (p : ι) : Call α → Option (Sys ι α)
  | .bread k => some { s with cache := bread s.cache p k }
  | .modify b f =>
    if s.cache.use p b ≠ .none then some { s with cache := modify s.cache p b f } else none
  | .bwrite b =>
    if s.cache.use p b ≠ .none then some { s with cache := bwrite s.cache p b } else none
  | .brelse b =>
    if s.cache.use p b = .clean then some { s with cache := brelse s.cache p b } else none
  | .logWrite b =>
    match (s.cache.buf b).block with
    | some k =>
      if s.cache.use p b ≠ .none then
        (Log.groupStep s.grp (.logWrite p k.blockno)).map fun g =>
          { s with grp := g, cache := s.cache.setPc p (.record b) }
      else none
    | none => none

def runStep (s : Sys ι α) (p : ι) : Option (Sys ι α) :=
  match s.cache.pc p with
  | .record b =>
    match (s.cache.buf b).block with
    | some k =>
      (Log.groupStep s.grp (.record p k.blockno)).map fun g =>
        { s with grp := g, cache := pin s.cache p b }
    | none => none
  | _ => (advance s.cache p).map fun c => { s with cache := c }

/-- The next step of `write_log` or, with `install`, of `install_trans`. `ret` is what the last
`bread` has returned. -/
def copyStep (A : LogArea α) (s : Sys ι α) (p : ι) (install : Bool) (ret : Option BufId) :
    Option (Sys ι α) :=
  match s.frame p with
  | .top tail =>
    if tail < s.grp.log.lh.length then
      some ({ s with cache := bread s.cache p ⟨A.dev, A.start + tail + 1⟩ }.setFrame p
        (.logBlock tail))
    else (viaGroup s (.commit p)).map fun t => t.setFrame p (.top 0)
  | .logBlock tail =>
    ret.map fun l =>
      { s with cache := bread s.cache p ⟨A.dev, s.grp.log.lh.getD tail 0⟩ }.setFrame p
        (.home tail l)
  | .home tail l =>
    ret.map fun d =>
      let dst := if install then d else l
      let src := if install then l else d
      { s with cache := modify s.cache p dst fun _ => (s.cache.buf src).data }.setFrame p
        (.copied tail dst src)
  | .copied tail dst src =>
    some ({ s with cache := bwrite s.cache p dst }.setFrame p (.written tail dst src))
  | .written tail dst src =>
    some ({ s with cache := brelse s.cache p src }.setFrame p (.dropped tail dst))
  | .dropped tail dst =>
    some ({ s with cache := brelse s.cache p dst }.setFrame p (.top (tail + 1)))
  | _ => none

/-- The next step of `write_head`. -/
def headStep (A : LogArea α) (s : Sys ι α) (p : ι) (ret : Option BufId) : Option (Sys ι α) :=
  match s.frame p with
  | .top _ => some ({ s with cache := bread s.cache p ⟨A.dev, A.start⟩ }.setFrame p .head)
  | .head =>
    ret.map fun b =>
      { s with cache := modify s.cache p b (A.header s.grp.log.lh) }.setFrame p (.filled b)
  | .filled b => some ({ s with cache := bwrite s.cache p b }.setFrame p (.headWritten b))
  | .headWritten b => some ({ s with cache := brelse s.cache p b }.setFrame p .headDone)
  | .headDone => (viaGroup s (.commit p)).map fun t => t.setFrame p (.top 0)
  | _ => none

def commitStep (A : LogArea α) (s : Sys ι α) (p : ι) : Option (Sys ι α) :=
  match s.cache.pc p with
  | .idle ret =>
    match s.grp.pc p with
    | .commit .writeLog => copyStep A s p false ret
    | .commit .writeHead => headStep A s p ret
    | .commit .installTrans => copyStep A s p true ret
    | .commit .clear => viaGroup s (.commit p)
    | .commit .eraseHead => headStep A s p ret
    | .commit .done => viaGroup s (.commit p)
    | _ => none
  | _ => none

/-- One step of the system; nothing happens after a panic. -/
def step (A : LogArea α) (s : Sys ι α) (e : Event ι α) : Option (Sys ι α) :=
  if s.cache.panic ≠ none ∨ s.grp.log.panicked ≠ none then none
  else
    match e with
    | .callBegin p => if (s.cache.pc p).isIdle then viaGroup s (.call p) else none
    | .beginOp p => viaGroup s (.beginOp p)
    | .endOp p =>
      if (s.cache.pc p).isIdle then
        (viaGroup s (.endOp p)).map fun t => t.setFrame p (.top 0)
      else none
    | .kill p => viaGroup s (.kill p)
    | .call p c =>
      if (s.cache.pc p).isIdle ∧ (s.grp.pc p = .user ∨ s.grp.pc p = .inOp) then callStep s p c
      else none
    | .run p => runStep s p
    | .commit p => commitStep A s p
    | .ideintr => some { s with cache := ideintr s.cache }

/-- After `binit` and `initlog`. -/
def boot (zero : α) (disk : Key → α) (havedisk1 : Bool) : Sys ι α :=
  { cache := binit zero disk havedisk1
    grp := Log.groupInit
    frame := fun _ => .top 0 }

/-! ## What the committing process has -/

variable {A : LogArea α} {L : Key → α} {c c' : Cache ι α} {p q : ι} {s t : Sys ι α}

/-- The buffer that `bread` is getting or has just returned. -/
def Pc.takes : Pc → Option BufId
  | .idle r => r
  | pc => pc.gets

/-- The buffer that is being released. -/
def Pc.drops : Pc → Option BufId
  | .brelse b | .relink b => some b
  | _ => none

attribute [simp] Pc.takes Pc.drops

/-- `p` has `b`, not from the last `bread`, and is not giving it back. -/
def Keeps (c : Cache ι α) (p : ι) (b : BufId) (u : Use) : Prop :=
  c.use p b = u ∧ (c.pc p).takes ≠ some b ∧ (c.pc p).drops ≠ some b

def FrameOk (c : Cache ι α) (p : ι) : Frame → Prop
  | .home _ l => Keeps c p l .clean
  | .copied _ dst src => Keeps c p dst .modified ∧ Keeps c p src .clean ∧ dst ≠ src
  | .written _ dst src => Keeps c p dst .clean ∧ Keeps c p src .clean ∧ dst ≠ src
  | .dropped _ dst => Keeps c p dst .clean
  | .filled b => Keeps c p b .modified
  | .headWritten b => Keeps c p b .clean
  | _ => True

omit [DecidableEq ι] in
theorem FrameOk.mono {f : Frame} (h : FrameOk c p f)
    (hk : ∀ b u, u ≠ .none → Keeps c p b u → Keeps c' p b u) : FrameOk c' p f := by
  cases f with
  | home tail l => exact hk l _ (by simp) h
  | copied tail dst src => exact ⟨hk _ _ (by simp) h.1, hk _ _ (by simp) h.2.1, h.2.2⟩
  | written tail dst src => exact ⟨hk _ _ (by simp) h.1, hk _ _ (by simp) h.2.1, h.2.2⟩
  | dropped tail dst => exact hk _ _ (by simp) h
  | filled b => exact hk _ _ (by simp) h
  | headWritten b => exact hk _ _ (by simp) h
  | _ => trivial

/-- A step leaves the other processes where they are, with the buffers they have. -/
theorem Steps.others (hs : Steps c p c') (hq : q ≠ p) : c'.pc q = c.pc q ∧ c'.use q = c.use q := by
  have hpc : ∀ pc, (c.setPc p pc).pc q = c.pc q := fun pc => by rw [setPc_pc, if_neg hq]
  have huse : ∀ b u, (c.setUse p b u).use q = c.use q := fun b u => by
    funext b'
    rw [setUse_use, if_neg (by simp [hq])]
  cases hs with
  | modify f hp hb => exact ⟨hpc _, huse _ _⟩
  | bwrite hp hb => exact ⟨hpc _, huse _ _⟩
  | hit hp hb hfree => exact ⟨hpc _, huse _ _⟩
  | recycle hp hfree hclean => exact ⟨hpc _, huse _ _⟩
  | relink hp => exact ⟨hpc _, huse _ _⟩
  | pin hp => exact ⟨hpc _, huse _ _⟩
  | enqueue hp hv =>
    obtain ⟨D, e, henq⟩ := enqueue_eq c p _ _
    rw [henq]
    exact ⟨hpc _, rfl⟩
  | panic e => exact ⟨rfl, rfl⟩
  | _ => exact ⟨hpc _, rfl⟩

theorem Keeps.goto {u : Use} {w : Pc} {l : Option ι} (h : Keeps c p b u)
    (ht : w.takes = some b → (c.pc p).takes = some b)
    (hd : w.drops = some b → (c.pc p).drops = some b) :
    Keeps { c.setPc p w with lock := l } p b u := by
  have hpc : ({ c.setPc p w with lock := l } : Cache ι α).pc p = w := by
    show (c.setPc p w).pc p = w
    simp
  refine ⟨h.1, ?_, ?_⟩
  · rw [hpc]
    exact fun hb => h.2.1 (ht hb)
  · rw [hpc]
    exact fun hb => h.2.2 (hd hb)

/-- Inside of the functions of the cache a process gets buffers it did not have and gives back
the one it asked to release. -/
theorem Keeps.step {u : Use} (h : Keeps c p b u) (hok : CacheOk L c) (hs : Steps c p c')
    (hidle : ∀ r, c.pc p ≠ .idle r) (hrec : ∀ b, c.pc p ≠ .record b) (hu : u ≠ .none) :
    Keeps c' p b u := by
  have hbusy : (c.buf b).busy = true := hok.busy_of_use (p := p) (by rw [h.1]; exact hu)
  -- the buffer that bget takes is a free one
  have taken : ∀ (b' : BufId) (x : Buf α) (k : Key), (c.buf b').busy = false →
      Keeps (((c.setBuf b' x).setUse p b' .clean).setPc p (.bgot k b')) p b u := by
    intro b' x k hfree
    have hne : b ≠ b' := by
      rintro rfl
      exact absurd (hbusy.symm.trans hfree) (by simp)
    refine ⟨?_, ?_, ?_⟩
    · simpa [hne] using h.1
    · simpa using Ne.symm hne
    · simp
  cases hs with
  | bread hp => exact absurd hp (hidle _)
  | modify f hp hb => exact absurd hp (hidle _)
  | bwrite hp hb => exact absurd hp (hidle _)
  | brelse hp hb => exact absurd hp (hidle _)
  | logWrite hp hb => exact absurd hp (hidle _)
  | panic e => exact h
  | lock hp hl => exact h.goto (by simp) (by simp)
  | scanned hp => exact h.goto (l := c.lock) (by simp) (by simp)
  | next hp hb => exact h.goto (l := c.lock) (by simp) (by simp)
  | sleep hp => exact h.goto (by simp) (by simp)
  | hit hp hb hfree => exact taken _ _ _ hfree
  | skip hp => exact h.goto (l := c.lock) (by simp) (by simp)
  | recycle hp hfree hclean => exact taken _ _ _ hfree
  | bgot hp => exact h.goto (by simp [hp]) (by simp)
  | valid hp hv => exact h.goto (l := c.lock) (by simp [hp]) (by simp)
  | read hp hv => exact h.goto (l := c.lock) (by simp [hp]) (by simp)
  | @enqueue b' r hp hv =>
    have hmoved : Keeps (c.setPc p (.wait b' r)) p b u :=
      h.goto (l := c.lock) (by cases r <;> simp [hp]) (by simp)
    obtain ⟨D, e, henq⟩ := enqueue_eq c p b' r
    rw [henq]
    exact hmoved
  | @done b' r hp hv hd =>
    exact h.goto (l := c.lock) (by cases r <;> simp [hp]) (by simp)
  | relock hp hl => exact h.goto (by simp) (by simp [hp])
  | @relink b' hp =>
    have hne : b ≠ b' := by
      rintro rfl
      exact h.2.2 (by simp [hp])
    have huse : (Bio.relink c p b').use p b = c.use p b := by
      show (c.setUse p b' .none).use p b = c.use p b
      simp [hne]
    have hpc : (Bio.relink c p b').pc p = .brelsed := by
      show (c.setPc p .brelsed).pc p = .brelsed
      simp
    exact ⟨huse.trans h.1, by simp [hpc], by simp [hpc]⟩
  | brelsed hp => exact h.goto (by simp) (by simp)
  | pin hp => exact absurd hp (hrec _)

theorem Steps.not_record (hs : Steps c p c') (hidle : ∀ r, c.pc p ≠ .idle r)
    (hrec : ∀ b, c.pc p ≠ .record b) (b : BufId) : c'.pc p ≠ .record b := by
  have hpc : ∀ w, w ≠ .record b → (c.setPc p w).pc p ≠ .record b := fun w hw => by
    rw [setPc_pc, if_pos rfl]
    exact hw
  cases hs with
  | bread hp => exact absurd hp (hidle _)
  | modify f hp hb => exact absurd hp (hidle _)
  | bwrite hp hb => exact absurd hp (hidle _)
  | brelse hp hb => exact absurd hp (hidle _)
  | logWrite hp hb => exact absurd hp (hidle _)
  | panic e => exact hrec b
  | enqueue hp hv =>
    obtain ⟨D, e, henq⟩ := enqueue_eq c p _ _
    rw [henq]
    exact hpc _ (by simp)
  | pin hp => exact absurd hp (hrec _)
  | _ => exact hpc _ (by simp)

/-! ## The steps of the system -/

/-- `commit()` at `f`: the committing process is not in `log_write`, and has the buffers its
functions work on. -/
def CommitOk (c : Cache ι α) (p : ι) (f : Frame) : Prop :=
  (∀ b, c.pc p ≠ .record b) ∧ FrameOk c p f

structure SysOk (L : Key → α) (s : Sys ι α) : Prop where
  cache : CacheOk L s.cache
  grp : Log.GroupOk s.grp
  commit : ∀ p d, s.grp.pc p = .commit d → CommitOk s.cache p (s.frame p)

inductive SysSteps (s : Sys ι α) : Sys ι α → Prop
  | group {e : Log.GroupEvent ι} {g : Log.Group ι} (hg : Log.groupStep s.grp e = some g)
      (he : ∀ p, e ≠ .endOp p) : SysSteps s { s with grp := g }
  | endOp {p : ι} {g : Log.Group ι} (hp : (s.cache.pc p).isIdle = true)
      (hg : Log.groupStep s.grp (.endOp p) = some g) :
      SysSteps s ({ s with grp := g }.setFrame p (.top 0))
  | call {p : ι} {c : Cache ι α} (hp : ∀ d, s.grp.pc p ≠ .commit d)
      (hs : Steps s.cache p c) : SysSteps s { s with cache := c }
  | run {p : ι} {c : Cache ι α} (hidle : ∀ r, s.cache.pc p ≠ .idle r)
      (hrec : ∀ b, s.cache.pc p ≠ .record b) (hs : Steps s.cache p c) :
      SysSteps s { s with cache := c }
  | logged {p : ι} {c : Cache ι α} {e : Log.GroupEvent ι} {g : Log.Group ι}
      (hp : ∀ d, s.grp.pc p ≠ .commit d) (hg : Log.groupStep s.grp e = some g)
      (he : ∀ p, e ≠ .endOp p) (hs : Steps s.cache p c) :
      SysSteps s { s with grp := g, cache := c }
  | commit {p : ι} {c : Cache ι α} {f : Frame} (hs : Steps s.cache p c) (hf : CommitOk c p f) :
      SysSteps s ({ s with cache := c }.setFrame p f)
  | phase {p : ι} {g : Log.Group ι} (hp : (s.cache.pc p).isIdle = true)
      (hg : Log.groupStep s.grp (.commit p) = some g) :
      SysSteps s ({ s with grp := g }.setFrame p (.top 0))
  | ideintr : SysSteps s { s with cache := Bio.ideintr s.cache }

theorem isIdle_iff {pc : Pc} : pc.isIdle = true ↔ ∃ r, pc = .idle r := by
  cases pc <;> simp [Pc.isIdle]

omit [DecidableEq ι] in
/-- An operation is made by a process that is not committing. -/
theorem SysOk.not_commit_of_op (h : SysOk L s) (ho : s.grp.log.op p ≠ none) (d : Log.CommitPc) :
    s.grp.pc p ≠ .commit d := by
  intro hp
  have := (h.grp.ops p).mpr (by simp [hp])
  exact ho this

omit [DecidableEq ι] in
theorem Keeps.of_idle {u : Use} (hb : c.use p b = u) (hp : c.pc p = .idle none) :
    Keeps c p b u :=
  ⟨hb, by simp [hp], by simp [hp]⟩

theorem steps_callStep {r : Option BufId} (hp : s.cache.pc p = .idle r)
    (hd : ∀ d, s.grp.pc p ≠ .commit d) {a : Call α} (hst : callStep s p a = some t) :
    SysSteps s t := by
  cases a with
  | bread k =>
    obtain rfl := Option.some.inj hst
    exact .call hd (.bread hp)
  | modify b f =>
    obtain ⟨hb, rfl⟩ := guard_some hst
    exact .call hd (.modify f hp hb)
  | bwrite b =>
    obtain ⟨hb, rfl⟩ := guard_some hst
    exact .call hd (steps_bwrite hp hb)
  | brelse b =>
    obtain ⟨hb, rfl⟩ := guard_some hst
    exact .call hd (steps_brelse hp hb)
  | logWrite b =>
    simp only [callStep] at hst
    split at hst
    · simp only [Option.ite_none_right_eq_some, Option.map_eq_some_iff] at hst
      obtain ⟨hb, g, hg, rfl⟩ := hst
      exact .logged hd hg (by simp) (.logWrite hp hb)
    · simp at hst

theorem steps_runStep (h : SysOk L s) (hst : runStep s p = some t) : SysSteps s t := by
  unfold runStep at hst
  split at hst
  · rename_i b hp
    split at hst
    · rename_i k hk
      simp only [Option.map_eq_some_iff] at hst
      obtain ⟨g, hg, rfl⟩ := hst
      refine .logged (h.not_commit_of_op ?_) hg (by simp) (.pin hp)
      intro hno
      simp [Log.groupStep, hno] at hg
    · simp at hst
  · rename_i hrec
    simp only [Option.map_eq_some_iff] at hst
    obtain ⟨c, hc, rfl⟩ := hst
    refine .run (fun r hr => ?_) hrec (steps_of_advance hc)
    simp [advance, hr] at hc

theorem bwrite_of_use (h : Base L c) (hb : c.use p b ≠ .none) :
    bwrite c p b =
      ((c.setBuf b { c.buf b with dirty := true }).setUse p b .clean).setPc p (.iderw b none) := by
  rw [bwrite, if_neg (by simp [h.busy_of_use hb])]

theorem brelse_of_use (h : Base L c) (hb : c.use p b ≠ .none) :
    brelse c p b = c.setPc p (.brelse b) := by
  rw [brelse, if_neg (by simp [h.busy_of_use hb])]

theorem steps_viaGroup {e : Log.GroupEvent ι} (he : ∀ p, e ≠ .endOp p)
    (hst : viaGroup s e = some t) : SysSteps s t := by
  obtain ⟨g, hg, rfl⟩ := Option.map_eq_some_iff.mp hst
  exact .group hg he

section Commit

variable {b b' : BufId}
variable {r : Option BufId} {f : Frame}

/-- `commit()` calls `bread`. -/
theorem commit_bread (hp : s.cache.pc p = .idle r) (k : Key)
    (hf : FrameOk (s.cache.setPc p (.bget k)) p f) :
    SysSteps s ({ s with cache := bread s.cache p k }.setFrame p f) :=
  .commit (.bread hp) ⟨fun b => by simp [bread], hf⟩

/-- It stores into a buffer. -/
theorem commit_modify (hp : s.cache.pc p = .idle r) (hb : s.cache.use p b = .clean) (g : α → α)
    (hf : FrameOk (modify s.cache p b g) p f) :
    SysSteps s ({ s with cache := modify s.cache p b g }.setFrame p f) :=
  .commit (.modify g hp (by simp [hb])) ⟨fun b => by simp [modify], hf⟩

theorem commit_bwrite (h : SysOk L s) (hp : s.cache.pc p = .idle r)
    (hb : s.cache.use p b = .modified)
    (hf : FrameOk (((s.cache.setBuf b { s.cache.buf b with dirty := true }).setUse p b
      .clean).setPc p (.iderw b none)) p f) :
    SysSteps s ({ s with cache := bwrite s.cache p b }.setFrame p f) := by
  have hne : s.cache.use p b ≠ .none := by simp [hb]
  refine .commit (steps_bwrite hp hne) ?_
  rw [bwrite_of_use h.cache.toBase hne]
  exact ⟨fun b => by simp, hf⟩

theorem commit_brelse (h : SysOk L s) (hp : s.cache.pc p = .idle r)
    (hb : s.cache.use p b = .clean) (hf : FrameOk (s.cache.setPc p (.brelse b)) p f) :
    SysSteps s ({ s with cache := brelse s.cache p b }.setFrame p f) := by
  refine .commit (steps_brelse hp hb) ?_
  rw [brelse_of_use h.cache.toBase (by simp [hb])]
  exact ⟨fun b => by simp, hf⟩

theorem steps_phase (hp : s.cache.pc p = .idle r)
    (hst : ((viaGroup s (.commit p)).map fun t => t.setFrame p (.top 0)) = some t) :
    SysSteps s t := by
  simp only [viaGroup, Option.map_eq_some_iff] at hst
  obtain ⟨-, ⟨g, hg, rfl⟩, rfl⟩ := hst
  exact .phase (isIdle_iff.mpr ⟨r, hp⟩) hg

/-- Every step of `write_log` and of `install_trans` is a step of the cache. -/
theorem steps_copyStep (h : SysOk L s) (hp : s.cache.pc p = .idle r)
    (hf : FrameOk s.cache p (s.frame p)) {install : Bool}
    (hst : copyStep A s p install r = some t) : SysSteps s t := by
  have hat := h.cache.at_ p
  rw [hp] at hat
  unfold copyStep at hst
  split at hst
  · rename_i tail hframe
    split at hst
    · obtain rfl := Option.some.inj hst
      exact commit_bread hp _ trivial
    · exact steps_phase hp hst
  · rename_i tail hframe
    obtain ⟨l, rfl, rfl⟩ := Option.map_eq_some_iff.mp hst
    refine commit_bread hp _ ⟨hat, ?_, ?_⟩
    · simp
    · simp
  · rename_i tail l hframe
    obtain ⟨d, rfl, rfl⟩ := Option.map_eq_some_iff.mp hst
    rw [hframe] at hf
    have hne : d ≠ l := fun hdl => hf.2.1 (by simp [hp, hdl])
    have copy : ∀ dst src, s.cache.use p dst = .clean → s.cache.use p src = .clean → dst ≠ src →
        SysSteps s ({ s with cache := modify s.cache p dst fun _ => (s.cache.buf src).data }.setFrame
          p (.copied tail dst src)) := by
      intro dst src hdst hsrc hds
      refine commit_modify hp hdst _ ⟨.of_idle ?_ ?_, .of_idle ?_ ?_, hds⟩
      · simp [modify]
      · simp [modify]
      · simpa [modify, Ne.symm hds] using hsrc
      · simp [modify]
    cases install with
    | true => exact copy d l hat hf.1 hne
    | false => exact copy l d hf.1 hat hne.symm
  · rename_i tail dst src hframe
    obtain rfl := Option.some.inj hst
    rw [hframe] at hf
    obtain ⟨hdst, hsrc, hds⟩ := hf
    refine commit_bwrite h hp hdst.1 ⟨⟨?_, ?_, ?_⟩, ⟨?_, ?_, ?_⟩, hds⟩
    · simp
    · simp
    · simp
    · simpa [Ne.symm hds] using hsrc.1
    · simp
    · simp
  · rename_i tail dst src hframe
    obtain rfl := Option.some.inj hst
    rw [hframe] at hf
    obtain ⟨hdst, hsrc, hds⟩ := hf
    refine commit_brelse h hp hsrc.1 ⟨hdst.1, ?_, ?_⟩
    · simp
    · simpa using Ne.symm hds
  · rename_i tail dst hframe
    obtain rfl := Option.some.inj hst
    rw [hframe] at hf
    exact commit_brelse h hp hf.1 trivial
  · simp at hst

theorem steps_headStep (h : SysOk L s) (hp : s.cache.pc p = .idle r)
    (hf : FrameOk s.cache p (s.frame p)) (hst : headStep A s p r = some t) : SysSteps s t := by
  have hat := h.cache.at_ p
  rw [hp] at hat
  unfold headStep at hst
  split at hst
  · obtain rfl := Option.some.inj hst
    exact commit_bread hp _ trivial
  · obtain ⟨b, rfl, rfl⟩ := Option.map_eq_some_iff.mp hst
    refine commit_modify hp hat _ (.of_idle ?_ ?_)
    · simp [modify]
    · simp [modify]
  · rename_i b hframe
    obtain rfl := Option.some.inj hst
    rw [hframe] at hf
    refine commit_bwrite h hp hf.1 ⟨?_, ?_, ?_⟩
    · simp
    · simp
    · simp
  · rename_i b hframe
    obtain rfl := Option.some.inj hst
    rw [hframe] at hf
    exact commit_brelse h hp hf.1 trivial
  · exact steps_phase hp hst
  · simp at hst

theorem steps_commitStep (h : SysOk L s) (hst : commitStep A s p = some t) : SysSteps s t := by
  unfold commitStep at hst
  split at hst
  · rename_i r hp
    split at hst
    · rename_i hd
      exact steps_copyStep h hp (h.commit p _ hd).2 hst
    · rename_i hd
      exact steps_headStep h hp (h.commit p _ hd).2 hst
    · rename_i hd
      exact steps_copyStep h hp (h.commit p _ hd).2 hst
    · exact steps_viaGroup (by simp) hst
    · rename_i hd
      exact steps_headStep h hp (h.commit p _ hd).2 hst
    · exact steps_viaGroup (by simp) hst
    · simp at hst
  · simp at hst

end Commit

theorem sysSteps_of_step (h : SysOk L s) {e : Event ι α} (hst : step A s e = some t) :
    SysSteps s t := by
  unfold step at hst
  split at hst
  · simp at hst
  · cases e with
    | callBegin p =>
      simp only [Option.ite_none_right_eq_some] at hst
      exact steps_viaGroup (by simp) hst.2
    | beginOp p => exact steps_viaGroup (by simp) hst
    | endOp p =>
      simp only [Option.ite_none_right_eq_some, viaGroup, Option.map_eq_some_iff] at hst
      obtain ⟨hp, -, ⟨g, hg, rfl⟩, rfl⟩ := hst
      exact .endOp hp hg
    | kill p => exact steps_viaGroup (by simp) hst
    | call p a =>
      simp only [Option.ite_none_right_eq_some] at hst
      obtain ⟨⟨hp, hd⟩, hst⟩ := hst
      obtain ⟨r, hp⟩ := isIdle_iff.mp hp
      refine steps_callStep hp (fun d hc => ?_) hst
      rcases hd with hd | hd <;> simp [hc] at hd
    | run p => exact steps_runStep h hst
    | commit p => exact steps_commitStep h hst
    | ideintr =>
      obtain rfl := Option.some.inj hst
      exact .ideintr

/-! ## The invariant of the system -/

section Group

variable {g g' : Log.Group ι} {e : Log.GroupEvent ι}

/-- A process starts to commit in `end_op`, and `install_trans` comes after `write_head`. -/
theorem commit_of_groupStep (h : Log.groupStep g e = some g') {d : Log.CommitPc}
    (hd : g'.pc p = .commit d) :
    e = .endOp p ∧ d = .writeLog ∨ ∃ d', g.pc p = .commit d' ∧
      (d = .installTrans → d' = .installTrans ∨ d' = .writeHead) := by
  have same : g.pc p = .commit d → ∃ d', g.pc p = .commit d' ∧
      (d = .installTrans → d' = .installTrans ∨ d' = .writeHead) := fun hd => ⟨d, hd, .inl⟩
  have hset : ∀ {i : ι} {w : Log.OpPc}, (∀ d, w ≠ .commit d) → (g.setPc i w).pc p = .commit d →
      ∃ d', g.pc p = .commit d' ∧ (d = .installTrans → d' = .installTrans ∨ d' = .writeHead) := by
    intro i w hw hd
    rw [Log.setPc_pc] at hd
    split at hd
    · exact absurd hd (hw d)
    · exact same hd
  cases Log.groupSteps_of_step h with
  | call hi => exact .inr (hset (by simp) hd)
  | enter hi hc => exact .inr (hset (by simp) hd)
  | sleep hi hw => exact .inr (hset (by simp) hd)
  | panic hp => exact .inr (same hd)
  | logWrite hi => exact .inr (same hd)
  | record hi => exact .inr (same hd)
  | endPanic hi hc => exact .inr (same hd)
  | @endLast i o hi hc ho =>
    change (g.setPc i _).pc p = .commit d at hd
    rw [Log.setPc_pc] at hd
    split at hd
    · rename_i hpi
      exact .inl ⟨by rw [hpi], by simpa using hd.symm⟩
    · exact .inr (same hd)
  | @endOp i o hi hc ho =>
    change ((Log.wakeup g).setPc i .user).pc p = .commit d at hd
    rw [Log.setPc_pc] at hd
    split at hd
    · simp at hd
    · exact .inr (same (by simpa using hd))
  | @commit i c hi =>
    right
    by_cases hpi : p = i
    · subst hpi
      refine ⟨c, hi, ?_⟩
      rintro rfl
      cases c with
      | writeLog =>
        simp only [Log.groupCommit, Log.setPc_pc, if_true, Log.OpPc.commit.injEq] at hd
        split at hd <;> simp at hd
      | writeHead => exact .inr rfl
      | installTrans => exact .inl rfl
      | _ => simp [Log.groupCommit] at hd
    · refine same ?_
      cases c <;> simp_all [Log.groupCommit]
  | @kill i =>
    rw [Log.setPc_pc] at hd
    split at hd
    · rename_i hpi
      subst hpi
      exact .inr (same (by simpa using hd))
    · exact .inr (same hd)

end Group

omit [DecidableEq ι] in
theorem ideintr_pc (c : Cache ι α) : (ideintr c).pc = c.pc ∧ (ideintr c).use = c.use := by
  unfold ideintr
  cases c.idequeue with
  | nil => exact ⟨rfl, rfl⟩
  | cons b rest =>
    cases rest with
    | nil => exact ⟨rfl, rfl⟩
    | cons b' rest' =>
      rw [idestart_pc, idestart_use]
      exact ⟨rfl, rfl⟩

omit [DecidableEq ι] in
/-- What a process relies on in `commit()` is its own. -/
theorem CommitOk.congr {f : Frame} (h : CommitOk c p f) (hpc : c'.pc p = c.pc p)
    (huse : c'.use p = c.use p) : CommitOk c' p f := by
  refine ⟨fun b => hpc ▸ h.1 b, h.2.mono fun b u _ hk => ?_⟩
  unfold Keeps
  rw [hpc, huse]
  exact hk

omit [DecidableEq ι] in
theorem CommitOk.top {tail : Nat} (hp : (c.pc p).isIdle = true) : CommitOk c p (.top tail) := by
  obtain ⟨r, hp⟩ := isIdle_iff.mp hp
  exact ⟨fun b => by simp [hp], trivial⟩

/-- **The step lemma of the system.** -/
theorem SysOk.step (h : SysOk L s) (hpan : s.cache.panic = none) (hs : SysSteps s t) :
    SysOk (leave L s.cache t.cache) t := by
  have hsame : leave L s.cache s.cache = L := leave_of_busy fun _ hb => hb
  have grp : ∀ {e g}, Log.groupStep s.grp e = some g → Log.GroupOk g := fun hg =>
    (Log.groupSteps_of_step hg).ok h.grp
  -- another process than the one that moves
  have other : ∀ {p q c d}, Steps s.cache p c → q ≠ p → s.grp.pc q = .commit d →
      CommitOk c q (s.frame q) := fun hs hq hd =>
    (h.commit _ _ hd).congr (hs.others hq).1 (hs.others hq).2
  have frame : ∀ (p q : ι) (f : Frame), (s.setFrame p f).frame q = if q = p then f else s.frame q :=
    fun p q f => Function.update_apply ..
  cases hs with
  | group hg he =>
    refine ⟨hsame.symm ▸ h.cache, grp hg, fun q d hd => ?_⟩
    obtain ⟨d', hd', -⟩ := (commit_of_groupStep hg hd).resolve_left fun hq => he q hq.1
    exact h.commit q d' hd'
  | @endOp p g hp hg =>
    refine ⟨hsame.symm ▸ h.cache, grp hg, fun q d hd => ?_⟩
    show CommitOk s.cache q ((s.setFrame p (.top 0)).frame q)
    rw [frame]
    split
    · rename_i hq
      exact hq ▸ .top hp
    · rename_i hq
      obtain ⟨d', hd', -⟩ := (commit_of_groupStep (p := q) hg hd).resolve_left (by simp [Ne.symm hq])
      exact h.commit q d' hd'
  | @call p c hp hs =>
    refine ⟨h.cache.run hs, h.grp, fun q d hd => other hs ?_ hd⟩
    rintro rfl
    exact hp d hd
  | @run p c hidle hrec hs =>
    refine ⟨h.cache.run hs, h.grp, fun q d hd => ?_⟩
    by_cases hq : q = p
    · subst hq
      exact ⟨hs.not_record hidle hrec, (h.commit q d hd).2.mono fun b u hu hk =>
        hk.step h.cache hs hidle hrec hu⟩
    · exact other hs hq hd
  | @logged p c e g hp hg he hs =>
    refine ⟨h.cache.run hs, grp hg, fun q d hd => ?_⟩
    obtain ⟨d', hd', -⟩ := (commit_of_groupStep hg hd).resolve_left fun hq => he q hq.1
    refine other hs ?_ hd'
    rintro rfl
    exact hp d' hd'
  | @commit p c f hs hf =>
    refine ⟨h.cache.run hs, h.grp, fun q d hd => ?_⟩
    show CommitOk c q ((s.setFrame p f).frame q)
    rw [frame]
    split
    · rename_i hq
      exact hq ▸ hf
    · rename_i hq
      exact other hs hq hd
  | @phase p g hp hg =>
    refine ⟨hsame.symm ▸ h.cache, grp hg, fun q d hd => ?_⟩
    show CommitOk s.cache q ((s.setFrame p (.top 0)).frame q)
    rw [frame]
    split
    · rename_i hq
      exact hq ▸ .top hp
    · obtain ⟨d', hd', -⟩ := (commit_of_groupStep (p := q) hg hd).resolve_left (by simp)
      exact h.commit q d' hd'
  | ideintr =>
    have hleave : leave L s.cache (Bio.ideintr s.cache) = L := leave_of_busy fun b hb =>
      (ideintr_buf s.cache b).1.trans hb
    refine ⟨hleave.symm ▸ h.cache.ideintr hpan, h.grp, fun q d hd => ?_⟩
    obtain ⟨hpc, huse⟩ := ideintr_pc s.cache
    exact (h.commit q d hd).congr (by rw [hpc]) (by rw [huse])

omit [DecidableEq ι] in
theorem boot_ok (zero : α) (disk : Key → α) (havedisk1 : Bool) :
    SysOk disk (boot zero disk havedisk1 : Sys ι α) :=
  ⟨binit_ok zero disk havedisk1, Log.groupOk_init, fun p d hd => by
    simp [boot, Log.groupInit] at hd⟩

theorem panic_of_step {e : Event ι α} (hst : step A s e = some t) : s.cache.panic = none := by
  by_contra hp
  simp [step, hp] at hst

/-! ## Coherence -/

/-- What the last process that released a block left in it, at the end of a run; at first, what
the disk has. -/
def left (disk : Key → α) (tr : List (Trans (Sys ι α) (Event ι α))) : Key → α :=
  tr.foldl (fun L x => leave L x.pre.cache x.post.cache) disk

/-- `bread(k)` returns `b` to `p`. -/
def Returns (x : Trans (Sys ι α) (Event ι α)) (p : ι) (k : Key) (b : BufId) : Prop :=
  (x.pre.cache.pc p = .check k b ∨ x.pre.cache.pc p = .wait b (some k)) ∧
    x.post.cache.pc p = .idle (some b)

/-- A process changes the block `k` in an operation. -/
def Modifies (x : Trans (Sys ι α) (Event ι α)) (k : Key) : Prop :=
  ∃ p b f, x.ev = .call p (.modify b f) ∧ x.pre.grp.log.op p ≠ none ∧
    (x.pre.cache.buf b).block = some k

/-- `bwrite` is called for the block `k` by other code than `install_trans`. -/
def Bwrites (x : Trans (Sys ι α) (Event ι α)) (k : Key) : Prop :=
  ∃ p b, CallsBwrite x.pre.cache x.post.cache p b ∧ (x.pre.cache.buf b).block = some k ∧
    x.pre.grp.pc p ≠ .commit .installTrans

/-- The `write_head` that commits has returned. -/
def Commits (x : Trans (Sys ι α) (Event ι α)) : Prop :=
  ∃ p, x.pre.grp.pc p = .commit .writeHead ∧ x.post.grp.pc p = .commit .installTrans

/-- The five properties of a run that starts with the contents `disk` of the disks. -/
structure Coherent (disk : Key → α) (tr : List (Trans (Sys ι α) (Event ι α))) : Prop where
  /-- at most one buffer has a given block -/
  unique : ∀ x ∈ tr, ∀ b b' k, (x.post.cache.buf b).block = some k →
    (x.post.cache.buf b').block = some k → b = b'
  /-- a buffer is busy if a process has it, and then only one has -/
  exclusive : ∀ x ∈ tr, ∀ b,
    ((x.post.cache.buf b).busy = true ↔ ∃ p, x.post.cache.use p b ≠ .none) ∧
      ∀ p q, x.post.cache.use p b ≠ .none → x.post.cache.use q b ≠ .none → p = q
  /-- a dirty buffer is not recycled -/
  pinned : ∀ x ∈ tr, ∀ b, (x.pre.cache.buf b).dirty = true →
    (x.post.cache.buf b).block = (x.pre.cache.buf b).block
  /-- after a change in an operation the block stays as it was on disk, until it is written by a
  `bwrite` of its own or a transaction commits -/
  deferred : ∀ tr₁ x tr₂ k, tr = tr₁ ++ x :: tr₂ → Modifies x k →
    (∀ y ∈ tr₂, ¬ Bwrites y k ∧ ¬ Commits y) →
    ∀ y ∈ tr₂, y.post.cache.disk k = x.pre.cache.disk k
  /-- `bread` returns what was left in the block -/
  latest : ∀ tr₁ x tr₂ p k b, tr = tr₁ ++ x :: tr₂ → Returns x p k b →
    (x.post.cache.buf b).block = some k ∧ (x.post.cache.buf b).data = left disk tr₁ k

theorem SysOk.run {disk : Key → α} {zero : α} {havedisk1 : Bool}
    {tr : List (Trans (Sys ι α) (Event ι α))}
    (hrun : IsRun (Bio.step A) (boot zero disk havedisk1) tr) :
    SysOk (left disk tr) (last (boot zero disk havedisk1) tr) := by
  refine hrun.past (J := fun tr s => SysOk (left disk tr) s) (boot_ok zero disk havedisk1) ?_
  intro tr x hst h
  rw [left, List.foldl_append]
  exact h.step (panic_of_step hst) (sysSteps_of_step h hst)

/-- The buffers in a step of the system. -/
theorem SysSteps.block_of_dirty (hs : SysSteps s t)
    (hd : (s.cache.buf b).dirty = true) : (t.cache.buf b).block = (s.cache.buf b).block := by
  cases hs with
  | call hp hs => exact hs.block_of_dirty hd
  | run hidle hrec hs => exact hs.block_of_dirty hd
  | logged hp hg he hs => exact hs.block_of_dirty hd
  | commit hs hf => exact hs.block_of_dirty hd
  | ideintr => exact (ideintr_buf s.cache b).2
  | _ => rfl

/-- A `bread` returns when the buffer is valid. -/
theorem Steps.returns (hs : Steps c q c')
    (hp : c.pc p = .check k b ∨ c.pc p = .wait b (some k)) (hp' : c'.pc p = .idle (some b)) :
    c'.buf = c.buf ∧ (c.buf b).valid = true := by
  have hnot : c.pc p ≠ c'.pc p := by
    rw [hp']
    rcases hp with hp | hp <;> simp [hp]
  obtain rfl : q = p := by
    by_contra hqp
    exact hnot (hs.others (Ne.symm hqp)).1.symm
  cases hs with
  | panic e => exact absurd rfl hnot
  | valid hq hv =>
    rcases hp with hp | hp
    · obtain ⟨-, rfl⟩ : _ ∧ b = _ := by simpa [hp] using hq
      exact ⟨rfl, hv⟩
    · simp [hp] at hq
  | done hq hv hd =>
    rcases hp with hp | hp
    · simp [hp] at hq
    · obtain ⟨rfl, -⟩ : b = _ ∧ _ := by simpa [hp] using hq
      exact ⟨rfl, hv⟩
  | read hq hv => simp at hp'
  | _ => rcases hp with hp | hp <;> simp_all

theorem SysSteps.returns (hs : SysSteps s t)
    (hp : s.cache.pc p = .check k b ∨ s.cache.pc p = .wait b (some k))
    (hp' : t.cache.pc p = .idle (some b)) :
    t.cache.buf = s.cache.buf ∧ (s.cache.buf b).valid = true := by
  have hmoves : s.cache.pc p ≠ t.cache.pc p := by
    rw [hp']
    rcases hp with hp | hp <;> simp [hp]
  cases hs with
  | call hd hs => exact hs.returns hp hp'
  | run hidle hrec hs => exact hs.returns hp hp'
  | logged hd hg he hs => exact hs.returns hp hp'
  | commit hs hf => exact hs.returns hp hp'
  | ideintr => exact absurd (by rw [(ideintr_pc s.cache).1]) hmoves
  | _ => exact absurd rfl hmoves

/-- No write of `k` is under way, nor is a commit past its commit point. -/
def Deferred (k : Key) (s : Sys ι α) : Prop :=
  Quiet k s.cache ∧ ∀ p, s.grp.pc p ≠ .commit .installTrans

theorem Deferred.step {x : Trans (Sys ι α) (Event ι α)} (hd : Deferred k x.pre)
    (h : SysOk L x.pre) (hs : SysSteps x.pre x.post) (hb : ¬ Bwrites x k) (hc : ¬ Commits x) :
    Deferred k x.post ∧ x.post.cache.disk k = x.pre.cache.disk k := by
  obtain ⟨s, e, t⟩ := x
  obtain ⟨hq, hi⟩ := hd
  have quiet : ∀ {p c}, Steps s.cache p c → t.cache = c →
      Quiet k c ∧ c.disk k = s.cache.disk k := by
    rintro p c hs rfl
    refine hq.step h.cache hs fun b hk hcall => hb ⟨p, b, hcall, hk, hi p⟩
  have install : ∀ {e g}, Log.groupStep s.grp e = some g → t.grp = g →
      ∀ p, g.pc p ≠ .commit .installTrans := by
    rintro e g hg rfl p hp
    obtain ⟨d, hd, hinst⟩ := (commit_of_groupStep hg hp).resolve_left (by simp)
    obtain rfl | rfl := hinst rfl
    · exact hi p hd
    · exact hc ⟨p, hd, hp⟩
  change SysSteps s t at hs
  cases hs with
  | group hg he => exact ⟨⟨hq, install hg rfl⟩, rfl⟩
  | endOp hp hg => exact ⟨⟨hq, install hg rfl⟩, rfl⟩
  | call hp hs => exact ⟨⟨(quiet hs rfl).1, hi⟩, (quiet hs rfl).2⟩
  | run hidle hrec hs => exact ⟨⟨(quiet hs rfl).1, hi⟩, (quiet hs rfl).2⟩
  | logged hp hg he hs => exact ⟨⟨(quiet hs rfl).1, install hg rfl⟩, (quiet hs rfl).2⟩
  | commit hs hf => exact ⟨⟨(quiet hs rfl).1, hi⟩, (quiet hs rfl).2⟩
  | phase hp hg => exact ⟨⟨hq, install hg rfl⟩, rfl⟩
  | ideintr => exact ⟨⟨hq.ideintr.1, hi⟩, hq.ideintr.2⟩

/-- A process that changes a block in an operation has it, and nobody commits. -/
theorem Modifies.deferred {x : Trans (Sys ι α) (Event ι α)} (hm : Modifies x k)
    (h : SysOk L x.pre) (hst : step A x.pre x.ev = some x.post) :
    Deferred k x.pre ∧ ¬ Bwrites x k ∧ ¬ Commits x := by
  obtain ⟨s, e, t⟩ := x
  obtain ⟨p, b, f, rfl, hop, hk⟩ := hm
  obtain ⟨o, hop⟩ := Option.ne_none_iff_exists'.mp hop
  have hnc : ∀ q d, s.grp.pc q ≠ .commit d := fun q d hd => by
    have := h.grp.not_committing hop
    rw [h.grp.committing q d hd] at this
    exact absurd this (by simp)
  dsimp only at hst hk
  unfold step at hst
  split at hst
  · simp at hst
  · simp only [Option.ite_none_right_eq_some, callStep, Option.some.injEq] at hst
    obtain ⟨⟨hp, -⟩, hb, rfl⟩ := hst
    obtain ⟨r, hp⟩ := isIdle_iff.mp hp
    refine ⟨⟨h.cache.quiet hb hk hp, fun q => hnc q _⟩, ?_, fun ⟨q, hq, _⟩ => hnc q _ hq⟩
    rintro ⟨q, b', ⟨⟨r', hq⟩, hq'⟩, -⟩
    by_cases hqp : q = p
    · subst hqp
      simp [modify] at hq'
    · change s.cache.pc q = .idle r' at hq
      simp [modify, hqp, Cache.setUse, Cache.setBuf, hq] at hq'

/-- **The buffer cache is coherent.** -/
theorem coherent (A : LogArea α) (zero : α) (disk : Key → α) (havedisk1 : Bool)
    (tr : List (Trans (Sys ι α) (Event ι α)))
    (hrun : IsRun (step A) (boot zero disk havedisk1) tr) : Coherent disk tr := by
  -- every transition starts and ends in good states
  have hok : ∀ x ∈ tr, (∃ L, SysOk L x.pre) ∧ ∃ L, SysOk L x.post := by
    refine hrun.invariant (I := fun s => ∃ L, SysOk L s) (C := fun _ => True)
      ⟨disk, boot_ok zero disk havedisk1⟩ ?_ fun _ _ => trivial
    rintro x hst - ⟨L, h⟩
    exact ⟨_, h.step (panic_of_step hst) (sysSteps_of_step h hst)⟩
  refine ⟨?_, ?_, ?_, ?_, ?_⟩
  · intro x hx b b' k hb hb'
    obtain ⟨-, L, h⟩ := hok x hx
    exact h.cache.inj b b' k hb hb'
  · intro x hx b
    obtain ⟨-, L, h⟩ := hok x hx
    exact ⟨h.cache.busy b, fun p q => h.cache.one p q b⟩
  · intro x hx b hd
    obtain ⟨⟨L, h⟩, -⟩ := hok x hx
    exact (sysSteps_of_step h (hrun.step_of_mem hx)).block_of_dirty hd
  · rintro tr₁ x tr₂ k rfl hm hfree
    obtain ⟨⟨L, h⟩, L', h'⟩ := hok x (by simp)
    have hst := hrun.step_of_mem (x := x) (by simp)
    obtain ⟨hd, hb, hc⟩ := hm.deferred h hst
    obtain ⟨hd', hdisk⟩ := hd.step h (sysSteps_of_step h hst) hb hc
    intro y hy
    refine (hrun.rest.invariant (C := fun y => ¬ Bwrites y k ∧ ¬ Commits y)
      (I := fun s => (∃ L, SysOk L s) ∧ Deferred k s ∧ s.cache.disk k = x.pre.cache.disk k)
      ⟨⟨L', h'⟩, hd', hdisk⟩ ?_ hfree y hy).2.2.2
    rintro z hz ⟨hzb, hzc⟩ ⟨⟨M, hM⟩, hzd, hzk⟩
    have hsz := sysSteps_of_step hM hz
    obtain ⟨hzd', hzk'⟩ := hzd.step hM hsz hzb hzc
    exact ⟨⟨_, hM.step (panic_of_step hz) hsz⟩, hzd', hzk'.trans hzk⟩
  · rintro tr₁ x tr₂ p k b rfl ⟨hpre, hpost⟩
    obtain ⟨hrun₁, hx, hst⟩ := hrun.split
    have h : SysOk (left disk tr₁) x.pre := hx ▸ SysOk.run hrun₁
    obtain ⟨hbuf, hvalid⟩ := (sysSteps_of_step h hst).returns hpre hpost
    have hget : Getting (left disk tr₁) x.pre.cache p k b := by
      have hat := h.cache.at_ p
      rcases hpre with hpre | hpre
      · rwa [hpre] at hat
      · rwa [hpre] at hat
    rw [hbuf]
    exact ⟨hget.2.1, hget.2.2 hvalid⟩

/-- The buffer at the tail of the list after `binit`. -/
def buf0 : BufId := ⟨0, by decide⟩

/-- `bread` of a block that is not in the cache, by the first process. -/
def readUncached (k : Key) : List (Event Bool Nat) :=
  .call false (.bread k) :: List.replicate 36 (.run false) ++ [.ideintr, .run false]

/-- One process changes a block in an operation; another one then reads it. -/
def readLogged : List (Event Bool Nat) :=
  .callBegin false :: .beginOp false :: readUncached ⟨.disk1, 50⟩ ++
    .call false (.modify buf0 Nat.succ) :: .call false (.logWrite buf0) :: .run false ::
      .call false (.brelse buf0) :: List.replicate 3 (.run false) ++
    .call true (.bread ⟨.disk1, 50⟩) :: List.replicate 4 (.run true)

/-- Disks with the same contents everywhere. -/
def flatDisk : Key → Nat := fun _ => 5

/-- A log that counts its blocks in the header. -/
def countingLog : LogArea Nat := ⟨.disk1, 2, fun lh _ => lh.length⟩

theorem coherent_readLogged :
    ((exec (step countingLog) (boot 0 flatDisk true) readLogged).map fun s =>
      (s.cache.pc true, (s.cache.buf buf0).data, s.cache.disk ⟨.disk1, 50⟩)) =
        some (.idle (some buf0), 6, 5) ∧
      Coherent flatDisk (trace (step countingLog) (boot 0 flatDisk true) readLogged) :=
  ⟨by decide +kernel, coherent countingLog 0 flatDisk true _ (isRun_trace _ _ _)⟩

end StrideXv6.Bio
