import StrideXv6.Lib.Monitor
import StrideXv6.Bio.Cache

set_option autoImplicit false

/-! # The cache is coherent

The cache stands for a map `L` from blocks to contents: `L k` is what the last process that
released `k` left in it. `CacheOk L c` relates the two. Its core is `Slot`, what a buffer and the
disk hold for one block: while nobody has the buffer it holds `L k`; a valid buffer that is not
dirty agrees with the disk unless its holder has just changed it; and a buffer that is not valid
is about to be read from a disk that has `L k`. So a buffer that is neither busy nor dirty can be
given away: the disk has `L k` as well.

`CacheOk.step` and `CacheOk.ideintr` are the step lemmas. `Quiet` says that no write of a block is
under way; it lasts until somebody calls `bwrite` for the block, and as long as it does the block
stays as it is on disk.
-/

namespace StrideXv6.Bio

open Function

variable {ι α : Type} [DecidableEq ι]
variable {b : BufId} {r : Option Key} {pc : Pc} {rest : List BufId} {x : Buf α}

/-! ## Setting the fields -/

section Fields

variable (c : Cache ι α) (p q : ι) (b b' : BufId) (x : Buf α) (u : Use) (pc : Pc)

omit [DecidableEq ι] in
@[simp] theorem setBuf_buf : (c.setBuf b x).buf b' = if b' = b then x else c.buf b' :=
  update_apply ..

@[simp] theorem setPc_pc : (c.setPc p pc).pc q = if q = p then pc else c.pc q :=
  update_apply ..

@[simp] theorem setUse_use :
    (c.setUse p b u).use q b' = if q = p ∧ b' = b then u else c.use q b' := by
  by_cases hq : q = p
  · subst hq
    by_cases hb : b' = b <;> simp [Cache.setUse, hb]
  · simp [Cache.setUse, hq]

@[simp] theorem setUse_buf : (c.setUse p b u).buf = c.buf := rfl
@[simp] theorem setPc_buf : (c.setPc p pc).buf = c.buf := rfl
@[simp] theorem setPc_use : (c.setPc p pc).use = c.use := rfl
omit [DecidableEq ι] in
@[simp] theorem setBuf_use : (c.setBuf b x).use = c.use := rfl

end Fields

/-! ## The invariant -/

variable {L L' : Key → α} {c c' : Cache ι α} {p q : ι}

/-- `bcache.lock` is held here. -/
def Pc.locked : Pc → Bool
  | .scan .. | .recycle .. | .bgot .. | .relink _ | .brelsed => true
  | _ => false

/-- The buffer that `bget` has found for a `bread` that has not returned yet. -/
def Pc.gets : Pc → Option BufId
  | .bgot _ b | .check _ b | .iderw b (some _) | .wait b (some _) => some b
  | _ => none

attribute [simp] Pc.locked Pc.gets

def view : Monitor.View (Cache ι α) ι Pc := ⟨Cache.lock, Cache.pc, Pc.locked⟩

/-- What the loops of `bget` have found out. -/
def Scanned : Pc → Cache ι α → Prop
  | .scan k rest, c => ∀ b, b ∉ rest → (c.buf b).block ≠ some k
  | .recycle k _, c => ∀ b, (c.buf b).block ≠ some k
  | _, _ => True

/-- The buffer `b` of a block with contents `l` that has `d` on disk; `m` if its holder has
changed it and not passed it on. -/
structure Slot (l d : α) (m : Prop) (b : Buf α) : Prop where
  free : b.busy = false → b.valid = true ∧ b.data = l
  saved : b.valid = true → b.dirty = false → ¬ m → b.data = d
  fresh : b.valid = false → b.dirty = false ∧ d = l

/-- `p` has `b` for the block `k`, with the right contents as soon as it is valid. -/
def Getting (L : Key → α) (c : Cache ι α) (p : ι) (k : Key) (b : BufId) : Prop :=
  c.use p b = .clean ∧ (c.buf b).block = some k ∧ ((c.buf b).valid = true → (c.buf b).data = L k)

def At (L : Key → α) (c : Cache ι α) (p : ι) : Pc → Prop
  | .bgot k b | .check k b | .iderw b (some k) | .wait b (some k) => Getting L c p k b
  | .idle (some b) | .iderw b none | .wait b none | .brelse b | .relink b => c.use p b = .clean
  | .record b => c.use p b ≠ .none
  | _ => True

structure Base (L : Key → α) (c : Cache ι α) : Prop where
  lock : Monitor.Inv view Scanned (fun _ => True) c
  listed : ∀ b, b ∈ c.mru
  inj : ∀ b b' k, (c.buf b).block = some k → (c.buf b').block = some k → b = b'
  unused : ∀ b, (c.buf b).block = none → (c.buf b).busy = false ∧ (c.buf b).dirty = false
  busy : ∀ b, (c.buf b).busy = true ↔ ∃ p, c.use p b ≠ .none
  one : ∀ p q b, c.use p b ≠ .none → c.use q b ≠ .none → p = q
  slot : ∀ b k, (c.buf b).block = some k →
    Slot (L k) (c.disk k) (∃ p, c.use p b = .modified) (c.buf b)
  absent : ∀ k, (∀ b, (c.buf b).block ≠ some k) → c.disk k = L k
  at_ : ∀ p, At L c p (c.pc p)
  loaded : ∀ p b, c.use p b ≠ .none → (c.pc p).gets ≠ some b → (c.buf b).valid = true
  nodup : c.idequeue.Nodup
  queued : ∀ b ∈ c.idequeue,
    (∃ p r, c.pc p = .wait b r) ∧ ((c.buf b).valid = true → (c.buf b).dirty = true)

/-- The invariant: the request at the head of the queue has been started, too. -/
structure CacheOk (L : Key → α) (c : Cache ι α) : Prop extends Base L c where
  active : c.panic = none → ∀ b rest k, c.idequeue = b :: rest → (c.buf b).block = some k →
    (c.buf b).dirty = true → c.disk k = (c.buf b).data

omit [DecidableEq ι] in
theorem binit_ok (zero : α) (disk : Key → α) (havedisk1 : Bool) :
    CacheOk disk (binit zero disk havedisk1 : Cache ι α) where
  lock := ⟨fun _ => by simp [view, binit], fun _ => trivial,
    fun _ h => by simp [view, binit] at h⟩
  listed := fun b => by simp [binit]
  inj := by simp [binit]
  unused := by simp [binit]
  busy := by simp [binit]
  one := by simp [binit]
  slot := by simp [binit]
  absent := fun _ _ => rfl
  at_ := fun _ => trivial
  loaded := by simp [binit]
  nodup := List.nodup_nil
  queued := by simp [binit]
  active := by simp [binit]

/-! ## Who has a buffer -/

omit [DecidableEq ι] in
theorem At.use_wait (h : At L c p (.wait b r)) :
    c.use p b = .clean := by
  cases r with
  | none => exact h
  | some k => exact h.1

omit [DecidableEq ι] in
theorem At.use_iderw (h : At L c p (.iderw b r)) :
    c.use p b = .clean := by
  cases r with
  | none => exact h
  | some k => exact h.1

omit [DecidableEq ι] in
theorem Base.busy_of_use (h : Base L c) (hb : c.use p b ≠ .none) :
    (c.buf b).busy = true :=
  (h.busy b).mpr ⟨p, hb⟩

omit [DecidableEq ι] in
theorem Base.use_of_free (h : Base L c) (hb : (c.buf b).busy = false) (p : ι) :
    c.use p b = .none := by
  by_contra hp
  rw [h.busy_of_use hp] at hb
  exact absurd hb (by simp)

omit [DecidableEq ι] in
theorem Base.block_of_use (h : Base L c) (hb : c.use p b ≠ .none) :
    ∃ k, (c.buf b).block = some k := by
  rw [← Option.ne_none_iff_exists']
  intro hn
  have := (h.unused b hn).1
  rw [h.busy_of_use hb] at this
  exact absurd this (by simp)

omit [DecidableEq ι] in
/-- A buffer in the queue belongs to a process that waits for it. -/
theorem Base.not_queued (h : Base L c) (hb : c.use p b ≠ .none)
    (hp : ∀ r, c.pc p ≠ .wait b r) : b ∉ c.idequeue := by
  intro hmem
  obtain ⟨⟨q, r, hq⟩, -⟩ := h.queued b hmem
  have hclean : c.use q b = .clean := At.use_wait (hq ▸ h.at_ q)
  obtain rfl : q = p := h.one q p b (by simp [hclean]) hb
  exact hp r hq

omit [DecidableEq ι] in
theorem Base.free_not_queued (h : Base L c) (hb : (c.buf b).busy = false) :
    b ∉ c.idequeue := by
  intro hmem
  obtain ⟨⟨q, r, hq⟩, -⟩ := h.queued b hmem
  have hclean : c.use q b = .clean := At.use_wait (hq ▸ h.at_ q)
  rw [h.use_of_free hb] at hclean
  exact absurd hclean (by simp)

omit [DecidableEq ι] in
theorem At.map (h : At L c p pc) (getting : ∀ k b, Getting L c p k b → Getting L' c' p k b)
    (clean : ∀ b, c.use p b = .clean → c'.use p b = .clean)
    (has : ∀ b, c.use p b ≠ .none → c'.use p b ≠ .none) : At L' c' p pc := by
  cases pc with
  | idle r =>
    cases r with
    | none => trivial
    | some b => exact clean b h
  | bgot k b => exact getting k b h
  | check k b => exact getting k b h
  | iderw b r =>
    cases r with
    | none => exact clean b h
    | some k => exact getting k b h
  | wait b r =>
    cases r with
    | none => exact clean b h
    | some k => exact getting k b h
  | brelse b => exact clean b h
  | relink b => exact clean b h
  | record b => exact has b h
  | _ => trivial

omit [DecidableEq ι] in
/-- What a process relies on concerns the buffers it has. -/
theorem At.congr (h : At L c p pc)
    (hsame : ∀ b, c.use p b ≠ .none → c'.use p b = c.use p b ∧ c'.buf b = c.buf b ∧
      ∀ k, (c.buf b).block = some k → L' k = L k) : At L' c' p pc := by
  have clean : ∀ b, c.use p b = .clean → c'.use p b = .clean := fun b hb => by
    rw [(hsame b (by simp [hb])).1, hb]
  refine h.map ?_ clean fun b hb => by rwa [(hsame b hb).1]
  rintro k b ⟨hu, hk, hd⟩
  obtain ⟨-, hbuf, hL⟩ := hsame b (by simp [hu])
  refine ⟨clean b hu, hbuf ▸ hk, fun hv => ?_⟩
  rw [hbuf] at hv ⊢
  rw [hL k hk]
  exact hd hv

/-! ## The lock -/

omit [DecidableEq ι] in
theorem Scanned.congr (h : Scanned pc c)
    (hblock : ∀ b, (c'.buf b).block = (c.buf b).block) : Scanned pc c' := by
  cases pc with
  | scan k rest => exact fun b hb => hblock b ▸ h b hb
  | recycle k rest => exact fun b => hblock b ▸ h b
  | _ => trivial

/-- A step that neither takes nor gives back the lock. -/
theorem Base.lock_goto (h : Base L c) (hl : c'.lock = c.lock)
    (hpc : c'.pc = Function.update c.pc p pc) (hlocked : pc.locked = (c.pc p).locked)
    (hblock : ∀ b, (c'.buf b).block = (c.buf b).block)
    (hs : Scanned (c.pc p) c → Scanned pc c') : Monitor.Inv view Scanned (fun _ => True) c' := by
  have hother : ∀ q, q ≠ p → c'.pc q = c.pc q := fun q hq => by
    rw [hpc, update_of_ne hq]
  have hself : c'.pc p = pc := by rw [hpc, update_self]
  by_cases hh : (c.pc p).locked = true
  · have hme : c.lock = some p := (h.lock.excl p).mp hh
    refine h.lock.inside hme (hl.trans hme) (fun q hq => ?_) hself (hlocked.trans hh) hs
    show (c'.pc q).locked = (c.pc q).locked
    rw [hother q hq]
  · refine h.lock.outside hl (fun q => ?_) (fun q hq => ?_) (fun _ => trivial)
      fun q _ hA => hA.congr hblock
    · show (c'.pc q).locked = (c.pc q).locked
      by_cases hqp : q = p
      · rw [hqp, hself, hlocked]
      · rw [hother q hqp]
    · show c'.pc q = c.pc q
      refine hother q fun hqp => hh ?_
      rw [← hqp]
      exact hq

omit [DecidableEq ι] in
/-- A step that no process makes, or that is made under another lock. -/
theorem lock_same (h : Monitor.Inv view Scanned (fun _ => True) c) (hl : c'.lock = c.lock)
    (hpc : c'.pc = c.pc) (hblock : ∀ b, (c'.buf b).block = (c.buf b).block) :
    Monitor.Inv view Scanned (fun _ => True) c' := by
  refine h.outside hl (fun q => ?_) (fun q _ => ?_) (fun _ => trivial) fun q _ hA =>
    hA.congr hblock
  · show (c'.pc q).locked = (c.pc q).locked
    rw [hpc]
  · show c'.pc q = c.pc q
    rw [hpc]

theorem Base.lock_take (h : Base L c) (hl : c.lock = none) (hl' : c'.lock = some p)
    (hpc : c'.pc = Function.update c.pc p pc) (hlocked : pc.locked = true)
    (hs : Scanned pc c') : Monitor.Inv view Scanned (fun _ => True) c' := by
  refine h.lock.take hl hl' (fun q hq => ?_) ?_ hlocked fun _ => hs
  · show (c'.pc q).locked = (c.pc q).locked
    rw [hpc, update_of_ne hq]
  · show c'.pc p = pc
    rw [hpc, update_self]

theorem Base.lock_drop (h : Base L c) (hp : (c.pc p).locked = true)
    (hl' : c'.lock = none) (hpc : c'.pc = Function.update c.pc p pc)
    (hlocked : pc.locked = false) : Monitor.Inv view Scanned (fun _ => True) c' := by
  refine h.lock.drop ((h.lock.excl p).mp hp) hl' (fun q hq => ?_) ?_ hlocked fun _ => trivial
  · show (c'.pc q).locked = (c.pc q).locked
    rw [hpc, update_of_ne hq]
  · show c'.pc p = pc
    rw [hpc, update_self]

/-! ## Steps that only move a process -/

/-- A process goes on to `pc`. -/
theorem CacheOk.goto (h : CacheOk L c) {l : Option ι}
    (hlock : Monitor.Inv view Scanned (fun _ => True) { c.setPc p pc with lock := l })
    (hat : At L c p pc) (hload : ∀ b, (c.pc p).gets = some b → pc.gets = some b ∨ (c.buf b).valid)
    (hwait : ∀ b r, c.pc p = .wait b r → b ∉ c.idequeue) :
    CacheOk L { c.setPc p pc with lock := l } where
  lock := hlock
  listed := h.listed
  inj := h.inj
  unused := h.unused
  busy := h.busy
  one := h.one
  slot := h.slot
  absent := h.absent
  at_ := fun q => by
    show At L c q ((c.setPc p pc).pc q)
    rw [setPc_pc]
    split
    · rename_i hq
      exact hq ▸ hat
    · exact h.at_ q
  loaded := fun q b hu hg => by
    change ((c.setPc p pc).pc q).gets ≠ some b at hg
    rw [setPc_pc] at hg
    split at hg
    · rename_i hq
      subst hq
      by_cases hgb : (c.pc q).gets = some b
      · exact (hload b hgb).resolve_left hg
      · exact h.loaded q b hu hgb
    · exact h.loaded q b hu hg
  nodup := h.nodup
  queued := fun b hb => by
    obtain ⟨⟨q, r, hq⟩, hv⟩ := h.queued b hb
    refine ⟨⟨q, r, ?_⟩, hv⟩
    have hqp : q ≠ p := by
      rintro rfl
      exact hwait b r hq hb
    exact (setPc_pc c p q pc).trans (by rw [if_neg hqp, hq])
  active := h.active

/-- The same without the lock. -/
theorem CacheOk.step_pc (h : CacheOk L c) (hlocked : pc.locked = (c.pc p).locked)
    (hs : Scanned (c.pc p) c → Scanned pc c) (hat : At L c p pc)
    (hload : ∀ b, (c.pc p).gets = some b → pc.gets = some b ∨ (c.buf b).valid)
    (hwait : ∀ b r, c.pc p = .wait b r → b ∉ c.idequeue) : CacheOk L (c.setPc p pc) := by
  refine h.goto (l := c.lock) ?_ hat hload hwait
  exact h.lock_goto rfl rfl hlocked (fun _ => rfl) fun hsc => (hs hsc).congr fun _ => rfl

/-! ## Steps that change a buffer -/

/-- The step from `c` to `c'` changes the buffer `b` only, which nobody but `p` has. -/
structure Changes (c c' : Cache ι α) (p : ι) (b : BufId) : Prop where
  buf : ∀ b', b' ≠ b → c'.buf b' = c.buf b'
  use : ∀ q b', ¬ (q = p ∧ b' = b) → c'.use q b' = c.use q b'
  pc : ∀ q, q ≠ p → c'.pc q = c.pc q
  disk : c'.disk = c.disk
  own : ∀ q, c.use q b ≠ .none → q = p
  wait : ∀ b' r, c.pc p = .wait b' r → c'.pc p = .wait b' r
  gets : ∀ b', b' ≠ b → (c'.pc p).gets ≠ some b' → (c.pc p).gets ≠ some b'
  queue : ∀ b' ∈ c'.idequeue, b' ∈ c.idequeue ∧ b' ≠ b

omit [DecidableEq ι] in
theorem Changes.own' (hc : Changes c c' p b) {q : ι} (hq : c'.use q b ≠ .none) : q = p := by
  by_contra hqp
  rw [hc.use q b fun h => hqp h.1] at hq
  exact hqp (hc.own q hq)

omit [DecidableEq ι] in
theorem Changes.modified (hc : Changes c c' p b) :
    (∃ q, c'.use q b = .modified) ↔ c'.use p b = .modified := by
  refine ⟨fun ⟨q, hq⟩ => ?_, fun hp => ⟨p, hp⟩⟩
  rwa [← hc.own' (q := q) (by simp [hq])]

omit [DecidableEq ι] in
/-- The rest of the cache is in order afterwards if the buffer `b` is. -/
theorem Base.changes (h : Base L c) (hc : Changes c c' p b)
    (hlock : Monitor.Inv view Scanned (fun _ => True) c') (hlisted : ∀ b', b' ∈ c'.mru)
    (hnodup : c'.idequeue.Nodup) (hblock : (c'.buf b).block ≠ none)
    (hinj : ∀ b' k, b' ≠ b → (c'.buf b).block = some k → (c.buf b').block ≠ some k)
    (hL : ∀ k, (c'.buf b).block ≠ some k → L' k = L k ∧
      ((c.buf b).block = some k → c.disk k = L k))
    (hbusy : (c'.buf b).busy = true ↔ c'.use p b ≠ .none)
    (hslot : ∀ k, (c'.buf b).block = some k →
      Slot (L' k) (c.disk k) (c'.use p b = .modified) (c'.buf b))
    (hat : At L' c' p (c'.pc p))
    (hload : c'.use p b ≠ .none → (c'.pc p).gets ≠ some b → (c'.buf b).valid = true) :
    Base L' c' := by
  have hsame : ∀ b' k, b' ≠ b → (c.buf b').block = some k → L' k = L k :=
    fun b' k hne hk => (hL k fun hb => hinj b' k hne hb hk).1
  refine
    { lock := hlock
      listed := hlisted
      inj := fun b₁ b₂ k h₁ h₂ => ?_
      unused := fun b' hb' => ?_
      busy := fun b' => ?_
      one := fun q₁ q₂ b' h₁ h₂ => ?_
      slot := fun b' k hk => ?_
      absent := fun k hk => ?_
      at_ := fun q => ?_
      loaded := fun q b' hu hg => ?_
      nodup := hnodup
      queued := fun b' hb' => ?_ }
  · by_cases h1 : b₁ = b
    · by_cases h2 : b₂ = b
      · rw [h1, h2]
      · rw [hc.buf b₂ h2] at h₂
        exact absurd h₂ (hinj b₂ k h2 (h1 ▸ h₁))
    · rw [hc.buf b₁ h1] at h₁
      by_cases h2 : b₂ = b
      · exact absurd h₁ (hinj b₁ k h1 (h2 ▸ h₂))
      · rw [hc.buf b₂ h2] at h₂
        exact h.inj b₁ b₂ k h₁ h₂
  · by_cases hb : b' = b
    · exact absurd (hb ▸ hb') hblock
    · rw [hc.buf b' hb] at hb' ⊢
      exact h.unused b' hb'
  · by_cases hb : b' = b
    · subst hb
      exact hbusy.trans ⟨fun hp => ⟨p, hp⟩, fun ⟨q, hq⟩ => hc.own' hq ▸ hq⟩
    · rw [hc.buf b' hb, h.busy b']
      exact exists_congr fun q => by rw [hc.use q b' fun hq => hb hq.2]
  · by_cases hb : b' = b
    · subst hb
      rw [hc.own' h₁, hc.own' h₂]
    · rw [hc.use _ b' fun hq => hb hq.2] at h₁ h₂
      exact h.one q₁ q₂ b' h₁ h₂
  · rw [hc.disk]
    by_cases hb : b' = b
    · subst hb
      rw [hc.modified]
      exact hslot k hk
    · rw [hc.buf b' hb] at hk ⊢
      rw [hsame b' k hb hk]
      have hm : (∃ q, c'.use q b' = .modified) ↔ ∃ q, c.use q b' = .modified :=
        exists_congr fun q => by rw [hc.use q b' fun hq => hb hq.2]
      rw [hm]
      exact h.slot b' k hk
  · obtain ⟨hLk, hold⟩ := hL k (hk b)
    rw [hc.disk, hLk]
    by_cases hbk : (c.buf b).block = some k
    · exact hold hbk
    · refine h.absent k fun b' hb' => ?_
      by_cases hb : b' = b
      · exact hbk (hb ▸ hb')
      · exact hk b' (by rwa [hc.buf b' hb])
  · by_cases hq : q = p
    · exact hq ▸ hat
    · rw [hc.pc q hq]
      refine (h.at_ q).congr fun b' hb' => ?_
      have hne : b' ≠ b := by
        rintro rfl
        exact hq (hc.own q hb')
      exact ⟨hc.use q b' fun hqp => hq hqp.1, hc.buf b' hne, fun k => hsame b' k hne⟩
  · by_cases hb : b' = b
    · subst hb
      obtain rfl := hc.own' hu
      exact hload hu hg
    · rw [hc.buf b' hb]
      rw [hc.use q b' fun hq => hb hq.2] at hu
      refine h.loaded q b' hu ?_
      by_cases hq : q = p
      · exact hq ▸ hc.gets b' hb (hq ▸ hg)
      · rwa [← hc.pc q hq]
  · obtain ⟨hmem, hb⟩ := hc.queue b' hb'
    obtain ⟨⟨q, r, hq⟩, hv⟩ := h.queued b' hmem
    rw [hc.buf b' hb]
    refine ⟨⟨q, r, ?_⟩, hv⟩
    by_cases hqp : q = p
    · exact hqp ▸ hc.wait b' r (hqp ▸ hq)
    · rw [hc.pc q hqp, hq]

omit [DecidableEq ι] in
/-- The request under way is for another buffer. -/
theorem CacheOk.changes (h : CacheOk L c) (hc : Changes c c' p b) (hbase : Base L' c')
    (hqueue : c'.idequeue = c.idequeue) (hpanic : c'.panic = c.panic) : CacheOk L' c' := by
  refine { hbase with active := fun hp b' rest k hq hk hd => ?_ }
  have hne := (hc.queue b' (hq ▸ List.mem_cons_self)).2
  rw [hc.buf b' hne] at hk hd ⊢
  rw [hc.disk]
  exact h.active (hpanic ▸ hp) b' rest k (hqueue ▸ hq) hk hd

/-- A process that has `b`, or has found it free, gives it the value `x` and holds it then. -/
theorem CacheOk.update (h : CacheOk L c) {u : Use}
    (hmine : c.use p b ≠ .none ∨ (c.buf b).busy = false)
    (hlock : Monitor.Inv view Scanned (fun _ => True)
      (((c.setBuf b x).setUse p b u).setPc p pc))
    (hgets : (c.pc p).gets = none) (hwait : ∀ b r, c.pc p ≠ .wait b r)
    (hx : x.busy = true) (hu : u ≠ .none) (hblock : x.block ≠ none)
    (hinj : ∀ b' k, b' ≠ b → x.block = some k → (c.buf b').block ≠ some k)
    (habsent : ∀ k, (c.buf b).block = some k → x.block ≠ some k → c.disk k = L k)
    (hslot : ∀ k, x.block = some k → Slot (L k) (c.disk k) (u = .modified) x)
    (hload : x.valid = true ∨ pc.gets = some b)
    (hat : At L (((c.setBuf b x).setUse p b u).setPc p pc) p pc) :
    CacheOk L (((c.setBuf b x).setUse p b u).setPc p pc) := by
  have hqueue : b ∉ c.idequeue := by
    rcases hmine with hp | hfree
    · exact h.not_queued hp (hwait b)
    · exact h.free_not_queued hfree
  have hbuf : (((c.setBuf b x).setUse p b u).setPc p pc).buf b = x := by simp
  have huse : (((c.setBuf b x).setUse p b u).setPc p pc).use p b = u := by simp
  have hpc : (((c.setBuf b x).setUse p b u).setPc p pc).pc p = pc := by simp
  have hc : Changes c (((c.setBuf b x).setUse p b u).setPc p pc) p b :=
    { buf := fun b' hb => by simp [hb]
      use := fun q b' hq => by simp [hq]
      pc := fun q hq => (setPc_pc ..).trans (if_neg hq)
      disk := rfl
      own := fun q hq => hmine.elim (fun hp => h.one q p b hq hp)
        fun hfree => absurd (h.use_of_free hfree q) hq
      wait := fun b' r hr => absurd hr (hwait b' r)
      gets := fun b' _ _ => by rw [hgets]; simp
      queue := fun b' hb' => ⟨hb', fun hb => hqueue (hb ▸ hb')⟩ }
  refine h.changes hc (h.toBase.changes hc hlock h.listed h.nodup ?_ ?_ ?_ ?_ ?_ ?_ ?_) rfl rfl
  · rwa [hbuf]
  · rwa [hbuf]
  · rw [hbuf]
    exact fun k hk => ⟨rfl, fun hbk => habsent k hbk hk⟩
  · rw [hbuf, huse, hx]
    simp [hu]
  · rwa [hbuf, huse]
  · rwa [hpc]
  · rw [hbuf, hpc]
    exact fun _ hg => hload.resolve_right hg

/-- The step leaves the buffer with its block. -/
theorem CacheOk.touch (h : CacheOk L c) {u : Use} {k : Key}
    (hmine : c.use p b ≠ .none ∨ (c.buf b).busy = false) (hk : (c.buf b).block = some k)
    (hblock : x.block = some k) (hlocked : pc.locked = (c.pc p).locked)
    (hs : Scanned pc (((c.setBuf b x).setUse p b u).setPc p pc))
    (hgets : (c.pc p).gets = none) (hwait : ∀ b r, c.pc p ≠ .wait b r)
    (hx : x.busy = true) (hu : u ≠ .none)
    (hslot : Slot (L k) (c.disk k) (u = .modified) x) (hload : x.valid = true)
    (hat : At L (((c.setBuf b x).setUse p b u).setPc p pc) p pc) :
    CacheOk L (((c.setBuf b x).setUse p b u).setPc p pc) := by
  refine h.update hmine ?_ hgets hwait hx hu (by simp [hblock]) ?_ ?_ ?_ (Or.inl hload) hat
  · refine h.lock_goto rfl rfl hlocked (fun b' => ?_) fun _ => hs
    simp only [setPc_buf, setUse_buf, setBuf_buf]
    split
    · rename_i hb
      rw [hb, hk, hblock]
    · rfl
  · intro b' k' hne hxk hb'
    rw [hblock, Option.some.injEq] at hxk
    exact hne (h.inj b' b k (hxk ▸ hb') hk)
  · intro k' hbk hxk
    rw [hk] at hbk
    exact absurd (hblock.trans hbk) hxk
  · intro k' hxk
    rw [hblock, Option.some.injEq] at hxk
    exact hxk ▸ hslot

omit [DecidableEq ι] in
/-- A buffer that a process has, outside of `bread`. -/
theorem CacheOk.held (h : CacheOk L c) (hb : c.use p b ≠ .none)
    (hgets : (c.pc p).gets ≠ some b) : ∃ k, (c.buf b).block = some k ∧
      (c.buf b).busy = true ∧ (c.buf b).valid = true := by
  obtain ⟨k, hk⟩ := h.block_of_use hb
  exact ⟨k, hk, h.busy_of_use hb, h.loaded p b hb hgets⟩

theorem CacheOk.modify (h : CacheOk L c) {r : Option BufId} (f : α → α)
    (hp : c.pc p = .idle r) (hb : c.use p b ≠ .none) : CacheOk L (modify c p b f) := by
  obtain ⟨k, hk, hbusy, hvalid⟩ := h.held hb (by simp [hp])
  refine h.touch (Or.inl hb) hk hk (by simp [hp]) trivial (by simp [hp])
    (by simp [hp]) hbusy (by simp) ⟨?_, ?_, ?_⟩ hvalid trivial
  · simp [hbusy]
  · simp
  · simp [hvalid]

/-- `bwrite` and `log_write` set `B_DIRTY`. -/
theorem CacheOk.setDirty (h : CacheOk L c) (hb : c.use p b ≠ .none)
    (hgets : (c.pc p).gets = none) (hwait : ∀ b r, c.pc p ≠ .wait b r)
    (hl : (c.pc p).locked = false) (hpc : pc = .iderw b none ∨ pc = .idle none) :
    CacheOk L (((c.setBuf b { c.buf b with dirty := true }).setUse p b .clean).setPc p pc) := by
  obtain ⟨k, hk, hbusy, hvalid⟩ := h.held hb (by rw [hgets]; simp)
  refine h.touch (Or.inl hb) hk hk ?_ ?_ hgets hwait hbusy (by simp) ⟨?_, ?_, ?_⟩ hvalid ?_
  · rw [hl]
    rcases hpc with rfl | rfl <;> rfl
  · rcases hpc with rfl | rfl <;> trivial
  · simp [hbusy]
  · simp
  · simp [hvalid]
  · rcases hpc with rfl | rfl
    · show (((c.setBuf b _).setUse p b .clean).setPc p _).use p b = .clean
      simp
    · trivial

/-- `bget` finds the block in the cache. -/
theorem CacheOk.hit (h : CacheOk L c) {k : Key}
    (hp : c.pc p = .scan k (b :: rest)) (hk : (c.buf b).block = some k)
    (hfree : (c.buf b).busy = false) :
    CacheOk L
      (((c.setBuf b { c.buf b with busy := true }).setUse p b .clean).setPc p (.bgot k b)) := by
  have hs := h.slot b k hk
  obtain ⟨hvalid, hdata⟩ := hs.free hfree
  have hm : ¬ ∃ q, c.use q b = .modified := by
    rintro ⟨q, hq⟩
    rw [h.use_of_free hfree] at hq
    exact absurd hq (by simp)
  refine h.touch (Or.inr hfree) hk hk (by simp [hp]) trivial (by simp [hp])
    (by simp [hp]) rfl (by simp) ⟨?_, ?_, ?_⟩ hvalid ⟨?_, ?_, ?_⟩
  · simp
  · exact fun hv hd _ => hs.saved hv hd hm
  · simp [hvalid]
  · simp
  · simpa using hk
  · simpa using fun _ => hdata

/-- `bget` takes a buffer that is neither busy nor dirty for the block `k`. -/
theorem CacheOk.recycle (h : CacheOk L c) {k : Key}
    (hp : c.pc p = .recycle k (b :: rest)) (hfree : (c.buf b).busy = false)
    (hclean : (c.buf b).dirty = false) :
    CacheOk L (((c.setBuf b (recycled c k b)).setUse p b .clean).setPc p (.bgot k b)) := by
  have hme : c.lock = some p := (h.lock.excl p).mp (by simp [view, hp])
  have hsc : Scanned (c.pc p) c := h.lock.held p hme
  rw [hp] at hsc
  refine h.update (Or.inr hfree) ?_ (by simp [hp]) (by simp [hp]) rfl (by simp)
    (by simp [recycled]) ?_ ?_ ?_ (Or.inr rfl) ⟨?_, ?_, ?_⟩
  · refine h.lock.inside (p := .bgot k b) hme hme (fun q hq => ?_) ?_ rfl fun _ => trivial
    · show ((((c.setBuf b _).setUse p b .clean).setPc p (.bgot k b)).pc q).locked = (c.pc q).locked
      rw [setPc_pc, if_neg hq]
      rfl
    · show (((c.setBuf b _).setUse p b .clean).setPc p (.bgot k b)).pc p = .bgot k b
      rw [setPc_pc, if_pos rfl]
  · intro b' k' _ hk' hb'
    obtain rfl : k = k' := by simpa [recycled] using hk'
    exact hsc b' hb'
  · -- what the buffer held is on disk
    intro k' hk' _
    have hs := h.slot b k' hk'
    obtain ⟨hvalid, hdata⟩ := hs.free hfree
    have hm : ¬ ∃ q, c.use q b = .modified := by
      rintro ⟨q, hq⟩
      rw [h.use_of_free hfree] at hq
      exact absurd hq (by simp)
    exact (hs.saved hvalid hclean hm).symm.trans hdata
  · intro k' hk'
    obtain rfl : k = k' := by simpa [recycled] using hk'
    exact ⟨by simp [recycled], by simp [recycled], fun _ => ⟨rfl, h.absent k hsc⟩⟩
  · simp
  · simp [recycled]
  · simp [recycled]

/-- `brelse`: the contents of the buffer become those of the block. -/
theorem CacheOk.relink (h : CacheOk L c) {k : Key} (hp : c.pc p = .relink b)
    (hk : (c.buf b).block = some k) :
    CacheOk (Function.update L k (c.buf b).data) (relink c p b) := by
  have huse : c.use p b = .clean := by
    have := h.at_ p
    rwa [hp] at this
  have hown : ∀ q, c.use q b ≠ .none → q = p := fun q hq => h.one q p b hq (by simp [huse])
  have hvalid : (c.buf b).valid = true := h.loaded p b (by simp [huse]) (by simp [hp])
  have hqueue : b ∉ c.idequeue := h.not_queued (p := p) (by simp [huse]) (by simp [hp])
  have hm : ¬ ∃ q, c.use q b = .modified := by
    rintro ⟨q, hq⟩
    rw [hown q (by simp [hq]), huse] at hq
    exact absurd hq (by simp)
  have hbuf : (Bio.relink c p b).buf b = { c.buf b with busy := false } := update_self ..
  have huse' : (Bio.relink c p b).use p b = .none := (setUse_use c p p b b .none).trans (by simp)
  have hpc : (Bio.relink c p b).pc p = .brelsed := update_self ..
  have hc : Changes c (Bio.relink c p b) p b :=
    { buf := fun b' hb => update_of_ne hb ..
      use := fun q b' hq => (setUse_use c p q b b' .none).trans (if_neg hq)
      pc := fun q hq => update_of_ne hq ..
      disk := rfl
      own := hown
      wait := fun b' r hr => by simp [hp] at hr
      gets := fun b' _ _ => by simp [hp]
      queue := fun b' hb' => ⟨hb', fun hb => hqueue (hb ▸ hb')⟩ }
  refine h.changes hc (h.toBase.changes hc ?_ (fun b' => ?_) h.nodup ?_ ?_ ?_ ?_ ?_ ?_ ?_) rfl rfl
  · refine h.lock_goto rfl rfl (by simp [hp]) (fun b' => ?_) fun _ => trivial
    by_cases hb : b' = b
    · rw [hb, hbuf]
    · rw [hc.buf b' hb]
  · show b' ∈ b :: c.mru.erase b
    by_cases hb : b' = b
    · simp [hb]
    · exact List.mem_cons_of_mem _ ((List.mem_erase_of_ne hb).mpr (h.listed b'))
  · simp [hbuf, hk]
  · rw [hbuf]
    exact fun b' k' hb hk' hb' => hb (h.inj b' b k' hb' hk')
  · rw [hbuf]
    intro k' hk'
    have hkk : k' ≠ k := by
      rintro rfl
      exact hk' hk
    exact ⟨update_of_ne hkk .., fun hbk => absurd hbk hk'⟩
  · simp [hbuf, huse']
  · rw [hbuf]
    intro k' hk'
    obtain rfl : k = k' := Option.some.inj (hk.symm.trans hk')
    rw [update_self]
    have hs := h.slot b k hk
    exact ⟨fun _ => ⟨hvalid, rfl⟩, fun hv hd _ => hs.saved hv hd hm, by simp [hvalid]⟩
  · rw [hpc]
    trivial
  · exact fun hu => absurd huse' hu

/-! ## Requests to the disk -/

omit [DecidableEq ι] in
/-- Starting a request for a buffer in the queue. -/
theorem Base.idestart (h : Base L c) (hb : b ∈ c.idequeue) :
    Base L (idestart c b) := by
  obtain ⟨⟨p, r, hp⟩, -⟩ := h.queued b hb
  have huse : c.use p b = .clean := At.use_wait (hp ▸ h.at_ p)
  unfold Bio.idestart
  split
  · exact h
  · rename_i k hk
    split
    · exact { h with lock := lock_same h.lock rfl rfl fun _ => rfl }
    · split
      · rename_i hd
        refine { h with
          lock := lock_same h.lock rfl rfl fun _ => rfl
          slot := fun b' k' hk' => ?_
          absent := fun k' hk' => ?_ }
        · by_cases hkk : k' = k
          · subst hkk
            obtain rfl : b' = b := h.inj b' b k' hk' hk
            have hv : (c.buf b').valid = true := by
              by_contra hv
              have := ((h.slot b' k' hk).fresh (by simpa using hv)).1
              rw [hd] at this
              exact absurd this (by simp)
            refine ⟨fun hbusy => ?_, fun _ hd' => ?_, fun hv' => ?_⟩
            · rw [h.busy_of_use (p := p) (by simp [huse])] at hbusy
              exact absurd hbusy (by simp)
            · exact absurd (hd.symm.trans hd') (by simp)
            · exact absurd (hv.symm.trans hv') (by simp)
          · show Slot (L k') (Function.update c.disk k (c.buf b).data k') _ (c.buf b')
            rw [update_of_ne hkk]
            exact h.slot b' k' hk'
        · have hkk : k' ≠ k := by
            rintro rfl
            exact hk' b hk
          show Function.update c.disk k (c.buf b).data k' = L k'
          rw [update_of_ne hkk]
          exact h.absent k' hk'
      · exact h

omit [DecidableEq ι] in
/-- Starting a request changes the disk, or panics. -/
theorem idestart_eq (c : Cache ι α) (b : BufId) :
    ∃ D e, idestart c b = { c with disk := D, panic := e } := by
  unfold idestart
  split
  · exact ⟨_, _, rfl⟩
  · split
    · exact ⟨_, _, rfl⟩
    · split <;> exact ⟨_, _, rfl⟩

omit [DecidableEq ι] in
@[simp] theorem idestart_buf (c : Cache ι α) (b : BufId) : (idestart c b).buf = c.buf := by
  obtain ⟨D, e, h⟩ := idestart_eq c b
  rw [h]

omit [DecidableEq ι] in
@[simp] theorem idestart_idequeue (c : Cache ι α) (b : BufId) :
    (idestart c b).idequeue = c.idequeue := by
  obtain ⟨D, e, h⟩ := idestart_eq c b
  rw [h]

omit [DecidableEq ι] in
@[simp] theorem idestart_use (c : Cache ι α) (b : BufId) : (idestart c b).use = c.use := by
  obtain ⟨D, e, h⟩ := idestart_eq c b
  rw [h]

omit [DecidableEq ι] in
@[simp] theorem idestart_pc (c : Cache ι α) (b : BufId) : (idestart c b).pc = c.pc := by
  obtain ⟨D, e, h⟩ := idestart_eq c b
  rw [h]

/-- A process that has put its request into the queue waits for it. -/
theorem enqueue_eq (c : Cache ι α) (p : ι) (b : BufId) (r : Option Key) :
    ∃ D e, enqueue c p b r =
      { c.setPc p (.wait b r) with idequeue := c.idequeue ++ [b], disk := D, panic := e } := by
  unfold enqueue
  dsimp only
  split
  · exact idestart_eq ..
  · exact ⟨_, _, rfl⟩

omit [DecidableEq ι] in
theorem idestart_disk {k : Key} (hk : (c.buf b).block = some k)
    (hd : (c.buf b).dirty = true) (hp : (idestart c b).panic = none) :
    (idestart c b).disk k = (c.buf b).data := by
  unfold idestart at hp ⊢
  rw [hk] at hp ⊢
  dsimp only at hp ⊢
  split
  · rename_i hbig
    simp [hbig, Cache.fail] at hp
  · exact update_self ..

omit [DecidableEq ι] in
/-- Once its first request is started the queue is in order. -/
theorem Base.started (h : Base L c) {l : List BufId}
    (hq : c.idequeue = b :: l) : CacheOk L (Bio.idestart c b) := by
  refine { h.idestart (b := b) (by simp [hq]) with active := fun hpan b' rest' k hq' hk hd => ?_ }
  rw [idestart_idequeue, hq, List.cons.injEq] at hq'
  obtain rfl := hq'.1
  rw [idestart_buf] at hk hd ⊢
  exact idestart_disk hk hd hpan

theorem CacheOk.enqueue (h : CacheOk L c)
    (hp : c.pc p = .iderw b r) (hv : (c.buf b).valid = true → (c.buf b).dirty = true) :
    CacheOk L (enqueue c p b r) := by
  have hat : At L c p (.iderw b r) := hp ▸ h.at_ p
  have huse : c.use p b = .clean := hat.use_iderw
  have hnot : b ∉ c.idequeue := h.not_queued (p := p) (by simp [huse]) (by simp [hp])
  have hmove : CacheOk L (c.setPc p (.wait b r)) := by
    refine h.step_pc (by simp [hp]) (fun _ => trivial) ?_ ?_ (by simp [hp])
    · cases r with
      | none => exact hat
      | some k => exact hat
    · intro b' hb'
      rw [hp] at hb'
      cases r with
      | none => simp at hb'
      | some k => exact Or.inl hb'
  have hbase : Base L { c.setPc p (.wait b r) with idequeue := c.idequeue ++ [b] } := by
    refine { hmove with
      lock := lock_same hmove.lock rfl rfl fun _ => rfl
      nodup := ?_
      queued := ?_ }
    · exact List.nodup_append.mpr ⟨h.nodup, List.nodup_singleton b, by
        intro b₁ h₁ b₂ h₂
        rw [List.mem_singleton.mp h₂]
        rintro rfl
        exact hnot h₁⟩
    · intro b' hb'
      rcases List.mem_append.mp hb' with hb' | hb'
      · exact hmove.queued b' hb'
      · obtain rfl := List.mem_singleton.mp hb'
        exact ⟨⟨p, r, by simp⟩, hv⟩
  unfold Bio.enqueue
  cases hq : c.idequeue with
  | nil => simpa using (hq ▸ hbase).started (b := b) (l := []) (by simp)
  | cons b₀ rest =>
    have hne : b₀ ≠ b := by
      rintro rfl
      exact hnot (by simp [hq])
    simp only [List.cons_append, List.head?_cons, Option.some.injEq, if_neg hne]
    refine { hq ▸ hbase with active := fun hpan b' rest' k hq' hk hd => ?_ }
    obtain rfl : b₀ = b' := (List.cons.inj hq').1
    exact h.active hpan b₀ rest k hq hk hd

omit [DecidableEq ι] in
/-- The interrupt handler is done with the buffer at the head. -/
theorem CacheOk.finish (h : CacheOk L c) (hpan : c.panic = none) (hq : c.idequeue = b :: rest) :
    Base L { c.setBuf b (finished c b) with idequeue := rest } := by
  have hmem : b ∈ c.idequeue := by simp [hq]
  obtain ⟨⟨p, r, hp⟩, hvd⟩ := h.queued b hmem
  have hat : At L c p (.wait b r) := hp ▸ h.at_ p
  have huse : c.use p b = .clean := hat.use_wait
  obtain ⟨k, hk⟩ := h.block_of_use (p := p) (b := b) (by simp [huse])
  have hbusy := h.busy_of_use (p := p) (b := b) (by simp [huse])
  have hs := h.slot b k hk
  have hnd : b ∉ rest ∧ rest.Nodup := List.nodup_cons.mp (hq ▸ h.nodup)
  -- a write has put the contents on disk, a read takes them from there
  have hdata : (finished c b).data = c.disk k := by
    show (if (c.buf b).dirty then (c.buf b).data else onDisk c b) = c.disk k
    split
    · rename_i hd
      exact (h.active hpan b rest k hq hk hd).symm
    · simp [onDisk, hk]
  have hc : Changes c { c.setBuf b (finished c b) with idequeue := rest } p b :=
    { buf := fun b' hb => update_of_ne hb ..
      use := fun _ _ _ => rfl
      pc := fun _ _ => rfl
      disk := rfl
      own := fun q hq => h.one q p b hq (by simp [huse])
      wait := fun _ _ hr => hr
      gets := fun _ _ hg => hg
      queue := fun b' hb' => ⟨by simp [hq, hb'], fun hb => hnd.1 (hb ▸ hb')⟩ }
  have hbuf : ({ c.setBuf b (finished c b) with idequeue := rest } : Cache ι α).buf b
      = finished c b := update_self ..
  refine h.toBase.changes hc (lock_same h.lock rfl rfl fun b' => ?_) h.listed hnd.2 ?_ ?_ ?_ ?_ ?_ ?_
    ?_
  · by_cases hb : b' = b
    · rw [hb, hbuf]
      rfl
    · rw [hc.buf b' hb]
  · rw [hbuf]
    exact fun hn => absurd (hk.symm.trans hn) (by simp)
  · rw [hbuf]
    exact fun b' k' hb hk' hb' => hb (h.inj b' b k' hb' hk')
  · rw [hbuf]
    exact fun k' hk' => ⟨rfl, fun hbk => absurd hbk hk'⟩
  · rw [hbuf]
    exact iff_of_true hbusy (by show c.use p b ≠ .none; simp [huse])
  · rw [hbuf]
    intro k' hk'
    obtain rfl : k = k' := Option.some.inj (hk.symm.trans hk')
    refine ⟨fun hf => ?_, fun _ _ _ => hdata, by simp [finished]⟩
    exact absurd (hbusy.symm.trans hf) (by simp)
  · show At L _ p (c.pc p)
    rw [hp]
    cases r with
    | none => exact huse
    | some k' =>
      obtain ⟨-, hk', hgot⟩ := hat
      obtain rfl : k = k' := Option.some.inj (hk.symm.trans hk')
      refine ⟨huse, by rw [hbuf]; exact hk, fun _ => ?_⟩
      rw [hbuf]
      by_cases hv : (c.buf b).valid = true
      · exact (if_pos (hvd hv)).trans (hgot hv)
      · exact hdata.trans (hs.fresh (by simpa using hv)).2
  · rw [hbuf]
    exact fun _ _ => rfl

omit [DecidableEq ι] in
theorem CacheOk.ideintr (h : CacheOk L c) (hpan : c.panic = none) : CacheOk L (ideintr c) := by
  unfold Bio.ideintr
  cases hq : c.idequeue with
  | nil => exact h
  | cons b rest =>
    have hbase := h.finish hpan hq
    cases rest with
    | nil => exact { hbase with active := fun _ b' rest' k hq' => by simp at hq' }
    | cons b' rest' => exact hbase.started rfl

/-! ## Every step -/

omit [DecidableEq ι] in
theorem CacheOk.fail (h : CacheOk L c) (e : Panic) : CacheOk L (c.fail e) :=
  { h with
    lock := lock_same h.lock rfl rfl fun _ => rfl
    active := by simp [Cache.fail] }

/-- **The step lemma**, for all steps but the one that ends the use of a buffer. -/
theorem CacheOk.step (h : CacheOk L c) (hs : Steps c p c') (hne : ∀ b, c.pc p ≠ .relink b) :
    CacheOk L c' := by
  have hat := h.at_ p
  cases hs with
  | bread hp =>
    exact h.step_pc (by simp [hp]) (fun _ => trivial) trivial (by simp [hp])
      (by simp [hp])
  | logWrite hp hb =>
    exact h.step_pc (by simp [hp]) (fun _ => trivial) hb (by simp [hp])
      (by simp [hp])
  | modify f hp hb => exact h.modify f hp hb
  | bwrite hp hb =>
    exact h.setDirty hb (by simp [hp]) (by simp [hp]) (by simp [hp])
      (Or.inl rfl)
  | brelse hp hb =>
    exact h.step_pc (by simp [hp]) (fun _ => trivial) hb (by simp [hp])
      (by simp [hp])
  | panic e => exact h.fail e
  | lock hp hl =>
    refine h.goto (h.lock_take hl rfl rfl rfl ?_) trivial (by simp [hp]) (by simp [hp])
    exact fun b hb => absurd (h.listed b) hb
  | @scanned k hp =>
    refine h.step_pc (by simp [hp]) (fun hsc => ?_) trivial (by simp [hp])
      (by simp [hp])
    rw [hp] at hsc
    exact fun b => hsc b (List.not_mem_nil)
  | @next k b rest hp hb =>
    refine h.step_pc (by simp [hp]) (fun hsc => ?_) trivial (by simp [hp])
      (by simp [hp])
    rw [hp] at hsc
    intro b' hb'
    by_cases hbb : b' = b
    · rwa [hbb]
    · exact hsc b' (by simp [hbb, hb'])
  | sleep hp =>
    exact h.goto (h.lock_drop (by simp [hp]) rfl rfl rfl) trivial
      (by simp [hp]) (by simp [hp])
  | hit hp hb hfree => exact h.hit hp hb hfree
  | skip hp =>
    refine h.step_pc (by simp [hp]) (fun hsc => ?_) trivial (by simp [hp])
      (by simp [hp])
    rw [hp] at hsc
    exact hsc
  | recycle hp hfree hclean => exact h.recycle hp hfree hclean
  | bgot hp =>
    rw [hp] at hat
    exact h.goto (h.lock_drop (by simp [hp]) rfl rfl rfl) hat
      (by simp [hp]) (by simp [hp])
  | valid hp hv =>
    rw [hp] at hat
    refine h.step_pc (by simp [hp]) (fun _ => trivial) hat.1 ?_ (by simp [hp])
    intro b hb
    obtain rfl : _ = b := by simpa [hp] using hb
    exact Or.inr hv
  | read hp hv =>
    rw [hp] at hat
    exact h.step_pc (by simp [hp]) (fun _ => trivial) hat (by simp [hp])
      (by simp [hp])
  | enqueue hp hv => exact h.enqueue hp hv
  | @done b r hp hv hd =>
    rw [hp] at hat
    refine h.step_pc (by simp [hp]) (fun _ => trivial) ?_ ?_ ?_
    · cases r with
      | none => trivial
      | some k => exact hat.1
    · intro b' hb'
      rw [hp] at hb'
      cases r with
      | none => simp at hb'
      | some k =>
        obtain rfl : b = b' := by simpa using hb'
        exact Or.inr hv
    · intro b' r' hb' hmem
      obtain ⟨rfl, -⟩ : b = b' ∧ r = r' := by simpa [hp] using hb'
      exact absurd ((h.queued b hmem).2 hv) (by simp [hd])
  | relock hp hl =>
    rw [hp] at hat
    exact h.goto (h.lock_take hl rfl rfl rfl trivial) hat (by simp [hp]) (by simp [hp])
  | relink hp => exact absurd hp (hne _)
  | brelsed hp =>
    exact h.goto (h.lock_drop (by simp [hp]) rfl rfl rfl) trivial
      (by simp [hp]) (by simp [hp])
  | pin hp =>
    rw [hp] at hat
    exact h.setDirty hat (by simp [hp]) (by simp [hp]) (by simp [hp])
      (Or.inr rfl)

/-! ## What is left in a block -/

/-- The contents of the block `k` if its buffer is released between `c` and `c'`. -/
def released (c c' : Cache ι α) (k : Key) : Option α :=
  ((List.finRange NBUF).find? fun b =>
    (c.buf b).block = some k && ((c.buf b).busy && !(c'.buf b).busy)).map fun b => (c.buf b).data

/-- The contents of the blocks after a step. -/
def leave (L : Key → α) (c c' : Cache ι α) (k : Key) : α := (released c c' k).getD (L k)

omit [DecidableEq ι] in
theorem leave_of_busy (h : ∀ b, (c.buf b).busy = true → (c'.buf b).busy = true) :
    leave L c c' = L := by
  funext k
  have : released c c' k = none := by
    simp only [released, Option.map_eq_none_iff, List.find?_eq_none]
    intro b _ hb
    simp only [Bool.and_eq_true, Bool.not_eq_true', decide_eq_true_eq] at hb
    rw [h b hb.2.1] at hb
    exact absurd hb.2.2 (by simp)
  rw [leave, this, Option.getD_none]

omit [DecidableEq ι] in
theorem leave_of_release (h : Base L c) {k : Key} (hk : (c.buf b).block = some k)
    (hb : (c.buf b).busy = true) (hb' : (c'.buf b).busy = false)
    (hothers : ∀ b', b' ≠ b → (c'.buf b').busy = (c.buf b').busy) :
    leave L c c' = Function.update L k (c.buf b).data := by
  have hfind : ∀ k', released c c' k' = if k' = k then some (c.buf b).data else none := by
    intro k'
    split
    · rename_i hkk
      subst hkk
      have hex : ((List.finRange NBUF).find? fun b =>
          (c.buf b).block = some k' && ((c.buf b).busy && !(c'.buf b).busy)) ≠ none := by
        rw [Ne, List.find?_eq_none]
        intro hall
        exact hall b (List.mem_finRange b) (by simp [hk, hb, hb'])
      obtain ⟨b', hfound⟩ := Option.ne_none_iff_exists'.mp hex
      have hb'' := List.find?_some hfound
      simp only [Bool.and_eq_true, decide_eq_true_eq] at hb''
      rw [released, hfound, h.inj b' b k' hb''.1 hk]
      rfl
    · rename_i hkk
      simp only [released, Option.map_eq_none_iff, List.find?_eq_none]
      intro b' _ hcon
      simp only [Bool.and_eq_true, Bool.not_eq_true', decide_eq_true_eq] at hcon
      obtain ⟨hblk, hbusy, hfree⟩ := hcon
      by_cases hbb : b' = b
      · rw [hbb, hk, Option.some.injEq] at hblk
        exact hkk hblk.symm
      · rw [hothers b' hbb, hbusy] at hfree
        exact absurd hfree (by simp)
  funext k'
  rw [leave, hfind, update_apply]
  split <;> rfl

omit [DecidableEq ι] in
/-- The interrupt handler neither takes nor frees a buffer. -/
theorem ideintr_buf (c : Cache ι α) (b : BufId) :
    ((ideintr c).buf b).busy = (c.buf b).busy ∧ ((ideintr c).buf b).block = (c.buf b).block := by
  unfold ideintr
  cases c.idequeue with
  | nil => exact ⟨rfl, rfl⟩
  | cons b' rest =>
    have hset : ((c.setBuf b' (finished c b')).buf b).busy = (c.buf b).busy ∧
        ((c.setBuf b' (finished c b')).buf b).block = (c.buf b).block := by
      rw [setBuf_buf]
      split
      · rename_i hb
        rw [hb]
        exact ⟨rfl, rfl⟩
      · exact ⟨rfl, rfl⟩
    cases rest with
    | nil => exact hset
    | cons b'' rest' =>
      rw [idestart_buf]
      exact hset

/-- Only `brelse` clears `B_BUSY`. -/
theorem Steps.busy (hs : Steps c p c') (hne : ∀ b, c.pc p ≠ .relink b) (b : BufId)
    (hb : (c.buf b).busy = true) : (c'.buf b).busy = true := by
  have hset : ∀ (b' : BufId) (x : Buf α), (b = b' → x.busy = true) →
      ((c.setBuf b' x).buf b).busy = true := by
    intro b' x hx
    rw [setBuf_buf]
    split
    · rename_i hbb
      exact hx hbb
    · exact hb
  cases hs with
  | modify f hp hb' => exact hset _ _ fun hbb => hbb ▸ hb
  | bwrite hp hb' => exact hset _ _ fun hbb => hbb ▸ hb
  | pin hp => exact hset _ _ fun hbb => hbb ▸ hb
  | hit hp hb' hfree => exact hset _ _ fun _ => rfl
  | recycle hp hfree hclean => exact hset _ _ fun _ => rfl
  | enqueue hp hv =>
    obtain ⟨D, e, henq⟩ := enqueue_eq c p _ _
    rw [henq]
    exact hb
  | relink hp => exact absurd hp (hne _)
  | _ => exact hb

/-- **Every step of a process** keeps the relation to the contents of the blocks. -/
theorem CacheOk.run (h : CacheOk L c) (hs : Steps c p c') : CacheOk (leave L c c') c' := by
  by_cases hne : ∀ b, c.pc p ≠ .relink b
  · rw [leave_of_busy (hs.busy hne)]
    exact h.step hs hne
  · push Not at hne
    obtain ⟨b, hp⟩ := hne
    have huse : c.use p b = .clean := by
      have := h.at_ p
      rwa [hp] at this
    obtain ⟨k, hk⟩ := h.block_of_use (p := p) (b := b) (by simp [huse])
    have hbusy := h.busy_of_use (p := p) (b := b) (by simp [huse])
    cases hs with
    | panic e =>
      have hsame : leave L c (c.fail e) = L := leave_of_busy fun _ hb => hb
      rw [hsame]
      exact h.fail e
    | relink hp' =>
      obtain rfl : b = _ := by simpa [hp] using hp'
      rw [leave_of_release h.toBase hk hbusy]
      · exact h.relink hp hk
      · show ((c.setBuf b _).buf b).busy = false
        simp
      · intro b' hne
        show ((c.setBuf b _).buf b').busy = (c.buf b').busy
        simp [hne]
    | _ => simp_all

/-- A buffer that is dirty keeps its block. -/
theorem Steps.block_of_dirty (hs : Steps c p c') (hd : (c.buf b).dirty = true) :
    (c'.buf b).block = (c.buf b).block := by
  have hset : ∀ (b' : BufId) (x : Buf α), (b = b' → x.block = (c.buf b).block) →
      ((c.setBuf b' x).buf b).block = (c.buf b).block := by
    intro b' x hx
    rw [setBuf_buf]
    split
    · rename_i hbb
      exact hx hbb
    · rfl
  cases hs with
  | modify f hp hb' => exact hset _ _ fun hbb => hbb ▸ rfl
  | bwrite hp hb' => exact hset _ _ fun hbb => hbb ▸ rfl
  | pin hp => exact hset _ _ fun hbb => hbb ▸ rfl
  | hit hp hb' hfree => exact hset _ _ fun hbb => hbb ▸ rfl
  | recycle hp hfree hclean =>
    refine hset _ _ fun hbb => ?_
    subst hbb
    exact absurd (hd.symm.trans hclean) (by simp)
  | relink hp => exact hset _ _ fun hbb => hbb ▸ rfl
  | enqueue hp hv =>
    obtain ⟨D, e, henq⟩ := enqueue_eq c p _ _
    rw [henq]
    rfl
  | _ => rfl

/-! ## When a block reaches the disk -/

variable {k : Key}

/-- No write of the block `k` is under way. -/
def Quiet (k : Key) (c : Cache ι α) : Prop :=
  ∀ b, (c.buf b).block = some k → (c.buf b).dirty = true →
    b ∉ c.idequeue ∧ ∀ p r, c.pc p ≠ .iderw b r

/-- `p` calls `bwrite(b)`. -/
def CallsBwrite (c c' : Cache ι α) (p : ι) (b : BufId) : Prop :=
  (∃ r, c.pc p = .idle r) ∧ c'.pc p = .iderw b none

omit [DecidableEq ι] in
/-- Only the holder of a buffer asks for it to be written. -/
theorem Base.quiet_buf (h : Base L c) (hb : c.use p b ≠ .none)
    (hp : ∀ r, c.pc p ≠ .wait b r) (hp' : ∀ r, c.pc p ≠ .iderw b r) :
    b ∉ c.idequeue ∧ ∀ q r, c.pc q ≠ .iderw b r := by
  refine ⟨h.not_queued hb hp, fun q r hq => ?_⟩
  have hclean : c.use q b = .clean := At.use_iderw (hq ▸ h.at_ q)
  obtain rfl : q = p := h.one q p b (by simp [hclean]) hb
  exact hp' r hq

omit [DecidableEq ι] in
theorem Base.quiet (h : Base L c) {r : Option BufId} (hb : c.use p b ≠ .none)
    (hk : (c.buf b).block = some k) (hp : c.pc p = .idle r) : Quiet k c := by
  intro b' hk' _
  obtain rfl : b' = b := h.inj b' b k hk' hk
  exact h.quiet_buf hb (by simp [hp]) (by simp [hp])

theorem Quiet.goto (hq : Quiet k c) {w : Pc} {l : Option ι}
    (hpc : ∀ b r, w = .iderw b r → (c.buf b).block = some k → (c.buf b).dirty = false) :
    Quiet k { c.setPc p w with lock := l } := by
  intro b hk hd
  obtain ⟨h1, h2⟩ := hq b hk hd
  refine ⟨h1, fun q r hqr => ?_⟩
  change (c.setPc p w).pc q = .iderw b r at hqr
  rw [setPc_pc] at hqr
  split at hqr
  · exact absurd (hd.symm.trans (hpc b r hqr hk)) (by simp)
  · exact h2 q r hqr

theorem Quiet.update (hq : Quiet k c) {u : Use}
    (hx : x.block = some k → x.dirty = true → b ∉ c.idequeue ∧ ∀ q r, c.pc q ≠ .iderw b r)
    (hpc : ∀ b' r, pc = .iderw b' r → b' = b ∧ x.block ≠ some k) :
    Quiet k (((c.setBuf b x).setUse p b u).setPc p pc) := by
  intro b' hk hd
  simp only [setPc_buf, setUse_buf, setBuf_buf] at hk hd
  have hold : b' ∉ c.idequeue ∧ ∀ q r, c.pc q ≠ .iderw b' r := by
    split at hk
    · rename_i hb
      rw [if_pos hb] at hd
      exact hb ▸ hx hk hd
    · rename_i hb
      rw [if_neg hb] at hd
      exact hq b' hk hd
  refine ⟨hold.1, fun q r hqr => ?_⟩
  rw [setPc_pc] at hqr
  split at hqr
  · obtain ⟨rfl, hne⟩ := hpc b' r hqr
    rw [if_pos rfl] at hk
    exact hne hk
  · exact hold.2 q r hqr

omit [DecidableEq ι] in
theorem idestart_disk_other (h : (c.buf b).block = some k → (c.buf b).dirty = false) :
    (idestart c b).disk k = c.disk k := by
  unfold idestart
  split
  · rfl
  · rename_i k' hk'
    split
    · rfl
    · split
      · rename_i hd
        refine update_of_ne ?_ _ _
        rintro rfl
        rw [hd] at h
        exact absurd (h hk') (by simp)
      · rfl

omit [DecidableEq ι] in
theorem Quiet.idestart (hq : Quiet k c) (b : BufId) : Quiet k (Bio.idestart c b) := by
  intro b' hk hd
  rw [idestart_buf] at hk hd
  rw [idestart_idequeue, idestart_pc]
  exact hq b' hk hd

theorem Quiet.enqueue (hq : Quiet k c) (hp : c.pc p = .iderw b r) :
    Quiet k (enqueue c p b r) ∧ (enqueue c p b r).disk k = c.disk k := by
  have hclean : (c.buf b).block = some k → (c.buf b).dirty = false := by
    intro hk
    by_contra hd
    exact (hq b hk (by simpa using hd)).2 p r hp
  have hmoved : Quiet k { c.setPc p (.wait b r) with idequeue := c.idequeue ++ [b] } := by
    intro b' hk hd
    have hbb : b' ≠ b := by
      rintro rfl
      exact absurd (hd.symm.trans (hclean hk)) (by simp)
    obtain ⟨h1, h2⟩ := (hq.goto (p := p) (w := .wait b r) (l := c.lock) (by simp)) b' hk hd
    have hold : b' ∉ c.idequeue := h1
    exact ⟨by simp [hbb, hold], h2⟩
  unfold Bio.enqueue
  dsimp only
  split
  · exact ⟨hmoved.idestart b, idestart_disk_other hclean⟩
  · exact ⟨hmoved, rfl⟩

omit [DecidableEq ι] in
theorem Quiet.ideintr (hq : Quiet k c) : Quiet k (ideintr c) ∧ (ideintr c).disk k = c.disk k := by
  unfold Bio.ideintr
  cases hqueue : c.idequeue with
  | nil => exact ⟨hq, rfl⟩
  | cons b rest =>
    have hmoved : Quiet k { c.setBuf b (finished c b) with idequeue := rest } := by
      intro b' hk hd
      change ((c.setBuf b (finished c b)).buf b').block = some k at hk
      change ((c.setBuf b (finished c b)).buf b').dirty = true at hd
      rw [setBuf_buf] at hk hd
      split at hd
      · simp [finished] at hd
      · rename_i hbb
        rw [if_neg hbb] at hk
        obtain ⟨h1, h2⟩ := hq b' hk hd
        exact ⟨fun hmem => h1 (by simp [hqueue, hmem]), h2⟩
    cases rest with
    | nil => exact ⟨hmoved, rfl⟩
    | cons b' rest' =>
      refine ⟨hmoved.idestart b', ?_⟩
      refine idestart_disk_other fun hk => ?_
      by_contra hd
      exact (hmoved b' hk (by simpa using hd)).1 (by simp)

/-- **A block stays as it is on disk** until `bwrite` is called for it. -/
theorem Quiet.step (hq : Quiet k c) (h : CacheOk L c) (hs : Steps c p c')
    (hb : ∀ b, (c.buf b).block = some k → ¬ CallsBwrite c c' p b) :
    Quiet k c' ∧ c'.disk k = c.disk k := by
  cases hs with
  | modify f hp hb' => exact ⟨hq.update (fun hk hd => hq _ hk hd) (by simp), rfl⟩
  | @bwrite r b hp hb' =>
    have hne : (c.buf b).block ≠ some k := fun hk => hb b hk ⟨⟨r, hp⟩, by simp⟩
    refine ⟨hq.update (fun hk => absurd hk hne) (fun b' r' hpc => ?_), rfl⟩
    obtain ⟨rfl, -⟩ : b = b' ∧ none = r' := by simpa using hpc
    exact ⟨rfl, hne⟩
  | pin hp =>
    have hat := h.at_ p
    rw [hp] at hat
    exact ⟨hq.update (fun _ _ => h.quiet_buf hat (by simp [hp]) (by simp [hp])) (by simp), rfl⟩
  | hit hp hb' hfree => exact ⟨hq.update (fun hk hd => hq _ hk hd) (by simp), rfl⟩
  | recycle hp hfree hclean => exact ⟨hq.update (by simp [recycled]) (by simp), rfl⟩
  | relink hp => exact ⟨hq.update (fun hk hd => hq _ hk hd) (by simp), rfl⟩
  | enqueue hp hv => exact hq.enqueue hp
  | @read k' b hp hv =>
    refine ⟨hq.goto (l := c.lock) fun b' r hpc hk => ?_, rfl⟩
    obtain ⟨rfl, -⟩ : b = b' ∧ some k' = r := by simpa using hpc
    exact ((h.slot b k hk).fresh hv).1
  | panic e => exact ⟨hq, rfl⟩
  | lock hp hl | relock hp hl => exact ⟨hq.goto (by simp), rfl⟩
  | sleep hp | bgot hp | brelsed hp => exact ⟨hq.goto (by simp), rfl⟩
  | _ => exact ⟨hq.goto (l := c.lock) (by simp), rfl⟩

end StrideXv6.Bio
