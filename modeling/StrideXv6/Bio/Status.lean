import StrideXv6.Bio.System

set_option autoImplicit false

/-! # Disk statuses

`ideintr` asks `idewait(1)` whether the disk reports an error, and then does not read the data; but
it marks the buffer as valid in any case, and `iderw` only looks at that flag. Here the interrupt
comes with the statuses that `idewait` reads, and processes use the cache in any order.

A failed read leaves the cache incoherent, so the invariant of `Coherence` cannot be about the disk
as it is. It is about a disk that has what was last read or left in each block (`Shadowed`): the
structure of the cache does not depend on contents. `Reading` then says what a process that waits
for a read can rely on, and `bread_disk_iff` when that is the contents of the disk.
-/

namespace StrideXv6.Bio.Status

open Runs Function

variable {ι α : Type} [DecidableEq ι]
variable {rest : List BufId} {x : α}

/-! ## ide.c -/

def IDE_BSY : BitVec 8 := 0x80
def IDE_DRDY : BitVec 8 := 0x40
def IDE_DF : BitVec 8 := 0x20
def IDE_ERR : BitVec 8 := 0x01

/-- `idewait(checkerr)`, which reads the statuses `rs`: `some false` for -1, and `none` if the disk
has not become ready. -/
def idewait (checkerr : Bool) : List (BitVec 8) → Option Bool
  | [] => none
  | r :: rs =>
    if r &&& (IDE_BSY ||| IDE_DRDY) ≠ IDE_DRDY then idewait checkerr rs
    else if checkerr ∧ r &&& (IDE_DF ||| IDE_ERR) ≠ 0 then some false
    else some true

/-- The request for `b` is done, with `x` in the buffer. -/
def completed (c : Cache ι α) (b : BufId) (rest : List BufId) (x : α) : Cache ι α :=
  { c.setBuf b { c.buf b with data := x, valid := true, dirty := false } with idequeue := rest }

/-- The end of `ideintr`. -/
def finish (c : Cache ι α) (b : BufId) (rest : List BufId) (x : α) : Cache ι α :=
  match rest with
  | [] => completed c b rest x
  | b' :: _ => idestart (completed c b rest x) b'

/-- `ideintr()`; it does not return before the disk is ready. -/
def ideintr (c : Cache ι α) (rs : List (BitVec 8)) : Option (Cache ι α) :=
  match c.idequeue with
  | [] => some c
  | b :: rest =>
    if (c.buf b).dirty then some (finish c b rest (c.buf b).data)
    else (idewait true rs).map fun ok =>
      finish c b rest (if ok then onDisk c b else (c.buf b).data)

/-! ## Runs -/

inductive Event (ι α : Type) where
  | call (p : ι) (a : Call α)
  /-- the next step inside of the function called -/
  | run (p : ι)
  | ideintr (rs : List (BitVec 8))

/-- A call for a buffer that the process has. It may release one that it has changed. -/
def callStep (c : Cache ι α) (p : ι) : Call α → Option (Cache ι α)
  | .bread k => some (bread c p k)
  | .modify b f => if c.use p b ≠ .none then some (modify c p b f) else none
  | .bwrite b => if c.use p b ≠ .none then some (bwrite c p b) else none
  | .brelse b => if c.use p b ≠ .none then some (brelse (c.setUse p b .clean) p b) else none
  | .logWrite b => if c.use p b ≠ .none then some (c.setPc p (.record b)) else none

def runStep (c : Cache ι α) (p : ι) : Option (Cache ι α) :=
  match c.pc p with
  | .record b => some (pin c p b)
  | _ => advance c p

/-- One step; nothing happens after a panic. -/
def step (c : Cache ι α) (e : Event ι α) : Option (Cache ι α) :=
  if c.panic ≠ none then none
  else
    match e with
    | .call p a => if (c.pc p).isIdle then callStep c p a else none
    | .run p => runStep c p
    | .ideintr rs => ideintr c rs

/-! ## Another disk -/

variable {L : Key → α} {c c' : Cache ι α} {p q : ι} {b : BufId} {k : Key}

/-- The same cache with the disks `D`. -/
def onto (c : Cache ι α) (D : Key → α) : Cache ι α := { c with disk := D }

omit [DecidableEq ι] in
theorem idestart_onto (c : Cache ι α) (b : BufId) (D : Key → α) :
    ∃ D', idestart (onto c D) b = onto (idestart c b) D' := by
  unfold idestart
  rw [show (onto c D).buf = c.buf from rfl]
  cases (c.buf b).block with
  | none => exact ⟨D, rfl⟩
  | some k =>
    dsimp only
    split
    · exact ⟨D, rfl⟩
    · cases (c.buf b).dirty with
      | true => exact ⟨_, rfl⟩
      | false => exact ⟨D, rfl⟩

omit [DecidableEq ι] in
theorem finish_onto (c : Cache ι α) (b : BufId) (rest : List BufId) (x : α) (D : Key → α) :
    ∃ D', finish (onto c D) b rest x = onto (finish c b rest x) D' := by
  cases rest with
  | nil => exact ⟨D, rfl⟩
  | cons b' rest => exact idestart_onto (completed c b (b' :: rest) x) b' D

omit [DecidableEq ι] in
/-- The interrupt handler of `Cache`, which knows no errors. -/
theorem ideintr_eq_finish (hq : c.idequeue = b :: rest) :
    Bio.ideintr c = finish c b rest (finished c b).data := by
  unfold Bio.ideintr
  rw [hq]
  rfl

/-- No step of a process reads the disk. -/
theorem steps_onto (hs : Steps c p c') (D : Key → α) :
    ∃ D', Steps (onto c D) p (onto c' D') := by
  cases hs with
  | @enqueue b r hp hv =>
    have hst : Steps (onto c D) p (enqueue (onto c D) p b r) := .enqueue hp hv
    let c₁ := { c.setPc p (.wait b r) with idequeue := c.idequeue ++ [b] }
    have heq : ∃ D', enqueue (onto c D) p b r = onto (enqueue c p b r) D' := by
      by_cases hh : (c.idequeue ++ [b]).head? = some b
      · have h₁ : enqueue c p b r = idestart c₁ b := if_pos hh
        have h₂ : enqueue (onto c D) p b r = idestart (onto c₁ D) b := if_pos hh
        rw [h₁, h₂]
        exact idestart_onto c₁ b D
      · have h₁ : enqueue c p b r = c₁ := if_neg hh
        have h₂ : enqueue (onto c D) p b r = onto c₁ D := if_neg hh
        exact ⟨D, by rw [h₁, h₂]⟩
    obtain ⟨D', heq⟩ := heq
    exact ⟨D', heq ▸ hst⟩
  | bread hp => exact ⟨D, .bread hp⟩
  | modify f hp hb => exact ⟨D, .modify f hp hb⟩
  | bwrite hp hb => exact ⟨D, .bwrite hp hb⟩
  | brelse hp hb => exact ⟨D, .brelse hp hb⟩
  | logWrite hp hb => exact ⟨D, .logWrite hp hb⟩
  | panic e => exact ⟨D, .panic e⟩
  | lock hp hl => exact ⟨D, .lock hp hl⟩
  | scanned hp => exact ⟨D, .scanned hp⟩
  | next hp hb => exact ⟨D, .next hp hb⟩
  | sleep hp => exact ⟨D, .sleep hp⟩
  | hit hp hb hfree => exact ⟨D, .hit hp hb hfree⟩
  | skip hp => exact ⟨D, .skip hp⟩
  | recycle hp hfree hclean => exact ⟨D, .recycle hp hfree hclean⟩
  | bgot hp => exact ⟨D, .bgot hp⟩
  | valid hp hv => exact ⟨D, .valid hp hv⟩
  | read hp hv => exact ⟨D, .read hp hv⟩
  | done hp hv hd => exact ⟨D, .done hp hv hd⟩
  | relock hp hl => exact ⟨D, .relock hp hl⟩
  | relink hp => exact ⟨D, .relink hp⟩
  | brelsed hp => exact ⟨D, .brelsed hp⟩
  | pin hp => exact ⟨D, .pin hp⟩

/-! ## Changing what is in a block -/

omit [DecidableEq ι] in
/-- A block that a process has may be given the contents `x`, also on disk, if its buffer has them
or is not valid. -/
theorem revise (h : CacheOk L c) (hk : (c.buf b).block = some k)
    (hbusy : (c.buf b).busy = true) (hx : (c.buf b).valid = true → (c.buf b).data = x)
    (hq : (c.buf b).dirty = true → b ∉ c.idequeue) :
    CacheOk (Function.update L k x) (onto c (Function.update c.disk k x)) := by
  have hblock : ∀ b' k', (c.buf b').block = some k' → b' ≠ b → k' ≠ k := by
    rintro b' k' hk' hne rfl
    exact hne (h.inj b' b k' hk' hk)
  refine { h with lock := ?_, slot := ?_, absent := ?_, at_ := ?_, active := ?_ }
  · exact lock_same h.lock rfl rfl fun _ => rfl
  · intro b' k' hk'
    show Slot (Function.update L k x k') (Function.update c.disk k x k') _ (c.buf b')
    by_cases hb : b' = b
    · subst hb
      obtain rfl : k = k' := Option.some.inj (hk.symm.trans hk')
      rw [update_self, update_self]
      refine ⟨fun hfree => ?_, fun hv _ _ => hx hv, fun hv => ⟨((h.slot _ _ hk).fresh hv).1, rfl⟩⟩
      exact absurd (hbusy.symm.trans hfree) (by simp)
    · have hne := hblock b' k' hk' hb
      rw [update_of_ne hne, update_of_ne hne]
      exact h.slot b' k' hk'
  · intro k' hno
    have hne : k' ≠ k := by
      rintro rfl
      exact hno b hk
    show Function.update c.disk k x k' = Function.update L k x k'
    rw [update_of_ne hne, update_of_ne hne]
    exact h.absent k' hno
  · intro p
    refine (h.at_ p).map ?_ (fun _ hu => hu) fun _ hu => hu
    rintro k' b' ⟨hu, hk', hv⟩
    refine ⟨hu, hk', fun hvalid => ?_⟩
    show (c.buf b').data = Function.update L k x k'
    by_cases hb : b' = b
    · subst hb
      obtain rfl : k = k' := Option.some.inj (hk.symm.trans hk')
      rw [update_self]
      exact hx hvalid
    · rw [update_of_ne (hblock b' k' hk' hb)]
      exact hv hvalid
  · intro hpan b' rest k' hqueue hk' hd
    have hb : b' ≠ b := by
      rintro rfl
      exact hq hd (hqueue ▸ List.mem_cons_self)
    show Function.update c.disk k x k' = _
    rw [update_of_ne (hblock b' k' hk' hb)]
    exact h.active hpan b' rest k' hqueue hk' hd

/-- A process has a buffer as it is on disk. -/
theorem settle (h : CacheOk L c) (hb : c.use p b ≠ .none) (hk : (c.buf b).block = some k)
    (hd : c.disk k = (c.buf b).data) : CacheOk L (c.setUse p b .clean) := by
  have huse : ∀ q b', (c.setUse p b .clean).use q b' ≠ .none ↔ c.use q b' ≠ .none := by
    intro q b'
    rw [setUse_use]
    split
    · rename_i heq
      obtain ⟨rfl, rfl⟩ := heq
      simp [hb]
    · exact Iff.rfl
  refine { h with lock := ?_, busy := ?_, one := ?_, slot := ?_, at_ := ?_, loaded := ?_ }
  · exact lock_same h.lock rfl rfl fun _ => rfl
  · intro b'
    rw [setUse_buf, h.busy b']
    exact exists_congr fun q => (huse q b').symm
  · exact fun q q' b' hq hq' => h.one q q' b' ((huse q b').mp hq) ((huse q' b').mp hq')
  · intro b' k' hk'
    have hslot := h.slot b' k' hk'
    by_cases hbb : b' = b
    · subst hbb
      obtain rfl : k = k' := Option.some.inj (hk.symm.trans hk')
      exact ⟨hslot.free, fun _ _ _ => hd.symm, hslot.fresh⟩
    · refine ⟨hslot.free, fun hv hdirty hm => hslot.saved hv hdirty ?_, hslot.fresh⟩
      rintro ⟨q, hq⟩
      exact hm ⟨q, by rwa [setUse_use, if_neg fun heq => hbb heq.2]⟩
  · intro q
    have hclean : ∀ b', c.use q b' = .clean → (c.setUse p b .clean).use q b' = .clean := by
      intro b' hu
      rw [setUse_use]
      split
      · rfl
      · exact hu
    exact (h.at_ q).map (fun k' b' hg => ⟨hclean b' hg.1, hg.2⟩) hclean fun b' => (huse q b').mpr
  · exact fun q b' hu hg => h.loaded q b' ((huse q b').mp hu) hg

/-! ## The structure of the cache -/

/-- The cache is in order, but for what is on disk. -/
def Shadowed (c : Cache ι α) : Prop := ∃ L D, CacheOk L (onto c D)

theorem Shadowed.steps (h : Shadowed c) (hs : Steps c p c') : Shadowed c' := by
  obtain ⟨L, D, hok⟩ := h
  obtain ⟨D', hs'⟩ := steps_onto hs D
  exact ⟨_, D', hok.run hs'⟩

omit [DecidableEq ι] in
theorem onDisk_of_block (hk : (c.buf b).block = some k) : onDisk c b = c.disk k := by
  unfold onDisk
  rw [hk]

omit [DecidableEq ι] in
theorem Shadowed.finish (h : Shadowed c) (hpan : c.panic = none)
    (hq : c.idequeue = b :: rest) (hx : (c.buf b).dirty = true → x = (c.buf b).data) :
    Shadowed (finish c b rest x) := by
  obtain ⟨L, D, hok⟩ := h
  -- There is a disk from which the handler of `Cache` gets the same contents.
  have key : ∃ L₁ D₁, CacheOk L₁ (onto c D₁) ∧ (finished (onto c D₁) b).data = x := by
    cases hd : (c.buf b).dirty with
    | true => exact ⟨L, D, hok, (if_pos hd).trans (hx hd).symm⟩
    | false =>
      obtain ⟨⟨p, r, hp⟩, hv⟩ := hok.queued b (by show b ∈ c.idequeue; simp [hq])
      have hat := hok.at_ p
      rw [hp] at hat
      have hu : c.use p b ≠ .none := by simp [show c.use p b = .clean from hat.use_wait]
      have hinv : (c.buf b).valid ≠ true := fun hvalid => by
        rw [show (c.buf b).dirty = true from hv hvalid] at hd
        cases hd
      obtain ⟨k, hk⟩ := hok.block_of_use hu
      refine ⟨_, _, revise (c := onto c D) hok (x := x) hk (hok.busy_of_use hu) (fun h => absurd h hinv) ?_, ?_⟩
      · intro hdirty
        exact absurd (hdirty.symm.trans hd) (by simp)
      · show (if (c.buf b).dirty then (c.buf b).data else onDisk (onto c _) b) = x
        rw [hd, if_neg (by simp)]
        have hdisk := onDisk_of_block (c := onto c (Function.update D k x)) hk
        exact hdisk.trans (update_self ..)
  obtain ⟨L₁, D₁, hok₁, hdata⟩ := key
  have hnext := hok₁.ideintr hpan
  rw [ideintr_eq_finish (c := onto c D₁) hq, hdata] at hnext
  obtain ⟨D₂, heq⟩ := finish_onto c b rest x D₁
  exact ⟨L₁, D₂, heq ▸ hnext⟩

/-! ## Reads under way -/

/-- `p` is in `iderw(b)` to read the block `k`. -/
def Reads (c : Cache ι α) (p : ι) (b : BufId) (k : Key) : Prop :=
  c.pc p = .iderw b (some k) ∨ c.pc p = .wait b (some k)

/-- A buffer that is being read is not written, and has the contents of the disk once it is
valid. -/
def Reading (c : Cache ι α) : Prop :=
  ∀ p b k, Reads c p b k →
    (c.buf b).dirty = false ∧ ((c.buf b).valid = true → (c.buf b).data = c.disk k)

omit [DecidableEq ι] in
theorem Reads.getting (h : Reads c p b k) (hok : CacheOk L c) : Getting L c p k b := by
  have hat := hok.at_ p
  rcases h with h | h
  · rwa [h] at hat
  · rwa [h] at hat

/-- A step of `p` leaves the buffers of other processes as they are. -/
theorem steps_buf (hok : CacheOk L c) (hs : Steps c p c') (hq : c.use q b ≠ .none) (hqp : q ≠ p) :
    c'.buf b = c.buf b := by
  have hne : ∀ b', c.use p b' ≠ .none → b ≠ b' := by
    rintro b' hb' rfl
    exact hqp (hok.one q p b hq hb')
  have hfree : ∀ b', (c.buf b').busy = false → b ≠ b' := by
    rintro b' hb' rfl
    exact hq (hok.use_of_free hb' q)
  have hset : ∀ b' x, b ≠ b' → (c.setBuf b' x).buf b = c.buf b := fun b' x hbb => by
    rw [setBuf_buf, if_neg hbb]
  have hat := hok.at_ p
  cases hs with
  | modify f hp hb => exact hset _ _ (hne _ hb)
  | bwrite hp hb => exact hset _ _ (hne _ hb)
  | hit hp hb hf => exact hset _ _ (hfree _ hf)
  | recycle hp hf hclean => exact hset _ _ (hfree _ hf)
  | @relink b' hp =>
    rw [hp] at hat
    exact hset _ _ (hne b' (by simp [show c.use p b' = .clean from hat]))
  | pin hp =>
    rw [hp] at hat
    exact hset _ _ (hne _ hat)
  | enqueue hp hv =>
    obtain ⟨D, e, henq⟩ := enqueue_eq c p _ _
    rw [henq]
    rfl
  | _ => rfl

/-- A step writes no block but the one whose request it makes. -/
theorem steps_disk (hs : Steps c p c')
    (hk : ∀ b r, c.pc p = .iderw b r → (c.buf b).block = some k → (c.buf b).dirty = false) :
    c'.disk k = c.disk k := by
  cases hs with
  | @enqueue b r hp hv =>
    unfold enqueue
    dsimp only
    split
    · exact idestart_disk_other (hk b r hp)
    · rfl
  | _ => rfl

/-- Where a process that reads after its step was before it. -/
theorem steps_reads (hs : Steps c p c') (h : Reads c' p b k) :
    c'.buf b = c.buf b ∧ (Reads c p b k ∨ c.pc p = .check k b ∧ (c.buf b).valid = false) := by
  cases hs with
  | panic e => exact ⟨rfl, .inl h⟩
  | @read k' b' hp hv =>
    have heq : b' = b ∧ k' = k := by simpa [Reads] using h
    obtain ⟨rfl, rfl⟩ := heq
    exact ⟨rfl, .inr ⟨hp, hv⟩⟩
  | @enqueue b' r hp hv =>
    obtain ⟨D, e, henq⟩ := enqueue_eq c p b' r
    have heq : b' = b ∧ r = some k := by simpa [Reads, henq] using h
    obtain ⟨rfl, rfl⟩ := heq
    exact ⟨by rw [henq]; rfl, .inl (.inl hp)⟩
  | _ => simp [Reads, release, Bio.modify, Bio.relink, Bio.pin] at h

theorem Reading.steps (hr : Reading c) (h : Shadowed c) (hs : Steps c p c') : Reading c' := by
  obtain ⟨L, D, hok⟩ := h
  obtain ⟨D', hs'⟩ := steps_onto hs D
  intro q b k hq
  -- Before the step the process was reading as well, or has found the buffer not valid.
  have hbefore : c'.buf b = c.buf b ∧
      (Reads c q b k ∨ c.pc q = .check k b ∧ (c.buf b).valid = false) := by
    by_cases hqp : q = p
    · subst hqp
      exact steps_reads hs hq
    · have hreads : Reads c q b k := by
        rw [Reads, (hs.others hqp).1] at hq
        exact hq
      refine ⟨?_, .inl hreads⟩
      have hget : Getting L (onto c D) q k b := Reads.getting (c := onto c D) hreads hok
      have hu : (onto c D).use q b ≠ .none := by
        rw [hget.1]
        simp
      have hbuf : (onto c' D').buf b = (onto c D).buf b := steps_buf hok hs' hu hqp
      exact hbuf
  obtain ⟨hbuf, hbefore⟩ := hbefore
  rw [hbuf]
  rcases hbefore with hreads | ⟨hcheck, hv⟩
  · obtain ⟨hclean, hdata⟩ := hr q b k hreads
    have hget : Getting L (onto c D) q k b := Reads.getting (c := onto c D) hreads hok
    refine ⟨hclean, fun hv => ?_⟩
    rw [hdata hv]
    refine (steps_disk hs fun b' r _ hk' => ?_).symm
    obtain rfl : b' = b := hok.inj b' b k hk' hget.2.1
    exact hclean
  · have hat := hok.at_ q
    rw [show (onto c D).pc q = .check k b from hcheck] at hat
    refine ⟨((hok.slot b k hat.2.1).fresh hv).1, fun hv' => ?_⟩
    exact absurd (hv'.symm.trans hv) (by simp)

/-! ## The interrupt -/

omit [DecidableEq ι] in
theorem finish_pc (c : Cache ι α) (b : BufId) (rest : List BufId) (x : α) :
    (finish c b rest x).pc = c.pc := by
  cases rest with
  | nil => rfl
  | cons b' rest => exact idestart_pc _ b'

omit [DecidableEq ι] in
theorem finish_buf (c : Cache ι α) (b : BufId) (rest : List BufId) (x : α) :
    (finish c b rest x).buf = (completed c b rest x).buf := by
  cases rest with
  | nil => rfl
  | cons b' rest => exact idestart_buf _ b'

omit [DecidableEq ι] in
/-- The next request is for another block. -/
theorem finish_disk {b' : BufId} (h : Shadowed c)
    (hq : c.idequeue = b :: rest) (hk : (c.buf b').block = some k)
    (hb : b' = b ∨ (c.buf b').dirty = false) : (finish c b rest x).disk k = c.disk k := by
  obtain ⟨L, D, hok⟩ := h
  have hnd : (b :: rest).Nodup := hq ▸ hok.nodup
  cases rest with
  | nil => rfl
  | cons b₂ rest =>
    refine idestart_disk_other fun hk₂ => ?_
    have hne : b₂ ≠ b := fun heq => (List.nodup_cons.mp hnd).1 (heq ▸ List.mem_cons_self)
    have hsame : (completed c b (b₂ :: rest) x).buf b₂ = c.buf b₂ := by
      show (c.setBuf b _).buf b₂ = _
      rw [setBuf_buf, if_neg hne]
    rw [hsame] at hk₂ ⊢
    obtain rfl : b₂ = b' := hok.inj b₂ b' k hk₂ hk
    exact hb.resolve_left hne

/-- The next request is for a block that does not exist. -/
def Halts (c : Cache ι α) (rest : List BufId) : Prop :=
  ∃ b k, rest.head? = some b ∧ (c.buf b).block = some k ∧ FSSIZE ≤ k.blockno

omit [DecidableEq ι] in
theorem idestart_panic (c : Cache ι α) (b : BufId) :
    (idestart c b).panic = none ↔
      c.panic = none ∧ ∀ k, (c.buf b).block = some k → k.blockno < FSSIZE := by
  unfold idestart
  cases (c.buf b).block with
  | none => simp
  | some k =>
    simp only [Option.some.injEq, forall_eq']
    split
    · rename_i hbig
      simp [Cache.fail]
      omega
    · rename_i hsmall
      rw [apply_ite Cache.panic, ite_self]
      simp
      omega

omit [DecidableEq ι] in
theorem finish_panic (hpan : c.panic = none)
    (hnd : (b :: rest).Nodup) : (finish c b rest x).panic = none ↔ ¬ Halts c rest := by
  cases rest with
  | nil => simp [Halts, finish, completed, Cache.setBuf, hpan]
  | cons b₂ rest =>
    have hne : b₂ ≠ b := fun heq => (List.nodup_cons.mp hnd).1 (heq ▸ List.mem_cons_self)
    have hsame : (completed c b (b₂ :: rest) x).buf b₂ = c.buf b₂ := by
      show (c.setBuf b _).buf b₂ = _
      rw [setBuf_buf, if_neg hne]
    show (idestart (completed c b (b₂ :: rest) x) b₂).panic = none ↔ _
    rw [idestart_panic, hsame]
    simp [Halts, completed, Cache.setBuf, hpan]

omit [DecidableEq ι] in
theorem Reading.finish (hr : Reading c) (h : Shadowed c) (hq : c.idequeue = b :: rest)
    (hx : ∀ k, (c.buf b).block = some k → (c.buf b).dirty = false → x = c.disk k) :
    Reading (finish c b rest x) := by
  intro q b' k hreads
  rw [Reads, finish_pc] at hreads
  obtain ⟨hclean, hdata⟩ := hr q b' k hreads
  have hk : (c.buf b').block = some k := by
    obtain ⟨L, D, hok⟩ := h
    exact (Reads.getting (c := onto c D) hreads hok).2.1
  rw [finish_disk h hq hk (.inr hclean), finish_buf]
  show ((c.setBuf b _).buf b').dirty = false ∧
    (((c.setBuf b _).buf b').valid = true → ((c.setBuf b _).buf b').data = c.disk k)
  rw [setBuf_buf]
  by_cases hb : b' = b
  · subst hb
    rw [if_pos rfl]
    exact ⟨rfl, fun _ => hx k hk hclean⟩
  · rw [if_neg hb]
    exact ⟨hclean, hdata⟩

/-! ## Every step -/

/-- What a run keeps. -/
structure Inv (c : Cache ι α) : Prop where
  shadowed : Shadowed c
  reading : c.panic = none → Reading c

omit [DecidableEq ι] in
theorem inv_binit (zero : α) (disk : Key → α) (havedisk1 : Bool) :
    Inv (binit zero disk havedisk1 : Cache ι α) where
  shadowed := ⟨disk, disk, binit_ok zero disk havedisk1⟩
  reading := fun _ p b k h => by
    rcases h with h | h
    · cases h
    · cases h

theorem Inv.steps (h : Inv c) (hpan : c.panic = none) (hs : Steps c p c') : Inv c' :=
  ⟨h.shadowed.steps hs, fun _ => (h.reading hpan).steps h.shadowed hs⟩

/-- The process is done with a buffer, whatever it has left in it. -/
theorem Inv.settle (h : Inv c) {r : Option BufId} (hp : c.pc p = .idle r)
    (hb : c.use p b ≠ .none) : Inv (c.setUse p b .clean) := by
  refine ⟨?_, h.reading⟩
  obtain ⟨L, D, hok⟩ := h.shadowed
  obtain ⟨k, hk⟩ := hok.block_of_use hb
  have hq : b ∉ c.idequeue := hok.not_queued hb fun r' hp' => by
    rw [show (onto c D).pc p = .idle r from hp] at hp'
    cases hp'
  have hok₁ := revise hok (x := (c.buf b).data) hk (hok.busy_of_use hb) (fun _ => rfl) fun _ => hq
  exact ⟨_, _, Status.settle hok₁ hb hk (update_self ..)⟩

theorem Inv.call (h : Inv c) (hpan : c.panic = none) {a : Call α} (hidle : (c.pc p).isIdle = true)
    (hst : callStep c p a = some c') : Inv c' := by
  obtain ⟨r, hp⟩ := isIdle_iff.mp hidle
  cases a with
  | bread k =>
    cases hst
    exact h.steps hpan (.bread hp)
  | modify b f =>
    obtain ⟨hb, rfl⟩ := guard_some hst
    exact h.steps hpan (.modify f hp hb)
  | bwrite b =>
    obtain ⟨hb, rfl⟩ := guard_some hst
    exact h.steps hpan (steps_bwrite hp hb)
  | brelse b =>
    obtain ⟨hb, rfl⟩ := guard_some hst
    refine (h.settle hp hb).steps hpan (p := p) (steps_brelse (r := r) hp ?_)
    rw [setUse_use, if_pos ⟨rfl, rfl⟩]
  | logWrite b =>
    obtain ⟨hb, rfl⟩ := guard_some hst
    exact h.steps hpan (.logWrite hp hb)

theorem steps_of_runStep (hst : runStep c p = some c') : Steps c p c' := by
  unfold runStep at hst
  split at hst
  · rename_i b hp
    cases hst
    exact .pin hp
  · exact steps_of_advance hst

/-- Whenever `bread` returns from a read request, the buffer is valid and has the contents of the
block on disk. -/
def Delivers (c : Cache ι α) : Prop :=
  ∀ p b k c', c.pc p = .wait b (some k) → step c (.run p) = some c' →
    (c'.buf b).valid = true → (c'.buf b).data = c'.disk k

/-- The disk reports no error for a read request, unless the buffer has the contents of the block
already or the next request halts the system. -/
def ReadsWell (x : Trans (Cache ι α) (Event ι α)) : Prop :=
  ∀ rs b rest k, x.ev = .ideintr rs → x.pre.idequeue = b :: rest → (x.pre.buf b).dirty = false →
    (x.pre.buf b).block = some k →
    idewait true rs = some true ∨ (x.pre.buf b).data = x.pre.disk k ∨ Halts x.pre rest

theorem Inv.delivers (h : Inv c) : Delivers c := by
  intro p b k c' hp hst
  unfold step at hst
  split at hst
  · cases hst
  · rename_i hpan
    have hread := h.reading (not_not.mp hpan) p b k (.inr hp)
    simp only [runStep, hp, advance, Option.ite_none_right_eq_some, Option.some.injEq] at hst
    obtain ⟨-, rfl⟩ := hst
    exact hread.2

omit [DecidableEq ι] in
/-- What the interrupt does to the request at the head of the queue. -/
theorem ideintr_cases {rs : List (BitVec 8)} (hst : ideintr c rs = some c') :
    c.idequeue = [] ∧ c' = c ∨ ∃ b rest x, c.idequeue = b :: rest ∧ c' = finish c b rest x ∧
      ((c.buf b).dirty = true ∧ x = (c.buf b).data ∨ (c.buf b).dirty = false ∧
        ((idewait true rs = some true ∧ x = onDisk c b) ∨
          idewait true rs = some false ∧ x = (c.buf b).data)) := by
  unfold ideintr at hst
  cases hq : c.idequeue with
  | nil =>
    rw [hq] at hst
    cases hst
    exact .inl ⟨rfl, rfl⟩
  | cons b rest =>
    rw [hq] at hst
    dsimp only at hst
    right
    cases hd : (c.buf b).dirty with
    | true =>
      rw [hd, if_pos rfl] at hst
      cases hst
      exact ⟨b, rest, _, rfl, rfl, .inl ⟨hd, rfl⟩⟩
    | false =>
      rw [hd, if_neg (by simp)] at hst
      obtain ⟨ok, hok, rfl⟩ := Option.map_eq_some_iff.mp hst
      refine ⟨b, rest, _, rfl, rfl, .inr ⟨hd, ?_⟩⟩
      cases ok with
      | true => exact .inl ⟨hok, if_pos rfl⟩
      | false => exact .inr ⟨hok, if_neg (by simp)⟩

omit [DecidableEq ι] in
theorem Inv.finish (h : Inv c) (hpan : c.panic = none)
    (hq : c.idequeue = b :: rest) (hx : (c.buf b).dirty = true → x = (c.buf b).data)
    (hx' : ∀ k, (c.buf b).block = some k → (c.buf b).dirty = false →
      x = c.disk k ∨ Halts c rest) : Inv (finish c b rest x) := by
  refine ⟨h.shadowed.finish hpan hq hx, fun hpan' => ?_⟩
  have hnd : (b :: rest).Nodup := by
    obtain ⟨L, D, hok⟩ := h.shadowed
    exact hq ▸ hok.nodup
  have hgo : ¬ Halts c rest := (finish_panic hpan hnd).mp hpan'
  exact (h.reading hpan).finish h.shadowed hq fun k hk hd => (hx' k hk hd).resolve_right hgo

theorem Inv.step {x : Trans (Cache ι α) (Event ι α)} (hst : step x.pre x.ev = some x.post)
    (h : Inv x.pre) (hC : ReadsWell x) : Inv x.post := by
  obtain ⟨c, e, c'⟩ := x
  dsimp only at hst h ⊢
  unfold Status.step at hst
  split at hst
  · cases hst
  · rename_i hpan
    have hpan := not_not.mp hpan
    cases e with
    | call p a =>
      simp only [Option.ite_none_right_eq_some] at hst
      exact h.call hpan hst.1 hst.2
    | run p => exact h.steps hpan (steps_of_runStep hst)
    | ideintr rs =>
      rcases ideintr_cases hst with ⟨-, rfl⟩ | ⟨b, rest, x, hq, rfl, hx⟩
      · exact h
      · refine h.finish hpan hq (fun hd => ?_) fun k hk hd => ?_
        · rcases hx with ⟨-, hx⟩ | ⟨hd', -⟩
          · exact hx
          · exact absurd (hd.symm.trans hd') (by simp)
        · rcases hx with ⟨hd', -⟩ | ⟨-, ⟨-, rfl⟩ | ⟨hbad, rfl⟩⟩
          · exact absurd (hd'.symm.trans hd) (by simp)
          · exact .inl (onDisk_of_block hk)
          · refine (hC rs b rest k rfl hq hd hk).resolve_left ?_
            rw [hbad]
            simp

/-- A read request that fails is passed off as data. -/
theorem not_delivers {x : Trans (Cache ι α) (Event ι α)} (hst : step x.pre x.ev = some x.post)
    (h : Inv x.pre) (hC : ¬ ReadsWell x) : ¬ Delivers x.post := by
  obtain ⟨c, e, c'⟩ := x
  simp only [ReadsWell, not_forall, not_or] at hC
  obtain ⟨rs, b, rest, k, rfl, hq, hd, hk, hbad, hstale, hgo⟩ := hC
  dsimp only at hst hq hd hk hstale hgo h ⊢
  unfold Status.step at hst
  split at hst
  · cases hst
  · rename_i hpan
    have hpan := not_not.mp hpan
    obtain ⟨L, D, hok⟩ := h.shadowed
    have hnd : (b :: rest).Nodup := hq ▸ hok.nodup
    -- The request is one of a process that waits for it in `bread`.
    obtain ⟨⟨p, r, hp⟩, hv⟩ := hok.queued b (by show b ∈ c.idequeue; simp [hq])
    have hat := hok.at_ p
    rw [hp] at hat
    have hr : r = some k := by
      cases r with
      | none =>
        have hvalid := hok.loaded p b (by rw [hat.use_wait]; simp) (by rw [hp]; simp)
        exact absurd ((hv hvalid).symm.trans hd) (by simp)
      | some k' => rw [← hat.2.1, ← hk]; rfl
    subst hr
    rcases ideintr_cases hst with ⟨hnil, -⟩ | ⟨b', rest', x, hq', rfl, hx⟩
    · rw [hq] at hnil
      cases hnil
    · rw [hq] at hq'
      cases hq'
      have hx : x = (c.buf b).data := by
        rcases hx with ⟨-, hx⟩ | ⟨-, ⟨hgood, -⟩ | ⟨-, hx⟩⟩
        · exact hx
        · exact absurd hgood hbad
        · exact hx
      have hbuf : (Status.finish c b rest x).buf b
          = { c.buf b with data := x, valid := true, dirty := false } := by
        rw [finish_buf]
        show (c.setBuf b _).buf b = _
        rw [setBuf_buf, if_pos rfl]
      intro hdel
      have hwait : (Status.finish c b rest x).pc p = .wait b (some k) := by
        rw [finish_pc]
        exact hp
      have hrun : Status.step (Status.finish c b rest x) (.run p)
          = some ((Status.finish c b rest x).setPc p (.idle (some b))) := by
        unfold Status.step
        rw [if_neg (not_not.mpr ((finish_panic hpan hnd).mpr hgo))]
        simp only [runStep, hwait, advance, hbuf]
        simp
      have := hdel p b k _ hwait hrun (by rw [setPc_buf, hbuf])
      rw [setPc_buf, hbuf] at this
      change x = (Status.finish c b rest x).disk k at this
      rw [finish_disk h.shadowed hq hk (.inl rfl), hx] at this
      exact hstale this

/-- **Failed reads.** In a run `bread` returns the contents of the disk from every read request if
and only if the disk reports no error for one, or none that matters. -/
theorem bread_disk_iff (zero : α) (disk : Key → α) (havedisk1 : Bool)
    {tr : List (Trans (Cache ι α) (Event ι α))}
    (hrun : IsRun step (binit zero disk havedisk1) tr) :
    (∀ x ∈ tr, Delivers x.post) ↔ ∀ x ∈ tr, ReadsWell x :=
  hrun.forall_iff (inv_binit zero disk havedisk1)
    (fun _ hst h hC => ⟨h.step hst hC, (h.step hst hC).delivers⟩)
    fun _ hst h hC => not_delivers hst h hC

/-- `bread` of a block that is not in the cache, with the statuses `rs` at the interrupt. -/
def readOnce (rs : List (BitVec 8)) : List (Event Unit Nat) :=
  .call () (.bread ⟨.disk0, 3⟩) :: List.replicate 36 (.run ()) ++ [.ideintr rs, .run ()]

theorem bread_disk_busy_once :
    (exec step (binit 0 flatDisk false) (readOnce [0x80, 0x40])).isSome = true ∧
      ((∀ x ∈ trace step (binit 0 flatDisk false) (readOnce [0x80, 0x40]), Delivers x.post) ↔
        ∀ x ∈ trace step (binit 0 flatDisk false) (readOnce [0x80, 0x40]), ReadsWell x) :=
  ⟨by decide +kernel, bread_disk_iff 0 flatDisk false (isRun_trace _ _ _)⟩

/-- The disk is ready with `IDE_ERR`: the buffer is valid and has nothing of the block. -/
theorem bread_failed_read :
    (exec step (binit 0 flatDisk false) (readOnce [0x41])).map (fun c =>
      (c.pc (), (c.buf buf0).block, (c.buf buf0).valid, (c.buf buf0).data, c.disk ⟨.disk0, 3⟩))
        = some (.idle (some buf0), some ⟨.disk0, 3⟩, true, 0, 5) := by
  decide +kernel

end StrideXv6.Bio.Status
