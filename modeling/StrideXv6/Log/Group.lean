import StrideXv6.Lib.RefCount
import StrideXv6.Log.Admission

set_option autoImplicit false

/-! # Group commit

The whole of `begin_op` and `end_op`, for any number of processes `ι`: a process that is not
admitted sleeps on `&log`, and the process whose `end_op` is the last one runs `commit()` without
the lock, one write after the other, while the others go on.

`GroupOk` is the invariant of all runs, and `group_commit` what it says about a commit: it is
made while no operation is in progress and none is admitted before it is over, and whoever sleeps
in `begin_op` has to.
-/

namespace StrideXv6.Log

open Runs RefCount

/-! ## The model -/

/-- Where a process is in `commit()`. -/
inductive CommitPc where
  /-- `log.lh.n > 0`, and `write_log()` -/
  | writeLog
  /-- `write_head()`, the real commit -/
  | writeHead
  /-- `install_trans()` -/
  | installTrans
  /-- `log.lh.n = 0` -/
  | clear
  /-- `write_head()`, erasing the transaction -/
  | eraseHead
  /-- back in `end_op`, before its second critical section -/
  | done
  deriving DecidableEq

inductive OpPc where
  | user
  /-- about to run the critical section of `begin_op` -/
  | begin
  /-- `SLEEPING` on `&log` in `begin_op` -/
  | sleeping
  /-- between `begin_op` and `end_op` -/
  | inOp
  | commit (c : CommitPc)
  deriving DecidableEq

structure Group (ι : Type) where
  log : Admission ι
  pc : ι → OpPc

inductive GroupEvent (ι : Type) where
  /-- process `i` calls `begin_op` -/
  | call (i : ι)
  /-- its critical section -/
  | beginOp (i : ι)
  /-- the tests of `log_write(b)` -/
  | logWrite (i : ι) (b : Nat)
  /-- the critical section of `log_write(b)` -/
  | record (i : ι) (b : Nat)
  /-- the first critical section of `end_op` -/
  | endOp (i : ι)
  /-- the next step of `commit()`, or the second critical section of `end_op` -/
  | commit (i : ι)
  /-- `kill` wakes a process that sleeps -/
  | kill (i : ι)

variable {ι : Type} [DecidableEq ι]
variable {i : ι} {e : GroupEvent ι} {o : Op}

def Group.setPc (s : Group ι) (i : ι) (pc : OpPc) : Group ι :=
  { s with pc := Function.update s.pc i pc }

def OpPc.wake : OpPc → OpPc
  | .sleeping => .begin
  | pc => pc

/-- `wakeup(&log)` -/
def wakeup (s : Group ι) : Group ι := { s with pc := fun i => (s.pc i).wake }

/-- The critical section of `begin_op`: the process is admitted or goes to sleep. -/
def groupBegin (s : Group ι) (i : ι) : Group ι :=
  match beginOp s.log i with
  | some l => { s.setPc i .inOp with log := l }
  | none => s.setPc i .sleeping

/-- The first critical section of `end_op`, with `do_commit` if it sets `committing`. -/
def groupEnd (s : Group ι) (i : ι) : Group ι :=
  let l := endOp s.log i
  if l.panicked ≠ none then { s with log := l }
  else if l.committing then { s.setPc i (.commit .writeLog) with log := l }
  else { (wakeup s).setPc i .user with log := l }

/-- One step of the committing process. -/
def groupCommit (s : Group ι) (i : ι) : CommitPc → Group ι
  | .writeLog => s.setPc i (.commit (if 0 < s.log.lh.length then .writeHead else .done))
  | .writeHead => s.setPc i (.commit .installTrans)
  | .installTrans => s.setPc i (.commit .clear)
  | .clear => { s.setPc i (.commit .eraseHead) with log := { s.log with lh := [] } }
  | .eraseHead => s.setPc i (.commit .done)
  | .done => { (wakeup s).setPc i .user with log := { s.log with committing := false } }

/-- One step. A process calls `log_write` between its `begin_op` and its `end_op` only; nothing
happens after a panic. -/
def groupStep (s : Group ι) (e : GroupEvent ι) : Option (Group ι) :=
  if s.log.panicked ≠ none then none
  else
    match e with
    | .call i => if s.pc i = .user then some (s.setPc i .begin) else none
    | .beginOp i => if s.pc i = .begin then some (groupBegin s i) else none
    | .logWrite i b =>
      match s.log.op i with
      | some o =>
        if o.writing = none then some { s with log := logWrite s.log i o b } else none
      | none => none
    | .record i b =>
      match s.log.op i with
      | some o =>
        if o.writing = some b then some { s with log := record s.log i o b } else none
      | none => none
    | .endOp i =>
      match s.log.op i with
      | some o => if o.writing = none then some (groupEnd s i) else none
      | none => none
    | .commit i =>
      match s.pc i with
      | .commit c => some (groupCommit s i c)
      | _ => none
    | .kill i => some (s.setPc i (s.pc i).wake)

/-- After `initlog`. -/
def groupInit : Group ι := { log := logInit, pc := fun _ => .user }

/-! ## The steps, one constructor each -/

variable {s s' : Group ι}

/-- There is no room for another operation. -/
def NoRoom (l : Admission ι) : Prop :=
  LOGSIZE < l.lh.length + (l.outstanding + 1) * MAXOPBLOCKS

inductive GroupSteps (s : Group ι) : GroupEvent ι → Group ι → Prop
  | call {i : ι} (hi : s.pc i = .user) : GroupSteps s (.call i) (s.setPc i .begin)
  | enter {i : ι} (hi : s.pc i = .begin) (hc : s.log.committing = false) :
      GroupSteps s (.beginOp i)
        { s.setPc i .inOp with
          log := { s.log.setOp i (some ⟨∅, none⟩) with outstanding := s.log.outstanding + 1 } }
  | sleep {i : ι} (hi : s.pc i = .begin) (h : s.log.committing = true ∨ NoRoom s.log) :
      GroupSteps s (.beginOp i) (s.setPc i .sleeping)
  | panic {i : ι} {b : Nat} {p : Panic} (hp : p ≠ .committing) :
      GroupSteps s (.logWrite i b) { s with log := { s.log with panicked := some p } }
  | logWrite {i : ι} {o : Op} {b : Nat} (hi : s.log.op i = some o) :
      GroupSteps s (.logWrite i b)
        { s with log := s.log.setOp i (some { o with writing := some b }) }
  | record {i : ι} {o : Op} {b : Nat} (hi : s.log.op i = some o) :
      GroupSteps s (.record i b) { s with log := record s.log i o b }
  | endPanic {i : ι} {o : Op} {l : Admission ι} (hi : s.log.op i = some o)
      (hc : s.log.committing = true) : GroupSteps s (.endOp i) { s with log := l }
  | endLast {i : ι} {o : Op} (hi : s.log.op i = some o) (hc : s.log.committing = false)
      (ho : s.log.outstanding - 1 = 0) :
      GroupSteps s (.endOp i)
        { s.setPc i (.commit .writeLog) with
          log := { s.log.setOp i none with
            outstanding := s.log.outstanding - 1, committing := true } }
  | endOp {i : ι} {o : Op} (hi : s.log.op i = some o) (hc : s.log.committing = false)
      (ho : s.log.outstanding - 1 ≠ 0) :
      GroupSteps s (.endOp i)
        { (wakeup s).setPc i .user with
          log := { s.log.setOp i none with outstanding := s.log.outstanding - 1 } }
  | commit {i : ι} {c : CommitPc} (hi : s.pc i = .commit c) :
      GroupSteps s (.commit i) (groupCommit s i c)
  | kill {i : ι} : GroupSteps s (.kill i) (s.setPc i (s.pc i).wake)

theorem groupSteps_begin (hi : s.pc i = .begin) :
    GroupSteps s (.beginOp i) (groupBegin s i) := by
  unfold groupBegin beginOp
  split
  · rename_i l hl
    simp only [Option.ite_none_left_eq_some, Option.some.injEq] at hl
    obtain ⟨hc, -, rfl⟩ := hl
    exact .enter hi (by simpa using hc)
  · rename_i hl
    refine .sleep hi ?_
    split at hl
    · exact Or.inl ‹_›
    · split at hl
      · exact Or.inr ‹_›
      · simp at hl

theorem groupSteps_end (hp : s.log.panicked = none) (hi : s.log.op i = some o) :
    GroupSteps s (.endOp i) (groupEnd s i) := by
  by_cases hc : s.log.committing = true
  · have : groupEnd s i = { s with log := endOp s.log i } := by
      simp [groupEnd, endOp, hc]
    rw [this]
    exact .endPanic hi hc
  · have hcf : s.log.committing = false := by simpa using hc
    by_cases ho : s.log.outstanding - 1 = 0
    · have : groupEnd s i = { s.setPc i (.commit .writeLog) with
          log := { s.log.setOp i none with
            outstanding := s.log.outstanding - 1, committing := true } } := by
        simp [groupEnd, endOp, hcf, ho, hp]
      rw [this]
      exact .endLast hi hcf ho
    · have : groupEnd s i = { (wakeup s).setPc i .user with
          log := { s.log.setOp i none with outstanding := s.log.outstanding - 1 } } := by
        simp [groupEnd, endOp, hcf, ho, hp]
      rw [this]
      exact .endOp hi hcf ho

theorem groupSteps_of_step (h : groupStep s e = some s') :
    GroupSteps s e s' := by
  unfold groupStep at h
  split at h
  · simp at h
  · rename_i hp
    have hp : s.log.panicked = none := by simpa using hp
    cases e with
    | call i =>
      obtain ⟨hi, rfl⟩ := guard_some h
      exact .call hi
    | beginOp i =>
      obtain ⟨hi, rfl⟩ := guard_some h
      exact groupSteps_begin hi
    | logWrite i b =>
      dsimp only at h
      split at h
      · rename_i o hi
        obtain ⟨-, rfl⟩ := guard_some h
        unfold Log.logWrite
        split
        · exact .panic (by simp)
        · split
          · exact .panic (by simp)
          · exact .logWrite hi
      · simp at h
    | record i b =>
      dsimp only at h
      split at h
      · rename_i o hi
        obtain ⟨-, rfl⟩ := guard_some h
        exact .record hi
      · simp at h
    | endOp i =>
      dsimp only at h
      split at h
      · rename_i o hi
        obtain ⟨-, rfl⟩ := guard_some h
        exact groupSteps_end hp hi
      · simp at h
    | commit i =>
      dsimp only at h
      split at h
      · rename_i c hi
        obtain rfl := Option.some.inj h
        exact .commit hi
      · simp at h
    | kill i =>
      obtain rfl := Option.some.inj h
      exact .kill

/-! ## The invariant -/

/-- The processes with an operation in progress. -/
def busy (l : Admission ι) (i : ι) : Option Unit := (l.op i).map fun _ => ()

structure GroupOk (s : Group ι) : Prop where
  ops : ∀ i, s.log.op i = none ↔ s.pc i ≠ .inOp
  fin : FinRefs (busy s.log)
  count : count (busy s.log) () = s.log.outstanding
  committing : ∀ i c, s.pc i = .commit c → s.log.committing = true
  one : ∀ i j c d, s.pc i = .commit c → s.pc j = .commit d → i = j
  idle : s.log.committing = true → s.log.outstanding = 0
  erased : ∀ i c, s.pc i = .commit c → c = .eraseHead ∨ c = .done → s.log.lh = []
  empty : s.log.outstanding = 0 → s.log.committing = false → s.log.lh = []
  nodup : s.log.lh.Nodup
  sleepers : ∀ i, s.pc i = .sleeping → s.log.committing = true ∨ NoRoom s.log
  panic : s.log.panicked ≠ some .committing

omit [DecidableEq ι] in
/-- An operation in progress is counted. -/
theorem GroupOk.outstanding_pos (h : GroupOk s) (hi : s.log.op i = some o) :
    0 < s.log.outstanding := by
  rw [← h.count]
  exact (count_pos h.fin).mpr ⟨i, by simp [busy, hi]⟩

omit [DecidableEq ι] in
theorem GroupOk.not_committing (h : GroupOk s) (hi : s.log.op i = some o) :
    s.log.committing = false := by
  have := h.outstanding_pos hi
  by_contra hc
  have := h.idle (by simpa using hc)
  omega

omit [DecidableEq ι] in
theorem GroupOk.no_ops (h : GroupOk s) (hc : s.log.committing = true) (i : ι) :
    s.log.op i = none := by
  by_contra hi
  obtain ⟨o, ho⟩ := Option.ne_none_iff_exists'.mp hi
  exact absurd (h.not_committing ho) (by simp [hc])

@[simp] theorem setPc_pc (s : Group ι) (i j : ι) (pc : OpPc) :
    (s.setPc i pc).pc j = if j = i then pc else s.pc j := Function.update_apply ..

@[simp] theorem setPc_log (s : Group ι) (i : ι) (pc : OpPc) : (s.setPc i pc).log = s.log := rfl

omit [DecidableEq ι] in
@[simp] theorem wakeup_log (s : Group ι) : (wakeup s).log = s.log := rfl

omit [DecidableEq ι] in
@[simp] theorem wakeup_pc (s : Group ι) (i : ι) : (wakeup s).pc i = (s.pc i).wake := rfl

@[simp] theorem wake_eq_inOp (pc : OpPc) : pc.wake = .inOp ↔ pc = .inOp := by
  cases pc <;> simp [OpPc.wake]

@[simp] theorem wake_eq_commit (pc : OpPc) (c : CommitPc) :
    pc.wake = .commit c ↔ pc = .commit c := by
  cases pc <;> simp [OpPc.wake]

@[simp] theorem wake_ne_sleeping (pc : OpPc) : pc.wake ≠ .sleeping := by
  cases pc <;> simp [OpPc.wake]

theorem busy_setOp_some (l : Admission ι) (i : ι) (o : Op) :
    busy (l.setOp i (some o)) = Function.update (busy l) i (some ()) := by
  funext j
  by_cases hj : j = i
  · subst hj; simp [busy]
  · simp [busy, hj]

theorem busy_setOp_none (l : Admission ι) (i : ι) :
    busy (l.setOp i none) = Function.update (busy l) i none := by
  funext j
  by_cases hj : j = i
  · subst hj; simp [busy]
  · simp [busy, hj]

/-- An operation that goes on stays counted. -/
theorem busy_setOp_same {l : Admission ι} {o u : Op} (hi : l.op i = some o) :
    busy (l.setOp i (some u)) = busy l := by
  rw [busy_setOp_some, Function.update_eq_self_iff]
  simp [busy, hi]

theorem ops_setOp {l : Admission ι} {o o' : Op} (hi : l.op i = some o) (j : ι) :
    (l.setOp i (some o')).op j = none ↔ l.op j = none := by
  by_cases hj : j = i
  · subst hj; simp [hi]
  · simp [hj]

omit [DecidableEq ι] in
/-- A step that changes program counters only, and not who is in an operation or commits. -/
theorem GroupOk.move (h : GroupOk s) (hl : s'.log = s.log)
    (hop : ∀ j, s'.pc j = .inOp ↔ s.pc j = .inOp)
    (hcm : ∀ j c, s'.pc j = .commit c →
      (∃ d, s.pc j = .commit d) ∧ (c = .eraseHead ∨ c = .done → s.log.lh = []))
    (hsl : ∀ j, s'.pc j = .sleeping → s.log.committing = true ∨ NoRoom s.log) : GroupOk s' := by
  refine
    { ops := fun j => by rw [hl, h.ops, Ne, Ne, hop]
      fin := hl ▸ h.fin
      count := hl ▸ h.count
      committing := fun j c hj => ?_
      one := fun j k c d hj hk => ?_
      idle := hl ▸ h.idle
      erased := fun j c hj hc => hl ▸ (hcm j c hj).2 hc
      empty := hl ▸ h.empty
      nodup := hl ▸ h.nodup
      sleepers := fun j hj => hl ▸ hsl j hj
      panic := hl ▸ h.panic }
  · obtain ⟨d, hd⟩ := (hcm j c hj).1
    exact hl ▸ h.committing j d hd
  · obtain ⟨c', hc'⟩ := (hcm j c hj).1
    obtain ⟨d', hd'⟩ := (hcm k d hk).1
    exact h.one j k c' d' hc' hd'

/-- Process `i` goes from one place outside of operations and commits to another. -/
theorem GroupOk.goto (h : GroupOk s) {pc : OpPc}
    (hop : s.pc i ≠ .inOp ∧ pc ≠ .inOp) (hcm : ∀ c, pc ≠ .commit c)
    (hsl : pc = .sleeping → s.log.committing = true ∨ NoRoom s.log) : GroupOk (s.setPc i pc) := by
  refine h.move rfl (fun j => ?_) (fun j c hj => ?_) fun j hj => ?_ <;> rw [setPc_pc] at *
  · split
    · rename_i hji; subst hji; simp [hop.1, hop.2]
    · rfl
  · split at hj
    · exact absurd hj (hcm c)
    · exact ⟨⟨c, hj⟩, h.erased j c hj⟩
  · split at hj
    · exact hsl hj
    · exact h.sleepers j hj

/-- The committing process goes on to `c`. -/
theorem GroupOk.next (h : GroupOk s) {c d : CommitPc} (hi : s.pc i = .commit d)
    (hlh : c = .eraseHead ∨ c = .done → s.log.lh = []) : GroupOk (s.setPc i (.commit c)) := by
  refine h.move rfl (fun j => ?_) (fun j c' hj => ?_) fun j hj => ?_ <;> rw [setPc_pc] at *
  · split
    · rename_i hji; subst hji; simp [hi]
    · rfl
  · split at hj
    · rename_i hji
      subst hji
      obtain rfl : c = c' := by simpa using hj
      exact ⟨⟨d, hi⟩, hlh⟩
    · exact ⟨⟨c', hj⟩, h.erased j c' hj⟩
  · split at hj
    · simp at hj
    · exact h.sleepers j hj

theorem GroupOk.enter (h : GroupOk s) (hi : s.pc i = .begin) (hc : s.log.committing = false) :
    GroupOk { s.setPc i .inOp with
      log := { s.log.setOp i (some ⟨∅, none⟩) with outstanding := s.log.outstanding + 1 } } := by
  have hnone : busy s.log i = none := by
    simp [busy, (h.ops i).mpr (by rw [hi]; simp)]
  have hold : ∀ j pc, pc ≠ .inOp → (s.setPc i .inOp).pc j = pc → s.pc j = pc := by
    intro j pc hpc hj
    rw [setPc_pc] at hj
    split at hj
    · exact absurd hj.symm hpc
    · exact hj
  have hnc : ∀ j c, (s.setPc i .inOp).pc j ≠ .commit c := fun j c hj => by
    simp [h.committing j c (hold j _ (by simp) hj)] at hc
  refine
    { ops := fun j => ?_
      fin := (busy_setOp_some s.log i _).symm ▸ h.fin.update i _
      count := ?_
      committing := fun j c hj => absurd hj (hnc j c)
      one := fun j k c d hj => absurd hj (hnc j c)
      idle := fun h' => by simp [hc] at h'
      erased := fun j c hj => absurd hj (hnc j c)
      empty := fun h' => by simp at h'
      nodup := h.nodup
      sleepers := fun j hj => ?_
      panic := h.panic }
  · by_cases hj : j = i
    · subst hj; simp
    · simpa [hj] using h.ops j
  · show RefCount.count (busy (s.log.setOp i _)) () = _
    rw [busy_setOp_some, count_set h.fin hnone, if_pos rfl, h.count]
  · rcases h.sleepers j (hold j _ (by simp) hj) with h' | h'
    · exact Or.inl h'
    · refine Or.inr (lt_of_lt_of_le h' ?_)
      simp only [Admission.setOp, MAXOPBLOCKS]
      omega

/-- Recording a block, or the tests before it. -/
theorem GroupOk.write (h : GroupOk s) {o o' : Op} {lh : List Nat}
    (hi : s.log.op i = some o) (hnd : lh.Nodup) (hle : s.log.lh.length ≤ lh.length) :
    GroupOk { s with log := { s.log.setOp i (some o') with lh := lh } } := by
  have hpos := h.outstanding_pos hi
  have hc := h.not_committing hi
  have hnc : ∀ j c, s.pc j ≠ .commit c := fun j c hj => by
    simp [h.committing j c hj] at hc
  refine
    { ops := fun j => (ops_setOp hi j).trans (h.ops j)
      fin := (busy_setOp_same (u := o') hi).symm ▸ h.fin
      count := (busy_setOp_same (u := o') hi).symm ▸ h.count
      committing := h.committing
      one := h.one
      idle := h.idle
      erased := fun j c hj => absurd hj (hnc j c)
      empty := fun h' => absurd h' (by simpa using hpos.ne')
      nodup := hnd
      sleepers := fun j hj => (h.sleepers j hj).imp id fun h' => lt_of_lt_of_le h' ?_
      panic := h.panic }
  simp only [Admission.setOp, MAXOPBLOCKS]
  omega

/-- The operation of `i` ends: `s'` has one less, and `i` is outside. -/
theorem GroupOk.count_end (h : GroupOk s) (hi : s.log.op i = some o) :
    FinRefs (busy (s.log.setOp i none)) ∧
      RefCount.count (busy (s.log.setOp i none)) () = s.log.outstanding - 1 := by
  rw [busy_setOp_none]
  refine ⟨h.fin.update i none, ?_⟩
  have := count_clear h.fin (k := i) (r := ()) (by simp [busy, hi]) ()
  rw [if_pos rfl, h.count] at this
  omega

theorem GroupOk.ops_end (h : GroupOk s) {f : ι → OpPc} (hpi : f i ≠ .inOp)
    (hpc : ∀ j, j ≠ i → (f j = .inOp ↔ s.pc j = .inOp)) (j : ι) :
    (s.log.setOp i none).op j = none ↔ f j ≠ .inOp := by
  by_cases hj : j = i
  · subst hj; simp [hpi]
  · rw [Ne, hpc j hj]
    simpa [hj] using h.ops j

theorem GroupOk.endLast (h : GroupOk s) (hi : s.log.op i = some o)
    (ho : s.log.outstanding - 1 = 0) :
    GroupOk { s.setPc i (.commit .writeLog) with
      log := { s.log.setOp i none with
        outstanding := s.log.outstanding - 1, committing := true } } := by
  have hnc : ∀ j c, s.pc j ≠ .commit c := fun j c hj => by
    simpa [h.committing j c hj] using h.not_committing hi
  have hcm : ∀ j c, (s.setPc i (.commit .writeLog)).pc j = .commit c →
      j = i ∧ c = .writeLog := by
    intro j c hj
    rw [setPc_pc] at hj
    split at hj
    · rename_i hji
      exact ⟨hji, by simpa using hj.symm⟩
    · exact absurd hj (hnc j c)
  refine
    { ops := h.ops_end (f := (s.setPc i (.commit .writeLog)).pc) (by simp)
        fun j hj => by simp [hj]
      fin := (h.count_end hi).1
      count := (h.count_end hi).2
      committing := fun _ _ _ => rfl
      one := fun j k c d hj hk => (hcm j c hj).1.trans (hcm k d hk).1.symm
      idle := fun _ => ho
      erased := fun j c hj hc => by simp [(hcm j c hj).2] at hc
      empty := fun _ h' => by simp at h'
      nodup := h.nodup
      sleepers := fun _ _ => Or.inl rfl
      panic := h.panic }

theorem GroupOk.endOp (h : GroupOk s) (hi : s.log.op i = some o) (ho : s.log.outstanding - 1 ≠ 0) :
    GroupOk { (wakeup s).setPc i .user with
      log := { s.log.setOp i none with outstanding := s.log.outstanding - 1 } } := by
  have hc := h.not_committing hi
  have hnc : ∀ j c, ((wakeup s).setPc i .user).pc j ≠ .commit c := by
    intro j c hj
    rw [setPc_pc] at hj
    split at hj
    · simp at hj
    · simp [h.committing j c (by simpa using hj)] at hc
  refine
    { ops := h.ops_end (f := ((wakeup s).setPc i .user).pc) (by simp) fun j hj => by simp [hj]
      fin := (h.count_end hi).1
      count := (h.count_end hi).2
      committing := fun j c hj => absurd hj (hnc j c)
      one := fun j k c d hj => absurd hj (hnc j c)
      idle := fun h' => by simp [hc] at h'
      erased := fun j c hj => absurd hj (hnc j c)
      empty := fun h' => absurd h' ho
      nodup := h.nodup
      sleepers := fun j hj => ?_
      panic := h.panic }
  rw [setPc_pc] at hj
  split at hj <;> simp at hj

theorem GroupOk.clear (h : GroupOk s) (hi : s.pc i = .commit .clear) :
    GroupOk { s.setPc i (.commit .eraseHead) with log := { s.log with lh := [] } } := by
  have hc := h.committing i _ hi
  have hcm : ∀ j c, (s.setPc i (.commit .eraseHead)).pc j = .commit c → j = i := by
    intro j c hj
    rw [setPc_pc] at hj
    split at hj
    · assumption
    · exact h.one j i c _ hj hi
  refine
    { ops := fun j => ?_
      fin := h.fin
      count := h.count
      committing := fun _ _ _ => hc
      one := fun j k c d hj hk => (hcm j c hj).trans (hcm k d hk).symm
      idle := h.idle
      erased := fun _ _ _ _ => rfl
      empty := fun _ _ => rfl
      nodup := List.nodup_nil
      sleepers := fun _ _ => Or.inl hc
      panic := h.panic }
  rw [setPc_pc]
  split
  · rename_i hji; subst hji; simpa [hi] using h.ops j
  · exact h.ops j

theorem GroupOk.done (h : GroupOk s) (hi : s.pc i = .commit .done) :
    GroupOk { (wakeup s).setPc i .user with log := { s.log with committing := false } } := by
  have hnc : ∀ j c, ((wakeup s).setPc i .user).pc j ≠ .commit c := by
    intro j c hj
    rw [setPc_pc] at hj
    split at hj
    · simp at hj
    · rename_i hji
      exact hji (h.one j i c _ (by simpa using hj) hi)
  refine
    { ops := fun j => ?_
      fin := h.fin
      count := h.count
      committing := fun j c hj => absurd hj (hnc j c)
      one := fun j k c d hj => absurd hj (hnc j c)
      idle := fun h' => by simp at h'
      erased := fun j c hj => absurd hj (hnc j c)
      empty := fun _ _ => h.erased i _ hi (Or.inr rfl)
      nodup := h.nodup
      sleepers := fun j hj => ?_
      panic := h.panic }
  · rw [setPc_pc]
    split
    · rename_i hji; subst hji; simpa [hi] using h.ops j
    · simpa using h.ops j
  · rw [setPc_pc] at hj
    split at hj <;> simp at hj

theorem GroupOk.commit (h : GroupOk s) {c : CommitPc} (hi : s.pc i = .commit c) :
    GroupOk (groupCommit s i c) := by
  cases c with
  | writeLog =>
    refine h.next hi fun hc => ?_
    by_cases hn : 0 < s.log.lh.length
    · simp [hn] at hc
    · exact List.eq_nil_of_length_eq_zero (by omega)
  | writeHead => exact h.next hi (by simp)
  | installTrans => exact h.next hi (by simp)
  | clear => exact h.clear hi
  | eraseHead => exact h.next hi fun _ => h.erased i _ hi (Or.inl rfl)
  | done => exact h.done hi

/-- **The step lemma.** -/
theorem GroupSteps.ok (hs : GroupSteps s e s') (h : GroupOk s) :
    GroupOk s' := by
  cases hs with
  | call hi => exact h.goto (by simp [hi]) (by simp) (by simp)
  | enter hi hc => exact h.enter hi hc
  | sleep hi hw => exact h.goto (by simp [hi]) (by simp) fun _ => hw
  | panic hp =>
    exact ⟨h.ops, h.fin, h.count, h.committing, h.one, h.idle, h.erased, h.empty, h.nodup,
      h.sleepers, by simpa using hp⟩
  | logWrite hi => exact h.write hi h.nodup (le_refl _)
  | @record i o b hi =>
    refine h.write hi (nodup_absorb h.nodup b) ?_
    unfold absorb
    split <;> simp
  | endPanic hi hc => exact absurd hc (by simp [h.not_committing hi])
  | endLast hi hc ho => exact h.endLast hi ho
  | endOp hi hc ho => exact h.endOp hi ho
  | commit hi => exact h.commit hi
  | @kill i =>
    refine h.move rfl (fun j => ?_) (fun j c hj => ?_) fun j hj => ?_ <;> rw [setPc_pc] at *
    · split
      · rename_i hji; subst hji; simp
      · rfl
    · have hj : s.pc j = .commit c := by
        split at hj
        · rename_i hji; subst hji; simpa using hj
        · exact hj
      exact ⟨⟨c, hj⟩, h.erased j c hj⟩
    · split at hj
      · simp at hj
      · exact h.sleepers j hj

/-- Nobody is admitted while a commit is in progress. -/
theorem GroupSteps.outstanding_of_committing (hs : GroupSteps s e s')
    (h : GroupOk s) (hc : s.log.committing = true) :
    s'.log.outstanding = s.log.outstanding := by
  cases hs with
  | enter hi hc' => simp [hc] at hc'
  | endPanic hi => simp [h.no_ops hc] at hi
  | endLast hi => simp [h.no_ops hc] at hi
  | endOp hi => simp [h.no_ops hc] at hi
  | @commit i c hi => cases c <;> rfl
  | _ => rfl

omit [DecidableEq ι] in
theorem groupOk_init : GroupOk (groupInit : Group ι) := by
  have hbusy : busy (groupInit : Group ι).log = fun _ => none := rfl
  have hfin : FinRefs (busy (groupInit : Group ι).log) := by
    rw [hbusy]
    simp [FinRefs]
  exact
    { ops := fun i => by simp [groupInit, logInit]
      fin := hfin
      count := (count_eq_zero hfin).mpr fun k => by simp [hbusy]
      committing := fun i c hi => by simp [groupInit] at hi
      one := fun i j c d hi => by simp [groupInit] at hi
      idle := fun _ => rfl
      erased := fun _ _ _ _ => rfl
      empty := fun _ _ => rfl
      nodup := List.nodup_nil
      sleepers := fun i hi => by simp [groupInit] at hi
      panic := by simp [groupInit, logInit] }

/-- **Group commit.** In every state of every run, for any number of processes: while a commit is
in progress no operation is outstanding, and none has been admitted since it began, so what is
committed are whole operations; `panic("log.committing")` is never reached; the blocks in the
header are distinct, and there are none when nothing is outstanding and no commit is in progress;
and nobody sleeps in `begin_op` while no commit is in progress and there is room for one more
operation. -/
theorem group_commit (tr : List (Trans (Group ι) (GroupEvent ι)))
    (hrun : IsRun groupStep groupInit tr) : ∀ x ∈ tr,
      (x.post.log.committing = true →
        x.post.log.outstanding = 0 ∧ ∀ i, x.post.pc i ≠ .inOp) ∧
      (x.pre.log.committing = true → ∀ i, x.post.pc i ≠ .inOp) ∧
      x.post.log.panicked ≠ some .committing ∧
      x.post.log.lh.Nodup ∧
      (x.post.log.outstanding = 0 → x.post.log.committing = false → x.post.log.lh = []) ∧
      ∀ i, x.post.pc i = .sleeping → ¬ (x.post.log.committing = false ∧
        x.post.log.lh.length + (x.post.log.outstanding + 1) * MAXOPBLOCKS ≤ LOGSIZE) := by
  intro x hx
  have hst := groupSteps_of_step (hrun.step_of_mem hx)
  obtain ⟨hpre, hpost⟩ := hrun.invariant (I := GroupOk) (C := fun _ => True) groupOk_init
    (fun y hy _ h => (groupSteps_of_step hy).ok h) (fun _ _ => trivial) x hx
  have hidle : ∀ s : Group ι, GroupOk s → s.log.outstanding = 0 → ∀ i, s.pc i ≠ .inOp := by
    intro s h h0 i
    rw [← h.count, count_eq_zero h.fin] at h0
    have hi := h0 i
    exact (h.ops i).mp (Option.eq_none_iff_forall_ne_some.mpr (by simpa [busy] using hi))
  refine ⟨fun hc => ⟨hpost.idle hc, hidle _ hpost (hpost.idle hc)⟩, fun hc => ?_, hpost.panic,
    hpost.nodup, hpost.empty, fun i hi ⟨hc, hroom⟩ => ?_⟩
  · exact hidle _ hpost (by rw [hst.outstanding_of_committing hpre hc]; exact hpre.idle hc)
  · rcases hpost.sleepers i hi with h | h
    · simp [h] at hc
    · exact absurd hroom (not_le.mpr h)

/-- An operation commits a block while another process waits for it to end. -/
def waitForCommit : List (GroupEvent Bool) :=
  [.call true, .beginOp true, .logWrite true 40, .record true 40, .endOp true, .commit true,
    .call false, .beginOp false] ++ List.replicate 5 (.commit true) ++ [.beginOp false]

theorem group_commit_waitForCommit :
    (trace groupStep groupInit waitForCommit).map (fun x =>
        (x.post.log.committing, decide (x.post.pc false = .sleeping))) =
      List.replicate 4 (false, false) ++ List.replicate 3 (true, false)
        ++ List.replicate 5 (true, true) ++ List.replicate 2 (false, false) ∧
      ∀ x ∈ trace groupStep groupInit waitForCommit,
        (x.post.log.committing = true →
          x.post.log.outstanding = 0 ∧ ∀ i, x.post.pc i ≠ .inOp) ∧
        (x.pre.log.committing = true → ∀ i, x.post.pc i ≠ .inOp) ∧
        x.post.log.panicked ≠ some .committing ∧
        x.post.log.lh.Nodup ∧
        (x.post.log.outstanding = 0 → x.post.log.committing = false → x.post.log.lh = []) ∧
        ∀ i, x.post.pc i = .sleeping → ¬ (x.post.log.committing = false ∧
          x.post.log.lh.length + (x.post.log.outstanding + 1) * MAXOPBLOCKS ≤ LOGSIZE) :=
  ⟨by decide, group_commit _ (isRun_trace _ _ _)⟩

end StrideXv6.Log
