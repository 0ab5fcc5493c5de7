import StrideXv6.Lib.Run
import StrideXv6.Log.Commit

set_option autoImplicit false

/-! # Is the room `begin_op` reserves enough?

`begin_op`, `log_write` and `end_op` for any number of concurrent operations, at the
granularity of `log.lock`: `log_write` makes its two tests before it takes the lock, so the
tests and the critical section are two events.

`begin_op` reserves `MAXOPBLOCKS` blocks against `LOGSIZE` for every operation, and that is
kept: `Reserved` says that the blocks recorded and those still reserved never exceed
`LOGSIZE`. But `log_write` panics when `log.size - 1` blocks are recorded, before it looks
whether its block is among them, and `mkfs` makes `log.size` equal to `LOGSIZE`. So three
operations that use up their reservations panic (`tooBig_reached`). The exact condition is
`no_tooBig_iff`; with one block less for each operation the test is never met
(`nine_blocks_fit`).
-/

namespace StrideXv6.Log

open Runs

/-! ## The model -/

/-- `sb.nlog` as `mkfs` writes it, and so `log.size`. -/
def nlog : Nat := LOGSIZE

inductive Panic where
  | tooBig
  | outside
  | committing
  deriving DecidableEq

/-- An operation between its `begin_op` and its `end_op`: the distinct blocks it has recorded,
and the block of a `log_write` that has made its tests and not yet its critical section. -/
structure Op where
  blocks : Finset Nat
  writing : Option Nat
  deriving DecidableEq

structure Admission (ι : Type) where
  lh : List Nat
  outstanding : Nat
  committing : Bool
  op : ι → Option Op
  panicked : Option Panic

inductive LogEvent (ι : Type) where
  | beginOp (i : ι)
  | logWrite (i : ι) (b : Nat)
  | record (i : ι) (b : Nat)
  | endOp (i : ι)
  | commit
  | committed

variable {ι : Type} [DecidableEq ι]
variable {e : LogEvent ι}

def Admission.setOp (s : Admission ι) (i : ι) (o : Option Op) : Admission ι :=
  { s with op := Function.update s.op i o }

attribute [simp] Admission.setOp

/-- `begin_op`, when it does not have to sleep. -/
def beginOp (s : Admission ι) (i : ι) : Option (Admission ι) :=
  if s.committing then none
  else if s.lh.length + (s.outstanding + 1) * MAXOPBLOCKS > LOGSIZE then none
  else some { s.setOp i (some ⟨∅, none⟩) with outstanding := s.outstanding + 1 }

/-- The tests of `log_write(b)`. -/
def logWrite (s : Admission ι) (i : ι) (o : Op) (b : Nat) : Admission ι :=
  if s.lh.length ≥ LOGSIZE ∨ s.lh.length ≥ nlog - 1 then { s with panicked := some .tooBig }
  else if s.outstanding < 1 then { s with panicked := some .outside }
  else s.setOp i (some { o with writing := some b })

/-- Its critical section. -/
def record (s : Admission ι) (i : ι) (o : Op) (b : Nat) : Admission ι :=
  { s.setOp i (some ⟨insert b o.blocks, none⟩) with lh := absorb s.lh b }

/-- The first critical section of `end_op`. -/
def endOp (s : Admission ι) (i : ι) : Admission ι :=
  let s := { s.setOp i none with outstanding := s.outstanding - 1 }
  if s.committing then { s with panicked := some .committing }
  else if s.outstanding = 0 then { s with committing := true }
  else s

/-- One step. An operation calls `log_write` between its `begin_op` and its `end_op`, on at
most `MAXOPBLOCKS` distinct blocks; nothing happens after a panic. -/
def logStep (s : Admission ι) (e : LogEvent ι) : Option (Admission ι) :=
  if s.panicked ≠ none then none
  else
    match e with
    | .beginOp i => if s.op i = none then beginOp s i else none
    | .logWrite i b =>
      match s.op i with
      | some o =>
        if o.writing = none ∧ (insert b o.blocks).card ≤ MAXOPBLOCKS then
          some (logWrite s i o b)
        else none
      | none => none
    | .record i b =>
      match s.op i with
      | some o => if o.writing = some b then some (record s i o b) else none
      | none => none
    | .endOp i =>
      match s.op i with
      | some o => if o.writing = none then some (endOp s i) else none
      | none => none
    -- the end of commit(), run without the lock by whoever set `committing`
    | .commit => if s.committing then some { s with lh := [] } else none
    -- the second critical section of that process' end_op
    | .committed =>
      if s.committing ∧ s.lh = [] then some { s with committing := false } else none

/-- After `initlog`. -/
def logInit : Admission ι :=
  { lh := [], outstanding := 0, committing := false, op := fun _ => none, panicked := none }

/-! ## The steps, one constructor each -/

variable {s s' : Admission ι}

inductive LogSteps (s : Admission ι) : LogEvent ι → Admission ι → Prop
  | beginOp {i : ι} (hi : s.op i = none) (hc : s.committing = false)
      (hroom : s.lh.length + (s.outstanding + 1) * MAXOPBLOCKS ≤ LOGSIZE) :
      LogSteps s (.beginOp i)
        { s.setOp i (some ⟨∅, none⟩) with outstanding := s.outstanding + 1 }
  | tooBig {i : ι} {o : Op} {b : Nat} (hi : s.op i = some o)
      (hn : s.lh.length ≥ LOGSIZE ∨ s.lh.length ≥ nlog - 1) :
      LogSteps s (.logWrite i b) { s with panicked := some .tooBig }
  | outside {i : ι} {o : Op} {b : Nat} (hi : s.op i = some o)
      (hn : ¬ (s.lh.length ≥ LOGSIZE ∨ s.lh.length ≥ nlog - 1)) (ho : s.outstanding < 1) :
      LogSteps s (.logWrite i b) { s with panicked := some .outside }
  | logWrite {i : ι} {o : Op} {b : Nat} (hi : s.op i = some o)
      (hb : (insert b o.blocks).card ≤ MAXOPBLOCKS)
      (hn : ¬ (s.lh.length ≥ LOGSIZE ∨ s.lh.length ≥ nlog - 1)) :
      LogSteps s (.logWrite i b) (s.setOp i (some { o with writing := some b }))
  | record {i : ι} {o : Op} {b : Nat} (hi : s.op i = some o) (hw : o.writing = some b) :
      LogSteps s (.record i b) (record s i o b)
  | endPanic {i : ι} {o : Op} (hi : s.op i = some o) (hc : s.committing = true) :
      LogSteps s (.endOp i)
        { s.setOp i none with
          outstanding := s.outstanding - 1, panicked := some .committing }
  | endLast {i : ι} {o : Op} (hi : s.op i = some o) (hc : s.committing = false)
      (ho : s.outstanding - 1 = 0) :
      LogSteps s (.endOp i)
        { s.setOp i none with outstanding := s.outstanding - 1, committing := true }
  | endOp {i : ι} {o : Op} (hi : s.op i = some o) (hc : s.committing = false)
      (ho : s.outstanding - 1 ≠ 0) :
      LogSteps s (.endOp i) { s.setOp i none with outstanding := s.outstanding - 1 }
  | commit (hc : s.committing = true) : LogSteps s .commit { s with lh := [] }
  | committed (hc : s.committing = true) (hl : s.lh = []) :
      LogSteps s .committed { s with committing := false }

theorem logSteps_of_step (h : logStep s e = some s') :
    s.panicked = none ∧ LogSteps s e s' := by
  unfold logStep at h
  split at h
  · simp at h
  · rename_i hp
    refine ⟨by simpa using hp, ?_⟩
    cases e with
    | beginOp i =>
      simp only [Option.ite_none_right_eq_some] at h
      obtain ⟨hi, h⟩ := h
      unfold beginOp at h
      simp only [Option.ite_none_left_eq_some, Option.some.injEq] at h
      obtain ⟨hc, hroom, rfl⟩ := h
      exact .beginOp hi (by simpa using hc) (by omega)
    | logWrite i b =>
      dsimp only at h
      split at h
      · rename_i o hi
        obtain ⟨⟨hw, hb⟩, rfl⟩ := guard_some h
        unfold logWrite
        split
        · exact .tooBig hi ‹_›
        · split
          · exact .outside hi ‹_› ‹_›
          · exact .logWrite hi hb ‹_›
      · simp at h
    | record i b =>
      dsimp only at h
      split at h
      · rename_i o hi
        obtain ⟨hw, rfl⟩ := guard_some h
        exact .record hi hw
      · simp at h
    | endOp i =>
      dsimp only at h
      split at h
      · rename_i o hi
        obtain ⟨-, rfl⟩ := guard_some h
        unfold endOp
        dsimp only
        split
        · exact .endPanic hi ‹_›
        · rename_i hc
          have hc : s.committing = false := by simpa using hc
          split
          · exact .endLast hi hc ‹_›
          · exact .endOp hi hc ‹_›
      · simp at h
    | commit =>
      obtain ⟨hc, rfl⟩ := guard_some h
      exact .commit hc
    | committed =>
      obtain ⟨⟨hc, hl⟩, rfl⟩ := guard_some h
      exact .committed hc hl

/-! ## The blocks recorded since the last commit -/

/-- The distinct blocks recorded since the last commit, read off the events. -/
def loggedSince (es : List (LogEvent ι)) : Finset Nat :=
  es.foldl (fun S e =>
    match e with
    | .record _ b => insert b S
    | .commit => ∅
    | _ => S) ∅

omit [DecidableEq ι] in
theorem loggedSince_snoc (es : List (LogEvent ι)) (e : LogEvent ι) :
    loggedSince (es ++ [e]) = match e with
      | .record _ b => insert b (loggedSince es)
      | .commit => ∅
      | _ => loggedSince es := by
  rw [loggedSince, List.foldl_append]
  rfl

theorem nodup_absorb {lh : List Nat} (h : lh.Nodup) (b : Nat) : (absorb lh b).Nodup := by
  unfold absorb
  split
  · exact h
  · rename_i hb
    exact h.append (List.nodup_singleton b) (by simpa using hb)

theorem toFinset_absorb (lh : List Nat) (b : Nat) :
    (absorb lh b).toFinset = insert b lh.toFinset := by
  unfold absorb
  split
  · rename_i hb
    exact (Finset.insert_eq_of_mem (by simpa using hb)).symm
  · rw [List.toFinset_append, Finset.union_comm, List.toFinset_cons, List.toFinset_nil,
      insert_empty_eq, Finset.insert_eq]

/-- `log.lh` lists these blocks, without repetition. -/
theorem lh_eq_loggedSince {es : List (LogEvent ι)} (hs : LogSteps s e s')
    (h : s.lh.Nodup ∧ s.lh.toFinset = loggedSince es) :
    s'.lh.Nodup ∧ s'.lh.toFinset = loggedSince (es ++ [e]) := by
  rw [loggedSince_snoc]
  cases hs with
  | record hi hw =>
    exact ⟨nodup_absorb h.1 _, by rw [← h.2]; exact toFinset_absorb _ _⟩
  | commit hc => exact ⟨List.nodup_nil, rfl⟩
  | _ => exact h

/-- `log_write` finds the transaction too big exactly when `log.size - 1` blocks are there. -/
theorem LogSteps.tooBig_iff (hs : LogSteps s e s') (hp : s.panicked = none) :
    s'.panicked = some .tooBig ↔ (∃ i b, e = .logWrite i b) ∧ nlog - 1 ≤ s.lh.length := by
  have hsize : nlog - 1 ≤ LOGSIZE := by decide
  cases hs with
  | tooBig hi hn => simpa using by omega
  | outside hi hn ho => simp; omega
  | logWrite hi hb hn => simp [hp]; omega
  | endPanic hi hc => simp
  | _ => simp [Log.record, hp]

/-- **When `log_write` never finds the transaction too big.** In every run of operations that
each log at most `MAXOPBLOCKS` distinct blocks: if and only if at every call of `log_write`
fewer than `log.size - 1` distinct blocks have been recorded since the last commit. -/
theorem no_tooBig_iff (tr : List (Trans (Admission ι) (LogEvent ι)))
    (hrun : IsRun logStep logInit tr) :
    (∀ x ∈ tr, x.post.panicked ≠ some .tooBig) ↔
      ∀ pre x post i b, tr = pre ++ x :: post → x.ev = .logWrite i b →
        (loggedSince (pre.map Trans.ev)).card < nlog - 1 := by
  have hcard : ∀ pre x post, tr = pre ++ x :: post →
      x.pre.lh.length = (loggedSince (pre.map Trans.ev)).card := by
    rintro pre x post rfl
    obtain ⟨hpre, hx, -⟩ := hrun.split
    have := hpre.history (J := fun es s => s.lh.Nodup ∧ s.lh.toFinset = loggedSince es)
      ⟨List.nodup_nil, rfl⟩ (fun es u e v hst h => lh_eq_loggedSince (logSteps_of_step hst).2 h)
    rw [hx, ← this.2, List.toFinset_card_of_nodup this.1]
  have htoo : ∀ x ∈ tr, x.post.panicked = some .tooBig ↔
      (∃ i b, x.ev = .logWrite i b) ∧ nlog - 1 ≤ x.pre.lh.length := by
    intro x hx
    obtain ⟨hp, hs⟩ := logSteps_of_step (hrun.step_of_mem hx)
    exact hs.tooBig_iff hp
  constructor
  · intro h pre x post i b htr he
    have hx : x ∈ tr := by simp [htr]
    by_contra hn
    exact h x hx ((htoo x hx).mpr ⟨⟨i, b, he⟩, by rw [hcard pre x post htr]; omega⟩)
  · intro h x hx hp
    obtain ⟨pre, post, htr⟩ := List.append_of_mem hx
    obtain ⟨⟨i, b, he⟩, hn⟩ := (htoo x hx).mp hp
    have hlt := h pre x post i b htr he
    rw [hcard pre x post htr] at hn
    omega

/-- One operation that logs one block. -/
def oneBlock : List (LogEvent Unit) := [.beginOp (), .logWrite () 40, .record () 40, .endOp ()]

theorem no_tooBig_iff_oneBlock :
    (trace logStep logInit oneBlock).length = 4 ∧
      ((∀ x ∈ trace logStep logInit oneBlock, x.post.panicked ≠ some .tooBig) ↔
        ∀ pre x post i b, trace logStep logInit oneBlock = pre ++ x :: post →
          x.ev = .logWrite i b → (loggedSince (pre.map Trans.ev)).card < nlog - 1) :=
  ⟨by decide, no_tooBig_iff _ (isRun_trace _ _ _)⟩

/-- A block logged by operation `i`. -/
def logs (i : Fin 3) (b : Nat) : List (LogEvent (Fin 3)) := [.logWrite i b, .record i b]

/-- Three operations begin, and each logs ten blocks of its own. -/
def threeFullOps : List (LogEvent (Fin 3)) :=
  [.beginOp 0, .beginOp 1, .beginOp 2]
    ++ (List.range 10).flatMap (logs 0)
    ++ (List.range 10).flatMap (fun b => logs 1 (10 + b))
    ++ (List.range 9).flatMap (fun b => logs 2 (20 + b))
    ++ [.logWrite 2 29]

/-- The thirtieth block is one too many. -/
theorem tooBig_reached :
    ¬ ∀ tr : List (Trans (Admission (Fin 3)) (LogEvent (Fin 3))), IsRun logStep logInit tr →
      ∀ x ∈ tr, x.post.panicked ≠ some .tooBig := by
  intro h
  have hend : (exec logStep logInit threeFullOps).map Admission.panicked = some (some .tooBig) := by
    decide +kernel
  obtain ⟨t, ht, hp⟩ := Option.map_eq_some_iff.mp hend
  obtain ⟨tr, hrun, hlast, hev⟩ := isRun_of_exec ht
  have hne : tr ≠ [] := by
    rintro rfl
    simp [threeFullOps] at hev
  obtain ⟨x, hx, hpost⟩ := exists_post_eq_last logInit hne
  exact h tr hrun x hx (by rw [hpost, hlast, hp])

/-! ## The reservation -/

section Reservation

variable [Fintype ι]

/-- The blocks an operation may still record, if `m` is the most it uses. -/
def reserve (m : Nat) : Option Op → Nat
  | none => 0
  | some o => m - o.blocks.card

theorem reserve_some (m : Nat) (o : Op) : reserve m (some o) = m - o.blocks.card := rfl

/-- Replacing one summand. -/
theorem sum_update {β : Type} (f : β → Nat) (g : ι → β) (i : ι) (v : β) :
    ∑ j, f (Function.update g i v j) + f (g i) = ∑ j, f (g j) + f v := by
  rw [← Finset.add_sum_erase _ _ (Finset.mem_univ i),
    ← Finset.add_sum_erase _ (fun j => f (g j)) (Finset.mem_univ i), Function.update_self]
  have : ∑ j ∈ Finset.univ.erase i, f (Function.update g i v j)
      = ∑ j ∈ Finset.univ.erase i, f (g j) :=
    Finset.sum_congr rfl fun j hj => by rw [Function.update_of_ne (Finset.ne_of_mem_erase hj)]
  omega

/-- One for an operation in progress. -/
def active : Option Op → Nat
  | none => 0
  | some _ => 1

/-- The invariant of admission, for operations that use at most `m` blocks: the blocks
recorded and those still reserved fit, and `outstanding` counts the operations in progress. -/
structure Reserved (m : Nat) (s : Admission ι) : Prop where
  count : ∑ i, active (s.op i) = s.outstanding
  room : s.lh.length + ∑ i, reserve m (s.op i) + 2 * (MAXOPBLOCKS - m) ≤ LOGSIZE
  sub : ∀ i o, s.op i = some o → ∀ b ∈ o.blocks, b ∈ s.lh
  fits : ∀ i o b, s.op i = some o → o.writing = some b → (insert b o.blocks).card ≤ m
  idle : s.committing = true → s.outstanding = 0
  clean : s.outstanding = 0 → s.committing = false → s.lh = []

variable {m : Nat}
variable {o : Op} {i : ι}

omit [DecidableEq ι] in
theorem sum_reserve_le (s : Admission ι) (h : ∑ i, active (s.op i) = s.outstanding) :
    ∑ i, reserve m (s.op i) ≤ m * s.outstanding := by
  rw [← h, Finset.mul_sum]
  refine Finset.sum_le_sum fun i _ => ?_
  cases s.op i with
  | none => simp [reserve]
  | some o => simp [reserve, active]

omit [DecidableEq ι] in
theorem Reserved.outstanding_pos (h : Reserved m s) (hi : s.op i = some o) :
    0 < s.outstanding := by
  rw [← h.count]
  calc 0 < active (s.op i) := by simp [active, hi]
    _ ≤ ∑ j, active (s.op j) :=
      Finset.single_le_sum (fun j _ => Nat.zero_le (active (s.op j))) (Finset.mem_univ i)

/-- One operation, the log and the counters change. -/
theorem Reserved.set (h : Reserved m s) {v : Option Op} {lh : List Nat} {n : Nat} {c : Bool}
    (hn : n + active (s.op i) = s.outstanding + active v)
    (hroom : ∀ r, r + reserve m (s.op i) = ∑ j, reserve m (s.op j) + reserve m v →
      lh.length + r + 2 * (MAXOPBLOCKS - m) ≤ LOGSIZE)
    (hlh : s.lh ⊆ lh) (hsub : ∀ o, v = some o → ∀ b ∈ o.blocks, b ∈ lh)
    (hfits : ∀ o b, v = some o → o.writing = some b → (insert b o.blocks).card ≤ m)
    (hidle : c = true → n = 0) (hclean : n = 0 → c = false → lh = []) :
    Reserved m { s.setOp i v with lh := lh, outstanding := n, committing := c } := by
  have hop : ∀ j o, Function.update s.op i v j = some o → s.op j = some o ∨ v = some o := by
    intro j o hj
    rw [Function.update_apply] at hj
    split at hj <;> simp [hj]
  refine ⟨?_, hroom _ (sum_update (reserve m) s.op i v), fun j o hj b hb => ?_,
    fun j o b hj hw => ?_, hidle, hclean⟩
  · have hcount := sum_update active s.op i v
    rw [h.count, ← hn] at hcount
    exact Nat.add_right_cancel hcount
  · rcases hop j o hj with hj | hv
    · exact hlh (h.sub j o hj b hb)
    · exact hsub o hv b hb
  · rcases hop j o hj with hj | hv
    · exact h.fits j o b hj hw
    · exact hfits o b hv hw

/-- The room `begin_op` asks for is there for the new operation too: at most three are in
progress, and the first one starts with an empty log. -/
theorem Reserved.beginOp (h : Reserved m s) (hm : m ≤ MAXOPBLOCKS) (hi : s.op i = none)
    (hc : s.committing = false)
    (hroom : s.lh.length + (s.outstanding + 1) * MAXOPBLOCKS ≤ LOGSIZE) :
    Reserved m { s.setOp i (some ⟨∅, none⟩) with outstanding := s.outstanding + 1 } := by
  have hsum := sum_reserve_le (m := m) s h.count
  have hle : s.outstanding ≤ 2 := by unfold LOGSIZE MAXOPBLOCKS at hroom; omega
  have hnil := h.clean
  refine h.set (by rw [hi]; rfl) (fun r hr => ?_) (List.Subset.refl _) ?_ ?_ ?_ ?_
  · rw [hi, reserve_some, Finset.card_empty, reserve] at hr
    show s.lh.length + r + _ ≤ _
    unfold LOGSIZE MAXOPBLOCKS at *
    interval_cases hout : s.outstanding
    · have : s.lh.length = 0 := by rw [hnil rfl hc]; rfl
      omega
    · omega
    · omega
  · rintro o ⟨⟩ b hb
    simp at hb
  · rintro o b ⟨⟩ hw
    cases hw
  · simp [hc]
  · simp

/-- `log_write` only notes its block before it has the lock. -/
theorem Reserved.logWrite (h : Reserved m s) {b : Nat} (hi : s.op i = some o)
    (hb : (insert b o.blocks).card ≤ m) :
    Reserved m (s.setOp i (some { o with writing := some b })) := by
  refine h.set (by rw [hi]; rfl) (fun r hr => ?_) (List.Subset.refl _) ?_ ?_ h.idle h.clean
  · rw [hi] at hr
    rw [Nat.add_right_cancel hr]
    exact h.room
  · rintro _ ⟨⟩
    exact h.sub i o hi
  · rintro _ _ ⟨⟩ ⟨⟩
    exact hb

/-- A block recorded is paid for by the reservation of the operation that records it. -/
theorem Reserved.record (h : Reserved m s) {b : Nat} (hi : s.op i = some o)
    (hw : o.writing = some b) : Reserved m (record s i o b) := by
  have hfit := h.fits i o b hi hw
  refine h.set (by rw [hi]; rfl) (fun r hr => ?_) (fun x hx => (mem_absorb ..).mpr (Or.inl hx))
    ?_ ?_ h.idle fun h0 => absurd h0 (h.outstanding_pos hi).ne'
  · rw [hi, reserve_some, reserve_some] at hr
    dsimp only at hr
    have hroom := h.room
    by_cases hb : b ∈ s.lh
    · have : o.blocks.card ≤ (insert b o.blocks).card := Finset.card_le_card (Finset.subset_insert _ _)
      rw [absorb, if_pos hb]
      omega
    · -- a new block is new to the operation as well
      have : (insert b o.blocks).card = o.blocks.card + 1 :=
        Finset.card_insert_of_notMem fun hmem => hb (h.sub i o hi b hmem)
      rw [absorb, if_neg hb, List.length_append, List.length_singleton]
      omega
  · rintro _ ⟨⟩ x hx
    refine (mem_absorb ..).mpr ?_
    rcases Finset.mem_insert.mp hx with rfl | hx
    · exact Or.inr rfl
    · exact Or.inl (h.sub i o hi x hx)
  · rintro _ _ ⟨⟩ ⟨⟩

/-- The end of an operation gives back what is left of its reservation. -/
theorem Reserved.endOp (h : Reserved m s) (hi : s.op i = some o) {c : Bool}
    (hc : c = true ↔ s.outstanding - 1 = 0) :
    Reserved m { s.setOp i none with outstanding := s.outstanding - 1, committing := c } := by
  have hpos := h.outstanding_pos hi
  refine h.set ?_ (fun r hr => ?_) (List.Subset.refl _) (by simp) (by simp) hc.mp
    fun h0 hc' => absurd (hc.mpr h0) (by simp [hc'])
  · rw [hi, active, active]
    omega
  · rw [hi, reserve_some, reserve] at hr
    have hroom := h.room
    show s.lh.length + r + _ ≤ _
    omega

/-- The operation that calls `log_write` uses at most `m` blocks. -/
def UsesAtMost (m : Nat) (x : Trans (Admission ι) (LogEvent ι)) : Prop :=
  ∀ i b o, x.ev = .logWrite i b → x.pre.op i = some o → (insert b o.blocks).card ≤ m

theorem Reserved.step {e : LogEvent ι} (h : Reserved m s) (hm : m ≤ MAXOPBLOCKS)
    (hs : LogSteps s e s') (hu : UsesAtMost m ⟨s, e, s'⟩) : Reserved m s' := by
  cases hs with
  | beginOp hi hc hroom => exact h.beginOp hm hi hc hroom
  | tooBig hi hn => exact ⟨h.count, h.room, h.sub, h.fits, h.idle, h.clean⟩
  | outside hi hn ho => exact ⟨h.count, h.room, h.sub, h.fits, h.idle, h.clean⟩
  | logWrite hi hb hn => exact h.logWrite hi (hu _ _ _ rfl hi)
  | record hi hw => exact h.record hi hw
  | endPanic hi hc =>
    have := h.outstanding_pos hi
    rw [h.idle hc] at this
    omega
  | endLast hi hc ho => exact h.endOp hi (by simp [ho])
  | endOp hi hc ho => exact h.endOp hi (by simp [hc, ho])
  | commit hc =>
    have hnone : ∀ i o, s.op i ≠ some o := fun i o hi => by
      have := h.outstanding_pos hi
      rw [h.idle hc] at this
      omega
    have hroom := h.room
    exact ⟨h.count, by simp only [List.length_nil]; omega, fun i o hi => absurd hi (hnone i o),
      h.fits, h.idle, fun _ _ => rfl⟩
  | committed hc hl =>
    exact ⟨h.count, h.room, h.sub, h.fits, fun hc' => by simp at hc', fun _ _ => hl⟩

omit [DecidableEq ι] in
theorem reserved_init (hm : m ≤ MAXOPBLOCKS) : Reserved m (logInit : Admission ι) := by
  refine ⟨by simp [logInit, active], ?_, by simp [logInit], by simp [logInit], by simp [logInit],
    fun _ _ => rfl⟩
  simp only [logInit, reserve, List.length_nil, Finset.sum_const_zero]
  unfold LOGSIZE MAXOPBLOCKS at *
  omega

/-- **Nine blocks fit.** When no operation logs more than `MAXOPBLOCKS - 1` distinct blocks,
`log_write` never finds the transaction too big. -/
theorem nine_blocks_fit (tr : List (Trans (Admission ι) (LogEvent ι)))
    (hrun : IsRun logStep logInit tr) (hu : ∀ x ∈ tr, UsesAtMost (MAXOPBLOCKS - 1) x) :
    ∀ x ∈ tr, x.post.panicked ≠ some .tooBig := by
  have hinv := hrun.invariant (I := Reserved _) (reserved_init (by decide))
    (fun x hst hC hI => hI.step (by decide) (logSteps_of_step hst).2 hC) hu
  intro x hx hp
  obtain ⟨hnone, hs⟩ := logSteps_of_step (hrun.step_of_mem hx)
  have hlen := ((hs.tooBig_iff hnone).mp hp).2
  have hroom := (hinv x hx).1.room
  unfold nlog LOGSIZE MAXOPBLOCKS at *
  omega

theorem nine_blocks_fit_oneBlock : (trace logStep logInit oneBlock).length = 4 ∧
    ∀ x ∈ trace logStep logInit oneBlock, x.post.panicked ≠ some .tooBig := by
  have hcard : ∀ x ∈ trace logStep logInit oneBlock, ∀ o ∈ (x.pre.op ()).toList,
      o.blocks.card ≤ 8 := by decide
  refine ⟨rfl, nine_blocks_fit _ (isRun_trace _ _ _) fun x hx i b o _ ho => ?_⟩
  exact (Finset.card_insert_le b o.blocks).trans (Nat.succ_le_succ (hcard x hx o (by simp [ho])))

end Reservation

end StrideXv6.Log
