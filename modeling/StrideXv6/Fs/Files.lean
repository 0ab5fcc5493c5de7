import StrideXv6.Lib.Run
import StrideXv6.Lib.RefCount
import StrideXv6.Fs.Inode

set_option autoImplicit false

/-! # References to open files

`file.c` counts the pointers to each file. The pointers of a process are its own, so a step is a
critical section of `ftable.lock` with what the process does to its pointers around it; every path
through `sys_open`, `sys_dup`, `sys_close`, `sys_pipe`, `pipealloc`, `fork` and `exit` is a sequence
of such steps. In whatever order the processes take them, the counts are exact, and neither
`filedup` nor `fileclose` panics (`file_refs_exact`).
-/

namespace StrideXv6.Files

open Runs RefCount Function
open Fs (NFILE NOFILE)

inductive Panic where
  | filedup
  | fileclose

/-- The pointers of a process: its descriptors, and the variables `f`, or `rf` and `wf`. -/
abbrev Place := Fin NOFILE ⊕ Bool

/-- The field `ref` of the files, and the pointers to them. -/
structure State (ι : Type) where
  ref : Fin NFILE → Nat
  ptr : ι × Place → Option (Fin NFILE)

inductive Event (ι : Type) where
  | filealloc (p : ι) (v : Bool)
  /-- A descriptor takes over the reference of a variable. -/
  | fdalloc (p : ι) (v : Bool)
  /-- A pointer is cleared, and `fileclose` called. -/
  | close (p : ι) (l : Place)
  | dup (p : ι) (fd : Fin NOFILE)
  /-- `fork` copies a descriptor to the child, whose descriptors are clear. -/
  | fork (p child : ι) (fd : Fin NOFILE)

variable {ι : Type} {s : State ι} {f : Fin NFILE}

def filealloc (s : State ι) : Option (Fin NFILE) :=
  (List.finRange NFILE).find? fun f => decide (s.ref f = 0)

def filedup (s : State ι) (f : Fin NFILE) : Except Panic (State ι) :=
  if s.ref f < 1 then .error .filedup else .ok { s with ref := update s.ref f (s.ref f + 1) }

/-- Then, outside the lock, the last one goes on to `pipeclose` or `iput`. -/
def fileclose (s : State ι) (f : Fin NFILE) : Except Panic (State ι) :=
  if s.ref f < 1 then .error .fileclose else .ok { s with ref := update s.ref f (s.ref f - 1) }

def fdalloc (s : State ι) (p : ι) : Option (Fin NOFILE) :=
  (List.finRange NOFILE).find? fun fd => decide (s.ptr (p, .inl fd) = none)

theorem filealloc_free (h : filealloc s = some f) : s.ref f = 0 := by
  simpa using List.find?_some h

theorem fdalloc_free {p : ι} {fd : Fin NOFILE} (h : fdalloc s p = some fd) :
    s.ptr (p, .inl fd) = none := by
  simpa using List.find?_some h

variable [DecidableEq ι]

def State.set (s : State ι) (k : ι × Place) (o : Option (Fin NFILE)) : State ι :=
  { s with ptr := update s.ptr k o }

/-- A call that finds no file or no descriptor ends without a step. -/
def act (s : State ι) : Event ι → Option (Except Panic (State ι))
  | .filealloc p v =>
    match s.ptr (p, .inr v), filealloc s with
    | none, some f => some (.ok { s.set (p, .inr v) (some f) with ref := update s.ref f 1 })
    | _, _ => none
  | .fdalloc p v =>
    match s.ptr (p, .inr v), fdalloc s p with
    | some f, some fd => some (.ok ((s.set (p, .inr v) none).set (p, .inl fd) (some f)))
    | _, _ => none
  | .close p l => (s.ptr (p, l)).map (fileclose (s.set (p, l) none))
  | .dup p fd =>
    match s.ptr (p, .inl fd), fdalloc s p with
    | some f, some fd' => some (filedup (s.set (p, .inl fd') (some f)) f)
    | _, _ => none
  | .fork p child fd =>
    match s.ptr (p, .inl fd), s.ptr (child, .inl fd) with
    | some f, none => some (filedup (s.set (child, .inl fd) (some f)) f)
    | _, _ => none

def step (s : State ι) (e : Event ι) : Option (State ι) := (act s e).bind Except.toOption

def init : State ι := { ref := fun _ => 0, ptr := fun _ => none }

/-! ## The counts -/

variable [Finite ι]

theorem filedup_counts {k k' : ι × Place} (h : Counts s.ref s.ptr) (hk : s.ptr k = some f)
    (hk' : s.ptr k' = none) :
    ∃ t, filedup (s.set k' (some f)) f = .ok t ∧ Counts t.ref t.ptr :=
  ⟨_, if_neg (Nat.not_lt.mpr (h.pos hk)), h.set hk' f⟩

theorem act_counts {e : Event ι} {r : Except Panic (State ι)} (h : Counts s.ref s.ptr)
    (ha : act s e = some r) : ∃ t, r = .ok t ∧ Counts t.ref t.ptr := by
  cases e with
  | filealloc p v =>
    simp only [act] at ha
    split at ha <;> cases ha
    rename_i f hv hf
    have hset := h.set hv f
    rw [filealloc_free hf] at hset
    exact ⟨_, rfl, hset⟩
  | close p l =>
    obtain ⟨f, hf, rfl⟩ := Option.map_eq_some_iff.mp ha
    exact ⟨_, if_neg (Nat.not_lt.mpr (h.pos hf)), h.clear hf⟩
  | fdalloc p v =>
    simp only [act] at ha
    split at ha <;> cases ha
    rename_i hv hfd
    exact ⟨_, rfl, h.move hv (fdalloc_free hfd)⟩
  | dup p fd =>
    simp only [act] at ha
    split at ha <;> cases ha
    rename_i hf hfd
    exact filedup_counts h hf (fdalloc_free hfd)
  | fork p child fd =>
    simp only [act] at ha
    split at ha <;> cases ha
    rename_i hf hchild
    exact filedup_counts h hf hchild

/-- **The reference counts of open files are exact.** After any interleaving of steps a file is
counted once for each pointer to it, no step can panic, and what `filealloc` finds is free. -/
theorem file_refs_exact {tr : List (Trans (State ι) (Event ι))} (hr : IsRun step init tr) :
    (∀ f, (last init tr).ref f = count (last init tr).ptr f) ∧
      (∀ e pn, act (last init tr) e ≠ some (.error pn)) ∧
      ∀ f, filealloc (last init tr) = some f → ∀ k, (last init tr).ptr k ≠ some f := by
  have hcounts : Counts (last init tr).ref (last init tr).ptr := by
    refine hr.invariant_last (C := fun _ => True) (I := fun s => Counts s.ref s.ptr)
      (fun f => ?_) (fun x hst _ hx => ?_) fun _ _ => trivial
    · exact ((count_eq_zero (Set.toFinite _)).mpr fun _ => Option.some_ne_none _ ∘ Eq.symm).symm
    · obtain ⟨r, hr, hok⟩ := Option.bind_eq_some_iff.mp hst
      obtain ⟨t, rfl, ht⟩ := act_counts hx hr
      exact Option.some.inj hok ▸ ht
  refine ⟨hcounts, fun e pn he => ?_, fun f hf k hk => ?_⟩
  · obtain ⟨t, ht, -⟩ := act_counts hcounts he
    cases ht
  · exact (hcounts.pos hk).ne' (filealloc_free hf)

/-- A process opens a file, duplicates it, forks and closes one descriptor. -/
def openAndFork : List (Event Bool) :=
  [.filealloc true true, .fdalloc true true, .dup true 0, .fork true false 0, .close true (.inl 0)]

theorem file_refs_exact_openAndFork :
    (last init (trace step init openAndFork)).ref 0 = 2 ∧
      (last init (trace step init openAndFork)).ref 0
        = count (last init (trace step init openAndFork)).ptr 0 :=
  ⟨by decide +kernel, (file_refs_exact (isRun_trace step init openAndFork)).1 0⟩

end StrideXv6.Files
