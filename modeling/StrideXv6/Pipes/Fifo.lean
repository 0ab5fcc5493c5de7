import StrideXv6.Pipes.Pipe

set_option autoImplicit false

/-! # A pipe is a queue

Whatever the processes do, the ring of a pipe changes in two ways only (`Flow`): a writer that
has found it not full stores a byte, and a reader that has found it not empty takes one. So the
bytes delivered and the bytes still in the ring are together the bytes stored, in order
(`pipe_fifo`); the counters may wrap as often as they like.
-/

namespace StrideXv6.Pipes

open Runs

variable {ι : Type} [DecidableEq ι] {s t : PipeState ι}

theorem PIPESIZE_dvd : PIPESIZE ∣ 2 ^ 32 := by decide

theorem PIPESIZE_lt : PIPESIZE < 2 ^ 32 := by decide

theorem Pipe.full_iff (p : Pipe) : p.full ↔ p.ring.pending = PIPESIZE :=
  p.ring.isFull_iff PIPESIZE_lt

theorem Pipe.empty_iff (p : Pipe) : p.empty ↔ p.ring.pending = 0 := p.ring.isEmpty_iff

/-- What a step does to the ring, and to the bytes seen going in and out. -/
inductive Flow (s t : PipeState ι) : Prop
  | rest (hr : t.pipe.ring = s.pipe.ring) (hst : t.stored = s.stored)
      (hd : t.delivered = s.delivered)
  | stored (a : UInt8) (hfull : ¬ s.pipe.full) (hr : t.pipe.ring = s.pipe.ring.push PIPESIZE a)
      (hst : t.stored = s.stored ++ [a]) (hd : t.delivered = s.delivered)
  | delivered (hempty : ¬ s.pipe.empty) (hr : t.pipe.ring = s.pipe.ring.pop)
      (hst : t.stored = s.stored)
      (hd : t.delivered = s.delivered ++ [s.pipe.ring.front PIPESIZE])

theorem flow_acquire {me : ι} {pc : Pc} (h : acquire s me pc = some t) : Flow s t := by
  unfold acquire at h
  split at h
  · obtain rfl := Option.some.inj h
    exact .rest rfl rfl rfl
  · simp at h

theorem flow_pipewrite {me : ι} {addr : Nat → UInt8} {n : Int} {i : Nat} {w : WritePc}
    (h : pipewrite s me addr n i w = some t) : Flow s t := by
  cases w with
  | acquire | reacquire => exact flow_acquire h
  | test =>
    simp only [pipewrite] at h
    split at h <;> obtain rfl := Option.some.inj h
    · exact .rest rfl rfl rfl
    · exact .stored (addr i) ‹_› rfl rfl rfl
  | full =>
    simp only [pipewrite] at h
    split at h <;> obtain rfl := Option.some.inj h <;> exact .rest rfl rfl rfl
  | sleeping => simp [pipewrite] at h
  | _ =>
    obtain rfl := Option.some.inj h
    exact .rest rfl rfl rfl

theorem flow_piperead {me : ι} {n : Int} {i : Nat} {r : ReadPc}
    (h : piperead s me n i r = some t) : Flow s t := by
  cases r with
  | acquire => exact flow_acquire h
  | test | empty =>
    simp only [piperead] at h
    split at h <;> obtain rfl := Option.some.inj h <;> exact .rest rfl rfl rfl
  | copy =>
    simp only [piperead] at h
    split at h <;> obtain rfl := Option.some.inj h
    · rename_i hc
      exact .delivered hc.2 rfl rfl rfl
    · exact .rest rfl rfl rfl
  | sleeping => simp [piperead] at h
  | _ =>
    obtain rfl := Option.some.inj h
    exact .rest rfl rfl rfl

theorem flow_pipeclose {me : ι} {writable : Bool} {c : ClosePc}
    (h : pipeclose s me writable c = some t) : Flow s t := by
  cases c with
  | acquire => exact flow_acquire h
  | _ =>
    obtain rfl := Option.some.inj h
    cases writable <;> exact .rest rfl rfl rfl

theorem flow_of_step {e : PipeEvent ι} (h : pipeStep s e = some t) : Flow s t := by
  cases e with
  | call i c =>
    simp only [pipeStep] at h
    split at h
    · split at h
      · simp at h
      · obtain rfl := Option.some.inj h
        exact .rest rfl rfl rfl
    · simp at h
  | run i =>
    simp only [pipeStep, advance] at h
    split at h
    · simp at h
    · split at h
      · simp at h
      · exact flow_pipewrite h
      · exact flow_piperead h
      · exact flow_pipeclose h
  | kill i =>
    obtain rfl := Option.some.inj h
    exact .rest rfl rfl rfl

/-- The ring holds what has been stored and not yet delivered. -/
structure Queued (s : PipeState ι) : Prop where
  fifo : s.delivered ++ s.pipe.ring.contents PIPESIZE = s.stored
  le : s.pipe.ring.pending ≤ PIPESIZE

omit [DecidableEq ι] in
theorem Flow.queued (h : Flow s t) (hs : Queued s) : Queued t := by
  cases h with
  | rest hr hst hd =>
    refine ⟨?_, hr ▸ hs.le⟩
    rw [hr, hst, hd]
    exact hs.fifo
  | stored a hfull hr hst hd =>
    have hlt : s.pipe.ring.pending < PIPESIZE :=
      lt_of_le_of_ne hs.le fun he => hfull (s.pipe.full_iff.mpr he)
    refine ⟨?_, ?_⟩
    · rw [hr, hst, hd, s.pipe.ring.contents_push PIPESIZE_dvd PIPESIZE_lt a hlt, ← hs.fifo,
        List.append_assoc]
    · rw [hr, s.pipe.ring.pending_push PIPESIZE_lt hlt]
      exact hlt
  | delivered hempty hr hst hd =>
    have hpos : 0 < s.pipe.ring.pending :=
      Nat.pos_of_ne_zero fun he => hempty (s.pipe.empty_iff.mpr he)
    refine ⟨?_, ?_⟩
    · rw [hr, hst, hd, ← hs.fifo, s.pipe.ring.contents_pop hpos, List.append_assoc]
      rfl
    · have := s.pipe.ring.pending_pop hpos
      rw [hr]
      have := hs.le
      omega

omit [DecidableEq ι] in
theorem queued_pipealloc (data : Nat → UInt8) (killed : ι → Bool) :
    Queued (pipealloc data killed) := by
  have h : (pipealloc data killed).pipe.ring.pending = 0 := by
    simp [pipealloc, RingBuffer.pending]
  refine ⟨?_, by rw [h]; exact Nat.zero_le _⟩
  rw [RingBuffer.contents, h]
  rfl

/-- **A pipe is a queue.** In every state of every run, with any number of processes in
`pipewrite`, `piperead` and `pipeclose`: the bytes delivered to readers, followed by the
`nwrite - nread` bytes in the ring, are the bytes stored by writers, in the order of storing;
and `nwrite - nread`, taken modulo `2 ^ 32`, is at most `PIPESIZE`. -/
theorem pipe_fifo (data : Nat → UInt8) (killed : ι → Bool)
    (tr : List (Trans (PipeState ι) (PipeEvent ι)))
    (hrun : IsRun pipeStep (pipealloc data killed) tr) :
    ∀ x ∈ tr,
      x.post.delivered ++ x.post.pipe.ring.contents PIPESIZE = x.post.stored ∧
      (x.post.pipe.ring.contents PIPESIZE).length
        = (x.post.pipe.ring.nwrite - x.post.pipe.ring.nread).toNat ∧
      (x.post.pipe.ring.nwrite - x.post.pipe.ring.nread).toNat ≤ PIPESIZE := by
  intro x hx
  have h := (hrun.invariant (C := fun _ => True) (queued_pipealloc data killed)
    (fun y hy _ hpre => (flow_of_step hy).queued hpre) (fun _ _ => trivial) x hx).2
  exact ⟨h.fifo, x.post.pipe.ring.length_contents PIPESIZE, h.le⟩

/-- A writer stores two bytes and a reader takes one of them. -/
def twoBytes : List (PipeEvent Bool) :=
  [.call true (.write (fun k => if k = 0 then 7 else 9) 2)] ++ List.replicate 8 (.run true)
    ++ [.call false (.read 1)] ++ List.replicate 4 (.run false)

theorem pipe_fifo_twoBytes :
    ((exec pipeStep (pipealloc (fun _ => 0) fun _ => false) twoBytes).map fun s =>
        (s.delivered, s.stored)) = some ([7], [7, 9]) ∧
      ∀ x ∈ trace pipeStep (pipealloc (fun _ => 0) fun _ => false) twoBytes,
        x.post.delivered ++ x.post.pipe.ring.contents PIPESIZE = x.post.stored ∧
        (x.post.pipe.ring.contents PIPESIZE).length
          = (x.post.pipe.ring.nwrite - x.post.pipe.ring.nread).toNat ∧
        (x.post.pipe.ring.nwrite - x.post.pipe.ring.nread).toNat ≤ PIPESIZE :=
  ⟨by decide, pipe_fifo _ _ _ (isRun_trace _ _ _)⟩

end StrideXv6.Pipes
