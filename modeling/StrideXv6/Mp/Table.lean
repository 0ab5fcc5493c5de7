import Mathlib.Data.UInt
import Mathlib.Tactic

set_option autoImplicit false

/-! # The MP configuration table

`mpinit` finds the table that the BIOS has left (`mpsearch`, `mpconfig`) and walks over its entries.
An entry of unknown type does not move the cursor, so the walk ends if and only if there is none
(`mpinit_ends_iff`). The walk does not look at `NCPU`, nor at where the last entry ends
(`mpinit_bounded_iff`).
-/

namespace StrideXv6.Mp

open Function

/-! ## mp.c -/

def KERNBASE : Nat := 0x80000000

def NCPU : Nat := 8

/-- The bytes at the 2^32 addresses. -/
abbrev Ram := Nat → UInt8

def p2v (a : Nat) : Nat := (a + KERNBASE) % 2 ^ 32

def byte (ram : Ram) (a : Nat) : UInt8 := ram (a % 2 ^ 32)

/-- `*(ushort*)a` -/
def half (ram : Ram) (a : Nat) : Nat := (byte ram a).toNat + 2 ^ 8 * (byte ram (a + 1)).toNat

/-- `*(uint*)a` -/
def word (ram : Ram) (a : Nat) : Nat := half ram a + 2 ^ 16 * half ram (a + 2)

/-- `memcmp(a, s, n) == 0` for a string `s` of `n` bytes. -/
def memcmp (ram : Ram) (a : Nat) (s : List UInt8) : Bool :=
  (List.range s.length).map (fun i => byte ram (a + i)) = s

def sum (ram : Ram) (addr len : Nat) : UInt8 :=
  ((List.range len).map fun i => byte ram (addr + i)).sum

/-- `sizeof(struct mp)` -/
def MPSIZE : Nat := 16

/-- Look for an MP structure in the `len` bytes at `a`. -/
def mpsearch1 (ram : Ram) (a len : Nat) : Option Nat :=
  ((List.range (len / MPSIZE)).map fun i => p2v a + MPSIZE * i).find? fun p =>
    -- "_MP_"
    memcmp ram p [95, 77, 80, 95] && sum ram p MPSIZE = 0

def mpsearch (ram : Ram) : Option Nat :=
  let bda := p2v 0x400
  let ebda := half ram (bda + 0x0E) * 2 ^ 4
  let base := half ram (bda + 0x13) * 1024
  let first := if ebda ≠ 0 then mpsearch1 ram ebda 1024
    else mpsearch1 ram ((base + 2 ^ 32 - 1024) % 2 ^ 32) 1024
  first.or (mpsearch1 ram 0xF0000 0x10000)

/-- The table at `conf`, by offset. -/
def table (ram : Ram) (conf : Nat) : Nat → UInt8 := fun o => byte ram (conf + o)

/-- `conf->length` -/
def length (t : Nat → UInt8) : Nat := (t 4).toNat + 2 ^ 8 * (t 5).toNat

/-- The MP structure and the table. -/
def mpconfig (ram : Ram) : Option (Nat × Nat) :=
  (mpsearch ram).bind fun mp =>
    if word ram (mp + 4) = 0 then none
    else
      let conf := p2v (word ram (mp + 4))
      let t := table ram conf
      -- "PCMP"
      if memcmp ram conf [80, 67, 77, 80] = false then none
      else if t 6 ≠ 1 ∧ t 6 ≠ 4 then none
      else if sum ram conf (length t) ≠ 0 then none
      else some (mp, conf)

/-- `sizeof(struct mpconf)` -/
def CONFSIZE : Nat := 44

def MPPROC : UInt8 := 0
def MPBUS : UInt8 := 1
def MPIOAPIC : UInt8 := 2
def MPIOINTR : UInt8 := 3
def MPLINTR : UInt8 := 4

/-- What `mpinit` sets, with the offset `p` of its cursor, the stores to `cpus[]` and the entries it
has read, with their sizes. -/
structure State where
  p : Nat
  ismp : Bool
  ncpu : Nat
  bcpu : Nat
  ioapicid : UInt8
  lapic : Nat
  /-- `cpus[i].id = n` -/
  ids : List (Nat × Nat)
  entries : List (Nat × Nat)
  deriving DecidableEq

/-- The switch of `mpinit`. -/
def entry (t : Nat → UInt8) (s : State) : State :=
  if t s.p = MPPROC then
    { s with
      ismp := if s.ncpu ≠ (t (s.p + 1)).toNat then false else s.ismp
      -- `MPBOOT`
      bcpu := if t (s.p + 3) &&& 0x02 ≠ 0 then s.ncpu else s.bcpu
      ids := (s.ncpu, s.ncpu) :: s.ids
      ncpu := s.ncpu + 1
      entries := (s.p, 20) :: s.entries
      p := s.p + 20 }
  else if t s.p = MPIOAPIC then
    { s with
      ioapicid := t (s.p + 1)
      entries := (s.p, 8) :: s.entries
      p := s.p + 8 }
  else if t s.p = MPBUS ∨ t s.p = MPIOINTR ∨ t s.p = MPLINTR then
    { s with
      entries := (s.p, 8) :: s.entries
      p := s.p + 8 }
  else
    { s with
      ismp := false
      entries := (s.p, 1) :: s.entries }

/-- The loop of `mpinit`, with at most `n` iterations. -/
def loop (t : Nat → UInt8) : Nat → State → Option State
  | 0, s => if s.p < length t then none else some s
  | n + 1, s => if s.p < length t then loop t n (entry t s) else some s

def start (t : Nat → UInt8) : State where
  p := CONFSIZE
  ismp := true
  ncpu := 0
  bcpu := 0
  ioapicid := 0
  -- `conf->lapicaddr`
  lapic := (t 36).toNat + 2 ^ 8 * (t 37).toNat + 2 ^ 16 * (t 38).toNat + 2 ^ 24 * (t 39).toNat
  ids := []
  entries := []

/-- "Didn't like what we found; fall back to no MP." -/
def settle (s : State) : State :=
  if s.ismp then s else { s with ncpu := 1, lapic := 0, ioapicid := 0 }

/-- Without a table nothing is set. -/
def idle : State where
  p := 0
  ismp := false
  ncpu := 0
  bcpu := 0
  ioapicid := 0
  lapic := 0
  ids := []
  entries := []

/-- `mpinit` with at most `n` iterations of its loop; the interrupt mode that is set at the end is
not modelled. -/
def mpinit (ram : Ram) (n : Nat) : Option State :=
  match mpconfig ram with
  | none => some idle
  | some (_, conf) => (loop (table ram conf) n (start (table ram conf))).map settle

/-! ## The walk -/

/-- By how much an entry moves the cursor. -/
def advance (type : UInt8) : Nat :=
  if type = MPPROC then 20
  else if type = MPIOAPIC ∨ type = MPBUS ∨ type = MPIOINTR ∨ type = MPLINTR then 8
  else 0

/-- Where the `n`-th entry of the table is. -/
def walk (t : Nat → UInt8) : Nat → Nat
  | 0 => CONFSIZE
  | n + 1 => if walk t n < length t then walk t n + advance (t (walk t n)) else walk t n

/-- All entries have a known type. -/
def Known (t : Nat → UInt8) : Prop := ∀ n, walk t n < length t → advance (t (walk t n)) ≠ 0

variable {t : Nat → UInt8} {s : State} {n : Nat}

theorem advance_cases (type : UInt8) : advance type = 0 ∨ 8 ≤ advance type := by
  unfold advance
  split_ifs
  · exact .inr (by decide)
  · exact .inr le_rfl
  · exact .inl rfl

/-- The cursor is at the end, or at an entry of unknown type. -/
def Halted (t : Nat → UInt8) (o : Nat) : Prop := o < length t → advance (t o) = 0

theorem walk_halted (h : Halted t (walk t n)) (k : Nat) : walk t (n + k) = walk t n := by
  induction k with
  | zero => rfl
  | succ k ih =>
    rw [← Nat.add_assoc, walk, ih]
    split_ifs with hlt
    · rw [h hlt, Nat.add_zero]
    · rfl

/-- As long as the walk goes on, every entry takes eight bytes at least. -/
theorem walk_ge (h : ¬ Halted t (walk t n)) : CONFSIZE + 8 * n ≤ walk t n := by
  induction n with
  | zero => exact le_rfl
  | succ n ih =>
    have hgoes : ¬ Halted t (walk t n) := fun hhalt => by
      rw [walk_halted hhalt 1] at h
      exact h hhalt
    have hge := ih hgoes
    unfold Halted at hgoes
    rw [Classical.not_imp] at hgoes
    have hadv := (advance_cases (t (walk t n))).resolve_left hgoes.2
    rw [walk, if_pos hgoes.1]
    omega

theorem halted_length (t : Nat → UInt8) : Halted t (walk t (length t)) := by
  by_contra h
  have hge := walk_ge h
  unfold Halted at h
  rw [Classical.not_imp] at h
  omega

/-! ## The loop -/

/-- The loop goes on, or has ended. -/
def step (t : Nat → UInt8) (s : State) : State := if s.p < length t then entry t s else s

/-- After `n` iterations. -/
def states (t : Nat → UInt8) (n : Nat) : State := (step t)^[n] (start t)

theorem states_succ (t : Nat → UInt8) (n : Nat) : states t (n + 1) = step t (states t n) :=
  iterate_succ_apply' ..

theorem step_end (h : ¬ s.p < length t) (n : Nat) : (step t)^[n] s = s := by
  induction n with
  | zero => rfl
  | succ n ih => rw [iterate_succ_apply, step, if_neg h, ih]

theorem loop_eq (t : Nat → UInt8) (n : Nat) (s : State) : loop t n s
    = if ((step t)^[n] s).p < length t then none else some ((step t)^[n] s) := by
  induction n generalizing s with
  | zero => rfl
  | succ n ih =>
    rw [loop, iterate_succ_apply]
    by_cases h : s.p < length t
    · rw [if_pos h, ih, step, if_pos h]
    · rw [if_neg h, step, if_neg h, step_end h, if_neg h]

/-- The bytes of an entry; of an unknown entry only the type is read. -/
def size (type : UInt8) : Nat := if advance type = 0 then 1 else advance type

/-- Where an entry takes the cursor, and what is read of it. -/
theorem entry_moves (t : Nat → UInt8) (s : State) : (entry t s).p = s.p + advance (t s.p) ∧
    (entry t s).entries = (s.p, size (t s.p)) :: s.entries := by
  unfold size
  by_cases h0 : t s.p = MPPROC
  · have hadv : advance (t s.p) = 20 := if_pos h0
    rw [hadv, entry, if_pos h0]
    exact ⟨rfl, rfl⟩
  by_cases h2 : t s.p = MPIOAPIC
  · have hadv : advance (t s.p) = 8 := by rw [advance, if_neg h0, if_pos (.inl h2)]
    rw [hadv, entry, if_neg h0, if_pos h2]
    exact ⟨rfl, rfl⟩
  by_cases h3 : t s.p = MPBUS ∨ t s.p = MPIOINTR ∨ t s.p = MPLINTR
  · have hadv : advance (t s.p) = 8 := by rw [advance, if_neg h0, if_pos (.inr h3)]
    rw [hadv, entry, if_neg h0, if_neg h2, if_pos h3]
    exact ⟨rfl, rfl⟩
  · have hadv : advance (t s.p) = 0 := by
      rw [advance, if_neg h0, if_neg fun h => h3 (h.resolve_left h2)]
    rw [hadv, entry, if_neg h0, if_neg h2, if_neg h3]
    exact ⟨rfl, rfl⟩

theorem states_p (t : Nat → UInt8) (n : Nat) : (states t n).p = walk t n := by
  induction n with
  | zero => rfl
  | succ n ih =>
    rw [states_succ, step, walk, ih]
    split_ifs
    · rw [(entry_moves t _).1, ih]
    · exact ih

theorem known_iff : Known t ↔ ∃ n, ¬ walk t n < length t := by
  constructor
  · intro h
    refine ⟨length t, fun hlt => ?_⟩
    exact h _ hlt (halted_length t hlt)
  · rintro ⟨n, hend⟩ m hlt hstuck
    -- the walk would stay at the entry
    have hhalt : Halted t (walk t m) := fun _ => hstuck
    have hhalt' : Halted t (walk t n) := fun h => absurd h hend
    rcases Nat.le_total m n with h | h
    · obtain ⟨k, rfl⟩ := Nat.exists_eq_add_of_le h
      rw [walk_halted hhalt] at hend
      exact hend hlt
    · obtain ⟨k, rfl⟩ := Nat.exists_eq_add_of_le h
      rw [walk_halted hhalt'] at hlt
      exact hend hlt

/-- The settings for one processor. -/
structure Uniprocessor (s : State) : Prop where
  ncpu : s.ncpu = 1
  lapic : s.lapic = 0
  ioapicid : s.ioapicid = 0

theorem mpinit_eq {ram : Ram} {mp conf : Nat} (h : mpconfig ram = some (mp, conf)) (n : Nat) :
    mpinit ram n = if walk (table ram conf) n < length (table ram conf) then none
      else some (settle (states (table ram conf) n)) := by
  rw [mpinit, h]
  dsimp only
  rw [loop_eq, ← states, states_p]
  split_ifs
  · rfl
  · rfl

/-- **mpinit ends**, and falls back to one processor if there is an unknown entry, if and only if
there is none. -/
theorem mpinit_ends_iff {ram : Ram} {mp conf : Nat} (h : mpconfig ram = some (mp, conf)) :
    (∃ n s, mpinit ram n = some s ∧ (¬ Known (table ram conf) → Uniprocessor s)) ↔
      Known (table ram conf) := by
  constructor
  · rintro ⟨n, s, hrun, -⟩
    rw [mpinit_eq h] at hrun
    refine known_iff.mpr ⟨n, fun hlt => ?_⟩
    rw [if_pos hlt] at hrun
    cases hrun
  · intro hknown
    obtain ⟨n, hend⟩ := known_iff.mp hknown
    exact ⟨n, _, (mpinit_eq h n).trans (if_neg hend), fun hnot => absurd hknown hnot⟩

/-! ## A BIOS -/

/-- A table with these entries, and a checksum that is right. -/
def conf (entries : List UInt8) : List UInt8 :=
  let len := CONFSIZE + entries.length
  let header (check : UInt8) : List UInt8 :=
    [80, 67, 77, 80, UInt8.ofNat len, UInt8.ofNat (len / 256), 4, check] ++ List.replicate 36 0
  header (-(header 0 ++ entries).sum) ++ entries

/-- The MP structure is where the extended BIOS data area begins, at `0x9FC00`, and the table is
right behind it. -/
def bios (entries : List UInt8) : Ram := fun a =>
  if a = KERNBASE + 0x40E then 0xC0
  else if a = KERNBASE + 0x40F then 0x9F
  else ([95, 77, 80, 95, 0x10, 0xFC, 0x09, 0, 1, 4, 139, 0, 0, 0, 0, 0] ++ conf entries).getD
    (a - (KERNBASE + 0x9FC00)) 0

def confAddr : Nat := KERNBASE + 0x9FC10

/-- The entry of the processor `id`. -/
def processor (id : UInt8) : List UInt8 := [0, id, 4, 1] ++ List.replicate 16 0

theorem mpinit_one_ends : ∃ n s, mpinit (bios (processor 0)) n = some s ∧
    (¬ Known (table (bios (processor 0)) confAddr) → Uniprocessor s) := by
  have hconf : mpconfig (bios (processor 0)) = some (KERNBASE + 0x9FC00, confAddr) := by
    decide +kernel
  have hend : ¬ walk (table (bios (processor 0)) confAddr) 1
      < length (table (bios (processor 0)) confAddr) := by
    decide +kernel
  exact (mpinit_ends_iff hconf).mpr (known_iff.mpr ⟨1, hend⟩)

/-- A table with one entry, of type 5. -/
theorem mpinit_unknown_loops : mpconfig (bios [5]) = some (KERNBASE + 0x9FC00, confAddr) ∧
    ∀ n, mpinit (bios [5]) n = none := by
  have hconf : mpconfig (bios [5]) = some (KERNBASE + 0x9FC00, confAddr) := by
    decide +kernel
  refine ⟨hconf, fun n => ?_⟩
  have hhalt : Halted (table (bios [5]) confAddr) (walk (table (bios [5]) confAddr) 0) := fun _ => by
    decide +kernel
  have hwalk := walk_halted hhalt n
  rw [Nat.zero_add] at hwalk
  rw [mpinit_eq hconf, hwalk, if_pos (by decide +kernel)]

/-! ## Bounds -/

/-- How many of the first `n` entries are processors. -/
def procs (t : Nat → UInt8) (n : Nat) : Nat :=
  (List.range n).countP fun i => walk t i < length t ∧ t (walk t i) = MPPROC

/-- The state stays within `cpus[]` and the table. -/
structure InTable (t : Nat → UInt8) (s : State) : Prop where
  ncpu : s.ncpu ≤ NCPU
  ids : ∀ w ∈ s.ids, w.1 < NCPU
  entries : ∀ e ∈ s.entries, e.1 + e.2 ≤ length t

/-- There are at most `NCPU` processors, and all entries lie inside the table. -/
structure Fitting (t : Nat → UInt8) : Prop where
  procs : procs t (length t) ≤ NCPU
  entries : ∀ n, walk t n < length t → walk t n + size (t (walk t n)) ≤ length t

theorem procs_succ (t : Nat → UInt8) (n : Nat) : procs t (n + 1)
    = procs t n + if walk t n < length t ∧ t (walk t n) = MPPROC then 1 else 0 := by
  rw [procs, List.range_succ, List.countP_append, List.countP_singleton]
  simp only [decide_eq_true_eq]
  rfl

/-- Behind the first `length t` entries there are no processors. -/
theorem procs_le (t : Nat → UInt8) (n : Nat) : procs t n ≤ procs t (length t) := by
  rcases Nat.le_total n (length t) with h | h
  · exact (List.range_sublist.mpr h).countP_le
  · obtain ⟨k, rfl⟩ := Nat.exists_eq_add_of_le h
    have hhalt := halted_length t
    induction k with
    | zero => exact le_rfl
    | succ k ih =>
      rw [← Nat.add_assoc, procs_succ, walk_halted hhalt, if_neg]
      · exact ih (Nat.le_add_right ..)
      · rintro ⟨hlt, hproc⟩
        have h0 := hhalt hlt
        rw [hproc] at h0
        exact absurd h0 (by decide)

theorem entry_ncpu (t : Nat → UInt8) (s : State) :
    (entry t s).ncpu = s.ncpu + if t s.p = MPPROC then 1 else 0 := by
  unfold entry
  split_ifs <;> rfl

theorem entry_ids (t : Nat → UInt8) (s : State) :
    (entry t s).ids = if t s.p = MPPROC then (s.ncpu, s.ncpu) :: s.ids else s.ids := by
  unfold entry
  split_ifs <;> rfl

/-- What the loop has done after `n` iterations. -/
structure Walked (t : Nat → UInt8) (n : Nat) (s : State) : Prop where
  p : s.p = walk t n
  ncpu : s.ncpu = procs t n
  ids : ∀ w ∈ s.ids, w.1 < s.ncpu
  entries : ∀ e, e ∈ s.entries ↔
    ∃ i < n, walk t i < length t ∧ e = (walk t i, size (t (walk t i)))

theorem states_walked (t : Nat → UInt8) (n : Nat) : Walked t n (states t n) := by
  induction n with
  | zero =>
    refine ⟨rfl, rfl, fun w hw => absurd hw List.not_mem_nil, fun e => ?_⟩
    exact iff_of_false List.not_mem_nil fun ⟨i, hi, _⟩ => Nat.not_lt_zero i hi
  | succ n ih =>
    have hp := states_p t (n + 1)
    rw [states_succ] at hp ⊢
    unfold step at hp ⊢
    by_cases hlt : (states t n).p < length t
    · rw [if_pos hlt] at hp ⊢
      rw [ih.p] at hlt
      refine ⟨hp, ?_, ?_, fun e => ?_⟩
      · rw [entry_ncpu, procs_succ, ih.ncpu, ih.p]
        simp only [hlt, true_and]
      · rw [entry_ids, entry_ncpu]
        split_ifs
        · intro w hw
          rcases List.mem_cons.mp hw with rfl | hw
          · exact Nat.lt_succ_self _
          · exact (ih.ids w hw).trans (Nat.lt_succ_self _)
        · exact ih.ids
      · rw [(entry_moves t _).2, List.mem_cons, ih.entries, ih.p]
        constructor
        · rintro (rfl | ⟨i, hi, h⟩)
          · exact ⟨n, Nat.lt_succ_self n, hlt, rfl⟩
          · exact ⟨i, hi.trans (Nat.lt_succ_self n), h⟩
        · rintro ⟨i, hi, h⟩
          rcases Nat.lt_succ_iff_lt_or_eq.mp hi with hi | rfl
          · exact .inr ⟨i, hi, h⟩
          · exact .inl h.2
    · rw [if_neg hlt] at hp ⊢
      rw [ih.p] at hlt
      refine ⟨hp, ?_, ih.ids, fun e => ?_⟩
      · rw [procs_succ, if_neg fun h => hlt h.1, ih.ncpu, Nat.add_zero]
      · rw [ih.entries]
        constructor
        · rintro ⟨i, hi, h⟩
          exact ⟨i, hi.trans (Nat.lt_succ_self n), h⟩
        · rintro ⟨i, hi, h⟩
          rcases Nat.lt_succ_iff_lt_or_eq.mp hi with hi | rfl
          · exact ⟨i, hi, h⟩
          · exact absurd h.1 hlt

/-- **mpinit stays within its bounds** if and only if the table does. -/
theorem mpinit_bounded_iff (t : Nat → UInt8) : (∀ n, InTable t (states t n)) ↔ Fitting t := by
  constructor
  · refine fun h => ⟨?_, fun n hlt => ?_⟩
    · rw [← (states_walked t _).ncpu]
      exact (h _).ncpu
    · have hmem := ((states_walked t (n + 1)).entries (walk t n, size (t (walk t n)))).mpr
        ⟨n, Nat.lt_succ_self n, hlt, rfl⟩
      exact (h (n + 1)).entries _ hmem
  · intro h n
    have hw := states_walked t n
    have hncpu : (states t n).ncpu ≤ NCPU := by
      rw [hw.ncpu]
      exact (procs_le t n).trans h.procs
    refine ⟨hncpu, fun w hmem => (hw.ids w hmem).trans_le hncpu, fun e he => ?_⟩
    obtain ⟨i, -, hlt, rfl⟩ := (hw.entries e).mp he
    exact h.entries i hlt

/-- Nine processors. -/
def nine : List UInt8 := (List.range 9).flatMap fun i => processor (UInt8.ofNat i)

/-- The ninth processor is stored behind the end of `cpus[]`. -/
theorem mpinit_nine_overruns :
    mpconfig (bios nine) = some (KERNBASE + 0x9FC00, confAddr) ∧
      (states (table (bios nine) confAddr) 9).ncpu = 9 ∧
      (8, 8) ∈ (states (table (bios nine) confAddr) 9).ids := by
  decide +kernel

end StrideXv6.Mp
