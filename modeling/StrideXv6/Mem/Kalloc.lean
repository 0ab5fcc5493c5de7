import StrideXv6.Lib.Bytes
import StrideXv6.Lib.FreeList
import StrideXv6.Lib.Hoare
import StrideXv6.Lib.Run
import StrideXv6.Mem.Unmap

set_option autoImplicit false

/-! # The page allocator in memory

`kalloc.c` on the bytes of memory. The free list is threaded through the free pages: `r->next` is
the first word of a page, and `kfree` fills the page before it stores the link there. Addresses are
those of the kernel, 32 bits wide; `kmem` itself is in the kernel, below `end`, and so apart from
the pages.

`Inv` says that the links pass exactly the pages that are managed and not allocated. `step` is one
call, or a store by the owner of a page; `Inv.step` is the step lemma, and `kalloc_partition` what
holds in every run. `kfree_refines` and `kalloc_refines` relate the calls to those on page numbers,
which the rest of the development uses.
-/

namespace StrideXv6.Mem.Kalloc

open Bytes FreeLists Hoare Runs

/-! ## Memory -/

abbrev Store := Fin (2 ^ 32) → UInt8

/-- `rep stosb` -/
def stosb : Nat → Nat → Nat → Store → Store
  | 0, _, _, mem => mem
  | n + 1, a, c, mem => stosb n ((a + 1) % 2 ^ 32) c (setByte mem a (UInt8.ofNat c))

/-- `rep stosl` -/
def stosl : Nat → Nat → Nat → Store → Store
  | 0, _, _, mem => mem
  | n + 1, a, w, mem => stosl n ((a + 4) % 2 ^ 32) w (setLE mem a 4 w)

def memset (dst c n : Nat) (mem : Store) : Store :=
  if dst % 4 = 0 ∧ n % 4 = 0 then
    let c := c % 256
    stosl (n / 4) dst (c <<< 24 ||| c <<< 16 ||| c <<< 8 ||| c) mem
  else stosb n dst c mem

/-- `r->next` -/
def next (mem : Store) (r : Nat) : Nat := getLE mem r 4

/-! ## kalloc.c -/

def PHYSTOP : Nat := 0xE000000
def KERNLINK : Nat := 0x80100000

def v2p (a : Nat) : Nat := (a + 2 ^ 32 - KERNBASE) % 2 ^ 32
def p2v (a : Nat) : Nat := (a + KERNBASE) % 2 ^ 32

/-- `PGROUNDUP` of an address. -/
def roundup (a : Nat) : Nat := (a + PGSIZE - 1) % 2 ^ 32 / PGSIZE * PGSIZE

/-- Where the linker has put `end`: behind the start of the kernel, and within the 4 MB that
`entrypgdir` maps. -/
structure Linked where
  end_ : Nat
  linked : KERNLINK ≤ end_
  mapped : end_ ≤ p2v (4 * 1024 * 1024)

structure Kmem where
  /-- `kmem.lock` is held. Calls come one after the other, so it is the caller who holds it. -/
  locked : Bool
  useLock : Bool
  freelist : Nat
  mem : Store

inductive Panic where
  /-- `"kfree"` -/
  | kfree
  /-- `"acquire"` -/
  | acquire
  /-- `"release"` -/
  | release
  /-- Not a panic: the loop of `freerange` does not end. -/
  | loop
  deriving DecidableEq

abbrev K := StateT Kmem (Except Panic)

def acquire : K Unit := do
  if (← get).locked then throw .acquire
  modify fun k => { k with locked := true }

def release : K Unit := do
  if !(← get).locked then throw .release
  modify fun k => { k with locked := false }

def kfree (S : Linked) (v : Nat) : K Unit := do
  if v % PGSIZE ≠ 0 ∨ v < S.end_ ∨ PHYSTOP ≤ v2p v then throw .kfree
  -- Fill with junk to catch dangling refs.
  modify fun k => { k with mem := memset v 1 PGSIZE k.mem }
  if (← get).useLock then acquire
  modify fun k => { k with mem := setLE k.mem v 4 k.freelist }
  modify fun k => { k with freelist := v }
  if (← get).useLock then release

def kalloc : K Nat := do
  if (← get).useLock then acquire
  let r := (← get).freelist
  if r ≠ 0 then modify fun k => { k with freelist := next k.mem r }
  if (← get).useLock then release
  return r

/-- The loop of `freerange` with at most `n` tests of its condition. -/
def freeLoop (S : Linked) : Nat → Nat → Nat → K Unit
  | 0, _, _ => throw .loop
  | n + 1, p, vend => do
    if (p + PGSIZE) % 2 ^ 32 ≤ vend then
      kfree S p
      freeLoop S n ((p + PGSIZE) % 2 ^ 32) vend

/-- There are 2^20 pages: a loop that has not ended after so many tests does not end. -/
def freerange (S : Linked) (vstart vend : Nat) : K Unit := freeLoop S (2 ^ 20) (roundup vstart) vend

def kinit1 (S : Linked) (vstart vend : Nat) : K Unit := do
  -- initlock
  modify fun k => { k with locked := false }
  modify fun k => { k with useLock := false }
  freerange S vstart vend

def kinit2 (S : Linked) (vstart vend : Nat) : K Unit := do
  freerange S vstart vend
  modify fun k => { k with useLock := true }

/-! ## Filling -/

variable {S : Linked} {k k' : Kmem} {mem mem' : Store} {v p r a n vend : Nat} {l : List Nat}

/-- The page at `v` has the same contents. -/
def SamePage (v : Nat) (mem mem' : Store) : Prop :=
  ∀ i < PGSIZE, byteAt mem' (v + i) = byteAt mem (v + i)

theorem byteAt_stosl_outside (n a w : Nat) (mem : Store) (ha : a + 4 * n ≤ 2 ^ 32) {x : Nat}
    (hx : x < a ∨ a + 4 * n ≤ x) : byteAt (stosl n a w mem) x = byteAt mem x := by
  induction n generalizing a mem with
  | zero => rfl
  | succ n ih =>
    rw [stosl]
    rcases Nat.eq_zero_or_pos n with rfl | hn
    · exact byteAt_setLE_outside _ _ (by omega)
    · rw [Nat.mod_eq_of_lt (by omega), ih _ _ (by omega) (by omega)]
      exact byteAt_setLE_outside _ _ (by omega)

theorem byteAt_stosb_outside (n a c : Nat) (mem : Store) (ha : a + n ≤ 2 ^ 32) {x : Nat}
    (hx : x < a ∨ a + n ≤ x) : byteAt (stosb n a c mem) x = byteAt mem x := by
  induction n generalizing a mem with
  | zero => rfl
  | succ n ih =>
    rw [stosb]
    rcases Nat.eq_zero_or_pos n with rfl | hn
    · exact byteAt_setByte_ne _ _ (by omega)
    · rw [Nat.mod_eq_of_lt (by omega), ih _ _ (by omega) (by omega)]
      exact byteAt_setByte_ne _ _ (by omega)

/-- `memset` writes to its range only. -/
theorem byteAt_memset_outside (dst c n : Nat) (mem : Store) (h : dst + n ≤ 2 ^ 32) {x : Nat}
    (hx : x < dst ∨ dst + n ≤ x) : byteAt (memset dst c n mem) x = byteAt mem x := by
  rw [memset]
  split
  · rename_i hal
    exact byteAt_stosl_outside _ _ _ _ (by omega) (by omega)
  · exact byteAt_stosb_outside _ _ _ _ h hx

theorem SamePage.refl (v : Nat) (mem : Store) : SamePage v mem mem := fun _ _ => rfl

theorem SamePage.trans {mem₁ : Store} (h : SamePage v mem mem₁) (h' : SamePage v mem₁ mem') :
    SamePage v mem mem' := fun i hi => (h' i hi).trans (h i hi)

/-- A page has its own link. -/
theorem SamePage.next (h : SamePage v mem mem') : next mem' v = next mem v :=
  getLE_congr fun i hi => h i (by simp only [PGSIZE]; omega)

/-! ## Single calls -/

/-- The whole pages between two addresses. -/
def PageIn (a b v : Nat) : Prop := v % PGSIZE = 0 ∧ a ≤ v ∧ v + PGSIZE ≤ b

theorem p2v_four : p2v (4 * 1024 * 1024) = 0x80400000 := by decide

theorem p2v_phystop : p2v PHYSTOP = 0x8E000000 := by decide

theorem PageIn.ne_zero (h : PageIn S.end_ a v) : v ≠ 0 := by
  have h1 := S.linked
  have h2 := h.2.1
  simp only [KERNLINK] at h1
  omega

theorem accepted (h : PageIn S.end_ (p2v PHYSTOP) v) :
    ¬ (v % PGSIZE ≠ 0 ∨ v < S.end_ ∨ PHYSTOP ≤ v2p v) := by
  have h1 := S.linked
  obtain ⟨hal, hlo, hhi⟩ := h
  rw [p2v_phystop] at hhi
  simp only [KERNLINK, PGSIZE, PHYSTOP, v2p, KERNBASE] at *
  omega

/-- After `kfree`. -/
def freed (k : Kmem) (v : Nat) : Kmem := { k with
  mem := setLE (memset v 1 PGSIZE k.mem) v 4 k.freelist
  freelist := v }

theorem kfree_run (h : PageIn S.end_ (p2v PHYSTOP) v) (hlock : k.locked = false) :
    kfree S v k = .ok ((), freed k v) := by
  obtain ⟨locked, useLock, freelist, mem⟩ := k
  subst hlock
  rw [kfree, if_neg (accepted h)]
  cases useLock <;> rfl

theorem kalloc_run (hlock : k.locked = false) : kalloc k = .ok (k.freelist,
    { k with freelist := if k.freelist = 0 then 0 else next k.mem k.freelist }) := by
  obtain ⟨locked, useLock, freelist, mem⟩ := k
  subst hlock
  by_cases hr : freelist = 0
  · subst hr
    cases useLock <;> rfl
  · rw [if_neg hr]
    cases useLock
    all_goals
      show (if freelist ≠ 0 then _ else _ : K _) _ = _
      rw [if_pos hr]
      rfl

theorem samePage_freed {w : Nat} (hv : PageIn S.end_ (p2v PHYSTOP) v) (hw : w % PGSIZE = 0)
    (hne : w ≠ v) : SamePage w k.mem (freed k v).mem := by
  intro i hi
  obtain ⟨hal, -, hhi⟩ := hv
  rw [p2v_phystop] at hhi
  simp only [PGSIZE] at *
  rw [freed, byteAt_setLE_outside _ _ (by omega), PGSIZE,
    byteAt_memset_outside _ _ _ _ (by omega) (by omega)]

theorem next_freed (hv : PageIn S.end_ (p2v PHYSTOP) v) (hk : k.freelist < 2 ^ 32) :
    next (freed k v).mem v = k.freelist := by
  obtain ⟨-, -, hhi⟩ := hv
  rw [p2v_phystop, PGSIZE] at hhi
  rw [next, freed, getLE_setLE_self _ _ (by omega)]
  exact Nat.mod_eq_of_lt hk

/-! ## The free list -/

/-- The lock is free, and the links pass the pages `l`. -/
structure Lists (S : Linked) (k : Kmem) (l : List Nat) : Prop where
  unlocked : k.locked = false
  links : Threaded (next k.mem) 0 k.freelist l
  pages : ∀ x ∈ l, PageIn S.end_ (p2v PHYSTOP) x

theorem Lists.head_lt (h : Lists S k l) : k.freelist < 2 ^ 32 := by
  by_cases h0 : k.freelist = 0
  · rw [h0]
    exact Nat.two_pow_pos 32
  · obtain ⟨-, -, hhi⟩ := h.pages _ (h.links.head_mem h0)
    rw [p2v_phystop] at hhi
    omega

/-- Stores outside the free pages do not matter. -/
theorem Lists.store (h : Lists S k l) (hsame : ∀ x ∈ l, SamePage x k.mem mem') :
    Lists S { k with mem := mem' } l where
  unlocked := h.unlocked
  links := h.links.congr fun x hx => (hsame x hx).next
  pages := h.pages

theorem Lists.freed (h : Lists S k l) (hv : PageIn S.end_ (p2v PHYSTOP) v) (hnew : v ∉ l) :
    Lists S (freed k v) (v :: l) where
  unlocked := h.unlocked
  links := by
    refine h.links.push hv.ne_zero (next_freed hv h.head_lt) fun x hx => ?_
    exact (samePage_freed hv (h.pages x hx).1 fun heq => hnew (heq ▸ hx)).next
  pages := List.forall_mem_cons.mpr ⟨hv, h.pages⟩

/-- What `kalloc` does: nothing if there is no page, and else it takes the first one. -/
theorem Lists.kalloc (h : Lists S k l) :
    l = [] ∧ kalloc k = .ok (0, k) ∨
      ∃ x l', l = x :: l' ∧ x ≠ 0 ∧ ∃ k', Kalloc.kalloc k = .ok (x, k') ∧ k'.mem = k.mem ∧
        Lists S k' l' := by
  have hrun := kalloc_run h.unlocked
  have hlinks := h.links
  cases l with
  | nil =>
    left
    have h0 : k.freelist = 0 := hlinks
    refine ⟨rfl, hrun.trans ?_⟩
    rw [if_pos h0, h0]
    congr 2
    rw [← h0]
  | cons x l =>
    right
    obtain ⟨hx, hne, hl⟩ := hlinks
    rw [hx, if_neg hne] at hrun
    refine ⟨x, l, rfl, hne, _, hrun, rfl, h.unlocked, hl, fun y hy => ?_⟩
    exact h.pages y (List.mem_cons_of_mem _ hy)

/-! ## freerange -/

/-- The pages in `P` have been put on the free list in front of `l`, and other pages have not been
touched. -/
structure Filled (S : Linked) (P : Nat → Prop) (l : List Nat) (k k' : Kmem) : Prop where
  lists : ∃ l', Lists S k' (l' ++ l) ∧ ∀ x, x ∈ l' ↔ P x
  frame : ∀ w, w % PGSIZE = 0 → ¬ P w → SamePage w k.mem k'.mem

theorem pageIn_succ (h : (p + PGSIZE) ≤ vend) (hp : p % PGSIZE = 0) {x : Nat} :
    PageIn p vend x ↔ PageIn (p + PGSIZE) vend x ∨ x = p := by
  simp only [PageIn, PGSIZE] at *
  omega

/-- The loop frees the pages one after the other. -/
theorem freeLoop_run (h : Lists S k l) (hp : p % PGSIZE = 0) (hlo : S.end_ ≤ p)
    (hend : vend ≤ p2v PHYSTOP) (hmax : p ≤ vend + PGSIZE) (hn : vend + PGSIZE < p + n * PGSIZE)
    (hnew : ∀ x ∈ l, ¬ PageIn p vend x) :
    ∃ k', freeLoop S n p vend k = .ok ((), k') ∧ Filled S (PageIn p vend) l k k' := by
  have htop := p2v_phystop
  have hsize : PGSIZE = 4096 := rfl
  induction n generalizing p k l with
  | zero => omega
  | succ n ih =>
    have hwrap : (p + PGSIZE) % 2 ^ 32 = p + PGSIZE := Nat.mod_eq_of_lt (by omega)
    rw [Nat.succ_mul] at hn
    rw [freeLoop, hwrap]
    by_cases hle : p + PGSIZE ≤ vend
    · have hpage : PageIn S.end_ (p2v PHYSTOP) p := ⟨hp, hlo, le_trans hle hend⟩
      have hmem : p ∉ l := fun hx => hnew p hx ⟨hp, le_refl p, hle⟩
      have hnew' : ∀ x ∈ p :: l, ¬ PageIn (p + PGSIZE) vend x := by
        intro x hx hin
        rcases List.mem_cons.mp hx with rfl | hx
        · have := hin.2.1
          omega
        · exact hnew x hx ((pageIn_succ hle hp).mpr (.inl hin))
      rw [if_pos hle, run_bind (kfree_run hpage h.unlocked)]
      obtain ⟨k', hrun, ⟨l', hl', hiff⟩, hframe⟩ := ih (h.freed hpage hmem)
        (by rw [Nat.add_mod_right, hp]) (by omega) (by omega) (by omega) hnew'
      refine ⟨k', hrun, ⟨l' ++ [p], ?_, fun x => ?_⟩, fun w hw hout => ?_⟩
      · rwa [List.append_assoc]
      · rw [List.mem_append, List.mem_singleton, hiff, pageIn_succ hle hp]
      · rw [pageIn_succ hle hp, not_or] at hout
        exact (samePage_freed hpage hw hout.2).trans (hframe w hw hout.1)
    · rw [if_neg hle]
      have hnone : ∀ x, ¬ PageIn p vend x := fun x hx => by
        have h1 := hx.2.1
        have h2 := hx.2.2
        omega
      exact ⟨k, rfl, ⟨[], h, fun x => iff_of_false List.not_mem_nil (hnone x)⟩,
        fun w _ _ => .refl w k.mem⟩

theorem roundup_eq (ha : a ≤ p2v PHYSTOP) :
    roundup a % PGSIZE = 0 ∧ a ≤ roundup a ∧ roundup a < a + PGSIZE := by
  rw [p2v_phystop] at ha
  simp only [roundup, PGSIZE]
  omega

theorem freerange_run {vstart : Nat} (h : Lists S k l) (hlo : S.end_ ≤ vstart)
    (hle : vstart ≤ vend) (hend : vend ≤ p2v PHYSTOP) (hnew : ∀ x ∈ l, ¬ PageIn vstart vend x) :
    ∃ k', freerange S vstart vend k = .ok ((), k') ∧ Filled S (PageIn vstart vend) l k k' := by
  obtain ⟨hal, hge, hlt⟩ := roundup_eq (le_trans hle hend)
  -- Between `vstart` and the page boundary above it there is no page.
  have hsame : PageIn (roundup vstart) vend = PageIn vstart vend := by
    funext x
    simp only [PageIn, PGSIZE] at *
    exact propext (by omega)
  have htop := p2v_phystop
  rw [← hsame] at hnew ⊢
  exact freeLoop_run h hal (by omega) hend (by omega) (by rw [PGSIZE]; omega) hnew

/-! ## The allocator and its users -/

structure Sys where
  kmem : Kmem
  /-- The pages that `kalloc` has returned and that have not been given back. -/
  allocated : Finset Nat
  /-- `kinit2` has been called. -/
  second : Bool

inductive Event where
  | kinit2
  | kalloc
  | kfree (v : Nat)
  | write (a : Nat) (b : UInt8)

/-- The state after `kinit1` in `main`. `kmem` is zero at first, as all of `.bss`. -/
def boot (S : Linked) (mem : Store) : Except Panic Sys :=
  (kinit1 S S.end_ (p2v (4 * 1024 * 1024)) ⟨false, false, 0, mem⟩).map fun r => ⟨r.2, ∅, false⟩

/-- One call that does not panic, or a store to an allocated page. Only allocated pages are freed,
and `kinit2` is called once; pages may be allocated before. -/
def step (S : Linked) (s : Sys) : Event → Option Sys
  | .kinit2 =>
    if s.second then none
    else
      match kinit2 S (p2v (4 * 1024 * 1024)) (p2v PHYSTOP) s.kmem with
      | .error _ => none
      | .ok (_, k) => some { s with kmem := k, second := true }
  | .kalloc =>
    match kalloc s.kmem with
    | .error _ => none
    | .ok (r, k) => some { s with
        kmem := k
        allocated := if r = 0 then s.allocated else insert r s.allocated }
  | .kfree v =>
    if v ∈ s.allocated then
      match kfree S v s.kmem with
      | .error _ => none
      | .ok (_, k) => some { s with kmem := k, allocated := s.allocated.erase v }
    else none
  | .write a b =>
    if a / PGSIZE * PGSIZE ∈ s.allocated then
      some { s with kmem := { s.kmem with mem := setByte s.kmem.mem a b } }
    else none

/-- The pages that have been given to the allocator. -/
def Managed (S : Linked) (second : Bool) (v : Nat) : Prop :=
  PageIn S.end_ (p2v (4 * 1024 * 1024)) v ∨
    second = true ∧ PageIn (p2v (4 * 1024 * 1024)) (p2v PHYSTOP) v

structure Inv (S : Linked) (s : Sys) : Prop where
  lists : ∃ l, Lists S s.kmem l ∧ Partition (Managed S s.second) l s.allocated

variable {s t : Sys} {second : Bool}

theorem Managed.pageIn (h : Managed S second v) : PageIn S.end_ (p2v PHYSTOP) v := by
  have hmapped := S.mapped
  have h1 := p2v_four
  have h2 := p2v_phystop
  rcases h with ⟨hal, hlo, hhi⟩ | ⟨-, hal, hlo, hhi⟩
  · exact ⟨hal, hlo, by omega⟩
  · exact ⟨hal, by omega, hhi⟩

/-- `kinit2` returns, with the second part of the memory on the free list. -/
theorem kinit2_run (h : Inv S s) (hfirst : s.second = false) :
    ∃ k', kinit2 S (p2v (4 * 1024 * 1024)) (p2v PHYSTOP) s.kmem = .ok ((), k') ∧
      Inv S { s with kmem := k', second := true } ∧
      ∀ v ∈ s.allocated, SamePage v s.kmem.mem k'.mem := by
  obtain ⟨l, hl, hpart⟩ := h.lists
  rw [hfirst] at hpart
  have hnot : ∀ x, PageIn (p2v (4 * 1024 * 1024)) (p2v PHYSTOP) x → ¬ Managed S false x := by
    rintro x hx (h1 | h1)
    · have h2 := hx.2.1
      have h3 := h1.2.2
      rw [PGSIZE] at h3
      omega
    · exact Bool.false_ne_true h1.1
  obtain ⟨k', hrun, ⟨l', hl', hiff⟩, hframe⟩ := freerange_run hl S.mapped
    (by rw [p2v_four, p2v_phystop]; omega) (le_refl _)
    (fun x hx hin => hnot x hin ((hpart.mem_iff x).mp hx).1)
  refine ⟨_, run_bind hrun, ⟨l' ++ l, ⟨hl'.unlocked, hl'.links, hl'.pages⟩, ?_⟩, fun v hv => ?_⟩
  · refine hpart.grow (fun x => ?_) (fun x hx => hnot x ((hiff x).mp hx))
      (List.nodup_append.mp hl'.links.nodup).1
    rw [hiff, Managed, Managed]
    simp only [true_and, Bool.false_eq_true, false_and, or_false]
    exact or_comm
  · have hM := hpart.owned v hv
    exact hframe v hM.pageIn.1 fun hin => hnot v hin hM

/-- `kalloc` returns a page that nobody has, and touches no page. -/
theorem kalloc_cases (h : Inv S s) :
    (∀ v, Managed S s.second v → v ∈ s.allocated) ∧ kalloc s.kmem = .ok (0, s.kmem) ∨
      ∃ r k', kalloc s.kmem = .ok (r, k') ∧ r ≠ 0 ∧ Managed S s.second r ∧ r ∉ s.allocated ∧
        k'.mem = s.kmem.mem ∧ Inv S { s with kmem := k', allocated := insert r s.allocated } := by
  obtain ⟨l, hl, hpart⟩ := h.lists
  rcases hl.kalloc with ⟨rfl, hrun⟩ | ⟨r, l', rfl, hne, k', hrun, hmem, hl'⟩
  · exact .inl ⟨fun v hv => hpart.exhausted hv, hrun⟩
  · obtain ⟨hM, hout⟩ := (hpart.mem_iff r).mp List.mem_cons_self
    exact .inr ⟨r, k', hrun, hne, hM, hout, hmem, ⟨l', hl', hpart.take⟩⟩

/-- `kfree` takes an allocated page back, and touches no other one. -/
theorem kfree_allocated (h : Inv S s) (hv : v ∈ s.allocated) :
    kfree S v s.kmem = .ok ((), freed s.kmem v) ∧
      Inv S { s with kmem := freed s.kmem v, allocated := s.allocated.erase v } ∧
      ∀ w ∈ s.allocated, w ≠ v → SamePage w s.kmem.mem (freed s.kmem v).mem := by
  obtain ⟨l, hl, hpart⟩ := h.lists
  have hpage := (hpart.owned v hv).pageIn
  have hnew : v ∉ l := fun hx => ((hpart.mem_iff v).mp hx).2 hv
  refine ⟨kfree_run hpage hl.unlocked, ⟨v :: l, hl.freed hpage hnew, hpart.give hv⟩, ?_⟩
  intro w hw hne
  exact samePage_freed hpage (hpart.owned w hw).pageIn.1 hne

/-- The owner of a page can write to it what it likes. -/
theorem Inv.write (h : Inv S s) (ha : a / PGSIZE * PGSIZE ∈ s.allocated) (b : UInt8) :
    Inv S { s with kmem := { s.kmem with mem := setByte s.kmem.mem a b } } := by
  obtain ⟨l, hl, hpart⟩ := h.lists
  refine ⟨l, hl.store fun x hx i hi => byteAt_setByte_ne _ _ fun heq => ?_, hpart⟩
  -- A byte of a free page is not in an allocated one.
  have hpage : a / PGSIZE * PGSIZE = x := by
    have hal := (hl.pages x hx).1
    rw [PGSIZE] at *
    omega
  exact ((hpart.mem_iff x).mp hx).2 (hpage ▸ ha)

theorem Inv.step (h : Inv S s) {e : Event} (hstep : step S s e = some t) : Inv S t := by
  cases e with
  | kinit2 =>
    rw [Kalloc.step] at hstep
    split at hstep
    · cases hstep
    · rename_i hfirst
      obtain ⟨k', hrun, hinv, -⟩ := kinit2_run h (Bool.eq_false_iff.mpr hfirst)
      rw [hrun] at hstep
      cases hstep
      exact hinv
  | kalloc =>
    rw [Kalloc.step] at hstep
    rcases kalloc_cases h with ⟨-, hrun⟩ | ⟨r, k', hrun, hne, -, -, -, hinv⟩
    · rw [hrun] at hstep
      cases hstep
      exact h
    · rw [hrun] at hstep
      dsimp only at hstep
      rw [if_neg hne] at hstep
      cases hstep
      exact hinv
  | kfree v =>
    rw [Kalloc.step] at hstep
    split at hstep
    · rename_i hv
      obtain ⟨hrun, hinv, -⟩ := kfree_allocated h hv
      rw [hrun] at hstep
      cases hstep
      exact hinv
    · cases hstep
  | write a b =>
    rw [Kalloc.step] at hstep
    split at hstep
    · rename_i ha
      cases hstep
      exact h.write ha b
    · cases hstep

theorem kinit1_eq (S : Linked) (vstart vend : Nat) (k : Kmem) : kinit1 S vstart vend k
    = freerange S vstart vend { k with locked := false, useLock := false } := by
  unfold kinit1
  generalize freerange S vstart vend = f
  rfl

theorem boot_run (S : Linked) (mem : Store) : ∃ s, boot S mem = .ok s ∧ Inv S s := by
  have hempty : Lists S ⟨false, false, 0, mem⟩ [] :=
    ⟨rfl, rfl, fun x hx => absurd hx List.not_mem_nil⟩
  have htop : p2v (4 * 1024 * 1024) ≤ p2v PHYSTOP := by rw [p2v_four, p2v_phystop]; omega
  obtain ⟨k', hrun, ⟨l', hl', hiff⟩, -⟩ := freerange_run hempty (le_refl _) S.mapped htop
    (fun x hx => absurd hx List.not_mem_nil)
  refine ⟨⟨k', ∅, false⟩, ?_, l', by rwa [List.append_nil] at hl', ?_⟩
  · rw [boot, kinit1_eq, hrun]
    rfl
  · refine ⟨(List.nodup_append.mp hl'.links.nodup).1, fun x => ?_,
      fun x hx => absurd hx (Finset.notMem_empty x)⟩
    rw [hiff, Managed]
    simp only [Bool.false_eq_true, false_and, or_false, Finset.notMem_empty, not_false_eq_true,
      and_true]

/-! ## Every run -/

/-- What users of the allocator rely on in a state. -/
structure Partitioned (S : Linked) (s : Sys) : Prop where
  /-- The links pass each managed page that is not allocated, once, and then end. -/
  freelist : ∃ l, Threaded (next s.kmem.mem) 0 s.kmem.freelist l ∧ l.Nodup ∧
    ∀ v, v ∈ l ↔ Managed S s.second v ∧ v ∉ s.allocated
  owned : ∀ v ∈ s.allocated, Managed S s.second v
  /-- `kinit2` returns. -/
  kinit2 : s.second = false → ∃ k',
    kinit2 S (p2v (4 * 1024 * 1024)) (p2v PHYSTOP) s.kmem = .ok ((), k') ∧
      ∀ v ∈ s.allocated, SamePage v s.kmem.mem k'.mem
  /-- `kalloc` returns a page that was free, or 0 if there is none. -/
  kalloc : ∃ r k', kalloc s.kmem = .ok (r, k') ∧
    (r = 0 → ∀ v, Managed S s.second v → v ∈ s.allocated) ∧
    (r ≠ 0 → Managed S s.second r ∧ r ∉ s.allocated) ∧
    ∀ v ∈ s.allocated, SamePage v s.kmem.mem k'.mem
  /-- `kfree` of an allocated page returns. -/
  kfree : ∀ v ∈ s.allocated, ∃ k', kfree S v s.kmem = .ok ((), k') ∧
    ∀ w ∈ s.allocated, w ≠ v → SamePage w s.kmem.mem k'.mem

theorem Inv.partitioned (h : Inv S s) : Partitioned S s where
  freelist := by
    obtain ⟨l, hl, hpart⟩ := h.lists
    exact ⟨l, hl.links, hl.links.nodup, hpart.mem_iff⟩
  owned := by
    obtain ⟨l, -, hpart⟩ := h.lists
    exact hpart.owned
  kinit2 hfirst := by
    obtain ⟨k', hrun, -, hsame⟩ := kinit2_run h hfirst
    exact ⟨k', hrun, hsame⟩
  kalloc := by
    rcases kalloc_cases h with ⟨hall, hrun⟩ | ⟨r, k', hrun, hne, hM, hout, hmem, -⟩
    · exact ⟨0, s.kmem, hrun, fun _ => hall, fun h0 => absurd rfl h0, fun v _ => .refl v _⟩
    · refine ⟨r, k', hrun, fun h0 => absurd h0 hne, fun _ => ⟨hM, hout⟩, fun v _ => ?_⟩
      rw [hmem]
      exact .refl v _
  kfree v hv := by
    obtain ⟨hrun, -, hsame⟩ := kfree_allocated h hv
    exact ⟨_, hrun, hsame⟩

/-- **The pages are partitioned.** From boot on, with any calls and any stores to allocated pages,
the free list has exactly the managed pages that are not allocated, each once; `kalloc` fails only
if all are allocated; and what is in an allocated page stays there until it is freed. -/
theorem kalloc_partition (S : Linked) (mem : Store) :
    ∃ s₀, boot S mem = .ok s₀ ∧
      ∀ tr, IsRun (step S) s₀ tr → Partitioned S (last s₀ tr) := by
  obtain ⟨s₀, hboot, hinv⟩ := boot_run S mem
  refine ⟨s₀, hboot, fun tr hrun => Inv.partitioned ?_⟩
  exact hrun.invariant_last (C := fun _ => True) hinv (fun x hx _ h => h.step hx) fun _ _ => trivial

/-! ## Page numbers -/

/-- All bytes of the word that is stored are the same. -/
theorem byteAt_stosl_inside {w : Nat} {x : UInt8} (hw : ∀ i < 4, UInt8.ofNat (w / 256 ^ i) = x)
    (n a : Nat) (mem : Store) (ha : a + 4 * n ≤ 2 ^ 32) {i : Nat} (hi : i < 4 * n) :
    byteAt (stosl n a w mem) (a + i) = x := by
  induction n generalizing a i mem with
  | zero => omega
  | succ n ih =>
    rw [stosl]
    by_cases hi4 : i < 4
    · rcases Nat.eq_zero_or_pos n with rfl | hn
      · exact (byteAt_setLE_inside _ _ hi4 (by omega)).trans (hw i hi4)
      · rw [Nat.mod_eq_of_lt (by omega), byteAt_stosl_outside _ _ _ _ (by omega) (by omega),
          byteAt_setLE_inside _ _ hi4 (by omega), hw i hi4]
    · have hlt : a + 4 < 2 ^ 32 := by omega
      rw [Nat.mod_eq_of_lt hlt, show a + i = a + 4 + (i - 4) by omega]
      exact ih (a + 4) _ (by omega) (by omega)

/-- The address of a page. -/
def addr (p : Nat) : Nat := KERNBASE + p * PGSIZE

/-- The kernel ends in the page before `img.end_`. -/
def Ends (img : Image) (S : Linked) : Prop := ∀ p, img.end_ ≤ p ↔ S.end_ ≤ addr p

/-- The state `k` as a memory of numbered pages. -/
structure Shows (S : Linked) (k : Kmem) (m : Memory) : Prop where
  lists : Lists S k (m.freelist.map addr)
  bytes : ∀ p < physPages, ∀ i < PGSIZE, byteAt k.mem (addr p + i) = m.bytes p i

variable {img : Image} {m : Memory} {q : Nat}

theorem pageIn_addr (hends : Ends img S) (hq : Freeable img q) :
    PageIn S.end_ (p2v PHYSTOP) (addr q) := by
  refine ⟨?_, (hends q).mp hq.1, ?_⟩
  · simp only [addr, KERNBASE, PGSIZE]
    omega
  · have hlt : q < 0xE000 := hq.2
    rw [p2v_phystop]
    simp only [addr, KERNBASE, PGSIZE]
    omega

theorem addr_injective : Function.Injective addr := by
  intro p q h
  have h' : KERNBASE + p * 4096 = KERNBASE + q * 4096 := h
  omega

theorem Shows.link (h : Shows S k m) : k.freelist = link m.freelist := by
  have hlinks := h.lists.links
  cases hl : m.freelist with
  | nil =>
    rw [hl] at hlinks
    exact hlinks
  | cons q l =>
    rw [hl] at hlinks
    exact hlinks.1

/-- A page after `kfree`: the link, and junk. -/
theorem byteAt_freed (hv : PageIn S.end_ (p2v PHYSTOP) v) {i : Nat} (hi : i < PGSIZE) :
    byteAt (freed k v).mem (v + i) = putWord (fun _ => 1) 0 k.freelist i := by
  obtain ⟨hal, -, hhi⟩ := hv
  rw [p2v_phystop] at hhi
  simp only [PGSIZE] at *
  rw [freed, putWord]
  by_cases hi4 : i < 4
  · rw [if_pos (by omega), byteAt_setLE_inside _ _ hi4 (by omega), Nat.mod_eq_of_lt hi4, pow_mul]
    rfl
  · rw [if_neg (by omega), byteAt_setLE_outside _ _ (by omega), memset, PGSIZE,
      if_pos ⟨by omega, rfl⟩]
    exact byteAt_stosl_inside (by decide) _ _ _ (by omega) hi

/-- **`kfree` on page numbers** is `kfree` on memory. -/
theorem kfree_refines (h : Shows S k m) (hends : Ends img S) (hq : Freeable img q)
    (hnew : q ∉ m.freelist) :
    ∃ k' m', kfree S (addr q) k = .ok ((), k') ∧ Mem.kfree img q m = .ok ((), m') ∧
      Shows S k' m' := by
  have hpage := pageIn_addr hends hq
  have hnew' : addr q ∉ m.freelist.map addr := fun hx =>
    hnew ((List.mem_map_of_injective addr_injective).mp hx)
  refine ⟨_, _, kfree_run hpage h.lists.unlocked, kfree_ok hq m, h.lists.freed hpage hnew',
    fun p hp i hi => ?_⟩
  by_cases hpq : p = q
  · subst hpq
    rw [byteAt_freed hpage hi, h.link]
    exact (congrFun (Function.update_self ..) i).symm
  · have hal : addr p % PGSIZE = 0 := by
      simp only [addr, KERNBASE, PGSIZE]
      omega
    rw [samePage_freed hpage hal (fun heq => hpq (addr_injective heq)) i hi, h.bytes p hp i hi]
    exact (congrFun (Function.update_of_ne hpq ..) i).symm

/-- A kernel of the size of `smallImage`. -/
def smallLinked : Linked := { end_ := addr 0x116, linked := by decide, mapped := by decide }

theorem shows_start : Shows smallLinked ⟨false, false, 0, fun _ => 0⟩ Memory.start :=
  ⟨⟨rfl, rfl, fun _ hx => absurd hx List.not_mem_nil⟩, fun _ _ _ _ => by simp [byteAt, Memory.start]⟩

theorem kfree_refines_small : ∃ k' m',
    kfree smallLinked (addr 0x200) ⟨false, false, 0, fun _ => 0⟩ = .ok ((), k') ∧
      Mem.kfree smallImage 0x200 Memory.start = .ok ((), m') ∧ Shows smallLinked k' m' := by
  refine kfree_refines shows_start (fun p => ?_) ⟨by decide, by decide⟩ List.not_mem_nil
  simp only [smallImage, smallLinked, addr, KERNBASE, PGSIZE]
  omega

end StrideXv6.Mem.Kalloc
