import Mathlib.Tactic

set_option autoImplicit false

/-! # The user heap

`malloc`, `free` and `morecore` of `umalloc.c`. The free list is threaded through the headers of
its blocks; a `Heap` has the two fields of every header by its address, and a block is named by the
address of its header. Sizes are in units of a header and addresses in bytes; both are `uint`, and
so is the arithmetic. `sbrk` may answer what it likes.

The loops get fuel, since in a list that is not in order they need not end.

`malloc_sizes_iff` is about the sizes that `malloc` computes: for which requests they are what they
should be, in any heap.
-/

namespace StrideXv6.Malloc

/-! ## umalloc.c -/

/-- `sizeof(Header)` -/
def HEADER : Nat := 8

structure Heap where
  /-- `s.ptr` -/
  ptr : Nat → Nat
  /-- `s.size` -/
  size : Nat → Nat
  freep : Nat
  /-- the calls of `sbrk` so far, with their arguments and results -/
  calls : List (Int × Nat)

/-- The address of `base`, and the results of `sbrk` after the calls made before. -/
structure Env where
  base : Nat
  sbrk : List (Int × Nat) → Int → Nat

def Heap.setPtr (h : Heap) (p q : Nat) : Heap := { h with ptr := Function.update h.ptr p q }

def Heap.setSize (h : Heap) (p n : Nat) : Heap := { h with size := Function.update h.size p n }

/-- `p + n` for a pointer to a header -/
def plus (p n : Nat) : Nat := (p + n * HEADER) % 2 ^ 32

/-- The conversion of a `uint` to an `int`. -/
def asInt (x : Nat) : Int := (BitVec.ofNat 32 x).toInt

/-- The first loop of `free`, from `p` on. -/
def findGap (h : Heap) (bp : Nat) : Nat → Nat → Option Nat
  | 0, _ => none
  | n + 1, p =>
    if bp > p ∧ bp < h.ptr p then some p
    else if p ≥ h.ptr p ∧ (bp > p ∨ bp < h.ptr p) then some p
    else findGap h bp n (h.ptr p)

/-- `bp` is joined to the block behind it, or linked to it. -/
def joinUpper (h : Heap) (bp p : Nat) : Heap :=
  if plus bp (h.size bp) = h.ptr p then
    let h := h.setSize bp ((h.size bp + h.size (h.ptr p)) % 2 ^ 32)
    h.setPtr bp (h.ptr (h.ptr p))
  else h.setPtr bp (h.ptr p)

/-- `p` is joined to `bp`, or linked to it. -/
def joinLower (h : Heap) (bp p : Nat) : Heap :=
  if plus p (h.size p) = bp then
    let h := h.setSize p ((h.size p + h.size bp) % 2 ^ 32)
    h.setPtr p (h.ptr bp)
  else h.setPtr p bp

/-- `free` of the block `bp` -/
def free (n : Nat) (h : Heap) (bp : Nat) : Option Heap :=
  (findGap h bp n h.freep).map fun p => { joinLower (joinUpper h bp p) bp p with freep := p }

/-- The argument that `morecore(nu)` gives to `sbrk`. -/
def request (nu : Nat) : Int := asInt (max nu 4096 * HEADER)

/-- `morecore(nu)`; the pointer is 0 if there is no memory. -/
def morecore (E : Env) (n : Nat) (h : Heap) (nu : Nat) : Option (Nat × Heap) :=
  let r := E.sbrk h.calls (request nu)
  let h := { h with calls := h.calls ++ [(request nu, r)] }
  if r = 2 ^ 32 - 1 then some (0, h)
  else (free n (h.setSize r (max nu 4096)) r).map fun h => (h.freep, h)

/-- The block `p` is large enough: it is taken out of the list, or its end is. -/
def take (h : Heap) (nunits prevp p : Nat) : Nat × Heap :=
  if h.size p = nunits then (p, { h.setPtr prevp (h.ptr p) with freep := prevp })
  else
    let h := h.setSize p (h.size p - nunits)
    let p := plus p (h.size p)
    (p, { h.setSize p nunits with freep := prevp })

/-- The loop of `malloc`; the block is `none` for a null pointer. -/
def search (E : Env) (N nunits : Nat) : Nat → Heap → Nat → Nat → Option (Option Nat × Heap)
  | 0, _, _, _ => none
  | n + 1, h, prevp, p =>
    if nunits ≤ h.size p then some ((take h nunits prevp p).map some id)
    else if p = h.freep then
      (morecore E N h nunits).bind fun x =>
        if x.1 = 0 then some (none, x.2) else search E N nunits n x.2 x.1 (x.2.ptr x.1)
    else search E N nunits n h p (h.ptr p)

/-- The units of a block for `nbytes`, with its header. -/
def units (nbytes : Nat) : Nat := (nbytes + HEADER - 1) % 2 ^ 32 / HEADER + 1

/-- The first call makes the list. -/
def start (E : Env) (h : Heap) : Heap :=
  if h.freep = 0 then { (h.setPtr E.base E.base).setSize E.base 0 with freep := E.base } else h

/-- `malloc(nbytes)` with at most `n` iterations of each loop -/
def malloc (E : Env) (n : Nat) (h : Heap) (nbytes : Nat) : Option (Option Nat × Heap) :=
  let h := start E h
  search E n (units nbytes) n h h.freep (h.ptr h.freep)

/-! ## Sizes -/

variable {E : Env} {h h' : Heap} {n N nunits nbytes p prevp : Nat} {r : Option Nat}

/-- The search that starts at `p` finds a block before it is back at `freep`. -/
def FitsFrom (h : Heap) (nunits p : Nat) : Prop :=
  ∃ k, nunits ≤ h.size (h.ptr^[k] p) ∧ ∀ j < k, h.ptr^[j] p ≠ h.freep

/-- The free list has a block for `nunits`. -/
def Fits (h : Heap) (nunits : Nat) : Prop := FitsFrom h nunits (h.ptr h.freep)

theorem fitsFrom_iff : FitsFrom h nunits p ↔
    nunits ≤ h.size p ∨ p ≠ h.freep ∧ FitsFrom h nunits (h.ptr p) := by
  constructor
  · rintro ⟨k, hk, hne⟩
    cases k with
    | zero => exact .inl hk
    | succ k =>
      refine .inr ⟨hne 0 (Nat.succ_pos k), k, hk, fun j hj => ?_⟩
      exact hne (j + 1) (Nat.succ_lt_succ hj)
  · rintro (hsize | ⟨hp, k, hk, hne⟩)
    · exact ⟨0, hsize, fun j hj => absurd hj (Nat.not_lt_zero j)⟩
    · refine ⟨k + 1, hk, fun j hj => ?_⟩
      cases j with
      | zero => exact hp
      | succ j => exact hne j (Nat.lt_of_succ_lt_succ hj)

theorem take_size (h : Heap) (nunits prevp p : Nat) :
    (take h nunits prevp p).2.size (take h nunits prevp p).1 = nunits := by
  unfold take
  split
  · assumption
  · exact Function.update_self ..

theorem take_calls (h : Heap) (nunits prevp p : Nat) :
    (take h nunits prevp p).2.calls = h.calls := by
  unfold take
  split <;> rfl

theorem free_calls {bp : Nat} (hf : free n h bp = some h') : h'.calls = h.calls := by
  obtain ⟨p, -, rfl⟩ := Option.map_eq_some_iff.mp hf
  have hupper : (joinUpper h bp p).calls = h.calls := by
    unfold joinUpper
    split <;> rfl
  show (joinLower (joinUpper h bp p) bp p).calls = _
  unfold joinLower
  split <;> exact hupper

theorem morecore_calls {nu q : Nat} (hm : morecore E n h nu = some (q, h')) :
    ∃ a, h'.calls = h.calls ++ [(request nu, a)] := by
  refine ⟨E.sbrk h.calls (request nu), ?_⟩
  unfold morecore at hm
  dsimp only at hm
  split at hm
  · cases hm
    rfl
  · obtain ⟨h₁, hf, heq⟩ := Option.map_eq_some_iff.mp hm
    cases heq
    exact free_calls hf

/-- What a search has done: a block of the size asked for, after the calls `l` of `sbrk`. -/
structure Searched (h : Heap) (nunits p : Nat) (r : Option Nat) (h' : Heap)
    (l : List (Int × Nat)) : Prop where
  size : ∀ b, r = some b → h'.size b = nunits
  calls : h'.calls = h.calls ++ l
  asked : ∀ x ∈ l, x.1 = request nunits
  found : FitsFrom h nunits p → l = [] ∧ r ≠ none
  missed : ¬ FitsFrom h nunits p → l ≠ []

theorem search_spec (hs : search E N nunits n h prevp p = some (r, h')) :
    ∃ l, Searched h nunits p r h' l := by
  induction n generalizing h prevp p with
  | zero => cases hs
  | succ n ih =>
    rw [search] at hs
    split at hs
    · rename_i hsize
      cases hs
      refine ⟨[], ?_, ?_, ?_, fun _ => ⟨rfl, Option.some_ne_none _⟩, fun hno => ?_⟩
      · intro b hb
        cases hb
        exact take_size h nunits prevp p
      · rw [List.append_nil]
        exact take_calls h nunits prevp p
      · exact fun x hx => absurd hx List.not_mem_nil
      · exact absurd (fitsFrom_iff.mpr (.inl hsize)) hno
    · rename_i hsize
      split at hs
      · rename_i hfreep
        have hno : ¬ FitsFrom h nunits p := fun hfit =>
          (fitsFrom_iff.mp hfit).elim hsize fun hne => hne.1 hfreep
        obtain ⟨⟨q, h₁⟩, hm, hs⟩ := Option.bind_eq_some_iff.mp hs
        obtain ⟨a, hcalls⟩ := morecore_calls hm
        dsimp only at hs
        split at hs
        · cases hs
          refine ⟨[(request nunits, a)], ?_, hcalls, ?_, fun hfit => absurd hfit hno, ?_⟩
          · exact fun b hb => absurd hb.symm (Option.some_ne_none b)
          · exact fun x hx => by rw [List.mem_singleton.mp hx]
          · exact fun _ => List.cons_ne_nil _ _
        · obtain ⟨l, hl⟩ := ih hs
          refine ⟨(request nunits, a) :: l, hl.size, ?_, ?_, fun hfit => absurd hfit hno, ?_⟩
          · rw [hl.calls, hcalls, List.append_assoc, List.singleton_append]
          · exact List.forall_mem_cons.mpr ⟨rfl, hl.asked⟩
          · exact fun _ => List.cons_ne_nil _ _
      · rename_i hfreep
        obtain ⟨l, hl⟩ := ih hs
        have hiff : FitsFrom h nunits p ↔ FitsFrom h nunits (h.ptr p) := by
          rw [fitsFrom_iff]
          exact ⟨fun hfit => hfit.elim (absurd · hsize) And.right, fun hfit => .inr ⟨hfreep, hfit⟩⟩
        exact ⟨l, hl.size, hl.calls, hl.asked, fun hfit => hl.found (hiff.mp hfit),
          fun hno => hl.missed fun hfit => hno (hiff.mpr hfit)⟩

/-- The block has room for `nbytes`, and the calls of `sbrk` asked for that and a header. -/
structure Sized (nbytes : Nat) (h : Heap) (r : Option Nat) (h' : Heap) : Prop where
  block : ∀ b, r = some b → nbytes ≤ h'.size b * HEADER - HEADER
  asked : ∀ l, h'.calls = h.calls ++ l → ∀ x ∈ l, 0 < x.1 ∧ (nbytes : Int) + HEADER ≤ x.1

theorem asInt_of_lt {x : Nat} (hx : x < 2 ^ 31) : asInt x = x := by
  rw [asInt, BitVec.toInt_eq_toNat_cond, BitVec.toNat_ofNat]
  split <;> omega

theorem asInt_nonpos {x : Nat} (hx : 2 ^ 31 ≤ x) (hx' : x ≤ 2 ^ 32) : asInt x ≤ 0 := by
  rw [asInt, BitVec.toInt_eq_toNat_cond, BitVec.toNat_ofNat]
  split <;> omega

/-- Below `2 ^ 31` the request is a positive `int`, and large enough. -/
theorem request_units (hn : nbytes ≤ 2 ^ 31 - 16) :
    0 < request (units nbytes) ∧ (nbytes : Int) + HEADER ≤ request (units nbytes) := by
  have hunits : units nbytes = (nbytes + 7) / 8 + 1 := by
    simp only [units, HEADER]
    omega
  rw [request, hunits, asInt_of_lt (by simp only [HEADER]; omega)]
  simp only [HEADER]
  omega

/-- Above, it is negative or zero. -/
theorem request_nonpos (hn : 2 ^ 31 - 16 < nbytes) (hn' : nbytes ≤ 2 ^ 32 - 8) :
    request (units nbytes) ≤ 0 := by
  have hunits : units nbytes = (nbytes + 7) / 8 + 1 := by
    simp only [units, HEADER]
    omega
  rw [request, hunits]
  refine asInt_nonpos ?_ ?_ <;> simp only [HEADER] <;> omega

theorem units_room (hn : nbytes ≤ 2 ^ 32 - 8) : nbytes ≤ units nbytes * HEADER - HEADER := by
  simp only [units, HEADER]
  omega

/-- The rounding wraps: one unit for almost all of the address space. -/
theorem units_wrap (hn : 2 ^ 32 - 8 < nbytes) (hn' : nbytes < 2 ^ 32) : units nbytes = 1 := by
  simp only [units, HEADER]
  omega

theorem start_calls (E : Env) (h : Heap) : (start E h).calls = h.calls := by
  unfold start
  split <;> rfl

theorem malloc_sizes_iff (hn : nbytes < 2 ^ 32) (hm : malloc E n h nbytes = some (r, h')) :
    Sized nbytes h r h' ↔
      nbytes ≤ 2 ^ 31 - 16 ∨ nbytes ≤ 2 ^ 32 - 8 ∧ Fits (start E h) (units nbytes) := by
  obtain ⟨l, hl⟩ := search_spec hm
  have hcalls : h'.calls = h.calls ++ l := by rw [hl.calls, start_calls]
  have hblock : nbytes ≤ 2 ^ 32 - 8 →
      ∀ b, r = some b → nbytes ≤ h'.size b * HEADER - HEADER := fun hle b hb => by
    rw [hl.size b hb]
    exact units_room hle
  constructor
  · intro hsized
    by_cases hsmall : nbytes ≤ 2 ^ 31 - 16
    · exact .inl hsmall
    · -- Any call of `sbrk` has a wrong argument.
      have hnil : l = [] := by
        refine List.eq_nil_iff_forall_not_mem.mpr fun x hx => ?_
        have hpos := hsized.asked l hcalls x hx
        rw [hl.asked x hx] at hpos
        by_cases hle : nbytes ≤ 2 ^ 32 - 8
        · exact absurd hpos.1 (not_lt.mpr (request_nonpos (not_le.mp hsmall) hle))
        · rw [units_wrap (not_le.mp hle) hn] at hpos
          have hone : request 1 = 32768 := by decide
          rw [hone] at hpos
          simp only [HEADER] at hpos
          omega
      have hfit : Fits (start E h) (units nbytes) := by
        by_contra hno
        exact hl.missed hno hnil
      refine .inr ⟨?_, hfit⟩
      by_contra hle
      obtain ⟨b, hb⟩ := Option.ne_none_iff_exists'.mp (hl.found hfit).2
      have hroom := hsized.block b hb
      rw [hl.size b hb, units_wrap (not_le.mp hle) hn] at hroom
      simp only [HEADER] at hroom
      omega
  · rintro (hsmall | ⟨hle, hfit⟩)
    · refine ⟨hblock (by omega), fun l' hl' x hx => ?_⟩
      obtain rfl : l = l' := List.append_cancel_left (hcalls.symm.trans hl')
      rw [hl.asked x hx]
      exact request_units hsmall
    · refine ⟨hblock hle, fun l' hl' x hx => ?_⟩
      obtain rfl : l = l' := List.append_cancel_left (hcalls.symm.trans hl')
      rw [(hl.found hfit).1] at hx
      cases hx

/-- A process that has not called `malloc` before; `sbrk` gives it memory from `0x4000` on. -/
def fresh : Heap := ⟨fun _ => 0, fun _ => 0, 0, []⟩

def fromBreak : Env := ⟨0x1000, fun calls _ => 0x4000 + 0x8000 * calls.length⟩

theorem malloc_sizes_hundred :
    ∃ r h', malloc fromBreak 3 fresh 100 = some (r, h') ∧
      (Sized 100 fresh r h' ↔
        100 ≤ 2 ^ 31 - 16 ∨ 100 ≤ 2 ^ 32 - 8 ∧ Fits (start fromBreak fresh) (units 100)) := by
  obtain ⟨⟨r, h'⟩, hm⟩ := Option.isSome_iff_exists.mp
    (show (malloc fromBreak 3 fresh 100).isSome = true by decide +kernel)
  exact ⟨r, h', hm, malloc_sizes_iff (by decide) hm⟩

/-- `malloc(0xffffffff)` returns a block that is nothing but a header, and `malloc(0x80000000)` asks
`sbrk` for a negative number of bytes. -/
theorem malloc_sizes_wrap :
    (malloc fromBreak 3 fresh 0xffffffff).map (fun x => (x.1, x.1.map x.2.size, x.2.calls))
      = some (some 0xbff8, some 1, [(32768, 0x4000)]) ∧
    (malloc fromBreak 3 fresh 0x80000000).map (fun x => x.2.calls)
      = some [(-2147483640, 0x4000)] := by
  decide +kernel

end StrideXv6.Malloc
