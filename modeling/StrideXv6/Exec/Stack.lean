import StrideXv6.Exec.Load

set_option autoImplicit false

/-! # The arguments on the stack

`exec` pushes the argument strings and then the words of `ustack` below the top of the new image.
What has been pushed is a list of blocks, an address with the bytes there; `Pushed` says that they
lie apart from each other between the stack pointer and the top, in the one page of the stack, that
they can be read, and that nothing else has changed. A block that does not fit reaches into the page
below, which the user may not access, or wraps around to the pages of the devices, and `copyout`
fails (`push`).
-/

namespace StrideXv6.Exec

open Hoare
open Mem (Memory Page Image Pte PGSIZE KERNBASE pgroundup Pool Layout guarded Accessible userLoad)

/-! ## Blocks -/

abbrev Block := Nat × List UInt8

def Block.Apart (b b' : Block) : Prop := b.1 + b.2.length ≤ b'.1 ∨ b'.1 + b'.2.length ≤ b.1

/-- Since `m`, the blocks have been pushed in this order to addresses from `bottom` to `top`; now the
stack pointer is `sp`. -/
structure Pushed (d : Page) (bottom top : Nat) (m : Memory) (blocks : List Block) (sp : Nat)
    (m' : Memory) : Prop where
  aligned : 4 ∣ sp
  lower : bottom ≤ sp
  upper : sp ≤ top
  range : ∀ b ∈ blocks, sp ≤ b.1 ∧ b.1 + b.2.length ≤ top
  apart : blocks.Pairwise Block.Apart
  stored : ∀ b ∈ blocks, ∀ k < b.2.length, userLoad m' d (b.1 + k) = b.2[k]?
  frame : ∀ a < 2 ^ 32, (∀ b ∈ blocks, a < b.1 ∨ b.1 + b.2.length ≤ a) →
    userLoad m' d a = userLoad m d a

theorem pushed_nil (d : Page) {bottom top : Nat} (m : Memory) (hle : bottom ≤ top)
    (ha : 4 ∣ top) : Pushed d bottom top m [] top m :=
  ⟨ha, hle, le_rfl, fun _ hb => absurd hb List.not_mem_nil, .nil,
    fun _ hb => absurd hb List.not_mem_nil, fun _ _ _ => rfl⟩

variable {img : Image} {m m' m₀ m₁ : Memory} {d : Page} {g sp : Nat} {blocks : List Block}
  {l : List UInt8}

/-- A copy to below the stack pointer. -/
theorem Pushed.push {bottom top va : Nat} (h : Pushed d bottom top m₁ blocks sp m)
    (hc : Mem.CopiedOut m d va l true m') (ha : 4 ∣ va) (hlow : bottom ≤ va)
    (hup : va + l.length ≤ sp) (htop : top < 2 ^ 32) :
    Pushed d bottom top m₁ (blocks ++ [(va, l)]) va m' := by
  have hupper := h.upper
  have hload : ∀ a < 2 ^ 32, a < va ∨ va + l.length ≤ a → userLoad m' d a = userLoad m d a := by
    intro a hlt hout
    rw [hc.exact rfl a hlt, if_neg (by omega)]
  refine ⟨ha, hlow, by omega, fun b hb => ?_, ?_, fun b hb k hk => ?_, fun a hlt hout => ?_⟩
  · rcases List.mem_append.mp hb with hb | hb
    · have := h.range b hb
      omega
    · obtain rfl := List.mem_singleton.mp hb
      exact ⟨le_rfl, by dsimp only; omega⟩
  · refine List.pairwise_append.mpr ⟨h.apart, List.pairwise_singleton .., fun b hb b' hb' => ?_⟩
    obtain rfl := List.mem_singleton.mp hb'
    exact .inr (hup.trans (h.range b hb).1)
  · rcases List.mem_append.mp hb with hb | hb
    · have hrange := h.range b hb
      rw [hload _ (by omega) (by omega)]
      exact h.stored b hb k hk
    · obtain rfl := List.mem_singleton.mp hb
      dsimp only at hk ⊢
      rw [hc.exact rfl _ (by omega), if_pos (by omega), Nat.add_sub_cancel_left]
  · have hlast := hout (va, l) (List.mem_append_right _ (List.mem_singleton_self _))
    rw [hload a hlt hlast]
    exact h.frame a hlt fun b hb => hout b (List.mem_append_left _ hb)

/-! ## One block -/

theorem sub32_cases {a b : Nat} (ha : a < 2 ^ 31) (hb : b ≤ 2 ^ 25) :
    b ≤ a ∧ sub32 a b = a - b ∨ a < b ∧ sub32 a b = 2 ^ 32 + a - b := by
  unfold sub32
  omega

theorem guarded_iff {v : Nat} : guarded g v = true ↔ v ≠ g := by
  rw [guarded, Function.update_apply]
  split
  · rename_i hv
    exact iff_of_false Bool.false_ne_true (not_not.mpr hv)
  · rename_i hv
    exact iff_of_true rfl hv

/-- An image whose last page is the stack, above the inaccessible page `g`. -/
structure Stacked (img : Image) (m₀ : Memory) (d : Page) (g : Nat) (m : Memory) : Prop
    extends Layout img m₀ d (guarded g) ((g + 2) * PGSIZE) m where
  lt : (g + 2) * PGSIZE < KERNBASE

theorem Stacked.accessible (h : Stacked img m₀ d g m) {v : Nat} (hv : v < 2 ^ 20) :
    Accessible m d v ↔ v < g + 2 ∧ v ≠ g := by
  rw [h.toLayout.accessible hv, guarded_iff, Mem.pgroundup_mul]

/-- Pushing a block: `copyout` succeeds if and only if it fits above the guard page. -/
theorem Stacked.push (h : Stacked img m₀ d g m) (hp : Pool img m₀) (null : Mem.M (Option Pte))
    (hpu : Pushed d ((g + 1) * PGSIZE) ((g + 2) * PGSIZE) m₁ blocks sp m) (hne : l ≠ [])
    (hlen : l.length ≤ 2 ^ 25) : ∃ r m',
      Mem.copyout img null d (sub32 sp l.length / 4 * 4) l m = .ok (r, m') ∧
      Stacked img m₀ d g m' ∧ ((g + 1) * PGSIZE + l.length ≤ sp → r = true) ∧
      (r = true → Pushed d ((g + 1) * PGSIZE) ((g + 2) * PGSIZE) m₁
        (blocks ++ [(sub32 sp l.length / 4 * 4, l)]) (sub32 sp l.length / 4 * 4) m') := by
  have hlt := h.lt
  have hpos := List.length_pos_iff.mpr hne
  have hup := hpu.upper
  have hlow := hpu.lower
  obtain ⟨q, rfl⟩ := hpu.aligned
  have hcases := sub32_cases (a := 4 * q) (b := l.length) (by unfold KERNBASE at hlt; omega) hlen
  generalize hva : sub32 (4 * q) l.length / 4 * 4 = va
  have hfit : va + l.length ≤ pgroundup ((g + 2) * PGSIZE) * PGSIZE ∨ 0xFE000 ≤ va / PGSIZE := by
    rw [Mem.pgroundup_mul]
    unfold PGSIZE at *
    omega
  obtain ⟨r, m', hrun, hc, hlayout⟩ := h.toLayout.copyout hp null (by unfold sub32 at hva; omega) hfit
  refine ⟨r, m', hrun, ⟨hlayout, hlt⟩, fun hroom => hc.result.mpr ⟨?_, fun a h1 h2 => ?_⟩, ?_⟩
  · unfold PGSIZE KERNBASE at *
    omega
  · refine (h.accessible ?_).mpr ⟨?_, ?_⟩ <;>
    · unfold PGSIZE KERNBASE at *
      omega
  rintro rfl
  obtain ⟨hend, hacc⟩ := hc.result.mp rfl
  have hpage : ∀ a, va ≤ a → a < va + l.length → a / PGSIZE < g + 2 ∧ a / PGSIZE ≠ g := by
    intro a h1 h2
    exact (h.accessible (by unfold PGSIZE; omega)).mp (hacc a h1 h2)
  have hfirst := (hpage va le_rfl (by omega)).1
  have hguard : (g + 1) * PGSIZE ≤ va := by
    -- otherwise the block has a byte in the guard page
    by_contra hlt'
    have hbyte := (hpage (max va (g * PGSIZE)) (le_max_left ..) (by unfold PGSIZE at *; omega)).2
    unfold PGSIZE at *
    omega
  refine hpu.push hc ⟨_, by rw [← hva, Nat.mul_comm]⟩ hguard ?_ (by unfold KERNBASE at hlt; omega)
  unfold PGSIZE at *
  omega

/-! ## Arguments -/

/-- The blocks of the argument strings, at these addresses. -/
def stringBlocks (ptrs : List Nat) (argv : List (List UInt8)) : List Block :=
  ptrs.zip (argv.map fun s => s ++ [0])

/-- The room that the strings take, each rounded up to words. -/
def stringsSize (argv : List (List UInt8)) : Nat := (argv.map fun s => (s.length + 4) / 4 * 4).sum

/-- The arguments fit in a page, and there are not too many of them. -/
def Room (argv : List (List UInt8)) : Prop :=
  argv.length ≤ MAXARG ∧ stringsSize argv + 4 * (argv.length + 4) ≤ PGSIZE

instance (argv : List (List UInt8)) : Decidable (Room argv) := inferInstanceAs (Decidable (_ ∧ _))

theorem pushStrings_spec (hp : Pool img m₀) (null : Mem.M (Option Pte)) {argv : List (List UInt8)}
    {ustack : List Nat} (h : Stacked img m₀ d g m)
    (hpu : Pushed d ((g + 1) * PGSIZE) ((g + 2) * PGSIZE) m₁ blocks sp m)
    (hlen : ∀ s ∈ argv, s.length < 2 ^ 25) (hmax : ustack.length ≤ MAXARG) : ∃ r m',
      pushStrings img null d argv sp ustack m = .ok (r, m') ∧ Stacked img m₀ d g m' ∧
      (ustack.length + argv.length ≤ MAXARG → (g + 1) * PGSIZE + stringsSize argv ≤ sp →
        r.map Prod.fst = some (sp - stringsSize argv)) ∧
      ∀ sp' ptrs, r = some (sp', ptrs) → ptrs.length ≤ MAXARG ∧ ∃ new, ptrs = ustack ++ new ∧
        new.length = argv.length ∧ Pushed d ((g + 1) * PGSIZE) ((g + 2) * PGSIZE) m₁
          (blocks ++ stringBlocks new argv) sp' m' := by
  induction argv generalizing m blocks sp ustack with
  | nil =>
    refine ⟨_, m, rfl, h, fun _ _ => rfl, fun sp' ptrs hr => ?_⟩
    cases hr
    refine ⟨hmax, [], (List.append_nil _).symm, rfl, ?_⟩
    rw [stringBlocks, List.zip_nil_left, List.append_nil]
    exact hpu
  | cons s argv ih =>
    rw [pushStrings]
    by_cases hfull : MAXARG ≤ ustack.length
    · rw [if_pos hfull]
      refine ⟨none, m, rfl, h, fun hle => ?_, fun sp' ptrs hr => ?_⟩
      · rw [List.length_cons] at hle
        omega
      · cases hr
    rw [if_neg hfull]
    have hne : s ++ [0] ≠ [] := List.append_ne_nil_of_right_ne_nil _ (List.cons_ne_nil 0 [])
    have hsize : (s ++ [0]).length = s.length + 1 := List.length_append
    have hlen' := hlen s List.mem_cons_self
    have hcons : stringsSize (s :: argv) = (s.length + 4) / 4 * 4 + stringsSize argv := rfl
    obtain ⟨r, m₂, hrun, h₂, hfit, hpu₂⟩ := h.push hp null hpu hne (by omega)
    rw [hsize] at hrun hpu₂ hfit
    rw [run_bind hrun, hcons]
    cases r with
    | false =>
      refine ⟨none, m₂, rfl, h₂, fun _ hroom => ?_, fun sp' ptrs hr => ?_⟩
      · exact absurd (hfit (by omega)) Bool.false_ne_true
      · cases hr
    | true =>
      have hmax' : (ustack ++ [sub32 sp (s.length + 1) / 4 * 4]).length ≤ MAXARG := by
        rw [List.length_append, List.length_singleton]
        omega
      obtain ⟨r, m₃, hrest, h₃, hroom₃, hr⟩ := ih h₂ (hpu₂ rfl)
        (fun s' hs => hlen s' (List.mem_cons_of_mem _ hs)) hmax'
      refine ⟨r, m₃, hrest, h₃, fun hle hroom => ?_, fun sp' ptrs heq => ?_⟩
      · have hup := hpu.upper
        have hlt := h.lt
        obtain ⟨q, hq⟩ := hpu.aligned
        have hnext : sub32 sp (s.length + 1) / 4 * 4 = sp - (s.length + 4) / 4 * 4 := by
          unfold sub32 KERNBASE at *
          omega
        rw [hnext, List.length_append, List.length_singleton] at hroom₃
        rw [List.length_cons] at hle
        rw [hroom₃ (by omega) (by omega), Nat.sub_sub]
      obtain ⟨hle, new, rfl, hnew, hpu₃⟩ := hr sp' ptrs heq
      refine ⟨hle, sub32 sp (s.length + 1) / 4 * 4 :: new, by simp, by simp [hnew], ?_⟩
      rw [List.append_assoc] at hpu₃
      exact hpu₃

/-- The words that `exec` pushes last, at `sp`. -/
def ustackBlock (sp : Nat) (ptrs : List Nat) : Block :=
  (sp, ([0xFFFFFFFF, ptrs.length, sp + 12] ++ ptrs ++ [0]).flatMap wordBytes)

theorem length_words (l : List Nat) : (l.flatMap wordBytes).length = 4 * l.length := by
  rw [List.length_flatMap]
  induction l with
  | nil => rfl
  | cons x l ih =>
    rw [List.map_cons, List.sum_cons, ih, List.length_cons]
    simp only [wordBytes, List.length_cons, List.length_nil]
    omega

theorem pushArgs_spec (hp : Pool img m₀) (null : Mem.M (Option Pte)) {argv : List (List UInt8)}
    (h : Stacked img m₀ d g m) (hlen : ∀ s ∈ argv, s.length < 2 ^ 25) : ∃ r m',
      pushArgs img null d ((g + 2) * PGSIZE) argv m = .ok (r, m') ∧ Stacked img m₀ d g m' ∧
      (Room argv → r ≠ none) ∧ ∀ sp, r = some sp → ∃ ptrs : List Nat, ptrs.length = argv.length ∧
        Pushed d ((g + 1) * PGSIZE) ((g + 2) * PGSIZE) m
          (stringBlocks ptrs argv ++ [ustackBlock sp ptrs]) sp m' := by
  have hstart : Pushed d ((g + 1) * PGSIZE) ((g + 2) * PGSIZE) m [] ((g + 2) * PGSIZE) m :=
    pushed_nil d m (Nat.mul_le_mul_right _ (by omega)) ((by decide : 4 ∣ PGSIZE).mul_left _)
  have hnil : ([] : List Nat).length ≤ MAXARG := Nat.zero_le _
  obtain ⟨r, m₂, hrun, h₂, hroom, hr⟩ := pushStrings_spec hp null h hstart hlen hnil
  rw [List.length_nil, Nat.zero_add] at hroom
  have hbottom : (g + 2) * PGSIZE = (g + 1) * PGSIZE + PGSIZE := Nat.succ_mul ..
  rw [pushArgs, run_bind hrun]
  cases r with
  | none =>
    refine ⟨none, m₂, rfl, h₂, fun hfits => ?_, fun sp hx => ?_⟩
    · exact absurd (hroom hfits.1 (by have := hfits.2; omega)).symm (Option.some_ne_none _)
    · cases hx
  | some r =>
    obtain ⟨sp, ptrs⟩ := r
    obtain ⟨hmax, new, hptrs, hnew, hpu⟩ := hr sp ptrs rfl
    rw [List.nil_append] at hptrs hpu
    subst hptrs
    have hlow := hpu.lower
    have hup := hpu.upper
    have hlt := h₂.lt
    obtain ⟨q, hq⟩ := hpu.aligned
    have hspace : (ptrs.length + 4) * 4 ≤ sp ∧ sp < 2 ^ 32 := by
      unfold MAXARG PGSIZE KERNBASE at *
      omega
    have hsp : sub32 sp ((3 + ptrs.length + 1) * 4) = sp - 4 * (ptrs.length + 4) := by
      unfold sub32
      omega
    have hargv : sub32 sp ((ptrs.length + 1) * 4) = sp - 4 * (ptrs.length + 4) + 12 := by
      unfold sub32
      omega
    have hlength : (ustackBlock (sp - 4 * (ptrs.length + 4)) ptrs).2.length
        = 4 * (ptrs.length + 4) := by
      rw [ustackBlock, length_words]
      simp only [List.length_append, List.length_cons, List.length_nil]
      omega
    have hva : sub32 sp (ustackBlock (sp - 4 * (ptrs.length + 4)) ptrs).2.length / 4 * 4
        = sp - 4 * (ptrs.length + 4) := by
      rw [hlength]
      unfold sub32
      omega
    obtain ⟨r, m₃, hrun₃, h₃, hfit₃, hr₃⟩ := h₂.push hp null hpu
      (l := (ustackBlock (sp - 4 * (ptrs.length + 4)) ptrs).2)
      (List.length_pos_iff.mp (by omega)) (by unfold MAXARG at hmax; omega)
    rw [hva] at hrun₃ hr₃
    dsimp only
    rw [hsp, hargv]
    cases r with
    | false =>
      refine ⟨none, m₃, run_bind hrun₃, h₃, fun hfits => ?_, fun sp' hx => ?_⟩
      · have hsp := hroom hfits.1 (by have := hfits.2; omega)
        rw [Option.map_some, Option.some.injEq] at hsp
        have hfits := hfits.2
        exact absurd (hfit₃ (by rw [hlength]; dsimp only at hsp; omega)) Bool.false_ne_true
      · cases hx
    | true =>
      refine ⟨some _, m₃, run_bind hrun₃, h₃, fun _ => Option.some_ne_none _, fun sp' hx => ?_⟩
      cases hx
      exact ⟨ptrs, hnew, hr₃ rfl⟩

end StrideXv6.Exec
