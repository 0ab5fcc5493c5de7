import Mathlib.Tactic

set_option autoImplicit false

/-! # Free lists

A free list is threaded through the free items themselves: `next x` is what the item `x` has in its
link. `Threaded next nil h l` says that following the links from `h` one passes the items `l` and
then finds `nil`. The links determine the items (`Threaded.unique`), so no item is passed twice
(`Threaded.nodup`), and only the links of these items matter (`Threaded.congr`).

`Partition M l out` says that each item of the pool `M` is in the free list `l` or handed out, and
not both.
-/

namespace FreeLists

variable {ν : Type*}

/-! ## Links -/

def Threaded (next : ν → ν) (nil : ν) : ν → List ν → Prop
  | h, [] => h = nil
  | h, x :: l => h = x ∧ x ≠ nil ∧ Threaded next nil (next x) l

variable {next next' : ν → ν} {nil h x : ν} {l l' : List ν}

/-- What the links of other items are does not matter. -/
theorem Threaded.congr (ht : Threaded next nil h l) (hsame : ∀ x ∈ l, next' x = next x) :
    Threaded next' nil h l := by
  induction l generalizing h with
  | nil => exact ht
  | cons x l ih =>
    obtain ⟨hx, hne, hl⟩ := ht
    refine ⟨hx, hne, ?_⟩
    rw [hsame x List.mem_cons_self]
    exact ih hl fun y hy => hsame y (List.mem_cons_of_mem _ hy)

theorem Threaded.unique (ht : Threaded next nil h l) (ht' : Threaded next nil h l') : l = l' := by
  induction l generalizing h l' with
  | nil =>
    cases l' with
    | nil => rfl
    | cons y l' => exact absurd (ht'.1.symm.trans ht) ht'.2.1
  | cons x l ih =>
    cases l' with
    | nil => exact absurd (ht.1.symm.trans ht') ht.2.1
    | cons y l' =>
      obtain rfl : x = y := ht.1.symm.trans ht'.1
      rw [ih ht.2.2 ht'.2.2]

/-- The list from one of its items on. -/
theorem Threaded.suffix {l₁ l₂ : List ν} (ht : Threaded next nil h (l₁ ++ x :: l₂)) :
    Threaded next nil x (x :: l₂) := by
  induction l₁ generalizing h with
  | nil => exact ⟨rfl, ht.2⟩
  | cons y l₁ ih => exact ih ht.2.2

/-- An item that came twice would start two lists. -/
theorem Threaded.nodup (ht : Threaded next nil h l) : l.Nodup := by
  induction l generalizing h with
  | nil => exact List.nodup_nil
  | cons x l ih =>
    refine List.nodup_cons.mpr ⟨fun hx => ?_, ih ht.2.2⟩
    obtain ⟨l₁, l₂, rfl⟩ := List.append_of_mem hx
    have hagain := ht.2.2.suffix
    have hfirst : Threaded next nil x (x :: (l₁ ++ x :: l₂)) := ⟨rfl, ht.2⟩
    have hlen := congrArg List.length (hfirst.unique hagain)
    simp only [List.length_cons, List.length_append] at hlen
    omega

theorem Threaded.head_mem (ht : Threaded next nil h l) (hne : h ≠ nil) : h ∈ l := by
  cases l with
  | nil => exact absurd ht hne
  | cons x l =>
    rw [ht.1]
    exact List.mem_cons_self

/-- A new item in front, which has the old head in its link. -/
theorem Threaded.push (ht : Threaded next nil h l) (hne : x ≠ nil) (hlink : next' x = h)
    (hsame : ∀ y ∈ l, next' y = next y) : Threaded next' nil x (x :: l) := by
  refine ⟨rfl, hne, ?_⟩
  rw [hlink]
  exact ht.congr hsame

/-! ## The pool -/

structure Partition (M : ν → Prop) (l : List ν) (out : Finset ν) : Prop where
  nodup : l.Nodup
  mem_iff : ∀ x, x ∈ l ↔ M x ∧ x ∉ out
  owned : ∀ x ∈ out, M x

variable {M M' : ν → Prop} {out : Finset ν}

/-- The first item is handed out. -/
theorem Partition.take [DecidableEq ν] (hp : Partition M (x :: l) out) : Partition M l (insert x out) := by
  obtain ⟨hx, hnd⟩ := List.nodup_cons.mp hp.nodup
  refine ⟨hnd, fun y => ?_, fun y hy => ?_⟩
  · have hy := hp.mem_iff y
    rw [List.mem_cons] at hy
    rw [Finset.mem_insert, not_or]
    constructor
    · intro hmem
      have := hy.mp (.inr hmem)
      exact ⟨this.1, fun heq => hx (heq ▸ hmem), this.2⟩
    · rintro ⟨hM, hne, hout⟩
      exact (hy.mpr ⟨hM, hout⟩).resolve_left hne
  · rcases Finset.mem_insert.mp hy with rfl | hy
    · exact ((hp.mem_iff y).mp List.mem_cons_self).1
    · exact hp.owned y hy

/-- An item that was handed out comes back. -/
theorem Partition.give [DecidableEq ν] (hp : Partition M l out) (hx : x ∈ out) :
    Partition M (x :: l) (out.erase x) := by
  refine ⟨List.nodup_cons.mpr ⟨fun h => ((hp.mem_iff x).mp h).2 hx, hp.nodup⟩, fun y => ?_,
    fun y hy => hp.owned y (Finset.mem_of_mem_erase hy)⟩
  rw [List.mem_cons, hp.mem_iff, Finset.mem_erase, not_and]
  by_cases heq : y = x
  · subst heq
    exact iff_of_true (.inl rfl) ⟨hp.owned y hx, fun h => absurd rfl h⟩
  · constructor
    · rintro (h | ⟨hM, hout⟩)
      · exact absurd h heq
      · exact ⟨hM, fun _ => hout⟩
    · exact fun h => .inr ⟨h.1, h.2 heq⟩

/-- The pool gets new items, which are free. -/
theorem Partition.grow (hp : Partition M l out) (hM : ∀ x, M' x ↔ x ∈ l' ∨ M x)
    (hnew : ∀ x ∈ l', ¬ M x) (hnd : l'.Nodup) : Partition M' (l' ++ l) out := by
  have hout : ∀ x ∈ l', x ∉ out := fun x hx ho => hnew x hx (hp.owned x ho)
  refine ⟨List.nodup_append.mpr ⟨hnd, hp.nodup, fun x hx y hy heq => ?_⟩, fun x => ?_,
    fun x hx => (hM x).mpr (.inr (hp.owned x hx))⟩
  · exact hnew x hx ((hp.mem_iff x).mp (heq ▸ hy)).1
  · rw [List.mem_append, hp.mem_iff, hM]
    constructor
    · rintro (hx | ⟨hx, ho⟩)
      · exact ⟨.inl hx, hout x hx⟩
      · exact ⟨.inr hx, ho⟩
    · rintro ⟨hx | hx, ho⟩
      · exact .inl hx
      · exact .inr ⟨hx, ho⟩

/-- With an empty list everything is handed out. -/
theorem Partition.exhausted (hp : Partition M [] out) (hx : M x) : x ∈ out := by
  by_contra ho
  exact List.not_mem_nil ((hp.mem_iff x).mpr ⟨hx, ho⟩)

end FreeLists
