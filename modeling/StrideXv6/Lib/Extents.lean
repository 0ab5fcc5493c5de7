import Mathlib.Tactic

set_option autoImplicit false

/-! # Lists of extents

An extent is a start and a number of units of `u` bytes each. `cover u l y` counts the extents of
`l` that the byte `y` is in, so that two lists with the same `cover` make up the same memory, and
extents are disjoint if no byte is in two of them. A list is `Spaced` if its extents are in
increasing order and no two of them touch. `coalesce` puts an extent into a spaced list, behind one of
its extents, and joins it with its neighbours.
-/

namespace Extents

/-- The end of an extent. -/
def stop (u : Nat) (x : Nat × Nat) : Nat := x.1 + u * x.2

def inside (u : Nat) (x : Nat × Nat) (y : Nat) : Nat := if x.1 ≤ y ∧ y < stop u x then 1 else 0

def cover (u : Nat) (l : List (Nat × Nat)) (y : Nat) : Nat := (l.map fun x => inside u x y).sum

def Spaced (u : Nat) (l : List (Nat × Nat)) : Prop := l.Pairwise fun x y => stop u x < y.1

/-- Put `x` before `l`; if it ends where `l` starts, they become one extent. -/
def join (u : Nat) (x : Nat × Nat) : List (Nat × Nat) → List (Nat × Nat)
  | [] => [x]
  | z :: l => if stop u x = z.1 then (x.1, x.2 + z.2) :: l else x :: z :: l

/-- Put `x` behind `p`. -/
def coalesce (u : Nat) (l₁ : List (Nat × Nat)) (p x : Nat × Nat) (l₂ : List (Nat × Nat)) :
    List (Nat × Nat) :=
  l₁ ++ join u p (join u x l₂)

variable {u y : Nat} {x p : Nat × Nat} {l l₁ l₂ : List (Nat × Nat)}

/-! ## What is covered -/

@[simp] theorem cover_nil (u y : Nat) : cover u [] y = 0 := rfl

@[simp] theorem cover_cons (u : Nat) (x : Nat × Nat) (l : List (Nat × Nat)) (y : Nat) :
    cover u (x :: l) y = inside u x y + cover u l y := by
  rw [cover, List.map_cons, List.sum_cons]
  rfl

@[simp] theorem cover_append (u : Nat) (l₁ l₂ : List (Nat × Nat)) (y : Nat) :
    cover u (l₁ ++ l₂) y = cover u l₁ y + cover u l₂ y := by
  rw [cover, List.map_append, List.sum_append]
  rfl

theorem cover_perm (h : l₁.Perm l₂) : cover u l₁ y = cover u l₂ y := (h.map _).sum_eq

theorem inside_of (h : x.1 ≤ y ∧ y < stop u x) : inside u x y = 1 := if_pos h

theorem inside_of_not (h : ¬ (x.1 ≤ y ∧ y < stop u x)) : inside u x y = 0 := if_neg h

/-- An extent may be split. -/
theorem inside_add (u a m n y : Nat) :
    inside u (a, m + n) y = inside u (a, m) y + inside u (a + u * m, n) y := by
  have hstop : stop u (a, m + n) = a + u * m + u * n := by
    rw [stop, Nat.mul_add, Nat.add_assoc]
  by_cases h₁ : a ≤ y ∧ y < a + u * m
  · rw [inside_of (x := (a, m)) h₁, inside_of_not (x := (a + u * m, n)), inside_of]
    · exact ⟨h₁.1, by rw [hstop]; omega⟩
    · exact fun h => absurd h.1 (not_le.mpr h₁.2)
  · rw [inside_of_not (x := (a, m)) h₁, Nat.zero_add]
    by_cases h₂ : a + u * m ≤ y ∧ y < a + u * m + u * n
    · rw [inside_of (x := (a + u * m, n)) h₂, inside_of]
      exact ⟨by show a ≤ y; omega, by rw [hstop]; exact h₂.2⟩
    · rw [inside_of_not (x := (a + u * m, n)) h₂, inside_of_not]
      rintro ⟨h, h'⟩
      rw [hstop] at h'
      exact h₂ ⟨by have : a ≤ y := h; omega, h'⟩

theorem cover_join : cover u (join u x l) y = inside u x y + cover u l y := by
  cases l with
  | nil => rw [join, cover_cons]
  | cons z l =>
    rw [join]
    split
    · rename_i heq
      have hz : (x.1 + u * x.2, z.2) = z := Prod.ext heq rfl
      rw [cover_cons, inside_add, hz, cover_cons, Nat.add_assoc]
    · rw [cover_cons]

theorem cover_coalesce :
    cover u (coalesce u l₁ p x l₂) y = cover u (l₁ ++ p :: l₂) y + inside u x y := by
  rw [coalesce, cover_append, cover_join, cover_join, cover_append, cover_cons]
  omega

/-- An extent has the bytes that it covers. -/
theorem inside_of_mem (hx : x ∈ l) : inside u x y ≤ cover u l y := by
  induction l with
  | nil => cases hx
  | cons z l ih =>
    rw [cover_cons]
    rcases List.mem_cons.mp hx with rfl | hx
    · exact Nat.le_add_right ..
    · exact le_trans (ih hx) (Nat.le_add_left ..)

theorem exists_of_cover (h : 0 < cover u l y) : ∃ x ∈ l, x.1 ≤ y ∧ y < stop u x := by
  induction l with
  | nil => exact absurd h (lt_irrefl 0)
  | cons z l ih =>
    rw [cover_cons] at h
    by_cases hz : z.1 ≤ y ∧ y < stop u z
    · exact ⟨z, List.mem_cons_self, hz⟩
    · rw [inside_of_not hz, Nat.zero_add] at h
      obtain ⟨x, hx, hin⟩ := ih h
      exact ⟨x, List.mem_cons_of_mem _ hx, hin⟩

/-- Extents that no byte is in twice are one before the other. -/
theorem apart_of_once {x z : Nat × Nat} (hx : 0 < u * x.2) (hz : 0 < u * z.2)
    (h : ∀ y, inside u x y + inside u z y ≤ 1) : stop u x ≤ z.1 ∨ stop u z ≤ x.1 := by
  by_contra hcon
  simp only [stop, not_or, not_le] at hcon
  have h₁ : inside u x (max x.1 z.1) = 1 := inside_of (by simp only [stop]; omega)
  have h₂ : inside u z (max x.1 z.1) = 1 := inside_of (by simp only [stop]; omega)
  have hboth := h (max x.1 z.1)
  omega

/-! ## The gaps -/

/-- The first extent gets larger, or stays. -/
theorem join_eq (u : Nat) (x : Nat × Nat) (l : List (Nat × Nat)) :
    ∃ s l', join u x l = (x.1, s) :: l' ∧ x.2 ≤ s ∧ ∀ z ∈ l', z ∈ l := by
  cases l with
  | nil => exact ⟨x.2, [], rfl, le_refl _, fun _ hz => hz⟩
  | cons v l =>
    rw [join]
    split
    · exact ⟨_, l, rfl, Nat.le_add_right .., fun _ hz => List.mem_cons_of_mem _ hz⟩
    · exact ⟨_, v :: l, rfl, le_refl _, fun _ hz => hz⟩

/-- What holds of an extent that gets larger holds of all of them. -/
theorem forall_mem_join {Q : Nat × Nat → Prop} (hQ : ∀ a m n, m ≤ n → Q (a, m) → Q (a, n))
    (h : ∀ z ∈ x :: l, Q z) : ∀ z ∈ join u x l, Q z := by
  obtain ⟨s, l', heq, hs, hsub⟩ := join_eq u x l
  rw [heq]
  refine List.forall_mem_cons.mpr ⟨hQ _ _ _ hs (h x List.mem_cons_self), fun z hz => ?_⟩
  exact h z (List.mem_cons_of_mem _ (hsub z hz))

theorem forall_mem_coalesce {Q : Nat × Nat → Prop} (hQ : ∀ a m n, m ≤ n → Q (a, m) → Q (a, n))
    (h : ∀ z ∈ l₁ ++ p :: l₂, Q z) (hx : Q x) : ∀ z ∈ coalesce u l₁ p x l₂, Q z := by
  obtain ⟨h₁, h₂⟩ := List.forall_mem_append.mp h
  obtain ⟨hp, h₂⟩ := List.forall_mem_cons.mp h₂
  refine List.forall_mem_append.mpr ⟨h₁, forall_mem_join hQ (List.forall_mem_cons.mpr ⟨hp, ?_⟩)⟩
  exact forall_mem_join hQ (List.forall_mem_cons.mpr ⟨hx, h₂⟩)

/-- Joining makes extents larger only. -/
theorem exists_ge_coalesce (u : Nat) (l₁ : List (Nat × Nat)) (p x : Nat × Nat)
    (l₂ : List (Nat × Nat)) : ∃ z ∈ coalesce u l₁ p x l₂, x.2 ≤ z.2 := by
  obtain ⟨s, l', heq, hs, -⟩ := join_eq u x l₂
  rw [coalesce, heq, join]
  split
  · exact ⟨_, List.mem_append_right _ List.mem_cons_self, le_trans hs (Nat.le_add_left ..)⟩
  · refine ⟨(x.1, s), List.mem_append_right _ ?_, hs⟩
    exact List.mem_cons_of_mem _ List.mem_cons_self

theorem spaced_join (h : Spaced u l) (hx : ∀ z ∈ l, stop u x ≤ z.1) : Spaced u (join u x l) := by
  cases l with
  | nil => exact List.pairwise_singleton ..
  | cons z l =>
    obtain ⟨hz, hl⟩ := List.pairwise_cons.mp h
    rw [join]
    split
    · rename_i heq
      refine List.pairwise_cons.mpr ⟨fun w hw => ?_, hl⟩
      have hlt := hz w hw
      simp only [stop, Nat.mul_add] at *
      omega
    · rename_i hne
      have hxz : stop u x < z.1 := lt_of_le_of_ne (hx z List.mem_cons_self) hne
      refine List.pairwise_cons.mpr ⟨fun w hw => ?_, h⟩
      rcases List.mem_cons.mp hw with rfl | hw
      · exact hxz
      · have hlt := hz w hw
        simp only [stop] at *
        omega

theorem start_le_stop (u : Nat) (x : Nat × Nat) : x.1 ≤ stop u x := Nat.le_add_right ..

/-- Between two extents of a spaced list there is room, and what touches is joined. -/
theorem spaced_coalesce (h : Spaced u (l₁ ++ p :: l₂)) (hp : stop u p ≤ x.1)
    (h₂ : ∀ z ∈ l₂, stop u x ≤ z.1) : Spaced u (coalesce u l₁ p x l₂) := by
  obtain ⟨hl₁, hpl₂, hacross⟩ := List.pairwise_append.mp h
  obtain ⟨hpl, hl₂⟩ := List.pairwise_cons.mp hpl₂
  have hstarts : ∀ z ∈ join u x l₂, stop u p ≤ z.1 :=
    forall_mem_join (fun _ _ _ _ hle => hle)
      (List.forall_mem_cons.mpr ⟨hp, fun z hz => (hpl z hz).le⟩)
  refine List.pairwise_append.mpr ⟨hl₁, spaced_join (spaced_join hl₂ h₂) hstarts, fun a ha => ?_⟩
  have hap : stop u a < p.1 := hacross a ha p List.mem_cons_self
  refine forall_mem_join (fun _ _ _ _ hlt => hlt) (List.forall_mem_cons.mpr ⟨hap, fun z hz => ?_⟩)
  have h3 := hstarts z hz
  have h4 := start_le_stop u p
  omega

/-- An extent that meets none of a spaced list has its place in it. -/
theorem exists_place (h : Spaced u l) (hx : ∀ z ∈ l, stop u z ≤ x.1 ∨ stop u x ≤ z.1) :
    ∃ l₁ l₂, l = l₁ ++ l₂ ∧ (∀ z ∈ l₁, stop u z ≤ x.1) ∧ ∀ z ∈ l₂, stop u x ≤ z.1 := by
  induction l with
  | nil => exact ⟨[], [], rfl, fun z hz => (List.not_mem_nil hz).elim,
      fun z hz => (List.not_mem_nil hz).elim⟩
  | cons w l ih =>
    obtain ⟨hw, hl⟩ := List.pairwise_cons.mp h
    rcases hx w List.mem_cons_self with hlow | hhigh
    · obtain ⟨l₁, l₂, rfl, h₁, h₂⟩ := ih hl fun z hz => hx z (List.mem_cons_of_mem _ hz)
      exact ⟨w :: l₁, l₂, rfl, List.forall_mem_cons.mpr ⟨hlow, h₁⟩, h₂⟩
    · refine ⟨[], w :: l, rfl, fun z hz => (List.not_mem_nil hz).elim, ?_⟩
      refine List.forall_mem_cons.mpr ⟨hhigh, fun z hz => ?_⟩
      have h3 := hw z hz
      have h4 := start_le_stop u w
      omega

end Extents
