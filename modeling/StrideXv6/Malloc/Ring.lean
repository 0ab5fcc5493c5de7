import StrideXv6.Lib.Extents
import StrideXv6.Lib.Pointers
import StrideXv6.Malloc.Heap

set_option autoImplicit false

/-! # The ring of free blocks

The free list is a ring through its nodes, `base` and the free blocks, in increasing order. The loop
of `free` goes round until it is at the last node below the block (`findGap_finds`); what follows
puts the block there and joins it with its neighbours (`Ring.free`).
-/

namespace StrideXv6.Malloc

open Extents Function

variable {h : Heap} {b bp p q z n : Nat} {x y : Nat × Nat} {l₁ l₂ : List (Nat × Nat)} {l : List Nat}

/-! ## The gap for a block -/

/-- The loop of `free` ends at `p`. -/
def Stops (h : Heap) (bp p : Nat) : Prop :=
  (bp > p ∧ bp < h.ptr p) ∨ (p ≥ h.ptr p ∧ (bp > p ∨ bp < h.ptr p))

theorem findGap_of_stops (hs : Stops h bp p) (n : Nat) : findGap h bp (n + 1) p = some p := by
  rw [findGap]
  by_cases h1 : bp > p ∧ bp < h.ptr p
  · rw [if_pos h1]
  · rw [if_neg h1, if_pos (hs.resolve_left h1)]

theorem findGap_of_not_stops (hs : ¬ Stops h bp p) (n : Nat) :
    findGap h bp (n + 1) p = findGap h bp n (h.ptr p) := by
  rw [findGap, if_neg fun h1 => hs (.inl h1), if_neg fun h1 => hs (.inr h1)]

theorem findGap_iterate {k : Nat} (hk : Stops h bp (h.ptr^[k] p))
    (hlt : ∀ j < k, ¬ Stops h bp (h.ptr^[j] p)) (hn : k < n) :
    findGap h bp n p = some (h.ptr^[k] p) := by
  induction k generalizing p n with
  | zero =>
    obtain ⟨n, rfl⟩ := Nat.exists_eq_add_of_lt hn
    rw [Nat.zero_add]
    exact findGap_of_stops hk n
  | succ k ih =>
    obtain ⟨m, rfl⟩ : ∃ m, n = m + 1 := ⟨n - 1, by omega⟩
    rw [findGap_of_not_stops (p := p) (hlt 0 (Nat.succ_pos k)) m]
    exact ih hk (fun j hj => hlt (j + 1) (Nat.succ_lt_succ hj)) (Nat.lt_of_succ_lt_succ hn)

/-- On a ring in increasing order, the loop ends at the last node below the block. -/
theorem stops_iff (hpath : Leads h.ptr (b :: l) b) (hsort : (b :: l).Pairwise (· < ·)) (hb : b < bp)
    (hnot : bp ∉ b :: l) (hz : z ∈ b :: l) :
    Stops h bp z ↔ z < bp ∧ ∀ r ∈ b :: l, r < bp → r ≤ z := by
  have hbz : b ≤ z := by
    rcases List.mem_cons.mp hz with rfl | hz
    · exact le_refl _
    · exact ((List.pairwise_cons.mp hsort).1 z hz).le
  obtain ⟨l₁, l₂, heq, hnext⟩ := hpath.next_of_mem hz
  rw [heq] at hsort hnot ⊢
  obtain ⟨-, hzl, hlow⟩ := List.pairwise_append.mp hsort
  obtain ⟨hup, hl₂⟩ := List.pairwise_cons.mp hzl
  have hsides : ∀ r ∈ l₁ ++ z :: l₂, r ≤ z ∨ r ∈ l₂ := by
    refine List.forall_mem_append.mpr ⟨fun r hr => .inl (hlow r hr z List.mem_cons_self).le, ?_⟩
    exact List.forall_mem_cons.mpr ⟨.inl (le_refl _), fun r hr => .inr hr⟩
  rw [Stops, hnext]
  cases l₂ with
  | nil =>
    -- behind the last node the ring is back at `b`
    rw [List.headD_nil]
    constructor
    · intro hs
      exact ⟨by omega, fun r hr _ => (hsides r hr).resolve_right List.not_mem_nil⟩
    · intro hs
      exact .inr ⟨hbz, .inl hs.1⟩
  | cons w l₂ =>
    rw [List.headD_cons]
    have hw : w ∈ l₁ ++ z :: w :: l₂ :=
      List.mem_append_right _ (List.mem_cons_of_mem _ List.mem_cons_self)
    have hlt : z < w := hup w List.mem_cons_self
    have hne : bp ≠ w := fun heq => hnot (heq ▸ hw)
    constructor
    · intro hs
      refine ⟨by omega, fun r hr hrb => ?_⟩
      rcases hsides r hr with hle | hmem
      · exact hle
      · rcases List.mem_cons.mp hmem with rfl | hmem
        · omega
        · have := (List.pairwise_cons.mp hl₂).1 r hmem
          omega
    · rintro ⟨hzb, hmax⟩
      refine .inl ⟨hzb, ?_⟩
      by_contra hwb
      have := hmax w hw (by omega)
      omega

/-- From anywhere on the ring the loop comes to the last node below the block. -/
theorem findGap_finds (hpath : Leads h.ptr (b :: l) b) (hsort : (b :: l).Pairwise (· < ·))
    (hb : b < bp) (hnot : bp ∉ b :: l) (hp : p ∈ b :: l) (hq : q ∈ b :: l) (hqb : q < bp)
    (hmax : ∀ r ∈ b :: l, r < bp → r ≤ q) : ∃ N, ∀ n ≥ N, findGap h bp n p = some q := by
  classical
  have hex : ∃ k, Stops h bp (h.ptr^[k] p) := by
    obtain ⟨k, hk, -⟩ := hpath.reach hp hq
    refine ⟨k + 1, ?_⟩
    rw [hk]
    exact (stops_iff hpath hsort hb hnot hq).mpr ⟨hqb, hmax⟩
  have hmem := hpath.mem_iterate hp (Nat.find hex)
  obtain ⟨hlt, hle⟩ := (stops_iff hpath hsort hb hnot hmem).mp (Nat.find_spec hex)
  have heq : h.ptr^[Nat.find hex] p = q := le_antisymm (hmax _ hmem hlt) (hle q hq hqb)
  refine ⟨Nat.find hex + 1, fun n hn => ?_⟩
  rw [findGap_iterate (Nat.find_spec hex) (fun j hj => Nat.find_min hex hj) hn, heq]

/-! ## The ring of free blocks -/

/-- The nodes `ns` and their sizes. -/
structure Ring (h : Heap) (b : Nat) (ns : List (Nat × Nat)) : Prop where
  path : Leads h.ptr (ns.map Prod.fst) b
  sizes : ∀ x ∈ ns, h.size x.1 = x.2

theorem plus_eq (hlt : stop HEADER x < 2 ^ 32) : plus x.1 x.2 = stop HEADER x := by
  rw [plus, Nat.mul_comm]
  exact Nat.mod_eq_of_lt hlt

/-- Pointers that are the same at the other nodes lead as they did. -/
theorem leads_update {ptr : Nat → Nat} (h : Leads ptr (l₂.map Prod.fst) b)
    (hne : ∀ z ∈ l₂, z.1 ≠ p) : Leads (Function.update ptr p q) (l₂.map Prod.fst) b := by
  refine h.congr fun w hw => update_of_ne ?_ ..
  obtain ⟨v, hv, rfl⟩ := List.mem_map.mp hw
  exact hne v hv

/-- `joinUpper` makes the block and what is behind it a path to `b`. -/
theorem joinUpper_spec (hr : Ring h b (y :: l₂)) (hx : h.size x.1 = x.2) (hb : b < x.1)
    (hupper : ∀ z ∈ l₂, x.1 < z.1) (hlt : ∀ z ∈ x :: l₂, stop HEADER z < 2 ^ 32) :
    ∃ s l', join HEADER x l₂ = (x.1, s) :: l' ∧ stop HEADER (x.1, s) < 2 ^ 32 ∧
      Ring (joinUpper h x.1 y.1) b ((x.1, s) :: l') ∧ (∀ z ∈ l', z ∈ l₂) ∧
      ∀ a, a ≠ x.1 → (joinUpper h x.1 y.1).size a = h.size a ∧
        (joinUpper h x.1 y.1).ptr a = h.ptr a := by
  have hplus := plus_eq (hlt x List.mem_cons_self)
  have hother : ∀ z ∈ l₂, z.1 ≠ x.1 := fun z hz => (hupper z hz).ne'
  obtain ⟨hnext, hpath⟩ := hr.path
  have hsizes : ∀ z ∈ l₂, h.size z.1 = z.2 := fun z hz => hr.sizes z (List.mem_cons_of_mem _ hz)
  by_cases hjoin : stop HEADER x = h.ptr y.1
  · rw [joinUpper, hx, hplus, if_pos hjoin]
    cases l₂ with
    | nil =>
      -- behind the last block there is `b`, which is below
      have hback : h.ptr y.1 = b := hnext
      have := start_le_stop HEADER x
      omega
    | cons z l =>
      have hz : h.ptr y.1 = z.1 := hnext
      have hzsize := hsizes z List.mem_cons_self
      have hzlt := hlt z (List.mem_cons_of_mem _ List.mem_cons_self)
      rw [hz] at hjoin ⊢
      have hsum : (x.2 + z.2) % 2 ^ 32 = x.2 + z.2 := by
        refine Nat.mod_eq_of_lt ?_
        simp only [stop, HEADER] at *
        omega
      refine ⟨x.2 + z.2, l, ?_, ?_, ⟨⟨?_, ?_⟩, ?_⟩, fun w hw => List.mem_cons_of_mem _ hw,
        fun a ha => ⟨update_of_ne ha .., update_of_ne ha ..⟩⟩
      · rw [join, if_pos hjoin]
      · simp only [stop, HEADER] at *
        omega
      · exact (update_self ..).trans ((congrArg h.ptr hz).trans hpath.1)
      · exact leads_update hpath.2 fun v hv => hother v (List.mem_cons_of_mem _ hv)
      · refine List.forall_mem_cons.mpr ⟨?_, fun v hv => ?_⟩
        · rw [hzsize, hsum]
          exact update_self ..
        · have hv' := List.mem_cons_of_mem z hv
          exact (update_of_ne (hother v hv') ..).trans (hsizes v hv')
  · rw [joinUpper, hx, hplus, if_neg hjoin]
    refine ⟨x.2, l₂, ?_, hlt x List.mem_cons_self, ⟨⟨?_, leads_update hpath hother⟩, ?_⟩,
      fun z hz => hz, fun a ha => ⟨rfl, update_of_ne ha ..⟩⟩
    · cases l₂ with
      | nil => rfl
      | cons z l =>
        rw [show h.ptr y.1 = z.1 from hnext] at hjoin
        rw [join, if_neg hjoin]
    · exact (update_self ..).trans hnext
    · exact List.forall_mem_cons.mpr ⟨hx, hsizes⟩

/-- **A block is put behind the node `y`.** -/
theorem Ring.free (hr : Ring h b (l₁ ++ y :: l₂)) (hx : h.size x.1 = x.2) (hb : b < x.1)
    (hsort : (l₁ ++ y :: x :: l₂).Pairwise fun z w => z.1 < w.1) (hy : stop HEADER y ≤ x.1)
    (hlt : ∀ z ∈ x :: l₂, stop HEADER z < 2 ^ 32) :
    Ring (joinLower (joinUpper h x.1 y.1) x.1 y.1) b (coalesce HEADER l₁ y x l₂) := by
  obtain ⟨-, hyxl, hacross⟩ := List.pairwise_append.mp hsort
  obtain ⟨hyl, hxl⟩ := List.pairwise_cons.mp hyxl
  have hupper := (List.pairwise_cons.mp hxl).1
  have hyx : y.1 < x.1 := hyl x List.mem_cons_self
  have hl₁y : ∀ z ∈ l₁, z.1 ≠ y.1 := fun z hz => (hacross z hz y List.mem_cons_self).ne
  have hl₁x : ∀ z ∈ l₁, z.1 ≠ x.1 := fun z hz =>
    (hacross z hz x (List.mem_cons_of_mem _ List.mem_cons_self)).ne
  have hpath := hr.path
  rw [List.map_append, Leads.append_iff] at hpath
  obtain ⟨hs₁, hs₂⟩ := List.forall_mem_append.mp hr.sizes
  obtain ⟨s, l', hjoin, hslt, ⟨⟨hnext, hback⟩, hsizes⟩, hsub, hsame⟩ :=
    joinUpper_spec ⟨hpath.2, hs₂⟩ hx hb hupper hlt
  obtain ⟨hsize, hold₂⟩ := List.forall_mem_cons.mp hsizes
  have hl' : ∀ z ∈ l', z.1 ≠ y.1 := fun z hz =>
    (hyx.trans (hupper z (hsub z hz))).ne'
  have hysize : (joinUpper h x.1 y.1).size y.1 = y.2 :=
    (hsame y.1 hyx.ne).1.trans (hs₂ y List.mem_cons_self)
  have hold₁ : ∀ z ∈ l₁, (joinUpper h x.1 y.1).size z.1 = z.2 := fun z hz =>
    (hsame z.1 (hl₁x z hz)).1.trans (hs₁ z hz)
  -- The pointers change at `x` and `y` only.
  have hfront : ∀ q, Leads (Function.update (joinUpper h x.1 y.1).ptr y.1 q) (l₁.map Prod.fst)
      y.1 := by
    refine fun q => leads_update (hpath.1.congr fun w hw => ?_) hl₁y
    obtain ⟨v, hv, rfl⟩ := List.mem_map.mp hw
    exact (hsame v.1 (hl₁x v hv)).2
  have hylt : stop HEADER y < 2 ^ 32 :=
    lt_of_le_of_lt (hy.trans (start_le_stop HEADER x)) (hlt x List.mem_cons_self)
  rw [coalesce, hjoin, joinLower, hysize, plus_eq hylt]
  by_cases htouch : stop HEADER y = x.1
  · have hsum : (y.2 + s) % 2 ^ 32 = y.2 + s := by
      refine Nat.mod_eq_of_lt ?_
      simp only [stop, HEADER] at *
      omega
    rw [if_pos htouch, join, if_pos htouch]
    refine ⟨?_, List.forall_mem_append.mpr ⟨fun z hz => ?_, List.forall_mem_cons.mpr ⟨?_,
      fun z hz => ?_⟩⟩⟩
    · rw [List.map_append, Leads.append_iff]
      exact ⟨hfront _, (update_self ..).trans hnext, leads_update hback hl'⟩
    · exact (update_of_ne (hl₁y z hz) ..).trans (hold₁ z hz)
    · rw [hsize, hsum]
      exact update_self ..
    · exact (update_of_ne (hl' z hz) ..).trans (hold₂ z hz)
  · rw [if_neg htouch, join, if_neg htouch]
    refine ⟨?_, List.forall_mem_append.mpr ⟨hold₁, List.forall_mem_cons.mpr ⟨hysize, hsizes⟩⟩⟩
    rw [List.map_append, Leads.append_iff]
    have hrest : Leads (joinUpper h x.1 y.1).ptr (((x.1, s) :: l').map Prod.fst) b := ⟨hnext, hback⟩
    refine ⟨hfront _, update_self .., leads_update hrest ?_⟩
    exact List.forall_mem_cons.mpr ⟨hyx.ne', hl'⟩

/-- `free` changes the sizes of the block and of the node below only. -/
theorem freed_size {a : Nat} (ha : a ≠ bp) (hap : a ≠ p) :
    (joinLower (joinUpper h bp p) bp p).size a = h.size a := by
  have hupper : (joinUpper h bp p).size a = h.size a := by
    unfold joinUpper
    split
    · exact update_of_ne ha ..
    · rfl
  unfold joinLower
  split
  · exact (update_of_ne hap ..).trans hupper
  · exact hupper

/-- The heap after `free` of `bp` behind `p`. -/
def freed (h : Heap) (bp p : Nat) : Heap := { joinLower (joinUpper h bp p) bp p with freep := p }

theorem free_eq (hp : findGap h bp n h.freep = some p) : free n h bp = some (freed h bp p) := by
  rw [free, hp]
  rfl

theorem freed_calls (h : Heap) (bp p : Nat) : (freed h bp p).calls = h.calls := by
  unfold freed joinLower joinUpper
  split <;> split <;> rfl

end StrideXv6.Malloc
