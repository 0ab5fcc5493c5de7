import StrideXv6.Malloc.Ring

set_option autoImplicit false

/-! # The integrity of the user heap

Blocks are extents of headers, and `base` is one of no headers. `Holds` says that the nodes of the
free list and the allocated blocks make up the memory that `sbrk` has given, each byte once, and that
free blocks do not touch. `free` puts a block at its place (`Holds.free`), `morecore` is `free` of a
block that is new (`Holds.grow`), and `malloc` takes a block out of the ring, or the end of one
(`Holds.take`).

The loop of `malloc` ends: going round, it comes to every block (`Holds.search_finds`).
-/

namespace StrideXv6.Malloc

open Extents Function

variable {E : Env} {h h' : Heap} {b r n N nunits nu : Nat} {x z : Nat × Nat}
  {ns as l₁ l₂ : List (Nat × Nat)}
variable {z : Nat × Nat} {nu : Nat}

/-! ## Blocks and memory -/

/-- The memory that `sbrk` has given. -/
def regions (calls : List (Int × Nat)) : List (Nat × Nat) :=
  calls.filterMap fun c =>
    if c.2 = 2 ^ 32 - 1 then none else some (c.2, (c.1 % 2 ^ 32).toNat / HEADER)

/-- `sbrk` fails, or returns the start of a region above all earlier ones. -/
structure Honest (E : Env) : Prop where
  base : 0 < E.base
  sbrk : ∀ calls a, E.sbrk calls a = 2 ^ 32 - 1 ∨
    E.base + HEADER ≤ E.sbrk calls a ∧ (∀ x ∈ regions calls, stop HEADER x ≤ E.sbrk calls a) ∧
      E.sbrk calls a + (a % 2 ^ 32).toNat < 2 ^ 32

/-- The heap with the nodes `ns` of the free list and the allocated blocks `as`. -/
structure Holds (E : Env) (h : Heap) (ns as : List (Nat × Nat)) : Prop where
  head : ns.head? = some (E.base, 0)
  ring : Ring h E.base ns
  freep : h.freep ∈ ns.map Prod.fst
  pos : ∀ x ∈ ns, x = (E.base, 0) ∨ 0 < x.2
  used : ∀ x ∈ as, h.size x.1 = x.2 ∧ 0 < x.2
  spaced : Spaced HEADER ns
  made : ∀ y, cover HEADER (ns ++ as) y = cover HEADER (regions h.calls) y
  once : ∀ y, cover HEADER (regions h.calls) y ≤ 1
  bounds : ∀ x ∈ regions h.calls, E.base + HEADER ≤ x.1 ∧ stop HEADER x < 2 ^ 32

theorem bytes_pos (hx : 0 < x.2) : 0 < HEADER * x.2 := Nat.mul_pos (by decide) hx

/-- The blocks are where the memory is. -/
theorem Holds.regions_of_mem (hh : Holds E h ns as) (hx : x ∈ ns ++ as) (h0 : 0 < x.2) :
    (∃ w ∈ regions h.calls, w.1 ≤ x.1) ∧ ∃ w ∈ regions h.calls, stop HEADER x ≤ stop HEADER w := by
  have hpos := bytes_pos h0
  -- A byte of a block is in a region.
  have hregion : ∀ y, x.1 ≤ y ∧ y < stop HEADER x →
      ∃ w ∈ regions h.calls, w.1 ≤ y ∧ y < stop HEADER w := by
    intro y hy
    refine exists_of_cover (lt_of_lt_of_le ?_ (hh.made y).le)
    exact lt_of_lt_of_le (by rw [inside_of hy]; exact Nat.one_pos) (inside_of_mem hx)
  obtain ⟨w, hw, hlow, -⟩ := hregion x.1 ⟨le_refl _, by rw [stop]; omega⟩
  obtain ⟨v, hv, -, hhigh⟩ := hregion (stop HEADER x - 1) (by rw [stop]; omega)
  exact ⟨⟨w, hw, hlow⟩, v, hv, by omega⟩

theorem Holds.bounds_of_mem (hh : Holds E h ns as) (hx : x ∈ ns ++ as) (h0 : 0 < x.2) :
    E.base + HEADER ≤ x.1 ∧ stop HEADER x < 2 ^ 32 := by
  obtain ⟨⟨w, hw, hlow⟩, v, hv, hhigh⟩ := hh.regions_of_mem hx h0
  exact ⟨le_trans (hh.bounds w hw).1 hlow, lt_of_le_of_lt hhigh (hh.bounds v hv).2⟩

theorem Holds.bounds_of_used (hh : Holds E h ns as) (hx : x ∈ as) :
    E.base + HEADER ≤ x.1 ∧ stop HEADER x < 2 ^ 32 :=
  hh.bounds_of_mem (List.mem_append_right _ hx) (hh.used x hx).2

theorem Holds.base_mem (hh : Holds E h ns as) : (E.base, 0) ∈ ns := List.mem_of_head? hh.head

theorem stop_base (a : Nat) : stop HEADER (a, 0) = a := rfl

theorem Holds.base_le (hh : Holds E h ns as) (hz : z ∈ ns) : E.base ≤ z.1 := by
  rcases hh.pos z hz with rfl | h0
  · exact le_refl _
  · exact (Nat.le_add_right ..).trans (hh.bounds_of_mem (List.mem_append_left _ hz) h0).1

theorem cover_erase (hx : x ∈ as) (y : Nat) :
    cover HEADER (ns ++ as) y = cover HEADER (ns ++ as.erase x) y + inside HEADER x y := by
  rw [cover_append, cover_append, cover_perm (List.perm_cons_erase hx), cover_cons]
  omega

/-- An allocated block is apart from the other blocks and from `base`. -/
theorem Holds.apart (hh : Holds E h ns as) (hx : x ∈ as) (hz : z ∈ ns ++ as.erase x) :
    stop HEADER z ≤ x.1 ∨ stop HEADER x ≤ z.1 := by
  have hz0 : z = (E.base, 0) ∨ 0 < z.2 := by
    rcases List.mem_append.mp hz with hz | hz
    · exact hh.pos z hz
    · exact .inr (hh.used z (List.mem_of_mem_erase hz)).2
  rcases hz0 with rfl | hz0
  · have := (hh.bounds_of_used hx).1
    exact .inl (by rw [stop_base]; omega)
  · refine apart_of_once (bytes_pos hz0) (bytes_pos (hh.used x hx).2) fun y => ?_
    have h1 := hh.once y
    have h2 : inside HEADER z y ≤ cover HEADER (ns ++ as.erase x) y := inside_of_mem hz
    rw [← hh.made y, cover_erase hx] at h1
    omega

theorem Holds.start_cases (hh : Holds E h ns as) (hx : x ∈ as) (hz : z ∈ ns ++ as.erase x) :
    z.1 < x.1 ∨ x.1 < z.1 := by
  have hx0 := bytes_pos (hh.used x hx).2
  have hbase := (hh.bounds_of_used hx).1
  have hapart := hh.apart hx hz
  simp only [stop, HEADER] at *
  rcases List.mem_append.mp hz with hz | hz
  · rcases hh.pos z hz with rfl | h0
    · exact .inl (by show E.base < x.1; omega)
    · omega
  · have := (hh.used z (List.mem_of_mem_erase hz)).2
    omega

theorem Holds.sorted (hh : Holds E h ns as) : ns.Pairwise fun z w => z.1 < w.1 :=
  List.Pairwise.imp (fun hlt => lt_of_le_of_lt (start_le_stop HEADER _) hlt) hh.spaced

theorem Holds.sorted_starts (hh : Holds E h ns as) : (ns.map Prod.fst).Pairwise (· < ·) :=
  List.pairwise_map.mpr hh.sorted

theorem Holds.starts (hh : Holds E h ns as) : ∃ l, ns.map Prod.fst = E.base :: l := by
  obtain ⟨e, rfl⟩ := List.head?_eq_some_iff.mp hh.head
  exact ⟨e.map Prod.fst, rfl⟩

/-- From `freep` one gets to every node before one is back. -/
theorem Holds.reach (hh : Holds E h ns as) {a : Nat} (ha : a ∈ ns.map Prod.fst) :
    ∃ k, h.ptr^[k + 1] h.freep = a ∧ ∀ j < k, h.ptr^[j + 1] h.freep ≠ h.freep := by
  have hpath := hh.ring.path
  have hfreep := hh.freep
  obtain ⟨l, hl⟩ := hh.starts
  rw [hl] at hpath hfreep ha
  exact hpath.reach hfreep ha

theorem Holds.mem_iterate (hh : Holds E h ns as) (k : Nat) :
    h.ptr^[k] h.freep ∈ ns.map Prod.fst := by
  have hpath := hh.ring.path
  have hfreep := hh.freep
  obtain ⟨l, hl⟩ := hh.starts
  rw [hl] at hpath hfreep ⊢
  exact hpath.mem_iterate hfreep k

/-- The place of an allocated block among the nodes. -/
theorem Holds.place (hh : Holds E h ns as) (hx : x ∈ as) :
    ∃ l₁ y l₂, ns = l₁ ++ y :: l₂ ∧ stop HEADER y ≤ x.1 ∧ (∀ z ∈ l₂, stop HEADER x ≤ z.1) ∧
      (l₁ ++ y :: x :: l₂).Pairwise fun z w => z.1 < w.1 := by
  obtain ⟨l, l₂, rfl, hlow, hhigh⟩ :=
    exists_place hh.spaced fun z hz => hh.apart hx (List.mem_append_left _ hz)
  have hx0 := bytes_pos (hh.used x hx).2
  have hside : ∀ z ∈ l ++ l₂, z.1 < x.1 ∨ x.1 < z.1 := fun z hz =>
    hh.start_cases hx (List.mem_append_left _ hz)
  rcases List.eq_nil_or_concat' l with rfl | ⟨l₁, y, rfl⟩
  · have h1 := hhigh _ hh.base_mem
    have h2 := (hh.bounds_of_used hx).1
    have h3 := start_le_stop HEADER x
    rw [HEADER] at h2
    omega
  · have hy : y ∈ l₁ ++ [y] := List.mem_append_right _ List.mem_cons_self
    obtain ⟨hs₁, hs₂, hacross⟩ := List.pairwise_append.mp hh.sorted
    refine ⟨l₁, y, l₂, List.append_assoc .., hlow y hy, hhigh, ?_⟩
    rw [List.append_cons]
    refine List.pairwise_append.mpr ⟨hs₁, List.pairwise_cons.mpr ⟨fun w hw => ?_, hs₂⟩,
      fun z hz => List.forall_mem_cons.mpr ⟨?_, hacross z hz⟩⟩
    · have := hhigh w hw
      rw [stop] at this
      omega
    · have h1 := hlow z hz
      have h2 := start_le_stop HEADER z
      have h3 := hside z (List.mem_append_left _ hz)
      omega

/-! ## free -/

/-- **`free`** ends, and the block is free. -/
theorem Holds.free (hh : Holds E h ns as) (hx : x ∈ as) :
    ∃ h' ns', (∃ N, ∀ n ≥ N, free n h x.1 = some h') ∧ Holds E h' ns' (as.erase x) ∧
      ∃ z ∈ ns', x.2 ≤ z.2 := by
  obtain ⟨l₁, y, l₂, rfl, hy, hhigh, hsort⟩ := hh.place hx
  obtain ⟨hxsize, hxpos⟩ := hh.used x hx
  obtain ⟨hbase, hxlt⟩ := hh.bounds_of_used hx
  rw [HEADER] at hbase
  obtain ⟨-, hyxl, hacross⟩ := List.pairwise_append.mp hsort
  obtain ⟨hyl, hxl⟩ := List.pairwise_cons.mp hyxl
  have hyx : y.1 < x.1 := hyl x List.mem_cons_self
  have hupper := (List.pairwise_cons.mp hxl).1
  have hymem : y.1 ∈ (l₁ ++ y :: l₂).map Prod.fst :=
    List.mem_map_of_mem (List.mem_append_right _ List.mem_cons_self)
  obtain ⟨N, hN⟩ : ∃ N, ∀ n ≥ N, findGap h x.1 n h.freep = some y.1 := by
    have hpath := hh.ring.path
    have hsorted := hh.sorted_starts
    have hfreep := hh.freep
    have hnot : x.1 ∉ (l₁ ++ y :: l₂).map Prod.fst := by
      intro hmem
      obtain ⟨z, hz, hzx⟩ := List.mem_map.mp hmem
      have := hh.start_cases hx (List.mem_append_left _ hz)
      omega
    have hmax : ∀ r ∈ (l₁ ++ y :: l₂).map Prod.fst, r < x.1 → r ≤ y.1 := by
      intro r hr hlt
      obtain ⟨z, hz, rfl⟩ := List.mem_map.mp hr
      rcases List.mem_append.mp hz with hz | hz
      · exact (hacross z hz y List.mem_cons_self).le
      · rcases List.mem_cons.mp hz with rfl | hz
        · exact le_refl _
        · exact absurd hlt (hupper z hz).not_gt
    obtain ⟨l, hl⟩ := hh.starts
    rw [hl] at hpath hsorted hfreep hnot hmax hymem
    exact findGap_finds hpath hsorted (by omega) hnot hfreep hymem hyx hmax
  have hbelow : ∀ z ∈ l₂, stop HEADER z < 2 ^ 32 := by
    intro z hz
    have hzn : z ∈ l₁ ++ y :: l₂ := List.mem_append_right _ (List.mem_cons_of_mem _ hz)
    rcases hh.pos z hzn with rfl | h0
    · exact absurd (hupper _ hz) (by show ¬ x.1 < E.base; omega)
    · exact (hh.bounds_of_mem (List.mem_append_left _ hzn) h0).2
  refine ⟨freed h x.1 y.1, coalesce HEADER l₁ y x l₂, ⟨N, fun n hn => free_eq (hN n hn)⟩,
    ⟨?_, ?_, ?_, ?_, fun z hz => ⟨?_, (hh.used z (List.mem_of_mem_erase hz)).2⟩,
      spaced_coalesce hh.spaced hy hhigh, fun w => ?_, ?_, ?_⟩, exists_ge_coalesce ..⟩
  · cases l₁ with
    | cons w l => exact hh.head
    | nil =>
      -- `base` is behind nothing, and touches nothing
      obtain rfl : y = (E.base, 0) := Option.some.inj hh.head
      obtain ⟨s, l', heq, -⟩ := join_eq HEADER x l₂
      rw [coalesce, heq, join, if_neg (by show E.base ≠ x.1; omega)]
      rfl
  · obtain ⟨hpath, hsizes⟩ := hh.ring.free hxsize (by omega) hsort hy
      (List.forall_mem_cons.mpr ⟨hxlt, hbelow⟩)
    exact ⟨hpath, hsizes⟩
  · obtain ⟨s, l', heq, -⟩ := join_eq HEADER y (join HEADER x l₂)
    rw [coalesce, heq, List.map_append]
    exact List.mem_append_right _ List.mem_cons_self
  · refine forall_mem_coalesce (fun a m n hmn => ?_) hh.pos (.inr hxpos)
    rintro (heq | hm)
    · obtain ⟨rfl, rfl⟩ := Prod.mk.inj heq
      exact n.eq_zero_or_pos.imp (fun hn => by rw [hn]) id
    · exact .inr (lt_of_lt_of_le hm hmn)
  · -- the other allocated blocks are not the ones whose sizes change
    have hzas := List.mem_of_mem_erase hz
    have hzx := hh.start_cases hx (List.mem_append_right _ hz)
    have hzy := hh.start_cases hzas (List.mem_append_left _
      (List.mem_append_right l₁ (List.mem_cons_self (a := y))))
    exact (freed_size (by omega) (by omega)).trans (hh.used z hzas).1
  · rw [freed_calls, ← hh.made, cover_erase hx, cover_append, cover_coalesce, cover_append _ (l₁ ++ _)]
    omega
  · rw [freed_calls]
    exact hh.once
  · rw [freed_calls]
    exact hh.bounds

/-! ## morecore -/

theorem request_toNat (hnu : max nu 4096 * HEADER < 2 ^ 32) :
    (request nu % 2 ^ 32).toNat = max nu 4096 * HEADER := by
  rw [request, asInt, BitVec.toInt_eq_toNat_cond, BitVec.toNat_ofNat]
  split <;> omega

theorem regions_failed (calls : List (Int × Nat)) (a : Int) :
    regions (calls ++ [(a, 2 ^ 32 - 1)]) = regions calls := by
  rw [regions, List.filterMap_append]
  exact List.append_nil _

theorem regions_got (calls : List (Int × Nat)) (hnu : max nu 4096 * HEADER < 2 ^ 32)
    (hr : r ≠ 2 ^ 32 - 1) :
    regions (calls ++ [(request nu, r)]) = regions calls ++ [(r, max nu 4096)] := by
  have hunits : (request nu % 2 ^ 32).toNat / HEADER = max nu 4096 := by
    rw [request_toNat hnu]
    exact Nat.mul_div_cancel _ (by decide)
  rw [regions, List.filterMap_append, List.filterMap_cons, if_neg hr]
  dsimp only
  rw [hunits]
  rfl

/-- A new region is a block that nobody has freed yet. -/
theorem Holds.grow (hE : Honest E) (hh : Holds E h ns as) (hnu : max nu 4096 * HEADER < 2 ^ 32)
    (hr : E.sbrk h.calls (request nu) = r) (hne : r ≠ 2 ^ 32 - 1) :
    Holds E (Heap.setSize { h with calls := h.calls ++ [(request nu, r)] } r (max nu 4096)) ns
      ((r, max nu 4096) :: as) := by
  obtain ⟨hbase, habove, hroom⟩ := (hE.sbrk h.calls (request nu)).resolve_left (by rw [hr]; exact hne)
  rw [hr] at hbase habove hroom
  rw [request_toNat hnu] at hroom
  have hbelow : ∀ z ∈ ns ++ as, 0 < z.2 → z.1 ≠ r := by
    intro z hz h0
    obtain ⟨-, w, hw, hle⟩ := hh.regions_of_mem hz h0
    have h1 := habove w hw
    have h2 := bytes_pos h0
    rw [stop] at hle
    omega
  have hregions : regions (h.calls ++ [(request nu, r)])
      = regions h.calls ++ [(r, max nu 4096)] := regions_got h.calls hnu hne
  refine ⟨hh.head, ⟨hh.ring.path, fun z hz => ?_⟩, hh.freep, hh.pos, ?_, hh.spaced, fun y => ?_,
    fun y => ?_, ?_⟩
  · refine (update_of_ne ?_ ..).trans (hh.ring.sizes z hz)
    rcases hh.pos z hz with rfl | h0
    · show E.base ≠ r
      rw [HEADER] at hbase
      omega
    · exact hbelow z (List.mem_append_left _ hz) h0
  · refine List.forall_mem_cons.mpr ⟨⟨update_self .., ?_⟩, fun z hz => ?_⟩
    · exact lt_of_lt_of_le (by decide) (le_max_right nu 4096)
    · obtain ⟨hsize, h0⟩ := hh.used z hz
      exact ⟨(update_of_ne (hbelow z (List.mem_append_right _ hz) h0) ..).trans hsize, h0⟩
  · have hmade := hh.made y
    show _ = cover HEADER (regions (h.calls ++ [(request nu, r)])) y
    rw [cover_append] at hmade
    rw [hregions, cover_append, cover_append, cover_cons, cover_cons, cover_nil, ← hmade]
    omega
  · have hold := hh.once y
    show cover HEADER (regions (h.calls ++ [(request nu, r)])) y ≤ 1
    rw [hregions, cover_append, cover_cons, cover_nil]
    by_cases hy : r ≤ y ∧ y < stop HEADER (r, max nu 4096)
    · have hnone : cover HEADER (regions h.calls) y = 0 := by
        by_contra hpos
        obtain ⟨w, hw, -, hlt⟩ := exists_of_cover (Nat.pos_of_ne_zero hpos)
        have := habove w hw
        omega
      rw [hnone, inside_of hy]
    · rw [inside_of_not hy]
      omega
  · show ∀ x ∈ regions (h.calls ++ [(request nu, r)]), _
    rw [hregions]
    refine List.forall_mem_append.mpr ⟨hh.bounds, List.forall_mem_singleton.mpr ⟨hbase, ?_⟩⟩
    rw [stop, Nat.mul_comm]
    exact hroom

/-- **`morecore`** ends: there is no memory, or a free block that is large enough. -/
theorem Holds.morecore (hE : Honest E) (hh : Holds E h ns as)
    (hnu : max nu 4096 * HEADER < 2 ^ 32) :
    ∃ q h' ns', (∃ N, ∀ n ≥ N, morecore E n h nu = some (q, h')) ∧ Holds E h' ns' as ∧
      (q ≠ 0 → q = h'.freep ∧ ∃ z ∈ ns', nu ≤ z.2) := by
  by_cases hfail : E.sbrk h.calls (request nu) = 2 ^ 32 - 1
  · have hregions := regions_failed h.calls (request nu)
    refine ⟨0, { h with calls := h.calls ++ [(request nu, 2 ^ 32 - 1)] }, ns, ⟨0, fun n _ => ?_⟩,
      ⟨hh.head, ⟨hh.ring.path, hh.ring.sizes⟩, hh.freep, hh.pos, hh.used, hh.spaced,
        hregions.symm ▸ hh.made, hregions.symm ▸ hh.once, hregions.symm ▸ hh.bounds⟩,
      fun h0 => absurd rfl h0⟩
    rw [Malloc.morecore, hfail]
    exact if_pos rfl
  · obtain ⟨h', ns', ⟨N, hN⟩, hh', z, hz, hle⟩ :=
      (hh.grow hE hnu rfl hfail).free List.mem_cons_self
    rw [List.erase_cons_head] at hh'
    refine ⟨h'.freep, h', ns', ⟨N, fun n hn => ?_⟩, hh', fun _ => ⟨rfl, z, hz, ?_⟩⟩
    · rw [Malloc.morecore, if_neg hfail, hN n hn]
      rfl
    · exact le_trans (le_max_left nu 4096) hle

theorem Holds.freep_ne_zero (hE : Honest E) (hh : Holds E h ns as) : h.freep ≠ 0 := by
  have hbase := hE.base
  obtain ⟨z, hz, heq⟩ := List.mem_map.mp hh.freep
  have := hh.base_le hz
  omega

/-! ## malloc -/

/-- The node in front of a free block. -/
theorem Ring.behind (hr : Ring h b ns) {prevp : Nat} (hprev : prevp ∈ ns.map Prod.fst)
    (hp : h.ptr prevp ≠ b) :
    ∃ l₁ y x l₂, ns = l₁ ++ y :: x :: l₂ ∧ y.1 = prevp ∧ h.ptr prevp = x.1 := by
  obtain ⟨m₁, m₂, heq, hnext⟩ := hr.path.next_of_mem hprev
  obtain ⟨l₁, l, rfl, rfl, hl⟩ := List.map_eq_append_iff.mp heq
  obtain ⟨y, l, rfl, rfl, rfl⟩ := List.map_eq_cons_iff.mp hl
  cases l with
  | nil => exact absurd hnext hp
  | cons x l₂ => exact ⟨l₁, y, x, l₂, rfl, rfl, hnext⟩

/-- The whole block is taken. -/
theorem Holds.take_all {y : Nat × Nat} (hh : Holds E h (l₁ ++ y :: x :: l₂) as) (h0 : 0 < x.2) :
    Holds E { h.setPtr y.1 (h.ptr x.1) with freep := y.1 } (l₁ ++ y :: l₂) (x :: as) := by
  have hsub : (l₁ ++ y :: l₂).Sublist (l₁ ++ y :: x :: l₂) :=
    ((List.sublist_cons_self x l₂).cons_cons y).append_left l₁
  have hx : x ∈ l₁ ++ y :: x :: l₂ :=
    List.mem_append_right _ (List.mem_cons_of_mem _ List.mem_cons_self)
  have hpath := hh.ring.path
  have hnd := hh.sorted_starts.imp fun hlt => hlt.ne
  rw [List.map_append, List.map_cons, List.map_cons] at hpath hnd
  refine ⟨?_, ⟨?_, fun z hz => hh.ring.sizes z (hsub.subset hz)⟩, ?_,
    fun z hz => hh.pos z (hsub.subset hz), List.forall_mem_cons.mpr ⟨⟨hh.ring.sizes x hx, h0⟩, hh.used⟩,
    hh.spaced.sublist hsub, fun w => ?_, hh.once, hh.bounds⟩
  · have hhead := hh.head
    cases l₁ with
    | nil => exact hhead
    | cons w l => exact hhead
  · rw [List.map_append, List.map_cons]
    exact hpath.skip hnd
  · exact List.mem_map_of_mem (List.mem_append_right l₁ (List.mem_cons_self (a := y)))
  · refine Eq.trans ?_ (hh.made w)
    rw [cover_append, cover_append, cover_append, cover_append, cover_cons, cover_cons, cover_cons,
      cover_cons]
    omega

/-- The end of the block is taken. -/
theorem Holds.take_end {q : Nat} (hh : Holds E h (l₁ ++ x :: l₂) as) (hn : 0 < n) (hlt : n < x.2)
    (hq : q ∈ (l₁ ++ x :: l₂).map Prod.fst) :
    Holds E { (h.setSize x.1 (x.2 - n)).setSize (plus x.1 (x.2 - n)) n with freep := q }
      (l₁ ++ (x.1, x.2 - n) :: l₂) ((plus x.1 (x.2 - n), n) :: as) := by
  have hx : x ∈ l₁ ++ x :: l₂ := List.mem_append_right _ List.mem_cons_self
  obtain ⟨-, hxlt⟩ := hh.bounds_of_mem (List.mem_append_left _ hx) (by omega)
  have hplus : plus x.1 (x.2 - n) = x.1 + HEADER * (x.2 - n) := by
    refine plus_eq (x := (x.1, x.2 - n)) (lt_of_le_of_lt ?_ hxlt)
    simp only [stop, HEADER]
    omega
  have hshort : stop HEADER (x.1, x.2 - n) ≤ stop HEADER x := by
    simp only [stop, HEADER]
    omega
  have hsize : ∀ a, a < x.1 ∨ stop HEADER x ≤ a →
      ((h.setSize x.1 (x.2 - n)).setSize (plus x.1 (x.2 - n)) n).size a = h.size a := by
    intro a ha
    simp only [stop, HEADER] at ha hplus
    exact (update_of_ne (by omega) ..).trans (update_of_ne (by omega) ..)
  have hxsize : ((h.setSize x.1 (x.2 - n)).setSize (plus x.1 (x.2 - n)) n).size x.1 = x.2 - n := by
    refine (update_of_ne ?_ ..).trans (update_self ..)
    rw [hplus, HEADER]
    omega
  have hmap : (l₁ ++ (x.1, x.2 - n) :: l₂).map Prod.fst = (l₁ ++ x :: l₂).map Prod.fst := by
    rw [List.map_append, List.map_append, List.map_cons, List.map_cons]
  obtain ⟨hl₁, hxl₂, hacross⟩ := List.pairwise_append.mp hh.spaced
  obtain ⟨hupper, hl₂⟩ := List.pairwise_cons.mp hxl₂
  obtain ⟨hs₁, hs₂⟩ := List.forall_mem_append.mp hh.ring.sizes
  obtain ⟨hp₁, hp₂⟩ := List.forall_mem_append.mp hh.pos
  refine ⟨?_, ⟨by rw [hmap]; exact hh.ring.path, ?_⟩, by rw [hmap]; exact hq, ?_, ?_, ?_, fun y => ?_,
    hh.once, hh.bounds⟩
  · have hhead := hh.head
    cases l₁ with
    | cons w l => exact hhead
    | nil =>
      obtain rfl : x = (E.base, 0) := Option.some.inj hhead
      exact absurd hlt (Nat.not_lt_zero n)
  · refine List.forall_mem_append.mpr ⟨fun z hz => ?_, List.forall_mem_cons.mpr ⟨hxsize,
      fun z hz => ?_⟩⟩
    · have hzx := hacross z hz x List.mem_cons_self
      exact (hsize z.1 (.inl (lt_of_le_of_lt (start_le_stop ..) hzx))).trans (hs₁ z hz)
    · exact (hsize z.1 (.inr (hupper z hz).le)).trans (hs₂ z (List.mem_cons_of_mem _ hz))
  · refine List.forall_mem_append.mpr ⟨hp₁, List.forall_mem_cons.mpr ⟨.inr (Nat.sub_pos_of_lt hlt),
      fun z hz => hp₂ z (List.mem_cons_of_mem _ hz)⟩⟩
  · refine List.forall_mem_cons.mpr ⟨⟨update_self .., hn⟩, fun z hz => ?_⟩
    obtain ⟨hzsize, hz0⟩ := hh.used z hz
    have hcases := hh.start_cases hz (List.mem_append_left _ hx)
    have hapart := hh.apart hz (List.mem_append_left _ hx)
    have hz1 := start_le_stop HEADER z
    exact ⟨(hsize z.1 (by omega)).trans hzsize, hz0⟩
  · refine List.pairwise_append.mpr ⟨hl₁, List.pairwise_cons.mpr ⟨fun z hz => ?_, hl₂⟩, ?_⟩
    · exact lt_of_le_of_lt hshort (hupper z hz)
    · refine fun w hw => List.forall_mem_cons.mpr ⟨hacross w hw x List.mem_cons_self, fun z hz => ?_⟩
      exact hacross w hw z (List.mem_cons_of_mem _ hz)
  · have hsplit : inside HEADER x y = inside HEADER (x.1, x.2 - n) y
        + inside HEADER (x.1 + HEADER * (x.2 - n), n) y := by
      rw [← inside_add, Nat.sub_add_cancel hlt.le]
    refine Eq.trans ?_ (hh.made y)
    rw [cover_append, cover_append, cover_append, cover_append, cover_cons, cover_cons, cover_cons,
      hplus]
    omega

/-- **A block is taken** out of the list, or the end of one. -/
theorem Holds.take (hh : Holds E h ns as) {prevp : Nat} (hprev : prevp ∈ ns.map Prod.fst)
    (hsize : nunits ≤ h.size (h.ptr prevp)) (hpos : 0 < nunits) :
    ∃ a h' ns', take h nunits prevp (h.ptr prevp) = (a, h') ∧ Holds E h' ns' ((a, nunits) :: as) := by
  have hne : h.ptr prevp ≠ E.base := by
    intro heq
    have hsize0 : h.size E.base = 0 := hh.ring.sizes _ hh.base_mem
    rw [heq, hsize0] at hsize
    omega
  obtain ⟨l₁, y, x, l₂, rfl, rfl, hx⟩ := hh.ring.behind hprev hne
  have hxsize := hh.ring.sizes x
    (List.mem_append_right _ (List.mem_cons_of_mem _ List.mem_cons_self))
  rw [hx, hxsize] at hsize
  rw [Malloc.take, hx, hxsize]
  by_cases heq : x.2 = nunits
  · subst heq
    rw [if_pos rfl]
    exact ⟨_, _, _, rfl, hh.take_all hpos⟩
  · have hnew : (h.setSize x.1 (x.2 - nunits)).size x.1 = x.2 - nunits := update_self ..
    rw [if_neg heq]
    dsimp only
    rw [hnew]
    rw [List.append_cons] at hh hprev
    exact ⟨_, _, _, rfl, hh.take_end hpos (lt_of_le_of_ne hsize (Ne.symm heq)) hprev⟩

/-- The loop of `malloc` takes the first block that is large enough. -/
theorem search_take {prevp k : Nat} (hk : nunits ≤ h.size (h.ptr^[k + 1] prevp))
    (hlt : ∀ j < k, ¬ nunits ≤ h.size (h.ptr^[j + 1] prevp) ∧ h.ptr^[j + 1] prevp ≠ h.freep)
    (hn : k < n) : search E N nunits n h prevp (h.ptr prevp)
      = some ((take h nunits (h.ptr^[k] prevp) (h.ptr^[k + 1] prevp)).map some id) := by
  induction k generalizing prevp n with
  | zero =>
    obtain ⟨m, rfl⟩ : ∃ m, n = m + 1 := ⟨n - 1, by omega⟩
    rw [search]
    exact if_pos hk
  | succ k ih =>
    obtain ⟨m, rfl⟩ : ∃ m, n = m + 1 := ⟨n - 1, by omega⟩
    obtain ⟨hsmall, hfreep⟩ : ¬ nunits ≤ h.size (h.ptr prevp) ∧ h.ptr prevp ≠ h.freep :=
      hlt 0 (Nat.succ_pos k)
    rw [search, if_neg hsmall, if_neg hfreep]
    exact ih hk (fun j hj => hlt (j + 1) (Nat.succ_lt_succ hj)) (Nat.lt_of_succ_lt_succ hn)

/-- If there is none, it comes back to where it started. -/
theorem search_back {prevp k : Nat} (hsmall : ∀ j ≤ k, ¬ nunits ≤ h.size (h.ptr^[j + 1] prevp))
    (hlt : ∀ j < k, h.ptr^[j + 1] prevp ≠ h.freep) (hk : h.ptr^[k + 1] prevp = h.freep) (m : Nat) :
    search E N nunits (k + 1 + m) h prevp (h.ptr prevp) = (morecore E N h nunits).bind fun x =>
      if x.1 = 0 then some (none, x.2) else search E N nunits m x.2 x.1 (x.2.ptr x.1) := by
  induction k generalizing prevp with
  | zero =>
    have hfirst : ¬ nunits ≤ h.size (h.ptr prevp) := hsmall 0 (le_refl 0)
    have hback : h.ptr prevp = h.freep := hk
    rw [show 0 + 1 + m = m + 1 by omega, search, if_neg hfirst, if_pos hback]
  | succ k ih =>
    have hfirst : ¬ nunits ≤ h.size (h.ptr prevp) := hsmall 0 (Nat.zero_le _)
    have hfreep : h.ptr prevp ≠ h.freep := hlt 0 (Nat.succ_pos k)
    rw [show k + 1 + 1 + m = k + 1 + m + 1 by omega, search, if_neg hfirst, if_neg hfreep]
    exact ih (fun j hj => hsmall (j + 1) (Nat.succ_le_succ hj))
      (fun j hj => hlt (j + 1) (Nat.succ_lt_succ hj)) hk

/-- Going round from `freep`, the loop finds a block if there is one. -/
theorem Holds.search_finds (hh : Holds E h ns as) (hpos : 0 < nunits)
    (hfit : ∃ z ∈ ns, nunits ≤ z.2) :
    ∃ a h' ns', (∃ M, ∀ n ≥ M, ∀ N, search E N nunits n h h.freep (h.ptr h.freep)
      = some (some a, h')) ∧ Holds E h' ns' ((a, nunits) :: as) := by
  classical
  obtain ⟨z, hz, hle⟩ := hfit
  obtain ⟨k, hk, hround⟩ := hh.reach (List.mem_map_of_mem hz)
  have hfound : nunits ≤ h.size (h.ptr^[k + 1] h.freep) := by rwa [hk, hh.ring.sizes z hz]
  have hex : ∃ k, nunits ≤ h.size (h.ptr^[k + 1] h.freep) := ⟨k, hfound⟩
  have hmin : Nat.find hex ≤ k := Nat.find_min' hex hfound
  have hspec := Nat.find_spec hex
  rw [iterate_succ_apply'] at hspec
  obtain ⟨a, h', ns', htake, hh'⟩ := hh.take (hh.mem_iterate (Nat.find hex)) hspec hpos
  refine ⟨a, h', ns', ⟨Nat.find hex + 1, fun n hn N => ?_⟩, hh'⟩
  rw [search_take (Nat.find_spec hex) (fun j hj => ⟨Nat.find_min hex hj, hround j (by omega)⟩) hn,
    iterate_succ_apply', htake]
  rfl

/-- **The loop of `malloc`** ends: it has found a block, or there is no memory. -/
theorem Holds.search (hE : Honest E) (hh : Holds E h ns as) (hpos : 0 < nunits)
    (hnu : max nunits 4096 * HEADER < 2 ^ 32) :
    ∃ r h' ns', (∃ N, ∀ n ≥ N, search E n nunits n h h.freep (h.ptr h.freep) = some (r, h')) ∧
      Holds E h' ns' (r.elim as fun a => (a, nunits) :: as) := by
  by_cases hfit : ∃ z ∈ ns, nunits ≤ z.2
  · obtain ⟨a, h', ns', ⟨M, hM⟩, hh'⟩ := hh.search_finds hpos hfit
    exact ⟨some a, h', ns', ⟨M, fun n hn => hM n hn n⟩, hh'⟩
  · obtain ⟨k, hk, hround⟩ := hh.reach hh.freep
    have hsmall : ∀ j ≤ k, ¬ nunits ≤ h.size (h.ptr^[j + 1] h.freep) := by
      intro j _ hle
      obtain ⟨z, hz, heq⟩ := List.mem_map.mp (hh.mem_iterate (j + 1))
      rw [← heq, hh.ring.sizes z hz] at hle
      exact hfit ⟨z, hz, hle⟩
    obtain ⟨q, h₁, ns₁, ⟨N₁, hN₁⟩, hh₁, hmore⟩ := hh.morecore hE hnu
    by_cases hq : q = 0
    · refine ⟨none, h₁, ns₁, ⟨max N₁ (k + 1), fun n hn => ?_⟩, hh₁⟩
      obtain ⟨m, rfl⟩ : ∃ m, n = k + 1 + m := ⟨n - (k + 1), by omega⟩
      rw [search_back hsmall hround hk, hN₁ _ (by omega)]
      exact if_pos hq
    · obtain ⟨rfl, hfit₁⟩ := hmore hq
      obtain ⟨a, h', ns', ⟨M, hM⟩, hh'⟩ := hh₁.search_finds hpos hfit₁
      refine ⟨some a, h', ns', ⟨max N₁ (k + 1 + M), fun n hn => ?_⟩, hh'⟩
      obtain ⟨m, rfl⟩ : ∃ m, n = k + 1 + m := ⟨n - (k + 1), by omega⟩
      rw [search_back hsmall hround hk, hN₁ _ (by omega)]
      exact (if_neg hq).trans (hM m (by omega) _)

/-! ## Every sequence of calls -/

/-- With enough fuel the result is `y`. -/
def Returns {α : Type} (f : Nat → Option α) (y : α) : Prop := ∃ N, ∀ n ≥ N, f n = some y

theorem Returns.unique {α : Type} {f : Nat → Option α} {y y' : α} (hf : Returns f y)
    (hf' : Returns f y') : y = y' := by
  obtain ⟨N, hN⟩ := hf
  obtain ⟨N', hN'⟩ := hf'
  have heq := (hN (max N N') (le_max_left ..)).symm.trans (hN' (max N N') (le_max_right ..))
  exact Option.some.inj heq

/-- The heaps that calls lead to, with the blocks allocated. Between the calls, programs write to
their blocks, behind the headers. -/
inductive Reach (E : Env) : Heap → List (Nat × Nat) → Prop
  | init {h : Heap} (hfreep : h.freep = 0) (hcalls : h.calls = []) : Reach E h []
  | malloc {h h' : Heap} {as : List (Nat × Nat)} {nbytes : Nat} {r : Option Nat}
      (hr : Reach E h as) (hn : nbytes ≤ 2 ^ 31 - 8)
      (hm : Returns (fun n => malloc E n h nbytes) (r, h')) :
      Reach E h' (r.elim as fun a => (a, h'.size a) :: as)
  | free {h h' : Heap} {as : List (Nat × Nat)} {x : Nat × Nat} (hr : Reach E h as) (hx : x ∈ as)
      (hf : Returns (fun n => free n h x.1) h') : Reach E h' (as.erase x)
  | write {h h' : Heap} {as : List (Nat × Nat)} (hr : Reach E h as)
      (hsame : ∀ a, (∀ x ∈ as, ¬ (x.1 < a ∧ a < stop HEADER x)) →
        h'.ptr a = h.ptr a ∧ h'.size a = h.size a)
      (hfreep : h'.freep = h.freep) (hcalls : h'.calls = h.calls) : Reach E h' as

/-- The heap is not in use yet, or in order. -/
def Sound (E : Env) (h : Heap) (as : List (Nat × Nat)) : Prop :=
  (h.freep = 0 ∧ h.calls = [] ∧ as = []) ∨ ∃ ns, Holds E h ns as

/-- The first call of `malloc` makes an empty list. -/
theorem Sound.start (hE : Honest E) (hs : Sound E h as) : ∃ ns, Holds E (start E h) ns as := by
  rcases hs with ⟨hfreep, hcalls, rfl⟩ | ⟨ns, hh⟩
  · refine ⟨[(E.base, 0)], ?_⟩
    have hnone : regions (Malloc.start E h).calls = [] := by
      rw [start_calls, hcalls]
      rfl
    rw [Malloc.start, if_pos hfreep] at hnone ⊢
    refine ⟨rfl, ⟨⟨update_self .., trivial⟩, ?_⟩, List.mem_cons_self, ?_,
      fun x hx => absurd hx List.not_mem_nil, List.pairwise_singleton .., fun y => ?_, fun y => ?_, ?_⟩
    · exact List.forall_mem_singleton.mpr (update_self ..)
    · exact List.forall_mem_singleton.mpr (.inl rfl)
    · rw [hnone, List.append_nil, cover_cons, inside_of_not, cover_nil]
      exact fun hy => absurd hy.2 (not_lt.mpr hy.1)
    · rw [hnone]
      exact Nat.zero_le 1
    · rw [hnone]
      exact fun x hx => absurd hx List.not_mem_nil
  · refine ⟨ns, ?_⟩
    rw [Malloc.start, if_neg (hh.freep_ne_zero hE)]
    exact hh

theorem units_bound {nbytes : Nat} (hn : nbytes ≤ 2 ^ 31 - 8) :
    0 < units nbytes ∧ max (units nbytes) 4096 * HEADER < 2 ^ 32 := by
  have hunits : units nbytes = (nbytes + 7) / 8 + 1 := by
    simp only [units, HEADER]
    omega
  rw [hunits, HEADER]
  omega

theorem Sound.malloc (hE : Honest E) (hs : Sound E h as) {nbytes : Nat} (hn : nbytes ≤ 2 ^ 31 - 8) :
    ∃ r h' ns, Returns (fun n => malloc E n h nbytes) (r, h') ∧
      Holds E h' ns (r.elim as fun a => (a, units nbytes) :: as) := by
  obtain ⟨ns, hh⟩ := hs.start hE
  obtain ⟨hpos, hbound⟩ := units_bound hn
  exact hh.search hE hpos hbound

/-- What programs write to their blocks does not matter. -/
theorem Holds.write (hh : Holds E h ns as)
    (hsame : ∀ a, (∀ x ∈ as, ¬ (x.1 < a ∧ a < stop HEADER x)) →
      h'.ptr a = h.ptr a ∧ h'.size a = h.size a)
    (hfreep : h'.freep = h.freep) (hcalls : h'.calls = h.calls) : Holds E h' ns as := by
  have hkeep : ∀ z, (∀ x ∈ as, z = x ∨ z ∈ ns ++ as.erase x) →
      h'.ptr z.1 = h.ptr z.1 ∧ h'.size z.1 = h.size z.1 := by
    refine fun z hz => hsame z.1 fun x hx hin => ?_
    rcases hz x hx with rfl | hz
    · omega
    · have h1 := hh.apart hx hz
      have h2 := start_le_stop HEADER z
      omega
  have hfree : ∀ z ∈ ns, h'.ptr z.1 = h.ptr z.1 ∧ h'.size z.1 = h.size z.1 := fun z hz =>
    hkeep z fun x _ => .inr (List.mem_append_left _ hz)
  have hused : ∀ z ∈ as, h'.size z.1 = h.size z.1 := by
    refine fun z hz => (hkeep z fun x hx => ?_).2
    by_cases hzx : z = x
    · exact .inl hzx
    · exact .inr (List.mem_append_right _ ((List.mem_erase_of_ne hzx).mpr hz))
  refine ⟨hh.head, ⟨hh.ring.path.congr fun a ha => ?_, fun z hz => ?_⟩, hfreep ▸ hh.freep, hh.pos,
    fun z hz => ⟨(hused z hz).trans (hh.used z hz).1, (hh.used z hz).2⟩, hh.spaced,
    hcalls ▸ hh.made, hcalls ▸ hh.once, hcalls ▸ hh.bounds⟩
  · obtain ⟨z, hz, rfl⟩ := List.mem_map.mp ha
    exact (hfree z hz).1
  · exact (hfree z hz).2.trans (hh.ring.sizes z hz)

theorem Reach.sound (hE : Honest E) (hr : Reach E h as) : Sound E h as := by
  induction hr with
  | init hfreep hcalls => exact .inl ⟨hfreep, hcalls, rfl⟩
  | malloc _ hn hm ih =>
    obtain ⟨r, h', ns, hm', hh'⟩ := ih.malloc hE hn
    obtain ⟨rfl, rfl⟩ := Prod.mk.inj (hm'.unique hm)
    refine .inr ⟨ns, ?_⟩
    cases r with
    | none => exact hh'
    | some a =>
      have hsize : h'.size a = units _ := (hh'.used _ List.mem_cons_self).1
      rw [Option.elim_some, hsize]
      exact hh'
  | free _ hx hf ih =>
    rcases ih with ⟨-, -, rfl⟩ | ⟨ns, hh⟩
    · exact absurd hx List.not_mem_nil
    · obtain ⟨h', ns', hf', hh', -⟩ := hh.free hx
      obtain rfl := Returns.unique hf hf'
      exact .inr ⟨ns', hh'⟩
  | write _ hsame hfreep hcalls ih =>
    rcases ih with ⟨h1, h2, rfl⟩ | ⟨ns, hh⟩
    · exact .inl ⟨hfreep.trans h1, hcalls.trans h2, rfl⟩
    · exact .inr ⟨ns, hh.write hsame hfreep hcalls⟩

/-- The free blocks `e` and the allocated blocks `as` are the heap. -/
structure Integrity (E : Env) (h : Heap) (e as : List (Nat × Nat)) : Prop where
  /-- The list leads from `base` through the free blocks back to `base`. -/
  circle : Leads h.ptr (E.base :: e.map Prod.fst) E.base
  /-- Only the last pointer leads to a lower address. -/
  order : (E.base :: e.map Prod.fst).Pairwise (· < ·)
  freep : h.freep ∈ E.base :: e.map Prod.fst
  sizes : ∀ x ∈ e ++ as, h.size x.1 = x.2 ∧ 0 < x.2
  /-- Each byte that `sbrk` has given is in one block, and no other byte is in any. -/
  made : ∀ y, cover HEADER (e ++ as) y = cover HEADER (regions h.calls) y
  once : ∀ y, cover HEADER (e ++ as) y ≤ 1
  /-- No free block ends where another one starts. -/
  gaps : Spaced HEADER e

theorem Holds.integrity (hh : Holds E h ns as) : ∃ e, Integrity E h e as := by
  obtain ⟨e, rfl⟩ := List.head?_eq_some_iff.mp hh.head
  have hcover : ∀ y, cover HEADER ((E.base, 0) :: e ++ as) y = cover HEADER (e ++ as) y := by
    intro y
    rw [List.cons_append, cover_cons, inside_of_not, Nat.zero_add]
    exact fun hy => absurd hy.2 (not_lt.mpr hy.1)
  refine ⟨e, hh.ring.path, hh.sorted_starts, hh.freep, List.forall_mem_append.mpr ⟨fun x hx => ?_,
    hh.used⟩, fun y => (hcover y).symm.trans (hh.made y), fun y => ?_,
    (List.pairwise_cons.mp hh.spaced).2⟩
  · have hmem : x ∈ (E.base, 0) :: e := List.mem_cons_of_mem _ hx
    have hlt := (List.pairwise_cons.mp hh.sorted).1 x hx
    refine ⟨hh.ring.sizes x hmem, (hh.pos x hmem).resolve_left ?_⟩
    rintro rfl
    exact lt_irrefl _ hlt
  · rw [← hcover, hh.made]
    exact hh.once y

/-- **The heap stays in order** as long as `sbrk` gives memory above what it gave before, and each
call returns. -/
theorem heap_integrity (hE : Honest E) (hr : Reach E h as) :
    ((h.freep = 0 ∧ h.calls = [] ∧ as = []) ∨ ∃ e, Integrity E h e as) ∧
    (∀ nbytes ≤ 2 ^ 31 - 8, ∃ r h', Returns (fun n => malloc E n h nbytes) (r, h') ∧
      ∀ a, r = some a → nbytes ≤ h'.size a * HEADER - HEADER) ∧
    ∀ x ∈ as, ∃ h', Returns (fun n => free n h x.1) h' := by
  have hs := hr.sound hE
  refine ⟨hs.imp_right fun ⟨_, hh⟩ => hh.integrity, fun nbytes hn => ?_, fun x hx => ?_⟩
  · obtain ⟨r, h', ns, hm, hh'⟩ := hs.malloc hE hn
    refine ⟨r, h', hm, ?_⟩
    rintro a rfl
    have hsize : h'.size a = units nbytes := (hh'.used (a, units nbytes) List.mem_cons_self).1
    rw [hsize]
    exact units_room (by omega)
  · rcases hs with ⟨-, -, rfl⟩ | ⟨e, hh⟩
    · exact absurd hx List.not_mem_nil
    · obtain ⟨h', -, hf, -⟩ := hh.free hx
      exact ⟨h', hf⟩

/-- A break that moves up from `0x4000`. -/
def upwards : Env where
  base := 0x1000
  sbrk calls a :=
    let brk := ((regions calls).map (stop HEADER)).foldr max 0x4000
    if brk + (a % 2 ^ 32).toNat < 2 ^ 32 then brk else 2 ^ 32 - 1

theorem le_foldr_max (l : List Nat) (m : Nat) : m ≤ l.foldr max m ∧ ∀ a ∈ l, a ≤ l.foldr max m := by
  induction l with
  | nil => exact ⟨le_refl m, fun a ha => absurd ha List.not_mem_nil⟩
  | cons b l ih =>
    rw [List.foldr_cons]
    refine ⟨ih.1.trans (le_max_right ..), List.forall_mem_cons.mpr ⟨le_max_left .., ?_⟩⟩
    exact fun a ha => (ih.2 a ha).trans (le_max_right ..)

theorem honest_upwards : Honest upwards := by
  refine ⟨by decide, fun calls a => ?_⟩
  obtain ⟨hmin, hall⟩ := le_foldr_max ((regions calls).map (stop HEADER)) 0x4000
  show (if _ then _ else _) = _ ∨ _
  by_cases hroom : ((regions calls).map (stop HEADER)).foldr max 0x4000 + (a % 2 ^ 32).toNat < 2 ^ 32
  · have heq : upwards.sbrk calls a = ((regions calls).map (stop HEADER)).foldr max 0x4000 :=
      if_pos hroom
    right
    rw [heq]
    exact ⟨le_trans (by decide) hmin, fun x hx => hall _ (List.mem_map_of_mem hx), hroom⟩
  · exact .inl (if_neg hroom)

/-- After `malloc(100)` in a new process. -/
theorem heap_integrity_hundred :
    ∃ r h', Returns (fun n => malloc upwards n fresh 100) (r, h') ∧
      ((h'.freep = 0 ∧ h'.calls = [] ∧ (r.elim [] fun a => [(a, h'.size a)]) = []) ∨
        ∃ e, Integrity upwards h' e (r.elim [] fun a => [(a, h'.size a)])) := by
  have hinit : Reach upwards fresh [] := .init rfl rfl
  obtain ⟨r, h', hm, -⟩ := (heap_integrity honest_upwards hinit).2.1 100 (by decide)
  exact ⟨r, h', hm, (heap_integrity honest_upwards (hinit.malloc (by decide) hm)).1⟩

end StrideXv6.Malloc
