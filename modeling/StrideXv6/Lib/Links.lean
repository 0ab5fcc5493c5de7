import Mathlib.Tactic

set_option autoImplicit false

/-! # Rings of nodes linked both ways

Nodes with a forward and a backward link. `Seg s x l y` says that the links lead from `x` through
the nodes `l` to `y`, and back; it speaks of the forward links of `x :: l` and of the backward
links of `y :: l`, so a ring is a segment from a node to itself. The two edits are `unlink`, which
takes a node out, and `pushFront`, which puts one behind the first: `Ring.unlink` and
`Ring.pushFront` say what they do to the nodes of the ring. `Ring.find` is a loop that looks for a
node along the ring.
-/

structure Links (ν : Type*) where
  next : ν → ν
  prev : ν → ν

namespace Links

open Function

variable {ν : Type*}

/-! ## Segments -/

/-- `x` and `y` are linked, both ways. -/
def Joined (s : Links ν) (x y : ν) : Prop := s.next x = y ∧ s.prev y = x

def Seg (s : Links ν) (x : ν) : List ν → ν → Prop
  | [], y => s.Joined x y
  | z :: l, y => s.Joined x z ∧ s.Seg z l y

/-- The nodes `l`, from `h` to `h`. -/
structure Ring (s : Links ν) (h : ν) (l : List ν) : Prop where
  seg : s.Seg h l h
  nodup : (h :: l).Nodup

/-- The links read the other way. -/
def mirror (s : Links ν) : Links ν := ⟨s.prev, s.next⟩

variable {s s' : Links ν} {h x y b c : ν} {l l₁ l₂ : List ν}

theorem seg_append : s.Seg x (l₁ ++ b :: l₂) y ↔ s.Seg x l₁ b ∧ s.Seg b l₂ y := by
  induction l₁ generalizing x with
  | nil => exact Iff.rfl
  | cons z l ih =>
    show s.Joined x z ∧ s.Seg z (l ++ b :: l₂) y ↔ (s.Joined x z ∧ s.Seg z l b) ∧ s.Seg b l₂ y
    rw [ih, and_assoc]

/-- A segment depends on its own links only. -/
theorem Seg.frame (hs : s.Seg x l y) (hnext : ∀ z ∈ x :: l, s'.next z = s.next z)
    (hprev : ∀ z ∈ y :: l, s'.prev z = s.prev z) : s'.Seg x l y := by
  induction l generalizing x with
  | nil => exact ⟨(hnext x (by simp)).trans hs.1, (hprev y (by simp)).trans hs.2⟩
  | cons z l ih =>
    refine ⟨⟨(hnext x (by simp)).trans hs.1.1, (hprev z (by simp)).trans hs.1.2⟩, ?_⟩
    refine ih hs.2 (fun w hw => hnext w (List.mem_cons_of_mem _ hw)) fun w hw => hprev w ?_
    rcases List.mem_cons.mp hw with rfl | hw
    · exact List.mem_cons_self
    · exact List.mem_cons_of_mem _ (List.mem_cons_of_mem _ hw)

/-- The node after `b` is the end of the segment or one of its nodes. -/
theorem Seg.next_mem (hs : s.Seg b l y) : s.next b ∈ y :: l := by
  cases l with
  | nil => rw [hs.1]; exact List.mem_cons_self
  | cons z l => rw [hs.1.1]; exact List.mem_cons_of_mem _ List.mem_cons_self

theorem Seg.prev_mem (hs : s.Seg x l y) : s.prev y ∈ x :: l := by
  induction l generalizing x with
  | nil => rw [hs.2]; exact List.mem_cons_self
  | cons z l ih => exact List.mem_cons_of_mem _ (ih hs.2)

/-- The last link of a segment is led to another node. -/
theorem Seg.redirect (hs : s.Seg x l b) (hnd : (x :: l).Nodup)
    (hnext : s'.next (s.prev b) = c) (hprev : s'.prev c = s.prev b)
    (hnext' : ∀ z ∈ x :: l, z ≠ s.prev b → s'.next z = s.next z)
    (hprev' : ∀ z ∈ l, s'.prev z = s.prev z) : s'.Seg x l c := by
  induction l generalizing x with
  | nil =>
    rw [hs.2] at hnext hprev
    exact ⟨hnext, hprev⟩
  | cons z l ih =>
    have hne : x ≠ s.prev b := fun heq => (List.nodup_cons.mp hnd).1 (heq ▸ hs.2.prev_mem)
    refine ⟨⟨(hnext' x (by simp) hne).trans hs.1.1, (hprev' z (by simp)).trans hs.1.2⟩, ?_⟩
    exact ih hs.2 (List.nodup_cons.mp hnd).2
      (fun w hw => hnext' w (List.mem_cons_of_mem _ hw))
      fun w hw => hprev' w (List.mem_cons_of_mem _ hw)

theorem Seg.mirror (hs : s.Seg x l y) : s.mirror.Seg y l.reverse x := by
  induction l generalizing x with
  | nil => exact ⟨hs.2, hs.1⟩
  | cons z l ih =>
    rw [List.reverse_cons, seg_append]
    exact ⟨ih hs.2, hs.1.2, hs.1.1⟩

theorem Ring.mirror (hs : s.Ring h l) : s.mirror.Ring h l.reverse := by
  refine ⟨hs.seg.mirror, ?_⟩
  rw [List.nodup_cons, List.mem_reverse, List.nodup_reverse]
  exact List.nodup_cons.mp hs.nodup

/-! ## Going round -/

theorem Seg.prev_next (hs : s.Seg x l y) : ∀ z ∈ x :: l, s.prev (s.next z) = z := by
  induction l generalizing x with
  | nil =>
    intro z hz
    rw [List.mem_singleton.mp hz, hs.1, hs.2]
  | cons w l ih =>
    intro z hz
    rcases List.mem_cons.mp hz with rfl | hz
    · rw [hs.1.1, hs.1.2]
    · exact ih hs.2 z hz

theorem Ring.next_prev (hs : s.Ring h l) (z : ν) (hz : z ∈ h :: l) : s.next (s.prev z) = z := by
  refine hs.mirror.seg.prev_next z ?_
  rwa [List.mem_cons, List.mem_reverse, ← List.mem_cons]

theorem Seg.iterate (hs : s.Seg x l y) (k : Nat) (hk : k < l.length) :
    s.next^[k + 1] x = l.get ⟨k, hk⟩ := by
  induction l generalizing x k with
  | nil => cases hk
  | cons z l ih =>
    rw [iterate_succ_apply, hs.1.1]
    cases k with
    | zero => rfl
    | succ k => exact ih hs.2 k (Nat.lt_of_succ_lt_succ hk)

theorem Seg.iterate_length (hs : s.Seg x l y) : s.next^[l.length + 1] x = y := by
  induction l generalizing x with
  | nil => exact hs.1
  | cons z l ih =>
    rw [List.length_cons, iterate_succ_apply, hs.1.1]
    exact ih hs.2

section Find

variable [DecidableEq ν]

/-- `for(b = b₀; b != h; b = b->next) if(p(b)) return b;` with at most `n` tests of `b != h`: the
node, or `some none` at the end of the loop; `none` if it has not ended. -/
def find (s : Links ν) (h : ν) (p : ν → Bool) : Nat → ν → Option (Option ν)
  | 0, _ => none
  | n + 1, b => if b = h then some none else if p b then some (some b) else find s h p n (s.next b)

theorem Seg.find (hs : s.Seg x l h) (hh : h ∉ l) (p : ν → Bool) (n : Nat) :
    s.find h p (l.length + 1 + n) (s.next x) = some (l.find? p) := by
  induction l generalizing x with
  | nil =>
    rw [hs.1, List.length_nil, Nat.zero_add, Nat.add_comm, Links.find, if_pos rfl]
    rfl
  | cons z l ih =>
    have hz : z ≠ h := fun heq => hh (by rw [heq]; exact List.mem_cons_self)
    rw [hs.1.1, List.length_cons, show l.length + 1 + 1 + n = l.length + 1 + n + 1 by omega,
      Links.find, if_neg hz, List.find?_cons]
    cases p z with
    | true => rfl
    | false => exact ih hs.2 fun hmem => hh (List.mem_cons_of_mem _ hmem)

theorem Ring.find (hs : s.Ring h l) (p : ν → Bool) (n : Nat) :
    s.find h p (l.length + 1 + n) (s.next h) = some (l.find? p) :=
  hs.seg.find (List.nodup_cons.mp hs.nodup).1 p n

end Find

/-! ## Edits -/

section Edits

variable [DecidableEq ν]

def setNext (s : Links ν) (x y : ν) : Links ν := { s with next := Function.update s.next x y }

def setPrev (s : Links ν) (x y : ν) : Links ν := { s with prev := Function.update s.prev x y }

/-- `b->next->prev = b->prev; b->prev->next = b->next;` -/
def unlink (s : Links ν) (b : ν) : Links ν :=
  let s := s.setPrev (s.next b) (s.prev b)
  s.setNext (s.prev b) (s.next b)

/-- `b->next = h->next; b->prev = h; h->next->prev = b; h->next = b;` -/
def pushFront (s : Links ν) (h b : ν) : Links ν :=
  let s := s.setNext b (s.next h)
  let s := s.setPrev b h
  let s := s.setPrev (s.next h) b
  s.setNext h b

theorem unlink_eq (hb : s.next b ≠ b) :
    s.unlink b = ⟨Function.update s.next (s.prev b) (s.next b),
      Function.update s.prev (s.next b) (s.prev b)⟩ := by
  simp only [unlink, setPrev, setNext, update_of_ne hb.symm]

theorem pushFront_next :
    (s.pushFront h b).next = Function.update (Function.update s.next b (s.next h)) h b := by
  simp only [pushFront, setPrev, setNext]

theorem pushFront_prev (hb : b ≠ h) :
    (s.pushFront h b).prev = Function.update (Function.update s.prev b h) (s.next h) b := by
  simp only [pushFront, setPrev, setNext, update_of_ne hb.symm]

/-- A node linked to itself. -/
theorem ring_nil (s : Links ν) (h : ν) : ((s.setPrev h h).setNext h h).Ring h [] := by
  refine ⟨⟨?_, ?_⟩, List.nodup_singleton h⟩
  · simp only [setNext, update_self]
  · simp only [setNext, setPrev, update_self]

theorem Ring.unlink (hs : s.Ring h (l₁ ++ b :: l₂)) : (s.unlink b).Ring h (l₁ ++ l₂) := by
  obtain ⟨h₁, h₂⟩ := seg_append.mp hs.seg
  have hnd := hs.nodup
  rw [← List.cons_append, List.nodup_append] at hnd
  obtain ⟨hnd₁, hnd₂, hdisj⟩ := hnd
  have hb : b ∉ h :: l₂ := by
    rw [List.mem_cons, not_or]
    exact ⟨(hdisj h (by simp) b (by simp)).symm, (List.nodup_cons.mp hnd₂).1⟩
  have hne : s.next b ≠ b := fun heq => hb (heq ▸ h₂.next_mem)
  -- The nodes before `b` now lead to the one after it.
  have hleft : (s.unlink b).Seg h l₁ (s.next b) := by
    rw [unlink_eq hne]
    refine h₁.redirect hnd₁ (update_self ..) (update_self ..)
      (fun z _ hz => update_of_ne hz ..) fun z hz => update_of_ne ?_ ..
    rintro rfl
    rcases List.mem_cons.mp h₂.next_mem with hmem | hmem
    · exact (List.nodup_cons.mp hnd₁).1 (hmem ▸ hz)
    · exact hdisj _ (List.mem_cons_of_mem _ hz) _ (List.mem_cons_of_mem _ hmem) rfl
  refine ⟨?_, hs.nodup.sublist (((List.sublist_cons_self b l₂).append_left l₁).cons_cons h)⟩
  cases l₂ with
  | nil =>
    rw [List.append_nil]
    rwa [h₂.1] at hleft
  | cons c l =>
    rw [h₂.1.1] at hleft
    refine seg_append.mpr ⟨hleft, ?_⟩
    rw [unlink_eq hne, h₂.1.1]
    refine h₂.2.frame (fun z hz => update_of_ne ?_ ..)
      fun z hz => update_of_ne ?_ ..
    · exact (hdisj _ h₁.prev_mem z (List.mem_cons_of_mem _ hz)).symm
    · rintro rfl
      rcases List.mem_cons.mp hz with rfl | hz
      · exact hdisj z (by simp) z (by simp) rfl
      · exact (List.nodup_cons.mp (List.nodup_cons.mp hnd₂).2).1 hz

theorem Ring.pushFront (hs : s.Ring h l) (hb : b ∉ h :: l) :
    (s.pushFront h b).Ring h (b :: l) := by
  have hbh : b ≠ h := fun heq => hb (heq ▸ List.mem_cons_self)
  have hbl : b ∉ l := fun hmem => hb (List.mem_cons_of_mem _ hmem)
  have hnd := List.nodup_cons.mp hs.nodup
  have hfirst : s.next h ≠ b := fun heq => by
    have hmem := hs.seg.next_mem
    rw [heq] at hmem
    exact hb hmem
  refine ⟨?_, ?_⟩
  · refine ⟨⟨?_, ?_⟩, ?_⟩
    · rw [pushFront_next, update_self]
    · rw [pushFront_prev hbh, update_of_ne hfirst.symm, update_self]
    · cases l with
      | nil =>
        have hhh : s.next h = h := hs.seg.1
        refine ⟨?_, ?_⟩
        · rw [pushFront_next, update_of_ne hbh, update_self, hhh]
        · rw [pushFront_prev hbh, hhh, update_self]
      | cons z l =>
        have hz : s.next h = z := hs.seg.1.1
        refine ⟨⟨?_, ?_⟩, hs.seg.2.frame (fun w hw => ?_) fun w hw => ?_⟩
        · rw [pushFront_next, update_of_ne hbh, update_self, hz]
        · rw [pushFront_prev hbh, hz, update_self]
        · have hwh : w ≠ h := fun heq => hnd.1 (heq ▸ hw)
          have hwb : w ≠ b := fun heq => hbl (heq ▸ hw)
          rw [pushFront_next, update_of_ne hwh, update_of_ne hwb]
        · have hwz : w ≠ s.next h := by
            rw [hz]
            rintro rfl
            rcases List.mem_cons.mp hw with rfl | hw
            · exact hnd.1 List.mem_cons_self
            · exact (List.nodup_cons.mp hnd.2).1 hw
          have hwb : w ≠ b := by
            rintro rfl
            rcases List.mem_cons.mp hw with heq | hw
            · exact hbh heq
            · exact hbl (List.mem_cons_of_mem _ hw)
          rw [pushFront_prev hbh, update_of_ne hwz, update_of_ne hwb]
  · rw [List.nodup_cons, List.nodup_cons, List.mem_cons, not_or]
    exact ⟨⟨hbh.symm, hnd.1⟩, hbl, hnd.2⟩

/-- A node of the ring is moved to its front. -/
theorem Ring.moveFront (hs : s.Ring h l) (hb : b ∈ l) :
    ((s.unlink b).pushFront h b).Ring h (b :: l.erase b) := by
  obtain ⟨l₁, l₂, rfl⟩ := List.append_of_mem hb
  have hnd := hs.nodup
  rw [List.nodup_cons, List.nodup_middle] at hnd
  have hb₁ : b ∉ l₁ ++ l₂ := (List.nodup_cons.mp hnd.2).1
  rw [List.erase_append_right _ fun hmem => hb₁ (List.mem_append_left _ hmem),
    List.erase_cons_head]
  refine hs.unlink.pushFront ?_
  rw [List.mem_cons, not_or]
  exact ⟨fun heq => hnd.1 (heq ▸ hb), hb₁⟩

end Edits

end Links
