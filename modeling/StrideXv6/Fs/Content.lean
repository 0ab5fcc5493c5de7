import StrideXv6.Fs.Bmap

set_option autoImplicit false

/-! # Reading and writing file contents

The contents of a file as a function of the offset (`fileByte`), and what the loops of `readi`
and `writei` do to it. One turn of the writing loop writes a chunk within one block; chunks
written one after the other add up (`Written.append`), so the loop writes its source
(`writeLoop_spec`). The reading loop returns the bytes asked for and changes nothing if they
are mapped (`readLoop_spec`).
-/

namespace StrideXv6.Fs

open Bytes Ownership Hoare Function

/-- The byte at offset `x` of a file. -/
def fileByte (st : Disk) (d : Dinode) (x : Nat) : UInt8 :=
  byteAt (st (mapped st d (x / BSIZE))) (x % BSIZE)

/-- Block `bn` holds one of the `len` bytes from `off` on. -/
def Touched (off len bn : Nat) : Prop := ∃ x, off ≤ x ∧ x < off + len ∧ x / BSIZE = bn

variable {c : Fin NINODE} {s t u : FsState}

/-! ## Writing -/

/-- The effect of writing the bytes `src` at offset `off`. -/
structure Written (c : Fin NINODE) (off : Nat) (src : List UInt8) (s t : FsState) : Prop where
  work : Work c t
  confined : Confined c s t
  disk : ∀ i < s.sb.ninodes, dinode s.sb t.store i = dinode s.sb s.store i
  rest : (t.icache c).d = { (s.icache c).d with addrs := (t.icache c).d.addrs }
  mapped : ∀ bn, mapped t.store (t.icache c).d bn ≠ 0 ↔
    mapped s.store (s.icache c).d bn ≠ 0 ∨ Touched off src.length bn
  inside : ∀ x, off ≤ x → x < off + src.length →
    fileByte t.store (t.icache c).d x = src.getD (x - off) 0
  outside : ∀ x, (x < off ∨ off + src.length ≤ x) →
    Fs.mapped s.store (s.icache c).d (x / BSIZE) ≠ 0 →
    fileByte t.store (t.icache c).d x = fileByte s.store (s.icache c).d x
  pointers : ∀ p, held s.store (s.icache c).d p ≠ 0 →
    held t.store (t.icache c).d p = held s.store (s.icache c).d p
  same : (∀ bn, Touched off src.length bn → Fs.mapped s.store (s.icache c).d bn ≠ 0) →
    (t.icache c).d = (s.icache c).d

theorem Written.nil (h : Work c s) (off : Nat) : Written c off [] s s where
  work := h
  confined := Confined.refl c s
  disk _ _ := rfl
  rest := rfl
  mapped bn := by
    have : ¬ Touched off 0 bn := by rintro ⟨x, h1, h2, -⟩; omega
    simp [this]
  inside x h1 h2 := by rw [List.length_nil] at h2; omega
  outside _ _ _ := rfl
  pointers _ _ := rfl
  same _ := rfl

theorem touched_append (off m n bn : Nat) :
    Touched off (m + n) bn ↔ Touched off m bn ∨ Touched (off + m) n bn := by
  constructor
  · rintro ⟨x, h1, h2, h3⟩
    by_cases hx : x < off + m
    · exact Or.inl ⟨x, h1, hx, h3⟩
    · exact Or.inr ⟨x, by omega, by omega, h3⟩
  · rintro (⟨x, h1, h2, h3⟩ | ⟨x, h1, h2, h3⟩)
    · exact ⟨x, h1, by omega, h3⟩
    · exact ⟨x, by omega, by omega, h3⟩

theorem Written.append {off : Nat} {src src' : List UInt8} (h : Written c off src s t)
    (h' : Written c (off + src.length) src' t u) : Written c off (src ++ src') s u where
  work := h'.work
  confined := h.confined.trans h'.confined
  disk i hi := by
    have := h'.disk i (h.confined.sb ▸ hi)
    rw [h.confined.sb] at this
    rw [this, h.disk i hi]
  rest := by rw [h'.rest, h.rest]
  mapped bn := by
    rw [h'.mapped, h.mapped, List.length_append, touched_append, or_assoc]
  inside x h1 h2 := by
    rw [List.length_append] at h2
    by_cases hx : x < off + src.length
    · have hm : Fs.mapped t.store (t.icache c).d (x / BSIZE) ≠ 0 :=
        (h.mapped _).mpr (Or.inr ⟨x, h1, hx, rfl⟩)
      rw [h'.outside x (Or.inl hx) hm, h.inside x h1 hx,
        List.getD_append _ _ _ _ (by omega)]
    · rw [h'.inside x (by omega) (by omega), List.getD_append_right _ _ _ _ (by omega)]
      congr 1
      omega
  outside x hx hm := by
    rw [List.length_append] at hx
    rw [h'.outside x (by omega) ((h.mapped _).mpr (Or.inl hm)), h.outside x (by omega) hm]
  pointers p hp := (h'.pointers p (by rwa [h.pointers p hp])).trans (h.pointers p hp)
  same hm := by
    rw [List.length_append] at hm
    rw [h'.same fun bn hbn => ?_, h.same fun bn hbn => ?_]
    · exact hm bn ((touched_append _ _ _ _).mpr (Or.inl hbn))
    · exact (h.mapped bn).mpr (Or.inl (hm bn ((touched_append _ _ _ _).mpr (Or.inr hbn))))

/-- The mapped blocks are different. -/
theorem Work.mapped_inj (h : Work c s) {bn bn' : Nat} (hm : mapped s.store (s.icache c).d bn ≠ 0)
    (he : mapped s.store (s.icache c).d bn' = mapped s.store (s.icache c).d bn) : bn' = bn := by
  obtain ⟨p, hp⟩ := place_of_mapped hm
  obtain ⟨p', hp'⟩ := place_of_mapped (he ▸ hm)
  have h1 := h.owner_place hp hm
  have h2 := h.owner_place hp' (he ▸ hm)
  rw [he] at h2
  have := (Prod.mk.inj (h.blocks.owned.excl _ _ _ h2 h1)).2
  exact place_inj hp' (this ▸ hp)

/-- Writing to a mapped block leaves the indirect block as it is. -/
theorem Work.ind_write (h : Work c s) {bn : Nat} (hm : mapped s.store (s.icache c).d bn ≠ 0)
    (v : Block) (ha : (s.icache c).d.addrs ind ≠ 0) :
    Function.update s.store (mapped s.store (s.icache c).d bn) v ((s.icache c).d.addrs ind)
      = s.store ((s.icache c).d.addrs ind) := by
  apply update_of_ne
  intro he
  obtain ⟨p, hp⟩ := place_of_mapped hm
  have h1 := h.owner_place hp hm
  rw [← he] at h1
  exact place_ne_ind hp (Prod.mk.inj (h.blocks.owned.excl _ _ _ h1 (h.owner_addr ha))).2

/-- A chunk that stays within one block, after that block has been mapped. -/
theorem Mapping.written {bn a off : Nat} (h : Mapping c bn a s t) (src : List UInt8)
    (hbn : off / BSIZE = bn) (hlen : off % BSIZE + src.length ≤ BSIZE) (hpos : 0 < src.length) :
    Written c off src s
      (t.withStore (Function.update t.store a (blit (t.store a) (off % BSIZE) src))) := by
  have ha := h.addr
  have hm : mapped t.store (t.icache c).d bn ≠ 0 := by rw [ha]; exact h.ne
  obtain ⟨p, hp⟩ := place_of_mapped hm
  have hown := h.work.owner_place hp hm
  rw [ha] at hown
  have hind := h.work.ind_write hm (blit (t.store a) (off % BSIZE) src)
  rw [ha] at hind
  have hmap : ∀ bn', mapped (Function.update t.store a (blit (t.store a) (off % BSIZE) src))
      (t.icache c).d bn' = mapped t.store (t.icache c).d bn' := fun _ => mapped_congr hind
  have htouch : ∀ bn', Touched off src.length bn' ↔ bn' = bn := by
    intro bn'
    unfold Touched
    rw [BSIZE_eq] at *
    constructor
    · rintro ⟨x, h1, h2, hx⟩
      omega
    · rintro rfl
      exact ⟨off, le_refl _, by omega, hbn⟩
  exact
    { work := h.work.write_data hown (place_ne_ind hp) _
      confined := h.confined.trans (h.work.confined_write hown _)
      disk := fun i hi => by
        rw [← h.disk i hi, ← h.confined.sb]
        exact dinode_data _ h.work.layout (h.confined.sb ▸ hi) (h.work.blocks.data _ _ hown).1 _
      rest := h.rest
      mapped := fun bn' => by
        show Fs.mapped (Function.update t.store a _) (t.icache c).d bn' ≠ 0 ↔ _
        rw [hmap, htouch]
        by_cases hb : bn' = bn
        · simp [hb, hm]
        · simp [hb, h.others bn' hb]
      inside := fun x h1 h2 => by
        have hx : x / BSIZE = bn := by rw [BSIZE_eq] at *; omega
        show byteAt (Function.update t.store a _
          (Fs.mapped (Function.update t.store a _) (t.icache c).d (x / BSIZE))) (x % BSIZE) = _
        rw [hx, hmap, ha, update_self, byteAt_blit_inside]
        · congr 1
          rw [BSIZE_eq] at *
          omega
        · rw [BSIZE_eq] at *; omega
        · rw [BSIZE_eq] at *; omega
        · rw [BSIZE_eq]; omega
      outside := fun x hx hmx => by
        show byteAt (Function.update t.store a _
          (Fs.mapped (Function.update t.store a _) (t.icache c).d (x / BSIZE))) (x % BSIZE) = _
        rw [hmap]
        by_cases hb : x / BSIZE = bn
        · rw [hb] at hmx ⊢
          have hst := h.same hmx
          subst hst
          rw [ha, update_self, byteAt_blit_outside, fileByte, hb, ha]
          rw [BSIZE_eq] at *
          omega
        · have hne : Fs.mapped t.store (t.icache c).d (x / BSIZE) ≠ a := by
            intro he
            exact hb (h.work.mapped_inj hm (he.trans ha.symm))
          rw [update_of_ne hne, h.others _ hb, h.data _ hmx]
          rfl
      pointers := fun p hp => (held_congr hind).trans (h.pointers p hp)
      same := fun hall => by
        have := h.same (hall bn ((htouch bn).mpr rfl))
        subst this
        rfl }

theorem writeLoop_spec (c : Fin NINODE) (fuel off : Nat) (src : List UInt8) (s : FsState)
    (h : Work c s) (hfuel : src.length ≤ fuel) (hoff : off + src.length ≤ MAXFILE * BSIZE) :
    Triple (· = s) (writeLoop c fuel off src)
      (fun off' t => off' = off + src.length ∧ Written c off src s t) (· = .outOfBlocks) := by
  induction fuel generalizing off src s with
  | zero =>
    obtain rfl : src = [] := List.eq_nil_of_length_eq_zero (by omega)
    exact triple_exact rfl ⟨rfl, Written.nil h off⟩
  | succ fuel ih =>
    cases src with
    | nil => exact triple_exact rfl ⟨rfl, Written.nil h off⟩
    | cons a src =>
      have hbn : off / BSIZE < MAXFILE := by
        rw [List.length_cons] at hoff
        exact (Nat.div_lt_iff_lt_mul (by decide)).mpr (by omega)
      refine triple_call (bmap_spec c hbn h) rfl (fun _ he => he.1) ?_
      intro addr t ht
      generalize hm : min (src.length + 1) (BSIZE - off % BSIZE) = m
      have hmod : off % BSIZE < BSIZE := Nat.mod_lt _ (by decide)
      have htake : ((a :: src).take m).length = m := by
        rw [List.length_take, List.length_cons]; omega
      have hw := ht.written ((a :: src).take m) rfl (by omega) (by omega)
      refine triple_step rfl (triple_step rfl ?_)
      refine (ih _ _ _ hw.work ?_ ?_).post ?_
      · rw [List.length_drop, List.length_cons] at *; omega
      · rw [List.length_drop, List.length_cons] at *; omega
      · rintro off' u ⟨rfl, hu⟩
        constructor
        · rw [List.length_drop, List.length_cons] at *; omega
        · have := hw.append (by rw [htake]; exact hu)
          rwa [List.take_append_drop] at this

/-! ## Reading -/

/-- `bmap` of a block that is mapped only looks it up. -/
theorem bmap_mapped {bn : Nat} (hm : mapped s.store (s.icache c).d bn ≠ 0) :
    bmap c bn s = .ok (mapped s.store (s.icache c).d bn, s) := by
  have hload : ∀ k, (s.icache c).d.addrs k ≠ 0 →
      loadAddr c k s = .ok ((s.icache c).d.addrs k, s) := by
    intro k hk
    refine (run_bind (a := s.icache c) (t := s) rfl).trans ?_
    rw [if_neg hk]
    rfl
  have hbn : bn < MAXFILE := by
    by_contra hlt
    exact hm (mapped_eq_zero (Nat.le_of_not_lt hlt))
  unfold bmap
  by_cases hd : bn < NDIRECT
  · rw [mapped_place (place_direct hd)] at *
    rw [dif_pos hd]
    exact hload _ hm
  · have hi : bn - NDIRECT < NINDIRECT := by
      rw [MAXFILE_eq] at hbn
      rw [NDIRECT_eq, NINDIRECT_eq]
      omega
    rw [mapped_place (place_indirect hd hi), held] at *
    have ha : (s.icache c).d.addrs ind ≠ 0 := fun h0 => hm (if_pos h0)
    rw [if_neg ha] at *
    rw [dif_neg hd, if_pos hi, run_bind (hload _ ha)]
    refine (run_bind (a := s.store ((s.icache c).d.addrs ind)) (t := s) rfl).trans ?_
    rw [if_neg hm]
    rfl

theorem readLoop_spec (c : Fin NINODE) (fuel off n : Nat) (hfuel : n ≤ fuel)
    (hm : ∀ bn, Touched off n bn → mapped s.store (s.icache c).d bn ≠ 0) :
    Triple (· = s) (readLoop c fuel off n)
      (fun l t => l = (List.range n).map (fun i => fileByte s.store (s.icache c).d (off + i)) ∧
        t = s)
      fun _ => False := by
  induction fuel generalizing off n with
  | zero =>
    obtain rfl : n = 0 := by omega
    exact triple_exact rfl ⟨rfl, rfl⟩
  | succ fuel ih =>
    cases n with
    | zero => exact triple_exact rfl ⟨rfl, rfl⟩
    | succ n =>
      have hoff : mapped s.store (s.icache c).d (off / BSIZE) ≠ 0 :=
        hm _ ⟨off, le_refl _, by omega, rfl⟩
      refine triple_step (bmap_mapped hoff) ?_
      generalize hmin : min (n + 1) (BSIZE - off % BSIZE) = m
      have hmod : off % BSIZE < BSIZE := Nat.mod_lt _ (by decide)
      refine triple_step rfl ?_
      refine (ih (off + m) (n + 1 - m) (by omega) ?_).next ?_
      · rintro bn ⟨x, h1, h2, h3⟩
        exact hm bn ⟨x, by omega, by omega, h3⟩
      · rintro rest _ ⟨rfl, rfl⟩
        refine triple_exact rfl ⟨?_, rfl⟩
        have hsplit : n + 1 = m + (n + 1 - m) := by omega
        conv_rhs => rw [hsplit, List.range_add, List.map_append, List.map_map]
        congr 1
        · refine List.map_congr_left fun i hi => ?_
          have hi' := List.mem_range.mp hi
          have hb : (off + i) / BSIZE = off / BSIZE ∧ (off + i) % BSIZE = off % BSIZE + i := by
            rw [BSIZE_eq] at *
            omega
          rw [fileByte, hb.1, hb.2]
        · exact List.map_congr_left fun i _ => by simp [Nat.add_assoc]

/-! ## The contents as a list -/

def contents (st : Disk) (d : Dinode) : List UInt8 := (List.range d.size).map (fileByte st d)

theorem fileByte_of_addrs {st : Disk} {d d' : Dinode} (h : d'.addrs = d.addrs) (x : Nat) :
    fileByte st d' x = fileByte st d x := by
  rw [fileByte, fileByte, mapped_of_addrs h]

/-- The bytes `src` written over those from `off` on. -/
def overwrite (l : List UInt8) (off : Nat) (src : List UInt8) : List UInt8 :=
  l.take off ++ src ++ l.drop (off + src.length)

theorem length_contents (st : Disk) (d : Dinode) : (contents st d).length = d.size := by
  simp [contents]

theorem getD_contents (st : Disk) (d : Dinode) {x : Nat} (h : x < d.size) :
    (contents st d).getD x 0 = fileByte st d x := by
  simp [contents, List.getD, h]

theorem length_overwrite {l : List UInt8} {off : Nat} (src : List UInt8) (h : off ≤ l.length) :
    (overwrite l off src).length = max l.length (off + src.length) := by
  simp only [overwrite, List.length_append, List.length_take, List.length_drop]
  omega

theorem getD_overwrite {l : List UInt8} {off : Nat} (src : List UInt8) (h : off ≤ l.length)
    (x : Nat) :
    (overwrite l off src).getD x 0
      = if off ≤ x ∧ x < off + src.length then src.getD (x - off) 0 else l.getD x 0 := by
  have hlen : (l.take off).length = off := by rw [List.length_take]; omega
  have hlen' : (l.take off ++ src).length = off + src.length := by
    rw [List.length_append, hlen]
  unfold overwrite
  by_cases h1 : x < off + src.length
  · rw [List.getD_append _ _ _ _ (by omega)]
    by_cases h2 : x < off
    · rw [if_neg (by omega), List.getD_append _ _ _ _ (by omega)]
      simp [List.getD, h2]
    · rw [if_pos (by omega), List.getD_append_right _ _ _ _ (by omega), hlen]
  · rw [if_neg (by omega), List.getD_append_right _ _ _ _ (by omega), hlen']
    simp only [List.getD, List.getElem?_drop]
    congr 2
    omega

/-- The bytes `readi` returns, as a part of the contents. -/
theorem take_drop_contents {st : Disk} {d : Dinode} {off n m : Nat} (hle : off + m ≤ d.size)
    (hm : (if off + n > d.size then d.size - off else n) = m) :
    ((contents st d).drop off).take n = (List.range m).map fun i => fileByte st d (off + i) := by
  have hlen : (((contents st d).drop off).take n).length = m := by
    rw [List.length_take, List.length_drop, length_contents]
    split at hm <;> omega
  refine List.ext_getElem (by simpa using hlen) fun x h1 h2 => ?_
  simp [contents]

/-- `readi`, if the blocks it reads from are mapped. -/
theorem readi_eq (off n : Nat) (hm : ∀ bn,
      Touched off (if off + n > (s.icache c).d.size then (s.icache c).d.size - off else n) bn →
      mapped s.store (s.icache c).d bn ≠ 0) :
    readi c off n s = .ok (if (s.icache c).d.type = T_DEV ∨ off > (s.icache c).d.size ∨
        (off + n) % 2 ^ 32 < off then none
      else some (((contents s.store (s.icache c).d).drop off).take n), s) := by
  refine (run_bind (a := s.icache c) (t := s) rfl).trans ?_
  by_cases hdev : (s.icache c).d.type = T_DEV
  · rw [if_pos hdev, if_pos (Or.inl hdev)]
    rfl
  · rw [if_neg hdev]
    by_cases hrange : off > (s.icache c).d.size ∨ (off + n) % 2 ^ 32 < off
    · rw [if_pos hrange, if_pos (Or.inr hrange)]
      rfl
    · rw [if_neg hrange, if_neg (not_or.mpr ⟨hdev, hrange⟩)]
      generalize hlen : (if off + n > (s.icache c).d.size then (s.icache c).d.size - off else n) = m
        at *
      have hle : off + m ≤ (s.icache c).d.size := by split at hlen <;> omega
      obtain ⟨l, t, hrun, hl, rfl⟩ := (readLoop_spec c m off m (le_refl _) hm).exists_ok rfl
      rw [run_bind hrun, hl, take_drop_contents hle hlen]
      rfl

/-- What is written replaces the old bytes, and the file grows if it reaches beyond the end. -/
theorem Written.contents_eq {off : Nat} {src : List UInt8} (h : Written c off src s t)
    (hs : Sized s.store (s.icache c).d) (hoff : off ≤ (s.icache c).d.size) {d : Dinode}
    (hd : d.addrs = (t.icache c).d.addrs)
    (hsize : d.size = max (s.icache c).d.size (off + src.length)) :
    contents t.store d = overwrite (contents s.store (s.icache c).d) off src := by
  have hlen : (contents t.store d).length
      = (overwrite (contents s.store (s.icache c).d) off src).length := by
    rw [length_overwrite _ (by rw [length_contents]; exact hoff), length_contents,
      length_contents, hsize]
  refine List.ext_getElem hlen fun x h1 h2 => ?_
  rw [← List.getD_eq_getElem _ 0 h1, ← List.getD_eq_getElem _ 0 h2,
    getD_overwrite _ (by rw [length_contents]; exact hoff)]
  rw [length_contents] at h1
  rw [getD_contents _ _ h1]
  rw [fileByte_of_addrs hd]
  by_cases hx : off ≤ x ∧ x < off + src.length
  · rw [if_pos hx, h.inside x hx.1 hx.2]
  · have hlt : x < (s.icache c).d.size := by omega
    rw [if_neg hx, getD_contents _ _ hlt]
    refine h.outside x (by omega) ((hs.mapped _).mpr ?_)
    rw [BSIZE_eq]
    omega

end StrideXv6.Fs
