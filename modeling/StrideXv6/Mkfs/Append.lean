import StrideXv6.Fs.Specs
import StrideXv6.Mkfs.Build

set_option autoImplicit false

/-! # Appending to a file of the image

`iappend` is a second implementation of what `bmap` and `writei` do in the kernel. Both take the
first free block, the kernel from the bit map and `mkfs` from `freeblock`. So the image is compared
with the disk the kernel would have: `sealed s` is the image with the bit map that `balloc` would
write now. On it `blockFor` does what `bmap` does (`blockFor_sim`) and the loop of `iappend` what
the loop of `writei` does (`appendLoop_sim`), and `iappend_spec` takes over the specification of
`writei`.

The kernel uses the inodes below `NINODES`; `mkfs` knows no limit, and the inode blocks have room
for some more. The comparison is with a file system that uses all of them (`area`).
-/

namespace StrideXv6.Mkfs

open Bytes Fs Hoare Ownership Function
open Bio (FSSIZE)

/-! ## The layout in numbers -/

theorem FSSIZE_eq : FSSIZE = 1000 := rfl
theorem nmeta_eq : nmeta = 59 := rfl
theorem ninodeblocks_eq : ninodeblocks = 26 := rfl

/-- The superblock of a file system that uses every inode of the inode blocks. -/
def area : Superblock := { superblock with ninodes := ninodeblocks * IPB }

theorem area_ok : area.Ok := ⟨by decide, by decide, by decide, by decide⟩
theorem area_ninodes : area.ninodes = 208 := rfl
theorem area_size : area.size = FSSIZE := rfl
theorem area_dataStart : area.dataStart = nmeta := rfl
theorem area_bmapstart : area.bmapstart = 58 := rfl

theorem decodeSb_area : decodeSb (encodeSb area) = area := by decide +kernel
theorem decodeSb_superblock : decodeSb (encodeSb superblock) = superblock := by decide +kernel

/-! ## The bit map -/

theorem usedMap_succ (n : Nat) : usedMap (n + 1) = setBit (usedMap n) n := by
  simp [usedMap, List.range_succ]

theorem getBit_usedMap {n : Nat} (hn : n ≤ BPB) (j : Nat) :
    getBit (usedMap n) j = decide (j < n) := by
  induction n with
  | zero => simp [usedMap, getBit, byteAt]
  | succ n ih =>
    have hlt : n < 8 * BSIZE := by rw [BPB_eq] at hn; rw [BSIZE_eq]; omega
    rw [usedMap_succ, getBit_setBit _ _ hlt, ih (by omega), ← Bool.decide_or, decide_eq_decide]
    omega

/-! ## The image as the disk of a kernel -/

/-- The image with the bit map that belongs to it. -/
def sealed (s : Image) : Disk :=
  Function.update (Function.update s.blocks 1 (encodeSb area)) area.bmapstart
    (usedMap s.freeblock)

/-- The image after a block has been given out. -/
def Image.next (s : Image) : Image := { s with freeblock := s.freeblock + 1 }

/-- The image after a sector has been written. -/
def Image.write (s : Image) (b : Nat) (v : Block) : Image :=
  { s with blocks := Function.update s.blocks b v, len := max s.len (b + 1) }

/-- While files are added: the image has its full length, and what lies behind `freeblock` has not
been written yet. -/
structure Ready (s : Image) : Prop where
  len : s.len = FSSIZE
  front : nmeta ≤ s.freeblock
  back : s.freeblock ≤ FSSIZE
  super : s.blocks 1 = encodeSb superblock
  blank : ∀ b, s.freeblock ≤ b → s.blocks b = fun _ => 0

variable {s t : Image} {i : Nat} {din : Dinode}

theorem sealed_of_ne {b : Nat} (h1 : b ≠ 1) (h2 : b ≠ area.bmapstart) :
    sealed s b = s.blocks b := by
  rw [sealed, update_of_ne h2, update_of_ne h1]

theorem sealed_data {b : Nat} (hb : nmeta ≤ b) : sealed s b = s.blocks b := by
  rw [nmeta_eq] at hb
  exact sealed_of_ne (by omega) (by rw [area_bmapstart]; omega)

theorem sealed_write {b : Nat} (h1 : b ≠ 1) (h2 : b ≠ area.bmapstart) (v : Block) :
    sealed (s.write b v) = Function.update (sealed s) b v := by
  show Function.update (Function.update (Function.update s.blocks b v) 1 _) area.bmapstart _ = _
  rw [update_comm h1, update_comm h2]
  rfl

theorem bit_sealed (hs : s.freeblock ≤ BPB) {b : Nat} (hb : b < BPB) :
    bit area (sealed s) b = decide (b < s.freeblock) := by
  have hblk : BBLOCK area b = area.bmapstart := by
    rw [BBLOCK, Nat.div_eq_of_lt hb, Nat.zero_add]
  rw [bit, hblk, sealed, update_self, Nat.mod_eq_of_lt hb, getBit_usedMap hs]

/-- Giving out a block is what `balloc` of the kernel does. -/
theorem sealed_next (h : Ready s) (hlt : s.freeblock < BPB) :
    taken area (sealed s) s.freeblock = sealed s.next := by
  have hfront := h.front
  rw [nmeta_eq] at hfront
  have hblk : BBLOCK area s.freeblock = area.bmapstart := by
    rw [BBLOCK, Nat.div_eq_of_lt hlt, Nat.zero_add]
  have hne : s.freeblock ≠ area.bmapstart := by rw [area_bmapstart]; omega
  have hmark : mark area (sealed s) s.freeblock = sealed s.next := by
    rw [mark, hblk, Nat.mod_eq_of_lt hlt, sealed, update_self, update_idem,
      ← usedMap_succ]
    rfl
  rw [taken, hmark]
  refine update_eq_self_iff.mpr ?_
  rw [sealed_data h.front]
  exact (h.blank _ (le_refl _)).symm

/-- The entry of the inode cache that stands for `din`. -/
def slot : Fin NINODE := ⟨0, by decide⟩

/-- The kernel with the image as its disk, working on inode `i`. -/
def shadow (s : Image) (i : Nat) (din : Dinode) : FsState :=
  { store := sealed s
    sb := area
    icache := fun c =>
      if c = slot then { inum := i, ref := 1, valid := true, d := din }
      else { inum := 0, ref := 0, valid := false, d := Dinode.fresh 0 }
    ftable := fun _ =>
      { type := .none, ref := 0, readable := false, writable := false, ip := slot, off := 0 }
    proc := fun _ => none }

theorem shadow_entry (s : Image) (i : Nat) (din : Dinode) :
    (shadow s i din).icache slot = { inum := i, ref := 1, valid := true, d := din } := by
  simp [shadow]

theorem shadow_d (s : Image) (i : Nat) (din : Dinode) :
    ((shadow s i din).icache slot).d = din := by rw [shadow_entry]

theorem shadow_withDinode (s : Image) (i : Nat) (din d : Dinode) :
    (shadow s i din).withDinode slot d = shadow s i d := by
  have : Function.update (shadow s i din).icache slot { (shadow s i din).icache slot with d := d }
      = (shadow s i d).icache := by
    funext c
    by_cases hc : c = slot
    · rw [hc, update_self, shadow_entry, shadow_entry]
    · rw [update_of_ne hc]
      simp [shadow, hc]
  rw [FsState.withDinode, this]
  rfl

theorem balloc_shadow (h : Ready s) (hlt : s.freeblock < FSSIZE) :
    Fs.balloc (shadow s i din) = .ok (s.freeblock, shadow s.next i din) := by
  have hbpb : s.freeblock < BPB := by rw [FSSIZE_eq] at hlt; rw [BPB_eq]; omega
  have hbit : ∀ b < FSSIZE, bit area (sealed s) b = decide (b < s.freeblock) := by
    intro b hb
    rw [FSSIZE_eq] at hb
    exact bit_sealed hbpb.le (by rw [BPB_eq]; omega)
  have hfind : (List.range area.size).find? (fun b => !bit area (sealed s) b)
      = some s.freeblock := by
    rw [List.find?_range_eq_some, List.mem_range]
    refine ⟨?_, hlt, fun j hj => ?_⟩
    · simp [hbit _ hlt]
    · simp [hbit j (by omega), hj]
  have hstep := balloc_eq (s := shadow s i din) hfind
  have hstore : taken (shadow s i din).sb (shadow s i din).store s.freeblock = sealed s.next :=
    sealed_next h hbpb
  rw [hstep, hstore]
  rfl

/-! ## The functions of `mkfs` -/

/-- At most `n` blocks have been given out, and no inode. -/
structure Moved (n : Nat) (s t : Image) : Prop where
  len : t.len = s.len
  inode : t.freeinode = s.freeinode
  le : t.freeblock ≤ s.freeblock + n

theorem Moved.trans {m n : Nat} {u : Image} (h : Moved m s t) (h' : Moved n t u) :
    Moved (m + n) s u :=
  ⟨h'.len.trans h.len, h'.inode.trans h.inode, by have := h.le; have := h'.le; omega⟩

theorem wsect_eq (s : Image) (b : Nat) (v : Block) : wsect b v s = .ok ((), s.write b v) := rfl

theorem newBlock_eq (s : Image) : newBlock s = .ok (s.freeblock, s.next) := rfl

theorem rsect_spec (s : Image) (b : Nat) :
    Triple (· = s) (rsect b) (fun v t => v = s.blocks b ∧ s = t ∧ b < s.len)
      fun _ => s.len ≤ b := by
  refine triple_step rfl ?_
  by_cases hb : b < s.len
  · rw [if_pos hb]
    exact triple_exact rfl ⟨rfl, rfl, hb⟩
  · rw [if_neg hb]
    exact triple_fail rfl (Nat.le_of_not_lt hb)

theorem Ready.next (h : Ready s) (hlt : s.freeblock < FSSIZE) : Ready s.next where
  len := h.len
  front := Nat.le_succ_of_le h.front
  back := hlt
  super := h.super
  blank b hb := h.blank b (Nat.le_of_succ_le hb)

theorem Ready.write (h : Ready s) {b : Nat} (hb : b < s.freeblock) (h1 : b ≠ 1) (v : Block) :
    Ready (s.write b v) where
  len := by
    have := h.len
    have := h.back
    show max s.len (b + 1) = FSSIZE
    omega
  front := h.front
  back := h.back
  super := (update_of_ne h1.symm ..).trans h.super
  blank x hx := by
    have hx' : s.freeblock ≤ x := hx
    show Function.update s.blocks b v x = _
    rw [update_of_ne (by omega), h.blank x hx']

theorem moved_next (s : Image) : Moved 1 s s.next := ⟨rfl, rfl, le_refl _⟩

theorem Ready.moved_write (h : Ready s) {b : Nat} (hb : b < s.freeblock) (v : Block) :
    Moved 0 s (s.write b v) := by
  have h1 := h.len
  have h2 := h.back
  exact ⟨max_eq_left (by omega), rfl, le_refl _⟩

/-- A block the inode owns lies between the bit map and `freeblock`. -/
theorem Ready.owned_range (h : Ready s) (hw : Work slot (shadow s i din)) {q : Nat × Ptr} {b : Nat}
    (hb : ownerOf slot (shadow s i din) q = some b) : nmeta ≤ b ∧ b < s.freeblock := by
  have hdata : area.dataStart ≤ b ∧ b < area.size := hw.blocks.data q b hb
  have hbit : bit area (sealed s) b = true := hw.blocks.owned.marked q b hb
  have hback := h.back
  rw [area_size, FSSIZE_eq] at hdata
  rw [FSSIZE_eq] at hback
  rw [bit_sealed (by rw [BPB_eq]; omega) (by rw [BPB_eq]; omega)] at hbit
  exact ⟨hdata.1, by simpa using hbit⟩

theorem loadAddr_sim (h : Ready s) (hw : Work slot (shadow s i din)) (k : Fin (NDIRECT + 1)) :
    Triple (· = s) (loadAddr din k)
      (fun r t => (r.1 < FSSIZE →
          Fs.loadAddr slot k (shadow s i din) = .ok (r.1, shadow t i r.2) ∧ Ready t) ∧
        Moved 1 s t ∧ r.2.addrs k = r.1 ∧ (r.1 < FSSIZE ∨ FSSIZE ≤ s.freeblock))
      fun _ => False := by
  have hkernel : Fs.loadAddr slot k (shadow s i din)
      = (if din.addrs k = 0 then do
          let addr ← Fs.balloc
          setDinode slot (setAddr din k addr)
          return addr
        else return din.addrs k : FsM Nat) (shadow s i din) := by
    refine (run_bind (a := (shadow s i din).icache slot) (t := shadow s i din) rfl).trans ?_
    rw [shadow_d]
  unfold loadAddr
  by_cases hk : din.addrs k = 0
  · rw [if_pos hk] at *
    refine triple_step (newBlock_eq s) (triple_exact rfl ⟨fun hlt => ⟨?_, h.next hlt⟩,
      moved_next s, by simp, lt_or_ge _ _⟩)
    rw [hkernel, run_bind (balloc_shadow h hlt), run_bind (setDinode_eq ..), shadow_withDinode]
    rfl
  · rw [if_neg hk] at *
    have hown := h.owned_range hw (hw.owner_addr (k := k) (by rwa [shadow_d]))
    rw [shadow_d] at hown
    have hback := h.back
    exact triple_exact rfl ⟨fun _ => ⟨hkernel, h⟩, ⟨rfl, rfl, Nat.le_succ _⟩, rfl,
      Or.inl (by omega)⟩

theorem bmap_direct {c : Fin NINODE} {bn : Nat} (h : bn < NDIRECT) :
    bmap c bn = Fs.loadAddr c ⟨bn, Nat.lt_succ_of_lt h⟩ := dif_pos h

/-- The blocks listed in the indirect block. -/
theorem entryFor_sim {fbn : Nat} (hd : ¬ fbn < NDIRECT) (hfbn : fbn < MAXFILE) (h : Ready s)
    (hw : Work slot (shadow s i din)) :
    Triple (· = s) (blockFor din fbn)
      (fun r t => (r.1 < FSSIZE →
          bmap slot fbn (shadow s i din) = .ok (r.1, shadow t i r.2) ∧ Ready t) ∧
        Moved 2 s t ∧ (r.1 < FSSIZE ∨ FSSIZE < s.freeblock + 2))
      fun _ => FSSIZE < s.freeblock + 2 := by
  have hin : fbn - NDIRECT < NINDIRECT := by
    rw [MAXFILE_eq] at hfbn; rw [NDIRECT_eq, NINDIRECT_eq] at *; omega
  have hp := place_indirect hd hin
  unfold blockFor bmap
  rw [if_neg (Nat.not_le.mpr hfbn), dif_neg hd, dif_neg hd, if_pos hin]
  refine (loadAddr_sim h hw _).safe.next ?_
  rintro ⟨x, din₁⟩ t ⟨hker, hmoved, hx, hlt⟩
  dsimp only at hker hx hlt ⊢
  refine triple_call (rsect_spec t x) rfl (fun _ he => ?_) ?_
  · rw [hmoved.len, h.len] at he
    omega
  rintro v _ ⟨rfl, rfl, hlen⟩
  rw [hmoved.len, h.len] at hlen
  obtain ⟨hrun, ht⟩ := hker hlen
  -- the indirect block is owned, so it lies in the data area
  have hload : Loaded slot ind x (shadow s i din) (shadow t i din₁) :=
    (loadAddr_spec slot ind hw).ok rfl hrun
  have hown : ownerOf slot (shadow t i din₁) (((shadow t i din₁).icache slot).inum, .addr ind)
      = some x := by
    have := hload.work.owner_addr (k := ind) (by rw [shadow_d, hx]; exact hload.ne)
    rwa [shadow_d, hx] at this
  have hrange := ht.owned_range hload.work hown
  have hread : (shadow t i din₁).store x = t.blocks x := sealed_data hrange.1
  have hbread : bread x (shadow t i din₁) = .ok (t.blocks x, shadow t i din₁) := by
    rw [← hread]; rfl
  by_cases hz : getLE (t.blocks x) (4 * (fbn - NDIRECT)) 4 = 0
  · rw [if_pos hz]
    refine triple_step (newBlock_eq t) (triple_step (wsect_eq ..) (triple_exact rfl ⟨?_, ?_, ?_⟩))
    · intro hb
      have h59 := hrange.1
      rw [nmeta_eq] at h59
      have hnext := ht.next hb
      have hwrite := hnext.write (b := x) (Nat.lt_succ_of_lt hrange.2) (by omega)
        (setLE (t.blocks x) (4 * (fbn - NDIRECT)) 4 t.freeblock)
      refine ⟨?_, hwrite⟩
      rw [run_bind hrun, run_bind hbread, if_pos hz, run_bind (balloc_shadow ht hb),
        run_bind (logWrite_eq ..)]
      show Except.ok (t.freeblock, (shadow t.next i din₁).withStore
        (Function.update (sealed t.next) x _)) = _
      rw [← sealed_write (by omega) (by rw [area_bmapstart]; omega)]
      rfl
    · have hmax : max t.len (x + 1) = t.len := by
        rw [hmoved.len, h.len]
        omega
      exact ⟨hmax.trans hmoved.len, hmoved.inode, Nat.add_le_add_right hmoved.le 1⟩
    · have := hmoved.le
      omega
  · rw [if_neg hz]
    refine triple_exact rfl ⟨fun _ => ⟨?_, ht⟩,
      ⟨hmoved.len, hmoved.inode, Nat.le_succ_of_le hmoved.le⟩, ?_⟩
    · rw [run_bind hrun, run_bind hbread, if_neg hz]
      rfl
    · -- the entry is a block the inode owns
      have hm : mapped (shadow t i din₁).store ((shadow t i din₁).icache slot).d fbn
          = getLE (t.blocks x) (4 * (fbn - NDIRECT)) 4 := by
        rw [mapped_place hp, shadow_d, held, hx, if_neg hload.ne, hread]
      have hent := ht.owned_range hload.work (hload.work.owner_place hp (by rwa [hm]))
      rw [hm] at hent
      have := ht.back
      exact Or.inl (by omega)

theorem blockFor_sim (fbn : Nat) (h : Ready s) (hw : Work slot (shadow s i din)) :
    Triple (· = s) (blockFor din fbn)
      (fun r t => fbn < MAXFILE ∧
        (r.1 < FSSIZE → bmap slot fbn (shadow s i din) = .ok (r.1, shadow t i r.2) ∧ Ready t) ∧
        Moved 2 s t ∧ (r.1 < FSSIZE ∨ FSSIZE < s.freeblock + 2))
      fun _ => MAXFILE ≤ fbn ∨ FSSIZE < s.freeblock + 2 := by
  by_cases hfbn : MAXFILE ≤ fbn
  · unfold blockFor
    rw [if_pos hfbn]
    exact triple_fail rfl (Or.inl hfbn)
  by_cases hd : fbn < NDIRECT
  · unfold blockFor
    rw [if_neg hfbn, dif_pos hd, bmap_direct hd]
    refine triple_conseq (loadAddr_sim h hw _) (fun _ hx => hx) ?_ fun _ he => he.elim
    rintro r t ⟨hker, hmoved, -, hlt⟩
    exact ⟨by omega, hker, ⟨hmoved.len, hmoved.inode, Nat.le_succ_of_le hmoved.le⟩, by omega⟩
  · refine triple_conseq (entryFor_sim hd (by omega) h hw) (fun _ hx => hx) ?_ fun _ => Or.inr
    exact fun r t hr => ⟨by omega, hr⟩

/-- The blocks that `n` bytes from `off` on lie in. -/
def turns (off n : Nat) : Nat := if n = 0 then 0 else (off + n - 1) / BSIZE - off / BSIZE + 1

theorem turns_step (off n : Nat) {m : Nat} (hm : m = min (n + 1) (BSIZE - off % BSIZE)) :
    turns (off + m) (n + 1 - m) + 1 = turns off (n + 1) := by
  rw [turns, turns, if_neg (Nat.succ_ne_zero n)]
  rw [BSIZE_eq] at *
  split <;> omega

/-- The loop of `iappend` writes what the loop of `writei` writes. -/
theorem appendLoop_sim (fuel off : Nat) (p : List UInt8) (h : Ready s)
    (hw : Work slot (shadow s i din)) :
    Triple (· = s) (appendLoop fuel din off p)
      (fun r t => writeLoop slot fuel off p (shadow s i din) = .ok (r.2, shadow t i r.1) ∧
        Ready t ∧ Moved (2 * turns off p.length) s t ∧
        (p.length ≤ fuel → p ≠ [] → off + p.length ≤ MAXFILE * BSIZE))
      fun _ => FSSIZE < s.freeblock + 2 * turns off p.length ∨
        MAXFILE * BSIZE < off + p.length := by
  induction fuel generalizing din off p s with
  | zero =>
    refine triple_exact rfl ⟨rfl, h, ⟨rfl, rfl, Nat.le_add_right ..⟩, fun hlen hne => ?_⟩
    exact absurd (List.eq_nil_of_length_eq_zero (by omega)) hne
  | succ fuel ih =>
    cases p with
    | nil => exact triple_exact rfl ⟨rfl, h, ⟨rfl, rfl, Nat.le_add_right ..⟩, by simp⟩
    | cons a p =>
      have hturn := turns_step off p.length rfl
      have hmod : off % BSIZE < BSIZE := Nat.mod_lt _ (by decide)
      have hoff : off - off / BSIZE * BSIZE = off % BSIZE := by rw [BSIZE_eq]; omega
      have hrest : (off / BSIZE + 1) * BSIZE - off = BSIZE - off % BSIZE := by
        rw [BSIZE_eq]; omega
      rw [List.length_cons]
      generalize hm : min (p.length + 1) (BSIZE - off % BSIZE) = m at hturn
      refine triple_call (blockFor_sim (off / BSIZE) h hw) rfl (fun _ he => ?_) ?_
      · rw [MAXFILE_eq, BSIZE_eq] at *
        omega
      rintro ⟨x, din₁⟩ t ⟨hbn, hker, hmoved, hlt⟩
      dsimp only at hker hlt ⊢
      refine triple_call (rsect_spec t x) rfl (fun _ he => ?_) ?_
      · rw [hmoved.len, h.len] at he
        omega
      rintro _ _ ⟨rfl, rfl, hlen⟩
      rw [hmoved.len, h.len] at hlen
      obtain ⟨hrun, ht⟩ := hker hlen
      have hmap : Mapping slot (off / BSIZE) x (shadow s i din) (shadow t i din₁) :=
        (bmap_spec slot hbn hw).ok rfl hrun
      obtain ⟨q, hq⟩ := place_eq_some hbn
      have hown := hmap.work.owner_place hq (by rw [hmap.addr]; exact hmap.ne)
      rw [hmap.addr] at hown
      have hrange := ht.owned_range hmap.work hown
      have hx1 : x ≠ 1 ∧ x ≠ area.bmapstart := by
        have := hrange.1
        rw [nmeta_eq] at this
        rw [area_bmapstart]
        omega
      rw [hoff, hrest, hm]
      refine triple_step (wsect_eq ..) ?_
      generalize hv : blit (t.blocks x) (off % BSIZE) ((a :: p).take m) = v
      have hstore : (shadow t i din₁).withStore (Function.update (sealed t) x v)
          = shadow (t.write x v) i din₁ := by
        rw [← sealed_write hx1.1 hx1.2]
        rfl
      have hwork : Work slot (shadow (t.write x v) i din₁) :=
        hstore ▸ hmap.work.write_data hown (place_ne_ind hq) v
      refine triple_conseq (ih _ _ (ht.write hrange.2 hx1.1 v) hwork) (fun _ hx => hx) ?_ ?_
      · rintro r u ⟨hloop, hu, hmv, hle⟩
        have hdrop : ((a :: p).drop m).length = p.length + 1 - m := by simp
        rw [hdrop] at hmv hle
        refine ⟨?_, hu, ?_, fun hf _ => ?_⟩
        · have hbread : bread x (shadow t i din₁) = .ok (t.blocks x, shadow t i din₁) := by
            rw [← sealed_data hrange.1]; rfl
          rw [writeLoop, run_bind hrun, run_bind hbread, hm, hv, run_bind (logWrite_eq ..)]
          show writeLoop slot fuel (off + m) _
            ((shadow t i din₁).withStore (Function.update (sealed t) x v)) = _
          rw [hstore]
          exact hloop
        · have := (hmoved.trans (ht.moved_write hrange.2 v)).trans hmv
          rw [← hturn, Nat.mul_add]
          exact ⟨this.len, this.inode, by have := this.le; omega⟩
        · by_cases hnil : (a :: p).drop m = []
          · have hz := congrArg List.length hnil
            rw [hdrop, List.length_nil] at hz
            rw [MAXFILE_eq, BSIZE_eq] at *
            omega
          · have := hle (by omega) hnil
            omega
      · rintro e he
        have hdrop : ((a :: p).drop m).length = p.length + 1 - m := by simp
        have hfb : (t.write x v).freeblock ≤ s.freeblock + 2 := hmoved.le
        rw [hdrop] at he
        omega

/-! ## Inodes -/

/-- The image after an inode has been written. -/
def Image.putNode (s : Image) (i : Nat) (d : Dinode) : Image :=
  s.write (IBLOCK area i) (putDinode (s.blocks (IBLOCK area i)) (i % IPB) d)

theorem iblock_range (hi : i < area.ninodes) :
    IBLOCK area i ≠ 1 ∧ IBLOCK area i ≠ area.bmapstart ∧ IBLOCK area i < nmeta := by
  have h1 := area_ok.iblock hi
  have h2 := area_bmapstart
  rw [nmeta_eq]
  omega

theorem sealed_putNode (hi : i < area.ninodes) (d : Dinode) :
    sealed (s.putNode i d) = putInode area (sealed s) i d := by
  obtain ⟨h1, h2, -⟩ := iblock_range hi
  rw [Image.putNode, sealed_write h1 h2, putInode, sealed_of_ne h1 h2]

theorem Ready.putNode (h : Ready s) (hi : i < area.ninodes) (d : Dinode) :
    Ready (s.putNode i d) := by
  obtain ⟨h1, -, h2⟩ := iblock_range hi
  have h3 := h.front
  exact h.write (by omega) h1 _

theorem rsect_iblock (h : s.len = FSSIZE) (hi : i < area.ninodes) :
    rsect (IBLOCK area i) s = .ok (s.blocks (IBLOCK area i), s) := by
  have h1 := (iblock_range hi).2.2
  rw [nmeta_eq] at h1
  have hlt : IBLOCK area i < s.len := by rw [h, FSSIZE_eq]; omega
  refine run_get.trans ?_
  rw [if_pos hlt]
  rfl

theorem winode_eq (h : s.len = FSSIZE) (hi : i < area.ninodes) (d : Dinode) :
    winode i d s = .ok ((), s.putNode i d) :=
  run_bind (rsect_iblock h hi)

theorem rinode_eq (h : s.len = FSSIZE) (hi : i < area.ninodes) :
    rinode i s = .ok (dinode area (sealed s) i, s) := by
  obtain ⟨h1, h2, -⟩ := iblock_range hi
  refine (run_bind (rsect_iblock h hi)).trans ?_
  rw [dinode, sealed_of_ne h1 h2]
  rfl

/-- The nodes of the image, from inode 1 on. -/
def nodeAt (ns : List Node) : Nat → Option Node
  | 0 => none
  | j + 1 => ns[j]?

/-- The image holds the inodes `ns`, which have the numbers from 1 on, and nothing else. -/
structure Holds (ns : List Node) (s : Image) : Prop where
  ready : Ready s
  inode : s.freeinode = ns.length + 1
  fits : ns.length < area.ninodes
  disk : DiskOk area (sealed s)
  node : ∀ i < area.ninodes, nodeOf (sealed s) (dinode area (sealed s) i) = nodeAt ns i

/-- A new inode, which has one link from the start. -/
def newNode (type : Nat) : Node := { type := type, major := 0, minor := 0, nlink := 1, bytes := [] }

variable {ns : List Node}

theorem type_of_nodeOf_none {st : Disk} {d : Dinode} (h : nodeOf st d = none) : d.type = 0 := by
  by_contra ht
  simp [nodeOf, ht] at h

theorem ialloc_spec (h : Holds ns s) (type : Nat) (h0 : type ≠ 0) (h16 : type < 2 ^ 16)
    (hroom : ns.length + 1 < area.ninodes) :
    Triple (· = s) (ialloc type)
      (fun inum t => inum = ns.length + 1 ∧ t.freeblock = s.freeblock ∧
        Holds (ns ++ [newNode type]) t)
      fun _ => False := by
  have hin := h.inode
  obtain ⟨d, hd⟩ : ∃ d : Dinode, d =
    { type := type, major := 0, minor := 0, nlink := 1, size := 0, addrs := fun _ => 0 } :=
    ⟨_, rfl⟩
  obtain ⟨s', hs'⟩ : ∃ s' : Image, s' = { s with freeinode := s.freeinode + 1 } := ⟨_, rfl⟩
  refine triple_step (a := s) (t := s) rfl
    (triple_step (a := ()) (t := s') (by rw [hs']; rfl) ?_)
  rw [← hd]
  have hsealed : sealed s' = sealed s := by rw [hs']; rfl
  have hready : Ready s' := by
    rw [hs']
    exact ⟨h.ready.len, h.ready.front, h.ready.back, h.ready.super, h.ready.blank⟩
  have hi : s.freeinode < area.ninodes := by omega
  refine triple_step (winode_eq hready.len hi d) (triple_exact rfl ⟨hin, by rw [hs']; rfl, ?_⟩)
  have hstore : sealed (s'.putNode s.freeinode d) = putInode area (sealed s) s.freeinode d := by
    rw [sealed_putNode hi, hsealed]
  have hfit : d.Fits := by
    rw [hd]
    exact ⟨h16, Nat.two_pow_pos 16, Nat.two_pow_pos 16, Nat.one_lt_two_pow (by decide),
      Nat.two_pow_pos 32,
      fun _ => Nat.two_pow_pos 32⟩
  have hheld : ∀ p, held (sealed s) d p = 0 := by
    intro p; rw [hd]; cases p <;> simp [held]
  have hfree : (dinode area (sealed s) s.freeinode).type = 0 := by
    refine type_of_nodeOf_none ((h.node _ hi).trans ?_)
    rw [hin]
    exact List.getElem?_eq_none (le_refl _)
  have hsame : SameBlocks area (sealed s) s.freeinode d := by
    intro p
    rw [hheld]
    simp [owner, hfree, ptr]
  have hself : dinode area (putInode area (sealed s) s.freeinode d) s.freeinode = d :=
    dinode_putInode_self _ hfit
  refine ⟨hready.putNode hi d, ?_, by simpa using hroom, ?_, fun i hi' => ?_⟩
  · show s'.freeinode = _
    rw [hs', List.length_append]
    show s.freeinode + 1 = ns.length + 1 + 1
    rw [hin]
  · rw [hstore]
    refine h.disk.put hi hfit (fun _ => ⟨by rw [hd]; exact Nat.zero_le _, fun bn => ?_⟩) hsame
    rw [mapped_of_held hheld, hd, BSIZE_eq]
    simp
  · rw [hstore]
    by_cases hii : i = s.freeinode
    · rw [hii, hself, hin, nodeOf, if_neg (by rw [hd]; exact h0), hd]
      simp [nodeAt, newNode, contents]
    · rw [node_putInode h.disk hi d hi' hii, h.node i hi']
      cases i with
      | zero => rfl
      | succ j =>
        rw [hin] at hii
        have hne : j ≠ ns.length := fun he => hii (by rw [he])
        rcases Nat.lt_or_gt_of_ne hne with hlt | hgt
        · exact (List.getElem?_append_left hlt).symm
        · simp [nodeAt, List.getElem?_eq_none, Nat.le_of_lt hgt, Nat.succ_le_of_lt hgt]

/-! ## `iappend` -/

theorem Holds.shadow_ok (h : Holds ns s) {j : Nat} {nd : Node} (hj : ns[j]? = some nd) :
    FsOk (shadow s (j + 1) (dinode area (sealed s) (j + 1))) ∧
      Locked slot (shadow s (j + 1) (dinode area (sealed s) (j + 1))) ∧
      Fs.node (shadow s (j + 1) (dinode area (sealed s) (j + 1))) (j + 1) = some nd := by
  have hlt : j + 1 < area.ninodes := by
    have := h.fits
    have : j < ns.length := (List.getElem?_eq_some_iff.mp hj).1
    omega
  have hnode := h.node (j + 1) hlt
  have hty : (dinode area (sealed s) (j + 1)).type ≠ 0 := by
    intro h0
    rw [nodeOf, if_pos h0] at hnode
    exact absurd (hnode.trans hj) (by simp)
  have hslot : ∀ c, 0 < ((shadow s (j + 1) (dinode area (sealed s) (j + 1))).icache c).ref →
      c = slot := by
    intro c hc
    by_contra hne
    simp [shadow, hne] at hc
  refine ⟨⟨h.disk, fun c hc => ?_, fun c c' hc hc' _ => ?_, fun c hc _ => ?_⟩, ⟨?_, ?_⟩, ?_⟩
  · rw [hslot c hc, shadow_entry]; exact hlt
  · rw [hslot c hc, hslot c' hc']
  · rw [hslot c hc, shadow_entry]; exact ⟨rfl, hty⟩
  · rw [shadow_entry]; exact Nat.one_pos
  · rw [shadow_entry]
  · exact hnode.trans hj

theorem overwrite_end (l p : List UInt8) : overwrite l l.length p = l ++ p := by
  simp [overwrite]

theorem getElem?_set_nodes {j k : Nat} {nd nd' : Node} (hj : ns[j]? = some nd) :
    (ns.set j nd')[k]? = if k = j then some nd' else ns[k]? := by
  have hlt := (List.getElem?_eq_some_iff.mp hj).1
  by_cases hk : k = j
  · subst hk
    simp [hlt]
  · rw [if_neg hk, List.getElem?_set_ne (Ne.symm hk)]

/-- `iappend` appends to the bytes of one node. It fails if the file gets too long or the blocks
run out, of which it needs at most two for each block it writes to. -/
theorem iappend_spec (h : Holds ns s) {j : Nat} {nd : Node} (hj : ns[j]? = some nd)
    (hdev : nd.type ≠ T_DEV) {p : List UInt8} (hp : p ≠ []) :
    Triple (· = s) (iappend (j + 1) p)
      (fun _ t => Holds (ns.set j { nd with bytes := nd.bytes ++ p }) t ∧
        t.freeblock ≤ s.freeblock + 2 * turns nd.bytes.length p.length)
      fun _ => FSSIZE < s.freeblock + 2 * turns nd.bytes.length p.length ∨
        MAXFILE * BSIZE < nd.bytes.length + p.length := by
  have hlt : j < ns.length := (List.getElem?_eq_some_iff.mp hj).1
  have hi : j + 1 < area.ninodes := by have := h.fits; omega
  obtain ⟨hok, hlock, hnode⟩ := h.shadow_ok hj
  have hpos : 0 < p.length := List.length_pos_iff.mpr hp
  refine triple_step (rinode_eq h.ready.len hi) ?_
  generalize hdin : dinode area (sealed s) (j + 1) = din at *
  have hnd := hnode
  rw [Fs.node, show dinode (shadow s (j + 1) din).sb (shadow s (j + 1) din).store (j + 1) = din
    from hdin] at hnd
  have hty : din.type ≠ 0 := by
    intro h0
    rw [nodeOf, if_pos h0] at hnd
    simp at hnd
  rw [nodeOf, if_neg hty, Option.some.injEq] at hnd
  have hlen : nd.bytes.length = din.size := by rw [← hnd]; exact length_contents _ _
  have htype : nd.type = din.type := by rw [← hnd]
  rw [hlen]
  have hwork := hok.work hlock
  refine (appendLoop_sim p.length din.size p h.ready hwork).next ?_
  rintro ⟨din₁, off'⟩ t ⟨hloop, ht, hmoved, hmax⟩
  dsimp only at hloop
  replace hmax := hmax (le_refl _) hp
  have hMAX : MAXFILE * BSIZE < 2 ^ 32 := by rw [MAXFILE_eq, BSIZE_eq]; decide
  obtain ⟨hoff, hwritten⟩ := (writeLoop_spec slot p.length din.size p _ hwork (le_refl _) hmax).ok
    rfl hloop
  have hsize : din₁.size = din.size := by
    have := hwritten.rest
    rw [shadow_d, shadow_d] at this
    rw [this]
  dsimp only
  rw [hoff]
  have htlen : t.len = FSSIZE := hmoved.len.trans h.ready.len
  refine triple_exact (winode_eq htlen hi _) ?_
  -- the same by `writei` of the kernel
  generalize hd' : ({ din₁ with size := din.size + p.length } : Dinode) = d'
  have hrun : writei slot din.size p (shadow s (j + 1) din)
      = .ok (some p.length, shadow (t.putNode (j + 1) d') (j + 1) d') := by
    have hmodlt : (din.size + p.length) % 2 ^ 32 = din.size + p.length :=
      Nat.mod_eq_of_lt (by omega)
    refine (run_bind (a := (shadow s (j + 1) din).icache slot) (t := shadow s (j + 1) din)
      rfl).trans ?_
    rw [shadow_entry]
    dsimp only
    rw [if_neg (by rwa [← htype]), if_neg (by omega), if_neg (by omega), run_bind hloop]
    refine (run_bind (a := (shadow t (j + 1) din₁).icache slot) (t := shadow t (j + 1) din₁)
      rfl).trans ?_
    rw [shadow_entry]
    dsimp only
    rw [if_pos (by omega), hoff, hd', run_bind (setDinode_eq ..), shadow_withDinode,
      run_bind (iupdate_eq ..), shadow_entry]
    show Except.ok (some p.length, (shadow t (j + 1) d').withStore
      (putInode area (sealed t) (j + 1) d')) = _
    rw [← sealed_putNode hi]
    rfl
  have hinum : ((shadow s (j + 1) din).icache slot).inum = j + 1 := by rw [shadow_entry]
  obtain ⟨hok', hconf, -, nd', hnd', hres⟩ := (writei_spec hok hlock (by rw [hinum]; exact hnode)
    din.size (by omega)).ok rfl hrun
  rw [hinum] at hnd'
  have hbytes : nd' = { nd with bytes := nd.bytes ++ p } := by
    generalize hr : some p.length = r at hres
    cases hres with
    | device hd => exact absurd hd hdev
    | refused => simp at hr
    | done => rw [← hlen, overwrite_end]
  refine ⟨⟨ht.putNode hi d', ?_, by simpa using h.fits, hok'.disk, fun i hi' => ?_⟩, hmoved.le⟩
  · rw [List.length_set]
    exact hmoved.inode.trans h.inode
  · by_cases hij : i = j + 1
    · rw [hij, nodeAt, getElem?_set_nodes hj, if_pos rfl, ← hbytes]
      exact hnd'
    · have hother := hconf.node_other hok hlock (i := i) hi' (by rw [hinum]; exact hij)
      refine (hother.trans (h.node i hi')).trans ?_
      cases i with
      | zero => rfl
      | succ k =>
        rw [nodeAt, nodeAt, getElem?_set_nodes hj, if_neg (fun he => hij (by rw [he]))]

end StrideXv6.Mkfs
