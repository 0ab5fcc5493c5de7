import StrideXv6.Fs.Specs
import StrideXv6.Fs.Directory

set_option autoImplicit false

/-! # Names and entries

What `namecmp` compares, and what a loop over directory entries does in terms of the entries it
reads. Two names are equal for the file system if they agree in their first `DIRSIZ` bytes
(`namecmp_strncpy`). A lookup passes over the entries that are empty or have another name
(`lookupLoop_skip`) and ends at the first that has the name (`lookupLoop_hit`).
-/

namespace StrideXv6.Fs

open Hoare

/-! ## Names -/

@[simp] theorem length_strncpy (l : List UInt8) (n : Nat) : (strncpy l n).length = n := by
  fun_induction strncpy l n <;> simp_all

theorem toNat_ne_zero {a : UInt8} (h : a ≠ 0) : a.toNat ≠ 0 := fun h0 => h (UInt8.toNat.inj h0)

theorem strncmp_strncpy {p q : List UInt8} (hp : 0 ∉ p) (hq : 0 ∉ q) (n : Nat) :
    strncmp p (strncpy q n) n = 0 ↔ p.take n = q.take n := by
  induction n generalizing p q with
  | zero => simp [strncmp]
  | succ n ih =>
    cases p with
    | nil =>
      cases q with
      | nil => simp [strncmp, strncpy]
      | cons b q =>
        have hb : b ≠ 0 := fun h => hq (by simp [h])
        simp [strncmp, strncpy, hb, toNat_ne_zero hb]
    | cons a p =>
      have ha : a ≠ 0 := fun h => hp (by simp [h])
      cases q with
      | nil => simp [strncmp, strncpy, ha, toNat_ne_zero ha]
      | cons b q =>
        have hb : b ≠ 0 := fun h => hq (by simp [h])
        have hrec := ih (fun h => hp (List.mem_cons_of_mem a h))
          (fun h => hq (List.mem_cons_of_mem b h))
        by_cases hab : a = b
        · subst hab
          simpa [strncmp, strncpy, ha] using hrec
        · have : a.toNat ≠ b.toNat := fun h => hab (UInt8.toNat.inj h)
          simp [strncmp, strncpy, hb, hab]
          omega

/-- `namecmp` with a name as it stands in an entry. -/
theorem namecmp_strncpy {p q : List UInt8} (hp : 0 ∉ p) (hq : 0 ∉ q) :
    namecmp p (strncpy q DIRSIZ) = 0 ↔ p.take DIRSIZ = q.take DIRSIZ :=
  strncmp_strncpy hp hq DIRSIZ

theorem length_encodeDirent (i : Nat) (name : List UInt8) :
    (encodeDirent { inum := i, name := strncpy name DIRSIZ }).length = DESIZE := by
  simp [encodeDirent, DIRSIZ, DESIZE]

theorem decode_encodeDirent (de : Dirent) :
    decodeDirent (encodeDirent de) = { de with inum := de.inum % 2 ^ 16 } := by
  simp only [decodeDirent, encodeDirent, List.getD_cons_zero, List.getD_cons_succ,
    UInt8.toNat_ofNat', List.drop_succ_cons, List.drop_zero, Dirent.mk.injEq, and_true]
  omega

/-! ## Looking up -/

variable {c : Fin NINODE} {s : FsState} {name : List UInt8}

theorem readDirent_eq {off : Nat} {l : List UInt8} (e : Panic)
    (h : readi c off DESIZE s = .ok (some l, s)) (hl : l.length = DESIZE) :
    readDirent c off e s = .ok (decodeDirent l, s) := by
  refine (run_bind h).trans ?_
  dsimp only
  rw [if_pos hl]
  rfl

/-- The entry at `off` does not have the name looked for. -/
def Passed (c : Fin NINODE) (name : List UInt8) (s : FsState) (off : Nat) : Prop :=
  ∃ de, readDirent c off .dirlinkRead s = .ok (de, s) ∧ (de.inum = 0 ∨ namecmp name de.name ≠ 0)

theorem lookupLoop_skip {offs : List Nat} (rest : List Nat)
    (h : ∀ off ∈ offs, Passed c name s off) :
    lookupLoop c name (offs ++ rest) s = lookupLoop c name rest s := by
  induction offs with
  | nil => rfl
  | cons off offs ih =>
    obtain ⟨de, hread, hde⟩ := h off (by simp)
    rw [List.cons_append, lookupLoop, run_bind hread]
    rw [← ih fun o ho => h o (by simp [ho])]
    rcases hde with h0 | hne
    · rw [if_pos h0]
    · by_cases h0 : de.inum = 0
      · rw [if_pos h0]
      · rw [if_neg h0, if_neg hne]

theorem lookupLoop_hit {off : Nat} {de : Dirent} (rest : List Nat)
    (hread : readDirent c off .dirlinkRead s = .ok (de, s)) (h0 : de.inum ≠ 0)
    (hn : namecmp name de.name = 0) :
    lookupLoop c name (off :: rest) s = (do
      let ip ← iget de.inum
      return some (ip, off) : FsM (Option (Fin NINODE × Nat))) s := by
  rw [lookupLoop, run_bind hread, if_neg h0, if_pos hn]

/-! ## The first use of an inode -/

theorem iget_miss {i : Nat} (h : ∀ c, 0 < (s.icache c).ref → (s.icache c).inum ≠ i)
    (hfree : ∃ c, (s.icache c).ref = 0) :
    ∃ c, (s.icache c).ref = 0 ∧ iget i s
      = .ok (c, s.withInode c { s.icache c with inum := i, ref := 1, valid := false }) := by
  have hnone : (List.finRange NINODE).find? (fun c =>
      decide (0 < (s.icache c).ref ∧ (s.icache c).inum = i)) = none := by
    rw [List.find?_eq_none]
    rintro c - hc
    obtain ⟨h1, h2⟩ := of_decide_eq_true hc
    exact h c h1 h2
  obtain ⟨c₀, hc₀⟩ := hfree
  obtain ⟨c, hc⟩ : ∃ c, (List.finRange NINODE).find? (fun c =>
      decide ((s.icache c).ref = 0)) = some c := by
    refine Option.isSome_iff_exists.mp (List.find?_isSome.mpr ⟨c₀, List.mem_finRange _, ?_⟩)
    simpa using hc₀
  refine ⟨c, by simpa using List.find?_some hc, ?_⟩
  refine (run_bind (eval_eq i s)).trans (run_get.trans ?_)
  rw [hnone, hc]
  rfl

theorem ilock_read (hv : (s.icache c).valid = false)
    (ht : (dinode s.sb s.store (s.icache c).inum).type ≠ 0) :
    ilock c s = .ok ((), s.withInode c
      { s.icache c with d := dinode s.sb s.store (s.icache c).inum, valid := true }) := by
  refine run_get.trans ?_
  rw [hv, if_neg (by decide), run_bind (readInode_eq ..), run_bind (setInode_eq ..), if_neg ht]
  rfl

end StrideXv6.Fs
