import StrideXv6.Lib.Run
import StrideXv6.Log.Commit

set_option autoImplicit false

/-! # Transactions survive crashes whole or not at all

The disk is in one of two states that recovery can start from. `Clean L h`: the header says
`n = 0` and the home blocks are those of `h`. `Pending L t h`: the header and the log blocks
hold the transaction `t`, and the home blocks `t` does not write are those of `h`; what the
others hold does not matter, since installing `t` overwrites them.

`commit` leads from `Clean L h` through `Pending L t h` to `Clean L (t.apply h)`
(`spec_commit`); `recover_from_log` ends a pending transaction and changes nothing on a clean
log (`spec_recover_pending`, `spec_recover_clean`), however often it is interrupted. So the
disk with its crashes refines a store whose transactions are atomic (`crash_atomic`).
-/

namespace StrideXv6.Log

open Bytes Crash Runs Function

variable {L : Layout}
variable {h d : Disk} {b : Nat}

/-! ## Transactions -/

theorem mem_foldl_absorb (l acc : List Nat) (b : Nat) :
    b ∈ l.foldl absorb acc ↔ b ∈ acc ∨ b ∈ l := by
  induction l generalizing acc with
  | nil => simp
  | cons a l ih =>
    rw [List.foldl_cons, ih, mem_absorb, List.mem_cons, or_assoc]

theorem foldl_setDirty_isSome (us : List (Nat × Block)) (c : Nat → Option Block) (b : Nat) :
    (us.foldl setDirty c b).isSome = true ↔ (c b).isSome = true ∨ b ∈ us.map Prod.fst := by
  induction us generalizing c with
  | nil => simp
  | cons u us ih =>
    rw [List.foldl_cons, ih, setDirty, update_apply]
    by_cases hb : b = u.1 <;> simp [hb]

variable (t : Tx L)

/-- The blocks in the header are those with a dirty buffer. -/
theorem Tx.mem_lh (b : Nat) : b ∈ t.lh ↔ (t.cache b).isSome = true := by
  simp [Tx.lh, Tx.cache, mem_foldl_absorb, foldl_setDirty_isSome]

theorem Tx.lh_home (hb : b ∈ t.lh) : L.Home b := by
  rw [Tx.lh, mem_foldl_absorb] at hb
  obtain ⟨u, hu, rfl⟩ := List.mem_map.mp (hb.resolve_left (by simp))
  exact t.home u hu

theorem Tx.cache_log (hb : ¬ L.Home b) : t.cache b = none := by
  by_contra h
  exact hb (t.lh_home ((t.mem_lh b).mpr (Option.isSome_iff_ne_none.mpr h)))

theorem Tx.decodeHead_encodeHead (buf : Block) :
    decodeHead (encodeHead buf t.lh) = t.lh := by
  refine Log.decodeHead_encodeHead buf t.cap fun b hb => ?_
  have := (t.lh_home hb).1
  have := L.int
  omega

/-! ## The two states of the disk -/

def Clean (L : Layout) (h d : Disk) : Prop :=
  headN (d L.start) = 0 ∧ ∀ b, L.Home b → d b = h b

/-- The first `i` blocks of `t` are in the log. -/
def Logged (t : Tx L) (i : Nat) (d : Disk) : Prop :=
  ∀ j (hj : j < t.lh.length), j < i → t.cache t.lh[j] = some (d (L.start + j + 1))

/-- The first `i` blocks of `t` are installed. -/
def Installed (t : Tx L) (i : Nat) (d : Disk) : Prop :=
  ∀ j (hj : j < t.lh.length), j < i → t.cache t.lh[j] = some (d t.lh[j])

structure Pending (L : Layout) (t : Tx L) (h d : Disk) : Prop where
  head : decodeHead (d L.start) = t.lh
  logged : Logged t t.lh.length d
  home : ∀ b, L.Home b → b ∉ t.lh → d b = h b

theorem not_home_start (L : Layout) : ¬ L.Home L.start := by
  rintro ⟨-, h⟩
  have := L.pos
  omega

/-- The log block of the `j`-th entry. -/
theorem Tx.not_home_log {j : Nat} (hj : j < t.lh.length) :
    ¬ L.Home (L.start + j + 1) := by
  rintro ⟨-, h⟩
  have : t.lh.length ≤ L.size - 1 := t.fits
  omega

theorem ne_of_home {a b : Nat} (ha : L.Home a) (hb : ¬ L.Home b) : a ≠ b := by
  rintro rfl
  exact hb ha

/-- Writes to the log area leave the home blocks alone. -/
theorem home_update (v : Block) (hb : ¬ L.Home b)
    (hd : ∀ b, L.Home b → d b = h b) : ∀ b', L.Home b' → Function.update d b v b' = h b' :=
  fun b' hb' => by rw [update_of_ne (ne_of_home hb' hb), hd b' hb']

/-! ## write_log -/

variable {P R C : Disk → Prop}

theorem spec_bread (cache : Nat → Option Block) (b : Nat) (hC : ∀ d, P d → C d) :
    Spec P (bread cache b) (fun v d => P d ∧ v = (cache b).getD (d b)) C := by
  unfold bread
  cases hb : cache b with
  | some v => exact spec_pure (fun d hd => ⟨hd, rfl⟩) hC
  | none => exact Crash.spec_bread hC

/-- The header stays as it is while the log blocks are written. -/
theorem spec_writeLog (h : Disk) :
    Spec (Clean L h) (writeLog L t.cache t.lh)
      (fun _ d => Clean L h d ∧ Logged t t.lh.length d) (Clean L h) := by
  have hstart : ∀ d, Clean L h d → Clean L h d ∧ Logged t 0 d :=
    fun d hd => ⟨hd, fun j _ hj => absurd hj (by omega)⟩
  refine spec_conseq (spec_forEach (C := Clean L h) (I := fun i d => Clean L h d ∧ Logged t i d)
    t.lh 0 (fun j hj => ?_) fun d hd => hd.1) hstart (fun _ d hd => ?_) fun _ hd => hd
  · rw [zero_add]
    refine spec_bind (spec_bread _ _ fun d hd => hd.1) fun _ =>
      spec_bind (spec_bread _ _ fun d hd => hd.1.1) fun data => ?_
    refine spec_conseq (spec_bwrite (R := fun d => Clean L h d ∧ Logged t (j + 1) d)
      (fun d hd => ?_) (fun d hd => hd.1.1.1) fun d hd => hd.1) (fun d hd => hd) (fun _ _ hd => hd)
      fun _ hd => hd
    obtain ⟨⟨⟨⟨hn, hhome⟩, hlog⟩, -⟩, rfl⟩ := hd
    refine ⟨⟨?_, home_update _ (t.not_home_log hj) hhome⟩, fun i hi hij => ?_⟩
    · rwa [update_of_ne (by omega)]
    · by_cases hij' : i = j
      · subst hij'
        obtain ⟨v, hv⟩ := Option.isSome_iff_exists.mp ((t.mem_lh _).mp (List.getElem_mem hj))
        simp [hv]
      · rw [update_of_ne (by omega)]
        exact hlog i hi (by omega)
  · rwa [zero_add] at hd

/-! ## write_head -/

theorem spec_writeHead (lh : List Nat)
    (hR : ∀ d, P d → R (Function.update d L.start (encodeHead (d L.start) lh)))
    (hC : ∀ d, P d → C d) (hC' : ∀ d, R d → C d) :
    Spec P (writeHead L lh) (fun _ => R) C := by
  refine spec_bind (Crash.spec_bread hC) fun buf => ?_
  refine spec_conseq (spec_bwrite (R := R) (fun d hd => ?_) (fun d hd => hC d hd.1) hC')
    (fun d hd => hd) (fun _ _ hd => hd) fun _ hd => hd
  obtain ⟨hd, rfl⟩ := hd
  exact hR d hd

/-- The write that commits: before it the disk is clean, after it `t` is pending. -/
theorem Pending.of_writeHead {t : Tx L} (hd : Clean L h d) (hl : Logged t t.lh.length d) :
    Pending L t h (Function.update d L.start (encodeHead (d L.start) t.lh)) := by
  refine ⟨?_, fun j hj hj' => ?_, fun b hb _ => ?_⟩
  · rw [update_self, t.decodeHead_encodeHead]
  · rw [update_of_ne (by omega)]
    exact hl j hj hj'
  · rw [update_of_ne (ne_of_home hb (not_home_start L)), hd.2 b hb]

/-- The write that erases the transaction. -/
theorem Clean.of_writeHead {t : Tx L} (hd : Pending L t h d) (hi : Installed t t.lh.length d) :
    Clean L (t.apply h) (Function.update d L.start (encodeHead (d L.start) [])) := by
  refine ⟨?_, fun b hb => ?_⟩
  · rw [update_self]
    exact headN_encodeHead _ (by simp)
  · rw [update_of_ne (ne_of_home hb (not_home_start L)), Tx.apply]
    by_cases hmem : b ∈ t.lh
    · obtain ⟨j, hj, rfl⟩ := List.mem_iff_getElem.mp hmem
      rw [hi j hj hj, Option.getD_some]
    · have hnone : t.cache b = none := by
        rw [t.mem_lh] at hmem
        exact Option.not_isSome_iff_eq_none.mp hmem
      rw [hnone, Option.getD_none, hd.home b hb hmem]

theorem Clean.of_writeHead_nil (hd : Clean L h d) :
    Clean L h (Function.update d L.start (encodeHead (d L.start) [])) := by
  refine ⟨?_, home_update _ (not_home_start L) hd.2⟩
  rw [update_self]
  exact headN_encodeHead _ (by simp)

/-! ## install_trans -/

/-- Installing overwrites blocks of `t` only, so `t` stays pending. -/
theorem Pending.update {t : Tx L} (hd : Pending L t h d) (v : Block)
    (hb : b ∈ t.lh) : Pending L t h (Function.update d b v) := by
  have hhome := t.lh_home hb
  refine ⟨?_, fun j hj hj' => ?_, fun b' hb' hmem => ?_⟩
  · rw [update_of_ne (ne_of_home hhome (not_home_start L)).symm, hd.head]
  · rw [update_of_ne (ne_of_home hhome (t.not_home_log hj)).symm]
    exact hd.logged j hj hj'
  · have hne : b' ≠ b := by
      rintro rfl
      exact hmem hb
    rw [update_of_ne hne, hd.home b' hb' hmem]

/-- `install_trans`, called by `commit` with the dirty buffers of `t` or by recovery with
none: the log blocks have no dirty buffer in either case. -/
theorem spec_installTrans (h : Disk) {cache : Nat → Option Block}
    (hcache : ∀ b, ¬ L.Home b → cache b = none) :
    Spec (Pending L t h) (installTrans L cache t.lh)
      (fun _ d => Pending L t h d ∧ Installed t t.lh.length d) (Pending L t h) := by
  have hstart : ∀ d, Pending L t h d → Pending L t h d ∧ Installed t 0 d :=
    fun d hd => ⟨hd, fun j _ hj => absurd hj (by omega)⟩
  refine spec_conseq (spec_forEach (C := Pending L t h)
    (I := fun i d => Pending L t h d ∧ Installed t i d) t.lh 0 (fun j hj => ?_) fun d hd => hd.1)
    hstart (fun _ d hd => ?_) fun _ hd => hd
  · rw [zero_add]
    refine spec_bind (spec_bread _ _ fun d hd => hd.1) fun lbuf =>
      spec_bind (spec_bread _ _ fun d hd => hd.1.1) fun _ => ?_
    refine spec_conseq (spec_bwrite (R := fun d => Pending L t h d ∧ Installed t (j + 1) d)
      (fun d hd => ?_) (fun d hd => hd.1.1.1) fun d hd => hd.1) (fun d hd => hd) (fun _ _ hd => hd)
      fun _ hd => hd
    obtain ⟨⟨⟨hp, hins⟩, rfl⟩, -⟩ := hd
    refine ⟨hp.update _ (List.getElem_mem hj), fun i hi hij => ?_⟩
    have hlog := hp.logged j hj hj
    rw [hcache _ (t.not_home_log hj), Option.getD_none]
    by_cases heq : t.lh[i] = t.lh[j]
    · rw [heq, update_self, hlog]
    · rw [update_of_ne heq]
      refine hins i hi (lt_of_le_of_ne (by omega) ?_)
      rintro rfl
      exact heq rfl
  · rwa [zero_add] at hd

/-! ## commit and recovery -/

/-- Where a crash can leave the disk while `t` commits. -/
def MidCommit (L : Layout) (t : Tx L) (h d : Disk) : Prop :=
  Clean L h d ∨ Pending L t h d ∨ Clean L (t.apply h) d

theorem Tx.apply_of_empty (ht : t.lh.length = 0) (h : Disk) : t.apply h = h := by
  funext b
  have hmem : b ∉ t.lh := by simp [List.length_eq_zero_iff.mp ht]
  rw [t.mem_lh] at hmem
  rw [Tx.apply, Option.not_isSome_iff_eq_none.mp hmem, Option.getD_none]

theorem spec_commit (h : Disk) :
    Spec (Clean L h) (commit L t.cache t.lh) (fun _ => Clean L (t.apply h)) (MidCommit L t h) := by
  unfold commit
  split
  · refine spec_bind (spec_conseq (spec_writeLog t h) (fun _ hd => hd) (fun _ _ hd => hd)
      fun _ hd => Or.inl hd) fun _ => ?_
    refine spec_bind (spec_writeHead (R := Pending L t h) t.lh
      (fun d hd => .of_writeHead hd.1 hd.2) (fun _ hd => Or.inl hd.1)
      fun _ hd => Or.inr (Or.inl hd)) fun _ => ?_
    refine spec_bind (spec_conseq (spec_installTrans t h fun b hb => t.cache_log hb)
      (fun _ hd => hd) (fun _ _ hd => hd) fun _ hd => Or.inr (Or.inl hd)) fun _ => ?_
    exact spec_writeHead (R := Clean L (t.apply h)) [] (fun d hd => .of_writeHead hd.1 hd.2)
      (fun _ hd => Or.inr (Or.inl hd.1)) fun _ hd => Or.inr (Or.inr hd)
  · rename_i hlen
    rw [t.apply_of_empty (by omega)]
    exact spec_pure (fun _ hd => hd) fun _ hd => Or.inl hd

theorem spec_recover_clean (h : Disk) :
    Spec (Clean L h) (recoverFromLog L) (fun _ => Clean L h) (Clean L h) := by
  refine spec_bind (Q := fun lh d => Clean L h d ∧ lh = []) ?_ fun lh => ?_
  · refine spec_bind (Crash.spec_bread fun _ hd => hd) fun buf => spec_pure (fun d hd => ?_)
      fun _ hd => hd.1
    obtain ⟨hd, rfl⟩ := hd
    exact ⟨hd, decodeHead_of_clean hd.1⟩
  · refine spec_bind (Q := fun _ => Clean L h) ?_ fun _ =>
      spec_writeHead [] (fun _ hd => hd.of_writeHead_nil) (fun _ hd => hd) fun _ hd => hd
    intro d hd
    obtain ⟨hd, rfl⟩ := hd
    exact spec_pure (P := Clean L h) (fun _ hd => hd) (fun _ hd => hd) d hd

theorem spec_recover_pending (h : Disk) :
    Spec (Pending L t h) (recoverFromLog L) (fun _ => Clean L (t.apply h)) (MidCommit L t h) := by
  refine spec_bind (Q := fun lh d => Pending L t h d ∧ lh = t.lh) ?_ fun lh => ?_
  · refine spec_bind (Crash.spec_bread fun _ hd => Or.inr (Or.inl hd)) fun buf =>
      spec_pure (fun d hd => ?_) fun _ hd => Or.inr (Or.inl hd.1)
    obtain ⟨hd, rfl⟩ := hd
    exact ⟨hd, hd.head⟩
  · refine spec_bind (Q := fun _ d => Pending L t h d ∧ Installed t t.lh.length d) ?_ fun _ =>
      spec_writeHead [] (fun _ hd => .of_writeHead hd.1 hd.2) (fun _ hd => Or.inr (Or.inl hd.1))
        fun _ hd => Or.inr (Or.inr hd)
    intro d hd
    obtain ⟨hd, rfl⟩ := hd
    exact spec_conseq (spec_installTrans t h fun _ _ => rfl) (fun _ hd => hd) (fun _ _ hd => hd)
      (fun _ hd => Or.inr (Or.inl hd)) d hd

/-- Recovery decides: from wherever a commit was interrupted it ends with all of `t` or
nothing of it, and an interrupted recovery can be started again. -/
theorem spec_recover (h : Disk) :
    Spec (MidCommit L t h) (recoverFromLog L) (fun _ d => Clean L h d ∨ Clean L (t.apply h) d)
      (MidCommit L t h) := by
  refine spec_or ?_ (spec_or ?_ ?_)
  · exact spec_conseq (spec_recover_clean h) (fun _ hd => hd) (fun _ _ hd => Or.inl hd)
      fun _ hd => Or.inl hd
  · exact spec_conseq (spec_recover_pending t h) (fun _ hd => hd) (fun _ _ hd => Or.inr hd)
      fun _ hd => hd
  · exact spec_conseq (spec_recover_clean (t.apply h)) (fun _ hd => hd) (fun _ _ hd => Or.inr hd)
      fun _ hd => Or.inr (Or.inr hd)

/-! ## Runs with crashes -/

/-- The events in the life of a disk: a transaction commits; or the machine crashes after `k`
block writes of a commit, recovery is interrupted after `rs` writes, one attempt each, and
then runs to completion. -/
inductive Event (L : Layout) where
  | commit (t : Tx L)
  | crash (t : Tx L) (k : Nat) (rs : List Nat)

def step (L : Layout) (d : Disk) : Event L → Option Disk
  | .commit t => some (run (commit L t.cache t.lh) d).2
  | .crash t k rs =>
    some (recoverAfter (recoverFromLog L) rs (crashAfter k (commit L t.cache t.lh) d))

/-- The transactions a run with these events may have applied: every one that committed, and
any of those whose commit was interrupted by a crash. -/
inductive Applied : List (Event L) → List (Tx L) → Prop
  | nil : Applied [] []
  | commit {es : List (Event L)} {ts : List (Tx L)} (t : Tx L) (h : Applied es ts) :
      Applied (.commit t :: es) (t :: ts)
  | lost {es : List (Event L)} {ts : List (Tx L)} (t : Tx L) (k : Nat) (rs : List Nat)
      (h : Applied es ts) : Applied (.crash t k rs :: es) ts
  | kept {es : List (Event L)} {ts : List (Tx L)} (t : Tx L) (k : Nat) (rs : List Nat)
      (h : Applied es ts) : Applied (.crash t k rs :: es) (t :: ts)

/-- The store whose transactions are atomic: all blocks of each transaction, in order. -/
def applyAll (ts : List (Tx L)) (h : Disk) : Disk := ts.foldl (fun h t => t.apply h) h

/-- **One event of the disk is one of the atomic store.** -/
theorem step_refines {h d d' : Disk} {e : Event L} (hd : Clean L h d) (hst : step L d e = some d') :
    ∃ ts, Applied [e] ts ∧ Clean L (applyAll ts h) d' := by
  cases e with
  | commit t =>
    obtain rfl := Option.some.inj hst
    exact ⟨[t], .commit t .nil, ((spec_commit t h) d hd).1⟩
  | crash t k rs =>
    obtain rfl := Option.some.inj hst
    have hcrash : MidCommit L t h (crashAfter k (commit L t.cache t.lh) d) :=
      ((spec_commit t h) d hd).2 k
    rcases recovered (spec_recover t h) rs hcrash with h' | h'
    · exact ⟨[], .lost t k rs .nil, h'⟩
    · exact ⟨[t], .kept t k rs .nil, h'⟩

/-- **Crash atomicity.** Over any sequence of commits and crashes, with any number of
interrupted recoveries after each crash: the home blocks are those left by applying some of
the transactions as a whole, one after the other, all that committed being among them, and
the header on disk says `n = 0`. -/
theorem crash_atomic (L : Layout) (d : Disk) (tr : List (Trans Disk (Event L)))
    (hn : headN (d L.start) = 0) (hrun : IsRun (step L) d tr) :
    ∃ ts, Applied (tr.map Trans.ev) ts ∧
      (∀ b, L.Home b → last d tr b = applyAll ts d b) ∧ headN (last d tr L.start) = 0 := by
  -- the induction needs the atomic store `h` beside the disk that stands for it
  have hsim : ∀ {d : Disk} {tr : List (Trans Disk (Event L))}, IsRun (step L) d tr →
      ∀ h, Clean L h d → ∃ ts, Applied (tr.map Trans.ev) ts ∧ Clean L (applyAll ts h) (last d tr) := by
    intro d tr hrun
    induction hrun with
    | nil d => exact fun h hd => ⟨[], .nil, hd⟩
    | @cons d d' e tr hst _ ih =>
      intro h hd
      obtain ⟨ts, hts, hd'⟩ := step_refines hd hst
      obtain ⟨ts', hts', hlast⟩ := ih _ hd'
      cases hts with
      | commit t h' => cases h'; exact ⟨t :: ts', .commit t hts', hlast⟩
      | lost t k rs h' => cases h'; exact ⟨ts', .lost t k rs hts', hlast⟩
      | kept t k rs h' => cases h'; exact ⟨t :: ts', .kept t k rs hts', hlast⟩
  obtain ⟨ts, hts, hlast⟩ := hsim hrun d ⟨hn, fun _ _ => rfl⟩
  exact ⟨ts, hts, hlast.2, hlast.1⟩

/-- The log as `mkfs` lays it out. -/
def mkfsLayout : Layout :=
  { start := 2, size := LOGSIZE, disksize := 1000, pos := by decide, inDisk := by decide,
    int := by decide }

/-- One block of ones. -/
def ones (b : Nat) (hb : mkfsLayout.Home b) : Tx mkfsLayout :=
  { updates := [(b, fun _ => 1)], home := by simpa using hb,
    fits := by simp [absorb, mkfsLayout, LOGSIZE, MAXOPBLOCKS],
    cap := by simp [absorb, LOGSIZE, MAXOPBLOCKS] }

/-- A transaction commits, and the next one is interrupted after two block writes, when its
header has been written; so is the first attempt to recover. -/
def commitThenCrash : List (Event mkfsLayout) :=
  [.commit (ones 100 (by decide)), .crash (ones 200 (by decide)) 2 [0]]

theorem crash_atomic_zero :
    ∃ ts, Applied ((trace (step mkfsLayout) (fun _ _ => 0) commitThenCrash).map Trans.ev) ts ∧
      (∀ b, mkfsLayout.Home b →
        last (fun _ _ => 0) (trace (step mkfsLayout) (fun _ _ => 0) commitThenCrash) b
          = applyAll ts (fun _ _ => 0) b) ∧
      headN (last (fun _ _ => 0) (trace (step mkfsLayout) (fun _ _ => 0) commitThenCrash)
        mkfsLayout.start) = 0 :=
  crash_atomic mkfsLayout (fun _ _ => 0) _ (by decide) (isRun_trace _ _ _)

end StrideXv6.Log
