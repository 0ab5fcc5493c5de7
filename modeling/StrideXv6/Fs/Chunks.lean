import StrideXv6.Fs.Filewrite

set_option autoImplicit false

/-! # The sections of `filewrite` make one write

`filewrite` cuts a write into sections that do not end where blocks end, and moves the offset of
the file after each. One section leaves the free blocks that the rest of the range needs
(`needed_add_le`), so the loop never stops for another reason than the length of the file, and
what it leaves is what `writei` leaves for the whole range (`filewrite_eq_writei`).
-/

namespace StrideXv6.Fs

open Bytes Ownership Hoare Recording Logging

/-! ## The blocks that the rest of a range needs -/

theorem overwrite_append {l : List UInt8} {off : Nat} (a b : List UInt8) (h : off ≤ l.length) :
    overwrite (overwrite l off a) (off + a.length) b = overwrite l off (a ++ b) := by
  have hlen : (l.take off ++ a).length = off + a.length := by
    rw [List.length_append, List.length_take, min_eq_left h]
  unfold overwrite
  rw [List.take_left' hlen, List.append_assoc (l.take off), List.length_append, ← Nat.add_assoc,
    List.drop_append, hlen, List.drop_of_length_le (by omega), List.nil_append, List.drop_drop]
  congr 2
  omega

theorem overwrite_nil (l : List UInt8) (off : Nat) : overwrite l off [] = l := by
  rw [overwrite, List.append_nil, List.length_nil, Nat.add_zero, List.take_append_drop]

/-- The blocks `bns` are mapped first. -/
theorem needed_add_le {st st' : Disk} {d d' : Dinode} {bns bns' all : List Nat} (hnd : bns.Nodup)
    (hnd' : bns'.Nodup) (hsub : bns ⊆ all) (hsub' : bns' ⊆ all)
    (hmapped : ∀ bn, mapped st' d' bn ≠ 0 ↔ mapped st d bn ≠ 0 ∨ bn ∈ bns)
    (hkept : d.addrs ind ≠ 0 → d'.addrs ind ≠ 0) :
    needed st d bns + needed st' d' bns' ≤ needed st d all := by
  have hzero : ∀ bn, mapped st' d' bn = 0 → mapped st d bn = 0 ∧ bn ∉ bns := by
    intro bn h0
    have hnot := mt (hmapped bn).mpr (not_not.mpr h0)
    rw [not_or, not_not] at hnot
    exact hnot
  have hlen : (bns.filter fun bn => mapped st d bn = 0).length
      + (bns'.filter fun bn => mapped st' d' bn = 0).length
      ≤ (all.filter fun bn => mapped st d bn = 0).length := by
    rw [← List.length_append]
    refine (List.Nodup.subperm ?_ ?_).length_le
    · refine (hnd.filter _).append (hnd'.filter _) fun bn h1 h2 => ?_
      have h0 : mapped st' d' bn = 0 := by simpa using (List.mem_filter.mp h2).2
      exact (hzero bn h0).2 (List.mem_filter.mp h1).1
    · intro bn hbn
      rcases List.mem_append.mp hbn with h | h
      · exact List.mem_filter.mpr ⟨hsub (List.mem_filter.mp h).1, (List.mem_filter.mp h).2⟩
      · have h0 : mapped st' d' bn = 0 := by simpa using (List.mem_filter.mp h).2
        exact List.mem_filter.mpr ⟨hsub' (List.mem_filter.mp h).1, by simpa using (hzero bn h0).1⟩
  have hfirst : (∃ bn ∈ bns, ThroughInd st d bn) → d'.addrs ind ≠ 0 := by
    rintro ⟨bn, hbn, hle, -⟩ h0
    exact (hmapped bn).mpr (Or.inr hbn) (mapped_zero_of_ind hle h0)
  have hsecond : (∃ bn ∈ bns', ThroughInd st' d' bn) → ∃ bn ∈ all, ThroughInd st d bn := by
    rintro ⟨bn, hbn, hle, h0⟩
    exact ⟨bn, hsub' hbn, hle, (hzero bn h0).1⟩
  have hall : (∃ bn ∈ bns, ThroughInd st d bn) → ∃ bn ∈ all, ThroughInd st d bn := by
    rintro ⟨bn, hbn, hth⟩
    exact ⟨bn, hsub hbn, hth⟩
  unfold needed
  -- the indirect block is taken once
  by_cases h1 : (∃ bn ∈ bns, ThroughInd st d bn) ∧ d.addrs ind = 0
  · rw [if_pos h1, if_neg fun h2 => hfirst h1.1 h2.2, if_pos ⟨hall h1.1, h1.2⟩]
    omega
  · rw [if_neg h1]
    by_cases h2 : (∃ bn ∈ bns', ThroughInd st' d' bn) ∧ d'.addrs ind = 0
    · rw [if_pos h2, if_pos ⟨hsecond h2.1, not_imp_not.mp hkept h2.2⟩]
      omega
    · rw [if_neg h2]
      omega

theorem needed_mono {st : Disk} {d : Dinode} {bns all : List Nat} (hnd : bns.Nodup)
    (hsub : bns ⊆ all) : needed st d bns ≤ needed st d all := by
  have hadd : needed st d [] + needed st d bns ≤ needed st d all :=
    needed_add_le List.nodup_nil hnd (List.nil_subset all) hsub (fun bn => by simp) id
  have hnil : needed st d [] = 0 := by simp [needed]
  omega

theorem span_subset {off n off' n' : Nat} (h : off' ≤ off) (h' : off + n ≤ off' + n') :
    span off n ⊆ span off' n' := by
  intro bn hbn
  obtain ⟨x, h1, h2, rfl⟩ := mem_span.mp hbn
  exact mem_span.mpr ⟨x, by omega, by omega, rfl⟩

variable {c : Fin NINODE} {f : Fin NFILE} {s t u : FsState}
variable {nd : Node} {src : List UInt8} {ls : List (List Nat)} {l : List Nat}

/-- There are enough free blocks for writing `n` bytes at `off` to inode `i`. -/
def Room (i off n : Nat) (s : FsState) : Prop :=
  needed s.store (dinode s.sb s.store i) (span off n) ≤ (freeBlocks s).length

theorem Room.mono {i off n n' : Nat} (h : Room i off n' s) (hn : n ≤ n') : Room i off n s :=
  (needed_mono (nodup_span ..) (span_subset le_rfl (by omega))).trans h

theorem resized_mapped {n : Nat} (h : Work c t) (bn : Nat) :
    mapped (resized c n t).store ((resized c n t).icache c).d bn
      = mapped t.store (t.icache c).d bn := by
  have hw : Work c (t.withDinode c { (t.icache c).d with size := n }) := h.withDinode rfl h.type
  rw [resized_d, mapped_of_addrs (d := (t.icache c).d) rfl]
  refine mapped_congr fun ha => putInode_elsewhere _ hw.layout hw.inum _ (Or.inr ?_)
  exact (h.blocks.data _ _ (h.owner_addr ha)).1

theorem resized_allocs {n : Nat} (h : Work c t) : Allocs [] t (resized c n t) := by
  have hw : Work c (t.withDinode c { (t.icache c).d with size := n }) := h.withDinode rfl h.type
  exact allocs_nil_of_bit rfl fun b hb => bit_putInode _ hw.layout hw.inum _ hb

section Wrote

variable {off : Nat} {src : List UInt8} {bs r r' : List Nat}

theorem Logging.Wrote.mapped_eq (h : Wrote c off src s t u bs r r') (bn : Nat) :
    mapped u.store (u.icache c).d bn = mapped t.store (t.icache c).d bn := by
  rw [h.state]
  split
  · exact resized_mapped h.written.work bn
  · rfl

theorem Logging.Wrote.addrs_eq (h : Wrote c off src s t u bs r r') :
    (u.icache c).d.addrs = (t.icache c).d.addrs := by
  rw [h.state]
  split
  · rw [resized_d]
  · rfl

theorem Logging.Wrote.allocs (h : Wrote c off src s t u bs r r') : Allocs bs s u := by
  have hlast : Allocs [] t u := by
    rw [h.state]
    split
    · exact resized_allocs h.written.work
    · exact ⟨rfl, rfl⟩
  have := h.log.allocs.trans hlast
  rwa [List.append_nil] at this

/-- A write leaves room for what comes behind it. -/
theorem Logging.Wrote.room (h : Wrote c off src s t u bs r r') (hs : FsOk s) (hc : Locked c s)
    (hu : FsOk u) (hcu : Locked c u) {i n : Nat} (his : (s.icache c).inum = i)
    (hiu : (u.icache c).inum = i) (hroom : Room i off (src.length + n) s) :
    Room i (off + src.length) n u := by
  unfold Room at *
  rw [← his, ← hs.d_eq hc] at hroom
  rw [← hiu, ← hu.d_eq hcu]
  have hadd : needed s.store (s.icache c).d _ + needed u.store (u.icache c).d _
      ≤ needed s.store (s.icache c).d _ := needed_add_le (nodup_span off src.length) (nodup_span (off + src.length) n)
    (span_subset le_rfl (by omega)) (span_subset (Nat.le_add_right ..) (Nat.add_assoc ..).le)
    (fun bn => by rw [h.mapped_eq, h.written.mapped, mem_span]) fun h0 => by
      have hp := h.written.pointers (.addr ind) h0
      rw [held, held] at hp
      rw [h.addrs_eq, hp]
      exact h0
  have hlen := h.allocs.length
  have htaken := h.log.length
  omega

end Wrote

/-! ## One section -/

/-- The file `f` is open for the node `nd` in entry `c`, at an offset in it. -/
structure Opened (f : Fin NFILE) (c : Fin NINODE) (nd : Node) (s : FsState) : Prop where
  ok : FsOk s
  ref : 0 < (s.icache c).ref
  ip : (s.ftable f).ip = c
  node : node s (s.icache c).inum = some nd
  type : nd.type = T_FILE
  off : (s.ftable f).off ≤ nd.bytes.length

theorem loaded_ok (h : FsOk s) (hr : 0 < (s.icache c).ref)
    (hn : (node s (s.icache c).inum).isSome) :
    ilock c s = .ok ((), loaded c s) ∧ FsOk (loaded c s) ∧ Locked c (loaded c s) := by
  have htype : ((loaded c s).icache c).d.type ≠ 0 := by
    unfold loaded
    split
    · rename_i hv
      exact (h.coherent c hr hv).2
    · rw [withInode_icache_self]
      intro h0
      rw [node, nodeOf, if_pos h0] at hn
      cases hn
  have hrun := ilock_eq htype
  obtain ⟨hok, hl, -⟩ := (ilock_spec h hr).ok rfl hrun
  exact ⟨hrun, hok, hl⟩

@[simp] theorem loaded_inum (c : Fin NINODE) (s : FsState) :
    ((loaded c s).icache c).inum = (s.icache c).inum := by
  unfold loaded
  split <;> simp

theorem loaded_rest (c : Fin NINODE) (s : FsState) :
    (loaded c s).store = s.store ∧ (loaded c s).sb = s.sb ∧ (loaded c s).ftable = s.ftable := by
  unfold loaded
  split <;> exact ⟨rfl, rfl, rfl⟩

theorem Room.loaded {i off n : Nat} (h : Room i off n s) (c : Fin NINODE) :
    Room i off n (loaded c s) := by
  obtain ⟨hst, hsb, -⟩ := loaded_rest c s
  unfold Room freeBlocks at *
  rwa [hst, hsb]

theorem Opened.loaded (h : Opened f c nd s) :
    ilock c s = .ok ((), loaded c s) ∧ FsOk (loaded c s) ∧ Locked c (loaded c s) ∧
      Fs.node (loaded c s) ((loaded c s).icache c).inum = some nd := by
  obtain ⟨hlock, hok, hl⟩ := loaded_ok h.ok h.ref (by rw [h.node]; rfl)
  obtain ⟨hst, hsb, -⟩ := loaded_rest c s
  refine ⟨hlock, hok, hl, ?_⟩
  rw [loaded_inum, Fs.node, hst, hsb]
  exact h.node

theorem Opened.type_ne (h : Opened f c nd s) : nd.type ≠ T_DEV := by
  rw [h.type]
  decide

/-- With room for it, `writei` writes what does not go beyond the longest file. -/
theorem writei_room {off n : Nat} (h : FsOk s) (hc : Locked c s)
    (hnd : node s (s.icache c).inum = some nd) (htype : nd.type ≠ T_DEV)
    (hoff : off ≤ nd.bytes.length) (hle : off + src.length ≤ MAXFILE * BSIZE)
    (hroom : Room (s.icache c).inum off (src.length + n) s) :
    ∃ t, writei c off src s = .ok (some src.length, t) ∧ FsOk t ∧ Confined c s t ∧
      node t (s.icache c).inum = some { nd with bytes := overwrite nd.bytes off src } ∧
      Room (s.icache c).inum (off + src.length) n t := by
  have hmax : MAXFILE * BSIZE < 2 ^ 32 := by rw [MAXFILE_eq, BSIZE_eq]; decide
  have hn := hnd
  rw [h.node_eq hc, nodeOf, if_neg (h.type_ne hc), Option.some.injEq] at hn
  have hlen : nd.bytes.length = (s.icache c).d.size := by rw [← hn]; exact length_contents _ _
  have hdev : (s.icache c).d.type ≠ T_DEV := by
    rw [← hn] at htype
    exact htype
  have hacc : ¬ Refused (s.icache c).d off src.length := by
    unfold Refused
    omega
  have hfree := hroom.mono (Nat.le_add_right src.length n)
  unfold Room at hfree
  rw [← h.d_eq hc] at hfree
  obtain ⟨t, ht⟩ := writei_succeeds (h.work hc) hdev hacc hfree
  obtain ⟨hok, hconf, -, nd', hnd', hres⟩ :=
    (writei_spec h hc hnd off (by omega)).ok rfl ht
  obtain ⟨-, _, _, _, _, hwr⟩ := writei_wrote (h.work hc) hdev hacc ht
  refine ⟨t, ht, hok, hconf, ?_,
    hwr.room h hc hok (hconf.locked hc) rfl hconf.inum hroom⟩
  generalize some src.length = r at hres
  cases hres with
  | device hd => exact absurd hd htype
  | refused _ hr => omega
  | done _ _ _ => exact hnd'

/-- The offset of the file is moved behind what is written. -/
def moved (f : Fin NFILE) (n : Nat) (s : FsState) : FsState :=
  { s with ftable := Function.update s.ftable f { s.ftable f with off := (s.ftable f).off + n } }

@[simp] theorem moved_file (f : Fin NFILE) (n : Nat) (s : FsState) :
    (moved f n s).ftable f = { s.ftable f with off := (s.ftable f).off + n } :=
  Function.update_self ..

theorem FsOk.moved (h : FsOk s) (f : Fin NFILE) (n : Nat) : FsOk (moved f n s) :=
  ⟨h.disk, h.inum, h.distinct, h.coherent⟩

theorem writeSection_room {n : Nat} (h : Opened f c nd s)
    (hpos : 0 < src.length) (hle : (s.ftable f).off + src.length ≤ MAXFILE * BSIZE)
    (hroom : Room (s.icache c).inum (s.ftable f).off (src.length + n) s) :
    ∃ t l, writeSection f src (s, []) = .ok (some src.length, t, l) ∧
      Opened f c { nd with bytes := overwrite nd.bytes (s.ftable f).off src } t ∧
      (t.icache c).inum = (s.icache c).inum ∧
      (t.ftable f).off = (s.ftable f).off + src.length ∧
      Room (s.icache c).inum ((s.ftable f).off + src.length) n t := by
  have hmax : MAXFILE * BSIZE < 2 ^ 32 := by rw [MAXFILE_eq, BSIZE_eq]; decide
  obtain rfl := h.ip
  generalize hc : (s.ftable f).ip = c at *
  obtain ⟨hlock, hok, hl, hnode⟩ := h.loaded
  obtain ⟨-, -, hft⟩ := loaded_rest c s
  obtain ⟨u, hu, hoku, hconf, hndu, hru⟩ := writei_room hok hl hnode h.type_ne h.off hle
    (by rw [loaded_inum]; exact hroom.loaded c)
  obtain ⟨l, hlog⟩ := (records_writei c _ _).exists_ok hu []
  rw [loaded_inum] at hndu hru
  have hfile : u.ftable = s.ftable := hconf.ftable.trans hft
  have hin : (u.icache c).inum = (s.icache c).inum := hconf.inum.trans (loaded_inum c s)
  refine ⟨moved f src.length u, l, ?_, ?_, hin, ?_, hru⟩
  · unfold writeSection
    rw [run_bind (quiet_ok [] rfl)]
    rw [hc, run_bind (quiet_ok [] hlock), run_bind hlog]
    dsimp only
    rw [if_pos hpos, Nat.mod_eq_of_lt (by omega), moved, congrFun hfile f, ← hc]
    rfl
  · refine ⟨hoku.moved f _, (hconf.locked hl).ref, ?_, ?_, h.type, ?_⟩
    · rw [moved_file, hfile]
      exact hc
    · exact (congrArg (node u) hin).trans hndu
    · rw [moved_file, hfile]
      dsimp only
      rw [length_overwrite src h.off]
      exact le_max_right ..
  · rw [moved_file, hfile]

theorem Opened.length_le (h : Opened f c nd s) :
    nd.bytes.length ≤ MAXFILE * BSIZE := by
  have hn := h.node
  unfold Fs.node nodeOf at hn
  split at hn
  · cases hn
  · rename_i ht
    rw [← Option.some.inj hn]
    exact (length_contents _ _).trans_le (h.ok.disk.sized _ (h.ok.inum c h.ref) ht).le

/-- A section that would go beyond the longest file writes nothing. -/
theorem writeSection_long (h : Opened f c nd s)
    (hsrc : src.length < 2 ^ 31) (hlt : MAXFILE * BSIZE < (s.ftable f).off + src.length) :
    writeSection f src (s, []) = .ok (none, loaded c s, []) := by
  obtain ⟨hlock, hok, hl, hn⟩ := h.loaded
  rw [hok.node_eq hl, nodeOf, if_neg (hok.type_ne hl), Option.some.injEq] at hn
  have hlen : nd.bytes.length = ((loaded c s).icache c).d.size := by
    rw [← hn]
    exact length_contents _ _
  have hdev : ((loaded c s).icache c).d.type ≠ T_DEV := by
    have htype := h.type_ne
    rw [← hn] at htype
    exact htype
  have hsize := (hok.sized hl).le
  have hoff := h.off
  have hmax : MAXFILE * BSIZE < 2 ^ 31 := by rw [MAXFILE_eq, BSIZE_eq]; decide
  unfold writeSection
  rw [run_bind (quiet_ok [] rfl)]
  rw [h.ip, run_bind (quiet_ok [] hlock),
    run_bind (Logging.writei_refused hdev (by omega) (by omega) (Or.inr (Or.inr hlt)))]
  rfl

/-! ## The loop -/

theorem collect_run {α : Type} {m : LogM α} {a : α}
    (h : m (s, []) = .ok (a, t, l)) : collect m (s, ls) = .ok (a, t, ls ++ [l]) := by
  unfold collect
  rw [h]
  rfl

theorem filewriteLoop_stop {fuel : Nat}
    (hsrc : src ≠ []) (h : writeSection f (src.take sectionMax) (s, []) = .ok (none, t, l)) :
    filewriteLoop f (fuel + 1) src (s, ls) = .ok (false, t, ls ++ [l]) := by
  cases src with
  | nil => exact absurd rfl hsrc
  | cons a src =>
    rw [filewriteLoop, run_bind (collect_run h)]
    rfl

theorem filewriteLoop_next {fuel : Nat}
    (hsrc : src ≠ []) (h : writeSection f (src.take sectionMax) (s, [])
      = .ok (some (src.take sectionMax).length, t, l)) :
    filewriteLoop f (fuel + 1) src (s, ls)
      = filewriteLoop f fuel (src.drop (src.take sectionMax).length) (t, ls ++ [l]) := by
  cases src with
  | nil => exact absurd rfl hsrc
  | cons a src =>
    rw [filewriteLoop, run_bind (collect_run h)]
    dsimp only
    rw [if_pos rfl]

theorem take_append_drop_length (src : List UInt8) (n : Nat) :
    src.take n ++ src.drop (src.take n).length = src := by
  rw [List.length_take]
  rcases le_total n src.length with h | h
  · rw [min_eq_left h, List.take_append_drop]
  · rw [min_eq_right h, List.take_of_length_le h, List.drop_length, List.append_nil]

/-- How the loop ends that is to write `src`: with all of it written, or none of the last part if
it goes beyond the longest file. -/
def Ended (f : Fin NFILE) (c : Fin NINODE) (nd : Node) (s : FsState) (src : List UInt8) (b : Bool)
    (t : FsState) : Prop :=
  if (s.ftable f).off + src.length ≤ MAXFILE * BSIZE then
    b = true ∧ Opened f c { nd with bytes := overwrite nd.bytes (s.ftable f).off src } t ∧
      (t.icache c).inum = (s.icache c).inum ∧ (t.ftable f).off = (s.ftable f).off + src.length
  else b = false

theorem Opened.ended_nil (h : Opened f c nd s) : Ended f c nd s [] true s := by
  have hle : (s.ftable f).off + ([] : List UInt8).length ≤ MAXFILE * BSIZE :=
    h.off.trans h.length_le
  rw [Ended, if_pos hle, overwrite_nil]
  exact ⟨rfl, h, rfl, rfl⟩

/-- The first part is written, and the loop goes on with the second. -/
theorem Ended.append {a src : List UInt8} {b : Bool} (h : Opened f c nd s)
    (hin : (t.icache c).inum = (s.icache c).inum)
    (ho : (t.ftable f).off = (s.ftable f).off + a.length)
    (hend : Ended f c { nd with bytes := overwrite nd.bytes (s.ftable f).off a } t src b u) :
    Ended f c nd s (a ++ src) b u := by
  unfold Ended at *
  rw [ho, hin, overwrite_append a src h.off] at hend
  rw [List.length_append, ← Nat.add_assoc]
  exact hend

theorem filewriteLoop_opened (fuel : Nat) (src : List UInt8) (ls : List (List Nat))
    (h : Opened f c nd s) (hfuel : src.length ≤ fuel) (hsrc : src.length < 2 ^ 31)
    (hroom : Room (s.icache c).inum (s.ftable f).off
      (min src.length (MAXFILE * BSIZE - (s.ftable f).off)) s) :
    ∃ b t ls', filewriteLoop f fuel src (s, ls) = .ok (b, t, ls') ∧ Ended f c nd s src b t := by
  induction fuel generalizing s nd src ls with
  | zero =>
    obtain rfl : src = [] := List.eq_nil_of_length_eq_zero (by omega)
    exact ⟨true, s, ls, rfl, h.ended_nil⟩
  | succ fuel ih =>
    by_cases hnil : src = []
    · subst hnil
      exact ⟨true, s, ls, rfl, h.ended_nil⟩
    have hpos := List.length_pos_iff.mpr hnil
    have hmax := sectionMax_eq
    have hm : (src.take sectionMax).length = min sectionMax src.length := List.length_take
    by_cases hle : (s.ftable f).off + (src.take sectionMax).length ≤ MAXFILE * BSIZE
    · obtain ⟨t, l, hsec, hop, hin, ho, hr⟩ := writeSection_room
        (n := min src.length (MAXFILE * BSIZE - (s.ftable f).off)
          - (src.take sectionMax).length) h (by omega) hle
        (by rwa [Nat.add_sub_cancel' (by omega)])
      have hdrop : (src.drop (src.take sectionMax).length).length
          = src.length - (src.take sectionMax).length := List.length_drop
      have hrest : min (src.length - (src.take sectionMax).length)
            (MAXFILE * BSIZE - ((s.ftable f).off + (src.take sectionMax).length))
          = min src.length (MAXFILE * BSIZE - (s.ftable f).off)
            - (src.take sectionMax).length := by omega
      obtain ⟨b, v, ls', hrun, hend⟩ := ih (src.drop (src.take sectionMax).length) (ls ++ [l])
        hop (by omega) (by omega) (by rwa [hin, ho, hdrop, hrest])
      refine ⟨b, v, ls', (filewriteLoop_next hnil hsec).trans hrun, ?_⟩
      have := hend.append h hin ho
      rwa [take_append_drop_length] at this
    · refine ⟨false, _, _, filewriteLoop_stop hnil (writeSection_long h (by omega) (by omega)), ?_⟩
      rw [Ended, if_neg (by omega)]

/-- **Sections make one write.** On a regular file, with room on the disk and nobody else at work,
`filewrite` does not panic. It returns `n` if `n` is not negative and the range does not go beyond
the longest file, and then the file and its offset are as after one `writei` of all the bytes;
otherwise it returns -1. -/
theorem filewrite_eq_writei {nd : Node} (pipewrite : FsM (Option Nat)) (addr : Nat → UInt8) (n : Int)
    (hn : n < 2 ^ 31) (h : Opened f c nd s) (hwr : (s.ftable f).writable = true)
    (htype : (s.ftable f).type = .inode)
    (hroom : Room (s.icache c).inum (s.ftable f).off
      (min n.toNat (MAXFILE * BSIZE - (s.ftable f).off)) s) :
    ∃ r t ls, filewrite pipewrite f addr n (s, []) = .ok (r, t, ls) ∧
      (r = some n.toNat ↔ 0 ≤ n ∧ (s.ftable f).off + n ≤ (MAXFILE * BSIZE : Nat)) ∧
      (0 ≤ n ∧ (s.ftable f).off + n ≤ (MAXFILE * BSIZE : Nat) →
        ∃ u, writei c (s.ftable f).off ((List.range n.toNat).map addr) (loaded c s)
            = .ok (some n.toNat, u) ∧
          node t (s.icache c).inum = node u (s.icache c).inum ∧
          (t.ftable f).off = (s.ftable f).off + n.toNat) ∧
      (¬ (0 ≤ n ∧ (s.ftable f).off + n ≤ (MAXFILE * BSIZE : Nat)) → r = none) := by
  have hlen : ((List.range n.toNat).map addr).length = n.toNat := by simp
  obtain ⟨b, t, ls, hrun, hend⟩ := filewriteLoop_opened n.toNat ((List.range n.toNat).map addr) []
    h (by omega) (by omega) (by rwa [hlen])
  have hall : filewrite pipewrite f addr n (s, [])
      = .ok (if b = true ∧ 0 ≤ n then some n.toNat else none, t, ls) := by
    unfold filewrite
    rw [run_bind (quiet_ok [] rfl), if_neg (by rw [hwr]; decide), htype]
    dsimp only
    rw [run_bind hrun]
    rfl
  rw [Ended, hlen] at hend
  refine ⟨_, t, ls, hall, ?_⟩
  by_cases hcond : 0 ≤ n ∧ (s.ftable f).off + n ≤ (MAXFILE * BSIZE : Nat)
  · rw [if_pos (by omega)] at hend
    obtain ⟨rfl, hop, hin, ho⟩ := hend
    rw [if_pos ⟨rfl, hcond.1⟩]
    refine ⟨iff_of_true rfl hcond, fun _ => ?_, fun hx => absurd hcond hx⟩
    obtain ⟨-, hok, hl, hnode⟩ := h.loaded
    have hwhole : (s.ftable f).off + ((List.range n.toNat).map addr).length ≤ MAXFILE * BSIZE := by
      omega
    obtain ⟨u, hu, -, -, hnd, -⟩ := writei_room (n := 0) hok hl hnode h.type_ne h.off hwhole
      (by rw [loaded_inum, hlen]; exact (hroom.mono (by omega)).loaded c)
    rw [hlen] at hu
    refine ⟨u, hu, ?_, ho⟩
    rw [loaded_inum] at hnd
    rw [hnd, ← hin]
    exact hop.node
  · have hr : (if b = true ∧ 0 ≤ n then some n.toNat else none) = none := by
      by_cases h0 : 0 ≤ n
      · rw [if_neg (by omega)] at hend
        rw [if_neg (by simp [hend])]
      · rw [if_neg fun hx => h0 hx.2]
    rw [hr]
    exact ⟨iff_of_false (by simp) hcond, fun hx => absurd hx hcond, fun _ => rfl⟩

theorem opened_openedFile : Opened 0 0
    { type := T_FILE, major := 0, minor := 0, nlink := 1, bytes := [] } openedFile where
  ok := ⟨newFile_ok.disk, newFile_ok.inum, newFile_ok.distinct, newFile_ok.coherent⟩
  ref := locked_newFile.ref
  ip := rfl
  node := by decide +kernel
  type := rfl
  off := Nat.zero_le _

/-- Writing two blocks to the new file. -/
theorem filewrite_eq_writei_openedFile :
    ∃ t ls u, filewrite (pure none) 0 (fun _ => 7) 1000 (openedFile, []) = .ok (some 1000, t, ls) ∧
      writei 0 0 ((List.range 1000).map fun _ => 7) (loaded 0 openedFile) = .ok (some 1000, u) ∧
      node t (openedFile.icache 0).inum = node u (openedFile.icache 0).inum ∧
      (t.ftable 0).off = 1000 := by
  have hroom : Room (openedFile.icache 0).inum (openedFile.ftable 0).off
      (min (1000 : Int).toNat (MAXFILE * BSIZE - (openedFile.ftable 0).off)) openedFile := by
    unfold Room
    decide +kernel
  have hcond : (0 : Int) ≤ 1000 ∧ ((openedFile.ftable 0).off : Int) + 1000
      ≤ (MAXFILE * BSIZE : Nat) := by decide
  obtain ⟨r, t, ls, hrun, hr, hone, -⟩ := filewrite_eq_writei (pure none) (fun _ => 7) 1000
    (by decide) opened_openedFile rfl rfl hroom
  obtain ⟨u, hu, hnode, ho⟩ := hone hcond
  exact ⟨t, ls, u, hr.mpr hcond ▸ hrun, hu, hnode, ho⟩

end StrideXv6.Fs
