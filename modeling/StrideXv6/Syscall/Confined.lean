import StrideXv6.Syscall.Args

set_option autoImplicit false

/-! # What a system call touches of user memory

Each function is specified by the range of addresses it touches (`Touches`). The checks of
`fetchint` and `fetchstr` keep to the process, and so does `argptr` for a size that is not
negative; a negative one passes its test too, since `(uint)i + size` wraps. Of the calls only
`sys_read` makes something of it: `readi` takes the count for a `uint` and copies the rest of the
file (`confined_iff`, `read_past_end`).
-/

namespace StrideXv6.Syscall

open Fs (NOFILE T_DEV FileType MAXFILE NDEV CONSOLE)
open Hoare

variable {pr : Proc} {s t u : UserState}
variable {mem : Word → UInt8} {sz : Word} {a : Word} {p n : Word}

/-- Nothing at or above `sz` has been touched. -/
def Confined (sz : Word) (s : UserState) : Prop := ∀ a ∈ s.touched, a.toNat < sz.toNat

/-- Between `s` and `t` exactly the `n` addresses from `a` on were touched. -/
def Touches (s t : UserState) (a : Word) (n : Nat) : Prop :=
  ∀ x, x ∈ t.touched ↔ x ∈ s.touched ∨ ∃ k < n, x = a + BitVec.ofNat 32 k

/-! ## Ranges -/

theorem touches_zero (s : UserState) (a : Word) : Touches s s a 0 := fun x => by simp

theorem Touches.trans {m n : Nat} (h : Touches s t a m)
    (h' : Touches t u (a + BitVec.ofNat 32 m) n) : Touches s u a (m + n) := by
  intro x
  rw [h', h, or_assoc]
  refine or_congr_right ⟨?_, ?_⟩
  · rintro (⟨k, hk, rfl⟩ | ⟨k, hk, rfl⟩)
    · exact ⟨k, by omega, rfl⟩
    · exact ⟨m + k, by omega, by rw [BitVec.ofNat_add, BitVec.add_assoc]⟩
  · rintro ⟨k, hk, rfl⟩
    by_cases hkm : k < m
    · exact Or.inl ⟨k, hkm, rfl⟩
    · refine Or.inr ⟨k - m, by omega, ?_⟩
      rw [BitVec.add_assoc, ← BitVec.ofNat_add, show m + (k - m) = k by omega]

theorem toNat_add_ofNat {k : Nat} (h : a.toNat + k < 2 ^ 32) :
    (a + BitVec.ofNat 32 k).toNat = a.toNat + k := by
  rw [BitVec.toNat_add, BitVec.toNat_ofNat, Nat.add_mod_mod, Nat.mod_eq_of_lt h]

theorem Touches.confined {n : Nat} (h : Touches s t a n)
    (hs : Confined sz s) (hle : a.toNat + n ≤ sz.toNat) : Confined sz t := by
  intro x hx
  rcases (h x).mp hx with hx | ⟨k, hk, rfl⟩
  · exact hs x hx
  · have := sz.isLt
    rw [toNat_add_ofNat (by omega)]
    omega

/-- A range that ends above `sz` touches something there. -/
theorem Touches.not_confined {n : Nat} (h : Touches s t a n)
    (hn : a.toNat + n < 2 ^ 32) (ha : a.toNat < sz.toNat) (hgt : sz.toNat < a.toNat + n) :
    ¬ Confined sz t := by
  intro hc
  have hmem := (h (a + BitVec.ofNat 32 (sz.toNat - a.toNat))).mpr
    (Or.inr ⟨_, by omega, rfl⟩)
  have := hc _ hmem
  rw [toNat_add_ofNat (by omega)] at this
  omega

/-! ## Copying -/

theorem touches_cons (s : UserState) (mem : Word → UInt8) (a : Word) :
    Touches s { mem := mem, touched := a :: s.touched } a 1 := by
  intro x
  simp [or_comm]

theorem copyOut_spec (dst : Word) (l : List UInt8) (s : UserState) :
    Triple (· = s) (copyOut dst l) (fun _ t => Touches s t dst l.length)
      fun _ => False := by
  induction l generalizing dst s with
  | nil => exact triple_exact rfl (touches_zero s dst)
  | cons b l ih =>
    refine triple_step rfl ((ih (dst + 1) _).post (fun _ t ht => ?_))
    rw [List.length_cons, Nat.add_comm]
    exact (touches_cons s _ dst).trans ht

theorem copyIn_spec (src : Word) (n : Nat) (s : UserState) :
    Triple (· = s) (copyIn src n) (fun _ t => Touches s t src n) fun _ => False := by
  induction n generalizing src s with
  | zero => exact triple_exact rfl (touches_zero s src)
  | succ n ih =>
    refine triple_step rfl ((ih (src + 1) _).post (fun _ t ht => ?_))
    rw [Nat.add_comm]
    exact (touches_cons s _ src).trans ht

/-- The loop of `readi` and `writei` goes through the whole buffer. -/
theorem pieces_spec {copy : Word → Nat → Nat → UserM Unit}
    (hcopy : ∀ a off m s, Triple (· = s) (copy a off m) (fun _ t => Touches s t a m)
      fun _ => False)
    (a : Word) (fuel off n : Nat) (hn : n ≤ fuel) (s : UserState) :
    Triple (· = s) (pieces copy a fuel off n) (fun _ t => Touches s t a n)
      fun _ => False := by
  induction fuel generalizing a off n s with
  | zero =>
    obtain rfl : n = 0 := by omega
    exact triple_exact rfl (touches_zero s a)
  | succ fuel ih =>
    cases n with
    | zero => exact triple_exact rfl (touches_zero s a)
    | succ n =>
      have hpos : 0 < BSIZE - off % BSIZE := Nat.sub_pos_of_lt (Nat.mod_lt _ (by decide))
      generalize hm : min (n + 1) (BSIZE - off % BSIZE) = m
      have hm1 : 0 < m ∧ m ≤ n + 1 := by omega
      rw [pieces, hm]
      refine (hcopy a off m s).next fun _ t ht => ?_
      refine (ih _ _ (n + 1 - m) (by omega) t).post (fun _ u hu => ?_)
      have := ht.trans hu
      rwa [show m + (n + 1 - m) = n + 1 by omega] at this

variable (env : Env) (ip : Inode) (f : File)

theorem readPiece_spec (dst : Word) (off m : Nat) (s : UserState) :
    Triple (· = s) (readPiece ip dst off m) (fun _ t => Touches s t dst m)
      fun _ => False := by
  have := copyOut_spec dst ((List.range m).map fun k => ip.bytes (off + k)) s
  rwa [List.length_map, List.length_range] at this

/-! ## Arguments -/

/-- The word at `a`. -/
def word (mem : Word → UInt8) (a : Word) : Word :=
  BitVec.ofNat 32 ((mem a).toNat + 2 ^ 8 * (mem (a + 1)).toNat + 2 ^ 16 * (mem (a + 2)).toNat
    + 2 ^ 24 * (mem (a + 3)).toNat)

/-- What `fetchint` returns. -/
def intAt (pr : Proc) (mem : Word → UInt8) (addr : Word) : Option Word :=
  if pr.sz ≤ addr ∨ pr.sz < addr + 4 then none else some (word mem addr)

/-- What `argint` returns. -/
def intArg (pr : Proc) (mem : Word → UInt8) (n : Nat) : Option Word :=
  intAt pr mem (pr.esp + 4 + 4 * BitVec.ofNat 32 n)

/-- What `argptr` returns. -/
def ptrArg (pr : Proc) (mem : Word → UInt8) (n : Nat) (size : Word) : Option Word :=
  (intArg pr mem n).bind fun i => if pr.sz ≤ i ∨ pr.sz < i + size then none else some i

/-- What `argfd` returns. -/
def fileArg (pr : Proc) (mem : Word → UInt8) (n : Nat) : Option File :=
  (intArg pr mem n).bind fun fd => if h : fd.toNat < NOFILE then pr.ofile ⟨fd.toNat, h⟩ else none

/-- The memory is as it was, and what was touched is the process' own. -/
structure Fetched (pr : Proc) (s t : UserState) : Prop where
  mem : t.mem = s.mem
  confined : Confined pr.sz s → Confined pr.sz t

theorem Fetched.refl (pr : Proc) (s : UserState) : Fetched pr s s := ⟨rfl, id⟩

theorem Fetched.trans (h : Fetched pr s t) (h' : Fetched pr t u) : Fetched pr s u :=
  ⟨h'.mem.trans h.mem, fun hs => h'.confined (h.confined hs)⟩

/-- An address below `sz` whose word ends below `sz`: the sum does not wrap. -/
theorem range_of_checks {addr : Word} {n : Nat} (hn : n < 2 ^ 31) (pr : Proc)
    (h : ¬ (pr.sz ≤ addr ∨ pr.sz < addr + BitVec.ofNat 32 n)) :
    addr.toNat + n ≤ pr.sz.toNat := by
  have hb := pr.below
  rw [KERNBASE] at hb
  simp only [not_or, not_le, not_lt, BitVec.lt_def, BitVec.le_def] at h
  obtain ⟨h1, h2⟩ := h
  rw [toNat_add_ofNat (by omega)] at h2
  exact h2

theorem fetchint_spec (pr : Proc) (addr : Word) (s : UserState) :
    Triple (· = s) (fetchint pr addr)
      (fun r t => Fetched pr s t ∧ r = intAt pr s.mem addr) fun _ => False := by
  unfold fetchint intAt
  split
  · exact triple_exact rfl ⟨.refl pr s, rfl⟩
  · rename_i h
    have hle : addr.toNat + 4 ≤ pr.sz.toNat := range_of_checks (by decide) pr h
    refine triple_exact (a := some (word s.mem addr)) rfl ⟨⟨rfl, fun hs => ?_⟩, rfl⟩
    have h4 := (((touches_cons s s.mem addr).trans (touches_cons _ s.mem (addr + 1))).trans
      (touches_cons _ s.mem (addr + 2))).trans (touches_cons _ s.mem (addr + 3))
    exact h4.confined hs hle

theorem argint_spec (pr : Proc) (n : Nat) (s : UserState) :
    Triple (· = s) (argint pr n) (fun r t => Fetched pr s t ∧ r = intArg pr s.mem n)
      fun _ => False := fetchint_spec pr _ s

theorem argptr_spec (pr : Proc) (n : Nat) (size : Word) (s : UserState) :
    Triple (· = s) (argptr pr n size)
      (fun r t => Fetched pr s t ∧ r = ptrArg pr s.mem n size) fun _ => False := by
  refine (argint_spec pr n s).next ?_
  rintro r t ⟨ht, rfl⟩
  unfold ptrArg
  cases intArg pr s.mem n with
  | none => exact triple_exact rfl ⟨ht, rfl⟩
  | some i =>
    simp only [Option.bind_some]
    split <;> exact triple_exact rfl ⟨ht, rfl⟩

theorem argfd_spec (pr : Proc) (n : Nat) (s : UserState) :
    Triple (· = s) (argfd pr n) (fun r t => Fetched pr s t ∧ r = fileArg pr s.mem n)
      fun _ => False := by
  refine (argint_spec pr n s).next ?_
  rintro r t ⟨ht, rfl⟩
  unfold fileArg
  cases intArg pr s.mem n with
  | none => exact triple_exact rfl ⟨ht, rfl⟩
  | some fd =>
    simp only [Option.bind_some]
    split <;> exact triple_exact rfl ⟨ht, rfl⟩

/-- The string at `addr` has length `len`. -/
def StrAt (mem : Word → UInt8) (addr : Word) (len : Nat) : Prop :=
  mem (addr + BitVec.ofNat 32 len) = 0 ∧ ∀ k < len, mem (addr + BitVec.ofNat 32 k) ≠ 0

theorem add_one_ofNat (a : Word) (k : Nat) :
    a + 1 + BitVec.ofNat 32 k = a + BitVec.ofNat 32 (k + 1) := by
  rw [Nat.add_comm k 1, BitVec.ofNat_add, ← BitVec.add_assoc]
  rfl

theorem StrAt.cons {len : Nat} (ha : mem a ≠ 0)
    (h : StrAt mem (a + 1) len) : StrAt mem a (len + 1) := by
  refine ⟨by rw [← add_one_ofNat]; exact h.1, fun k hk => ?_⟩
  cases k with
  | zero => simpa using ha
  | succ k =>
    rw [← add_one_ofNat]
    exact h.2 k (by omega)

/-- The loop of `fetchstr` finds the first zero byte, if there is one. -/
theorem strLoop_spec (a : Word) (fuel : Nat) (s : UserState) :
    Triple (· = s) (strLoop a fuel)
      (fun r t => (∃ n ≤ fuel, Touches s t a n) ∧ ∀ e, r = some e →
        ∃ len < fuel, e = a + BitVec.ofNat 32 len ∧ StrAt s.mem a len) fun _ => False := by
  induction fuel generalizing a s with
  | zero => exact triple_exact rfl ⟨⟨0, le_refl _, touches_zero s a⟩, by simp⟩
  | succ fuel ih =>
    refine triple_step rfl ?_
    by_cases hb : s.mem a = 0
    · rw [if_pos hb]
      refine triple_exact rfl ⟨⟨1, by omega, touches_cons s s.mem a⟩, fun e he => ?_⟩
      obtain rfl := Option.some.inj he
      exact ⟨0, by omega, by simp, by simpa [StrAt] using hb⟩
    · rw [if_neg hb]
      refine (ih (a + 1) _).post ?_
      rintro r t ⟨⟨n, hn, ht⟩, hr⟩
      refine ⟨⟨1 + n, by omega, (touches_cons s s.mem a).trans ht⟩, fun e he => ?_⟩
      obtain ⟨len, hlen, rfl, hstr⟩ := hr e he
      exact ⟨len + 1, by omega, add_one_ofNat a len, hstr.cons hb⟩

theorem fetchstr_spec (pr : Proc) (addr : Word) (s : UserState) :
    Triple (· = s) (fetchstr pr addr)
      (fun r t => (Confined pr.sz s → Confined pr.sz t) ∧ ∀ a len, r = some (a, len) →
        a = addr ∧ addr.toNat + len < pr.sz.toNat ∧ StrAt s.mem addr len) fun _ => False := by
  unfold fetchstr
  split
  · exact triple_exact rfl ⟨id, by simp⟩
  · rename_i h
    have hlt : addr.toNat < pr.sz.toNat := by simpa [BitVec.le_def] using h
    have hsz := pr.sz.isLt
    refine (strLoop_spec addr (pr.sz.toNat - addr.toNat) s).next ?_
    rintro r t ⟨⟨n, hn, ht⟩, hr⟩
    have hconf : Confined pr.sz s → Confined pr.sz t := fun hs => ht.confined hs (by omega)
    cases r with
    | none => exact triple_exact rfl ⟨hconf, by simp⟩
    | some e =>
      refine triple_exact rfl ⟨hconf, fun a len hal => ?_⟩
      obtain ⟨l, hl, rfl, hstr⟩ := hr e rfl
      rw [Option.some.injEq, Prod.mk.injEq, toNat_add_ofNat (by omega)] at hal
      obtain ⟨rfl, rfl⟩ := hal
      rw [Nat.add_sub_cancel_left]
      exact ⟨rfl, by omega, hstr⟩

/-! ## Reading -/

/-- The number of bytes `readi` copies out of a file. -/
def fileCount (ip : Inode) (off n : Word) : Nat :=
  if ip.size < off ∨ off + n < off then 0
  else if ip.size < off + n then (ip.size - off).toNat else n.toNat

/-- The number of bytes `fileread` stores. -/
def readCount (env : Env) (f : File) (n : Word) : Nat :=
  if f.readable = false then 0
  else
    match f.type with
    | .none => 0
    | .pipe => (env.delivered.take (turns n)).length
    | .inode =>
      if f.ip.type = T_DEV then
        if f.ip.major = CONSOLE then (env.delivered.take (turns n)).length else 0
      else fileCount f.ip f.off n

theorem receive_spec (dst n : Word) (s : UserState) :
    Triple (· = s) (receive env dst n)
      (fun _ t => Touches s t dst (env.delivered.take (turns n)).length) fun _ => False :=
  (copyOut_spec dst _ s).next fun _ _ ht => triple_exact rfl ht

theorem readi_spec (dst off n : Word) (hdev : ip.type ≠ T_DEV) (s : UserState) :
    Triple (· = s) (readi env ip dst off n)
      (fun _ t => Touches s t dst (fileCount ip off n)) fun _ => False := by
  unfold readi fileCount
  rw [if_neg hdev]
  split
  · exact triple_exact rfl (touches_zero s dst)
  · split
    · exact (pieces_spec (readPiece_spec ip) dst _ _ _ (le_refl _) s).next fun _ _ ht => triple_exact rfl ht
    · exact (pieces_spec (readPiece_spec ip) dst _ _ _ (le_refl _) s).next fun _ _ ht => triple_exact rfl ht

theorem fileread_spec (p n : Word) (s : UserState) :
    Triple (· = s) (fileread env f p n)
      (fun _ t => Touches s t p (readCount env f n)) (· = .fileread) := by
  unfold fileread readCount
  split
  · exact triple_exact rfl (touches_zero s p)
  · cases f.type with
    | none => exact triple_fail rfl rfl
    | pipe =>
      exact triple_conseq (receive_spec env p n s) (fun _ hx => hx) (fun _ _ ht => ht)
        fun _ he => he.elim
    | inode =>
      dsimp only
      by_cases hdev : f.ip.type = T_DEV
      · rw [if_pos hdev, readi, if_pos hdev]
        split
        · exact triple_conseq (receive_spec env p n s) (fun _ hx => hx) (fun _ _ ht => ht)
            fun _ he => he.elim
        · exact triple_exact rfl (touches_zero s p)
      · rw [if_neg hdev]
        exact triple_conseq (readi_spec env f.ip p f.off n hdev s) (fun _ hx => hx)
          (fun _ _ ht => ht) fun _ he => he.elim

/-- The arguments of `sys_read` and `sys_write`, if they pass the checks: the file, the buffer
and the count. -/
def bufferArgs (pr : Proc) (mem : Word → UInt8) : Option (File × Word × Word) :=
  (fileArg pr mem 0).bind fun f => (intArg pr mem 2).bind fun n =>
    (ptrArg pr mem 1 n).map fun p => (f, p, n)

/-- The common beginning of `sys_read` and `sys_write`. -/
theorem bufferArgs_spec (pr : Proc) (k : File → Word → Word → UserM Int) (s : UserState)
    {Q : Int → UserState → Prop} {E : Panic → Prop}
    (hfail : ∀ t, Fetched pr s t → bufferArgs pr s.mem = none → Q (-1) t)
    (hgo : ∀ f p n t, Fetched pr s t → bufferArgs pr s.mem = some (f, p, n) →
      Triple (· = t) (k f p n) Q E) :
    Triple (· = s) (do
      match ← argfd pr 0 with
      | none => return -1
      | some f =>
        match ← argint pr 2 with
        | none => return -1
        | some n =>
          match ← argptr pr 1 n with
          | none => return -1
          | some p => k f p n) Q E := by
  refine (argfd_spec pr 0 s).safe.next ?_
  rintro r₁ t ⟨ht, rfl⟩
  cases hf : fileArg pr s.mem 0 with
  | none => exact triple_exact rfl (hfail t ht (by simp [bufferArgs, hf]))
  | some f =>
    refine (argint_spec pr 2 t).safe.next ?_
    rintro r₂ u ⟨hu, rfl⟩
    rw [ht.mem]
    cases hn : intArg pr s.mem 2 with
    | none => exact triple_exact rfl (hfail u (ht.trans hu) (by simp [bufferArgs, hf, hn]))
    | some n =>
      refine (argptr_spec pr 1 n u).safe.next ?_
      rintro r₃ v ⟨hv, rfl⟩
      rw [(ht.trans hu).mem]
      have htv := (ht.trans hu).trans hv
      cases hp : ptrArg pr s.mem 1 n with
      | none => exact triple_exact rfl (hfail v htv (by simp [bufferArgs, hf, hn, hp]))
      | some p => exact hgo f p n v htv (by simp [bufferArgs, hf, hn, hp])

/-- A pointer from `argptr` has passed its two tests. -/
theorem ptrArg_checks {k : Nat} {size p : Word}
    (h : ptrArg pr mem k size = some p) : ¬ (pr.sz ≤ p ∨ pr.sz < p + size) := by
  obtain ⟨i, -, hi⟩ := Option.bind_eq_some_iff.mp h
  simp only [Option.ite_none_left_eq_some, Option.some.injEq] at hi
  obtain ⟨hc, rfl⟩ := hi
  exact hc

theorem bufferArgs_checks {f : File}
    (h : bufferArgs pr mem = some (f, p, n)) : ¬ (pr.sz ≤ p ∨ pr.sz < p + n) := by
  simp only [bufferArgs, Option.bind_eq_some_iff, Option.map_eq_some_iff, Prod.mk.injEq] at h
  obtain ⟨f', -, n', -, p', hp, rfl, rfl, rfl⟩ := h
  exact ptrArg_checks hp

theorem ofNat_toNat (n : Word) : BitVec.ofNat 32 n.toNat = n := by
  rw [BitVec.ofNat_toNat, BitVec.setWidth_eq]

/-- For a count that is not negative the checks mean what they should. -/
theorem range_of_nonneg (h : ¬ (pr.sz ≤ p ∨ pr.sz < p + n)) (hn : 0 ≤ n.toInt) :
    p.toNat + n.toNat ≤ pr.sz.toNat ∧ n.toInt = n.toNat := by
  have hlt := n.isLt
  rw [BitVec.toInt_eq_toNat_cond] at *
  split at hn
  · rename_i h2
    refine ⟨range_of_checks (by omega) pr (by rwa [ofNat_toNat]), by rw [if_pos h2]⟩
  · omega

theorem turns_le (n : Word) : turns n ≤ n.toNat := by
  have := n.isLt
  rw [turns, BitVec.toInt_eq_toNat_cond]
  split <;> omega

theorem turns_of_neg {n : Word} (h : n.toInt < 0) : turns n = 0 := by
  rw [turns]
  omega

/-- A read of a file copies no more bytes than it is asked for, if that is not negative. -/
theorem fileCount_le (off n : Word) : fileCount ip off n ≤ n.toNat := by
  unfold fileCount
  split
  · omega
  · rename_i h
    simp only [not_or, not_lt, BitVec.lt_def] at h
    split
    · rename_i h'
      rw [BitVec.lt_def, BitVec.toNat_add] at h'
      rw [BitVec.toNat_add] at h
      rw [BitVec.toNat_sub_of_le (by simpa [BitVec.le_def] using h.1)]
      have := n.isLt
      have := off.isLt
      have := ip.size.isLt
      omega
    · omega

/-- With a negative count the whole rest of the file is copied, unless the offset is past the
end or makes the sum wrap. -/
theorem fileCount_of_neg {off n : Word} (hn : n.toInt < 0) :
    fileCount ip off n =
      if off.toNat ≤ ip.size.toNat ∧ (off.toNat : Int) < -n.toInt then ip.size.toNat - off.toNat
      else 0 := by
  have hfit := ip.fits
  have hmax : MAXFILE * BSIZE = 71680 := by rw [Fs.MAXFILE_eq]; rfl
  have hlt := n.isLt
  have hoff := off.isLt
  rw [BitVec.toInt_eq_toNat_cond] at *
  split at hn
  · omega
  · rename_i h2
    rw [if_neg h2]
    unfold fileCount
    by_cases hw : off.toNat + n.toNat < 2 ^ 32
    · have hsum : (off + n).toNat = off.toNat + n.toNat := by
        rw [BitVec.toNat_add, Nat.mod_eq_of_lt hw]
      by_cases hs : off.toNat ≤ ip.size.toNat
      · rw [if_neg (by rw [BitVec.lt_def, BitVec.lt_def, hsum]; omega),
          if_pos (by rw [BitVec.lt_def, hsum]; omega), if_pos (by omega),
          BitVec.toNat_sub_of_le (by simpa [BitVec.le_def] using hs)]
      · rw [if_pos (by rw [BitVec.lt_def]; omega), if_neg (by omega)]
    · have hsum : (off + n).toNat = off.toNat + n.toNat - 2 ^ 32 := by
        rw [BitVec.toNat_add]
        omega
      rw [if_pos (by rw [BitVec.lt_def, BitVec.lt_def, hsum]; omega), if_neg (by omega)]

theorem fileCount_le_size (off n : Word) : fileCount ip off n ≤ ip.size.toNat := by
  unfold fileCount
  split
  · omega
  · rename_i h
    simp only [not_or, not_lt, BitVec.lt_def] at h
    split
    · rw [BitVec.toNat_sub_of_le (by simpa [BitVec.le_def] using h.1)]
      omega
    · rename_i h'
      rw [BitVec.lt_def, not_lt, BitVec.toNat_add] at h'
      rw [BitVec.toNat_add] at h
      have := n.isLt
      have := off.isLt
      omega

/-- The bytes that a pipe or the console delivers are counted by an `int`. -/
theorem length_delivered_le (n : Word) :
    (env.delivered.take (turns n)).length ≤ turns n := by
  rw [List.length_take]
  exact Nat.min_le_left _ _

theorem readCount_of_neg {n : Word} (hn : n.toInt < 0) :
    readCount env f n =
      if f.readable = true ∧ f.type = .inode ∧ f.ip.type ≠ T_DEV ∧
        f.off.toNat ≤ f.ip.size.toNat ∧ (f.off.toNat : Int) < -n.toInt
      then f.ip.size.toNat - f.off.toNat else 0 := by
  unfold readCount
  rw [turns_of_neg hn, fileCount_of_neg f.ip hn]
  cases f.readable <;> cases f.type <;> by_cases hdev : f.ip.type = T_DEV <;> simp [hdev]

/-- No count is so large that the sum with a user address wraps. -/
theorem readCount_lt (n : Word) : readCount env f n < 2 ^ 31 := by
  have h1 := length_delivered_le env n
  have h2 := fileCount_le_size f.ip f.off n
  have hfit := f.ip.fits
  have hmax : MAXFILE * BSIZE = 71680 := by rw [Fs.MAXFILE_eq]; rfl
  have h3 : turns n < 2 ^ 31 := by
    have := n.isLt
    rw [turns, BitVec.toInt_eq_toNat_cond]
    split <;> omega
  unfold readCount
  split
  · omega
  · split
    · omega
    · omega
    · split
      · split <;> omega
      · omega

/-- A count that is not negative is an upper bound. -/
theorem readCount_le (n : Word) : readCount env f n ≤ n.toNat := by
  have h1 := length_delivered_le env n
  have h2 := turns_le n
  have h3 := fileCount_le f.ip f.off n
  unfold readCount
  split
  · omega
  · split
    · omega
    · omega
    · split
      · split <;> omega
      · omega

/-- `sys_read` is called with a negative count on a file, not a device, and there is more to
read behind the file's offset than fits between the buffer and the end of the process. The
offset is smaller than the count is negative. -/
def Overruns (pr : Proc) (mem : Word → UInt8) : Prop :=
  ∃ f p n, bufferArgs pr mem = some (f, p, n) ∧ n.toInt < 0 ∧
    f.readable = true ∧ f.type = .inode ∧ f.ip.type ≠ T_DEV ∧
    f.off.toNat ≤ f.ip.size.toNat ∧ (f.off.toNat : Int) < -n.toInt ∧
    pr.sz.toNat < p.toNat + (f.ip.size.toNat - f.off.toNat)

/-- A read stores past the end of the process only with a negative count. -/
theorem readCount_le_iff {f : File} (h : bufferArgs pr mem = some (f, p, n)) :
    p.toNat + readCount env f n ≤ pr.sz.toNat ↔ ¬ Overruns pr mem := by
  have hchk := bufferArgs_checks h
  have hp : p.toNat < pr.sz.toNat := by
    simpa [BitVec.le_def] using fun h' => hchk (Or.inl h')
  have hover : Overruns pr mem ↔ n.toInt < 0 ∧ f.readable = true ∧ f.type = .inode ∧
      f.ip.type ≠ T_DEV ∧ f.off.toNat ≤ f.ip.size.toNat ∧ (f.off.toNat : Int) < -n.toInt ∧
      pr.sz.toNat < p.toNat + (f.ip.size.toNat - f.off.toNat) := by
    constructor
    · rintro ⟨f', p', n', h', hrest⟩
      rw [h, Option.some.injEq, Prod.mk.injEq, Prod.mk.injEq] at h'
      obtain ⟨rfl, rfl, rfl⟩ := h'
      exact hrest
    · exact fun hrest => ⟨f, p, n, h, hrest⟩
  rw [hover]
  by_cases hn : n.toInt < 0
  · rw [readCount_of_neg env f hn]
    split
    · rename_i hc
      rw [← not_lt, not_iff_not]
      exact ⟨fun hgt => ⟨hn, hc.1, hc.2.1, hc.2.2.1, hc.2.2.2.1, hc.2.2.2.2, hgt⟩,
        fun h' => h'.2.2.2.2.2.2⟩
    · rename_i hc
      refine iff_of_true (by omega) fun h' => hc ?_
      exact ⟨h'.2.1, h'.2.2.1, h'.2.2.2.1, h'.2.2.2.2.1, h'.2.2.2.2.2.1⟩
  · have hle := (range_of_nonneg hchk (by omega)).1
    have hcount := readCount_le env f n
    exact iff_of_true (by omega) fun h' => hn h'.1

theorem sysRead_spec (pr : Proc) (env : Env) (s : UserState) (hs : Confined pr.sz s) :
    Triple (· = s) (sysRead pr env)
      (fun _ t => Confined pr.sz t ↔ ¬ Overruns pr s.mem) (· = .fileread) := by
  refine bufferArgs_spec pr (fileread env) s (fun t ht hnone => ?_) fun f p n t ht hargs => ?_
  · refine iff_of_true (ht.confined hs) ?_
    rintro ⟨f, p, n, h, -⟩
    simp [hnone] at h
  · refine (fileread_spec env f p n t).post (fun _ u hu => ?_)
    have hp : p.toNat < pr.sz.toNat := by
      simpa [BitVec.le_def] using fun h' => bufferArgs_checks hargs (Or.inl h')
    rw [← readCount_le_iff env hargs]
    refine ⟨fun hc => ?_, fun hle => hu.confined (ht.confined hs) hle⟩
    by_contra hgt
    have hlt := readCount_lt env f n
    have hb := pr.below
    rw [KERNBASE] at hb
    exact hu.not_confined (by omega) hp (by omega) hc

/-! ## Writing -/

theorem writei_spec (size src off : Word) {n : Word} (hn : n.toNat < 2 ^ 31) (s : UserState) :
    Triple (· = s) (writei ip size src off n)
      (fun r t => (r = none ∧ t = s) ∨ (r = some n ∧ Touches s t src n.toNat)) fun _ => False := by
  have hturns : turns n = n.toNat := by
    rw [turns, BitVec.toInt_eq_toNat_cond, if_pos (by omega)]
    rfl
  unfold writei
  by_cases hdev : ip.type = T_DEV
  · rw [if_pos hdev]
    split
    · refine ((copyIn_spec src (turns n) s).next
        fun _ t ht => triple_exact rfl ht).next fun _ t ht =>
        triple_exact rfl (Or.inr ⟨rfl, hturns ▸ ht⟩)
    · exact triple_exact rfl (Or.inl ⟨rfl, rfl⟩)
  · rw [if_neg hdev]
    split
    · exact triple_exact rfl (Or.inl ⟨rfl, rfl⟩)
    · split
      · exact triple_exact rfl (Or.inl ⟨rfl, rfl⟩)
      · exact (pieces_spec (fun a _ m => copyIn_spec a m) src _ _ _ (le_refl _) s).next fun _ t ht => triple_exact rfl (Or.inr ⟨rfl, ht⟩)

/-- The loop of `filewrite` stays in its buffer, of which `left` bytes are left. -/
theorem filewriteLoop_spec (addr : Word) (fuel i left : Nat) (off size : Word) (s : UserState) :
    Triple (· = s) (filewriteLoop f addr fuel i left off size)
      (fun _ t => ∃ m ≤ left, Touches s t (addr + BitVec.ofNat 32 i) m) fun _ => False := by
  induction fuel generalizing i left off size s with
  | zero => exact triple_exact rfl ⟨0, by omega, touches_zero _ _⟩
  | succ fuel ih =>
    cases left with
    | zero => exact triple_exact rfl ⟨0, by omega, touches_zero _ _⟩
    | succ left =>
      have hmax : maxWrite = 6656 := rfl
      generalize hn1 : min (left + 1) maxWrite = n1
      have hle : n1 ≤ left + 1 ∧ n1 ≤ 6656 := by omega
      have htoNat : (BitVec.ofNat 32 n1).toNat = n1 := by
        rw [BitVec.toNat_ofNat, Nat.mod_eq_of_lt (by omega)]
      rw [filewriteLoop, hn1]
      refine (writei_spec f.ip size _ off (n := BitVec.ofNat 32 n1)
        (by rw [htoNat]; omega) s).next ?_
      rintro r t (⟨rfl, rfl⟩ | ⟨rfl, ht⟩)
      · exact triple_exact rfl ⟨0, by omega, touches_zero _ _⟩
      · dsimp only
        rw [if_neg (by simp)]
        refine (ih _ _ _ _ t).post ?_
        rintro _ u ⟨m, hm, hu⟩
        rw [htoNat] at ht
        refine ⟨n1 + m, by omega, ht.trans ?_⟩
        rwa [BitVec.add_assoc, ← BitVec.ofNat_add]

theorem filewrite_spec (p n : Word) (s : UserState) :
    Triple (· = s) (filewrite env f p n) (fun _ t => ∃ m ≤ turns n, Touches s t p m)
      (· = .filewrite) := by
  unfold filewrite
  split
  · exact triple_exact rfl ⟨0, by omega, touches_zero s p⟩
  · cases f.type with
    | none => exact triple_fail rfl rfl
    | pipe =>
      refine (copyIn_spec p _ s).safe.next fun _ t ht => ?_
      split <;> exact triple_exact rfl ⟨_, Nat.min_le_left _ _, ht⟩
    | inode =>
      refine (filewriteLoop_spec f p (turns n) 0 (turns n) f.off f.ip.size s).safe.next ?_
      rintro ok t ⟨m, hm, ht⟩
      rw [BitVec.add_zero] at ht
      split <;> exact triple_exact rfl ⟨m, hm, ht⟩

theorem sysWrite_spec (pr : Proc) (env : Env) (s : UserState) (hs : Confined pr.sz s) :
    Triple (· = s) (sysWrite pr env) (fun _ t => Confined pr.sz t) (· = .filewrite) := by
  refine bufferArgs_spec pr (filewrite env) s (fun t ht _ => ht.confined hs)
    fun f p n t ht hargs => ?_
  refine (filewrite_spec env f p n t).post ?_
  rintro _ u ⟨m, hm, hu⟩
  have hchk := bufferArgs_checks hargs
  refine hu.confined (ht.confined hs) ?_
  by_cases hn : n.toInt < 0
  · have hp : p.toNat < pr.sz.toNat := by
      simpa [BitVec.le_def] using fun h' => hchk (Or.inl h')
    rw [turns_of_neg hn] at hm
    omega
  · have := (range_of_nonneg hchk (by omega)).1
    have := turns_le n
    omega

/-! ## `sys_fstat` and `sys_pipe` -/

theorem storeWord_spec (a : Word) (n : Nat) (w : Word) (s : UserState)
    (hs : Confined sz s) (hle : a.toNat + n ≤ sz.toNat) :
    Triple (· = s) (storeWord a n w) (fun _ t => Confined sz t) fun _ => False := by
  refine (copyOut_spec _ _ s).post (fun _ t ht => ht.confined hs ?_)
  rwa [List.length_map, List.length_range]

/-- A field at offset `k` of a structure that lies inside the process. -/
theorem storeField_spec (a : Word) (k n : Nat) (w : Word) (s : UserState)
    (hs : Confined sz s) (hle : a.toNat + k + n ≤ sz.toNat) :
    Triple (· = s) (storeWord (a + BitVec.ofNat 32 k) n w) (fun _ t => Confined sz t)
      fun _ => False := by
  have := sz.isLt
  refine storeWord_spec _ n w s hs ?_
  rwa [toNat_add_ofNat (by omega)]

theorem stati_spec (st : Word) (s : UserState) (hs : Confined sz s)
    (hle : st.toNat + STATSIZE ≤ sz.toNat) :
    Triple (· = s) (stati ip st) (fun _ t => Confined sz t) fun _ => False := by
  rw [STATSIZE] at hle
  refine (storeField_spec st 4 4 ip.dev s hs (by omega)).next
    fun _ t ht => ?_
  refine (storeField_spec st 8 4 ip.inum t ht (by omega)).next
    fun _ t ht => ?_
  refine (storeWord_spec st 2 _ t ht (by omega)).next
    fun _ t ht => ?_
  refine (storeField_spec st 12 2 _ t ht (by omega)).next
    fun _ t ht => ?_
  exact storeField_spec st 16 4 ip.size t ht (by omega)

theorem filestat_spec (st : Word) (s : UserState) (hs : Confined sz s)
    (hle : st.toNat + STATSIZE ≤ sz.toNat) :
    Triple (· = s) (filestat f st) (fun _ t => Confined sz t) fun _ => False := by
  unfold filestat
  cases f.type with
  | none => exact triple_exact rfl hs
  | pipe => exact triple_exact rfl hs
  | inode =>
    -- Lean would run the stores of `stati` to compare the triples
    have h := stati_spec f.ip st s hs hle
    generalize stati f.ip st = m at h
    exact h.next fun _ _ ht => triple_exact rfl ht

theorem sysFstat_spec (pr : Proc) (s : UserState) (hs : Confined pr.sz s) :
    Triple (· = s) (sysFstat pr) (fun _ t => Confined pr.sz t) fun _ => False := by
  refine (argfd_spec pr 0 s).next ?_
  rintro r t ⟨ht, -⟩
  cases r with
  | none => exact triple_exact rfl (ht.confined hs)
  | some f =>
    refine (argptr_spec pr 1 _ t).next ?_
    rintro r u ⟨hu, hr⟩
    have hcu := hu.confined (ht.confined hs)
    cases r with
    | none => exact triple_exact rfl hcu
    | some st =>
      have hle : st.toNat + STATSIZE ≤ pr.sz.toNat :=
        range_of_checks (by decide) pr (ptrArg_checks hr.symm)
      exact filestat_spec f st u hcu hle

theorem sysPipe_spec (pr : Proc) (fds : Option (Word × Word)) (s : UserState)
    (hs : Confined pr.sz s) :
    Triple (· = s) (sysPipe pr fds) (fun _ t => Confined pr.sz t) fun _ => False := by
  refine (argptr_spec pr 0 8 s).next ?_
  rintro r t ⟨ht, hr⟩
  have hct := ht.confined hs
  cases r with
  | none => exact triple_exact rfl hct
  | some fd =>
    have hle : fd.toNat + 8 ≤ pr.sz.toNat :=
      range_of_checks (by decide) pr (ptrArg_checks hr.symm)
    cases fds with
    | none => exact triple_exact rfl hct
    | some fds =>
      refine (storeWord_spec fd 4 fds.1 t hct (by omega)).next
        fun _ u hu => ?_
      refine (storeField_spec fd 4 4 fds.2 u hu (by omega)).next
        fun _ v hv => triple_exact rfl hv

/-! ## Confinement -/

/-- What the checks guarantee. `fetchint` and `fetchstr` accept only what lies in the process,
and `sys_write`, `sys_fstat` and `sys_pipe` touch nothing else. `argptr` accepts a range of the
process exactly if the size is not negative, and `sys_read` stays inside exactly if it does not
overrun. -/
theorem confined_iff (pr : Proc) (env : Env) (fds : Option (Word × Word)) (s : UserState)
    (hs : s.touched = []) :
    (∀ addr w t, fetchint pr addr s = .ok (some w, t) → addr.toNat + 4 ≤ pr.sz.toNat) ∧
    (∀ addr a len t, fetchstr pr addr s = .ok (some (a, len), t) →
      a = addr ∧ addr.toNat + len < pr.sz.toNat ∧ StrAt s.mem addr len) ∧
    (∀ n size i t, argptr pr n size s = .ok (some i, t) →
      (0 ≤ size.toInt ∧ i.toNat + size.toInt ≤ pr.sz.toNat ↔ 0 ≤ size.toInt)) ∧
    (∀ r t, sysWrite pr env s = .ok (r, t) → Confined pr.sz t) ∧
    (∀ r t, sysFstat pr s = .ok (r, t) → Confined pr.sz t) ∧
    (∀ r t, sysPipe pr fds s = .ok (r, t) → Confined pr.sz t) ∧
    ∀ r t, sysRead pr env s = .ok (r, t) → (Confined pr.sz t ↔ ¬ Overruns pr s.mem) := by
  have hconf : Confined pr.sz s := fun a ha => by simp [hs] at ha
  refine ⟨fun addr w t h => ?_, fun addr a len t h => ?_, fun n size i t h => ?_,
    fun r t h => (sysWrite_spec pr env s hconf).ok rfl h,
    fun r t h => (sysFstat_spec pr s hconf).ok rfl h,
    fun r t h => (sysPipe_spec pr fds s hconf).ok rfl h,
    fun r t h => (sysRead_spec pr env s hconf).ok rfl h⟩
  · have hw := ((fetchint_spec pr addr s).ok rfl h).2
    rw [intAt] at hw
    split at hw
    · simp at hw
    · rename_i hchk
      exact range_of_checks (by decide) pr hchk
  · exact ((fetchstr_spec pr addr s).ok rfl h).2 a len rfl
  · have hi := ((argptr_spec pr n size s).ok rfl h).2
    refine ⟨And.left, fun hnn => ⟨hnn, ?_⟩⟩
    obtain ⟨hle, heq⟩ := range_of_nonneg (ptrArg_checks hi.symm) hnn
    omega

/-- A file of 200 bytes, opened for reading. -/
def shortFile : File where
  type := .inode
  readable := true
  writable := false
  ip :=
    { dev := 1, inum := 2, type := Fs.T_FILE, major := 0, nlink := 1, size := 200,
      fits := by decide, bytes := fun _ => 0 }
  off := 0

/-- A process of one page with `shortFile` as file 0, whose arguments start at address 4. -/
def onePage : Proc where
  sz := 4096
  below := by decide
  esp := 0
  ofile := fun fd => if fd.val = 0 then some shortFile else none

/-- The arguments of `read(0, 4000, n)`. -/
def request (n : Word) : UserState where
  mem := fun a =>
    if a = 8 then 0xa0 else if a = 9 then 0x0f
    else if 12 ≤ a ∧ a < 16 then UInt8.ofNat (n.toNat / 2 ^ (8 * (a.toNat - 12)))
    else 0
  touched := []

theorem confined_iff_request :
    ∃ r t, sysRead onePage ⟨[], 0⟩ (request 96) = .ok (r, t) ∧ Confined onePage.sz t := by
  have hn : (bufferArgs onePage (request 96).mem).map (·.2.2) = some 96 := by decide
  have hover : ¬ Overruns onePage (request 96).mem := by
    rintro ⟨f, p, n, h, hneg, -⟩
    rw [h, Option.map_some, Option.some.injEq] at hn
    rw [show n = 96 from hn] at hneg
    exact absurd hneg (by decide)
  have hok : (sysRead onePage ⟨[], 0⟩ (request 96)).isOk = true := by decide +kernel
  cases h : sysRead onePage ⟨[], 0⟩ (request 96) with
  | error e =>
    rw [h] at hok
    exact absurd hok (by simp [Except.isOk, Except.toBool])
  | ok r =>
    exact ⟨r.1, r.2, rfl,
      ((confined_iff onePage ⟨[], 0⟩ none (request 96) rfl).2.2.2.2.2.2 r.1 r.2 h).mpr hover⟩

/-- `read(0, 4000, -1)` in a process of 4096 bytes: `argptr` takes the buffer, and the 200 bytes
of the file are stored up to address 4199. -/
theorem read_past_end :
    (∃ t, argptr onePage 1 (-1) (request (-1)) = .ok (some 4000, t)) ∧
    ∃ r t, sysRead onePage ⟨[], 0⟩ (request (-1)) = .ok (r, t) ∧
      ∃ a ∈ t.touched, a.toNat = 4199 ∧ onePage.sz.toNat ≤ a.toNat := by
  refine ⟨⟨_, rfl⟩, ?_⟩
  have hrun : (sysRead onePage ⟨[], 0⟩ (request (-1))).toOption.any
      (fun r => decide (4199 ∈ r.2.touched)) = true := by decide +kernel
  cases h : sysRead onePage ⟨[], 0⟩ (request (-1)) with
  | error e =>
    rw [h] at hrun
    exact absurd hrun (by simp [Except.toOption])
  | ok r =>
    rw [h] at hrun
    exact ⟨r.1, r.2, rfl, 4199, of_decide_eq_true hrun, by decide, by decide⟩

end StrideXv6.Syscall
