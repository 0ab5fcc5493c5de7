import StrideXv6.Lib.Run
import StrideXv6.Mem.Calls

set_option autoImplicit false

/-! # The pages of the system

`holdings` is everything in use: by the processes, by pipes and by the kernel itself. `Exact` says
that each page of the allocator is free or held exactly once; then every page is accounted for.
One lemma for each call (`forkStep_done` and so on) takes the book of the parts of the call to the
whole system: after it, nothing is missing if the first allocation that failed was not for a page
table, and something is missing if it was (`step_done`).
-/

namespace StrideXv6.Mem

open Hoare Runs Function
open Sched (Slot ProcState NPROC)

/-! ## Who holds a page -/

/-- The pages of a slot of the process table. -/
def held (r : Proc) : Holdings :=
  if r.state = .unused then 0 else page r.kstack + space r.pgdir

def listed (l : List Page) : Holdings := fun _ x => l.count x

/-- Everything in use but for the slot `p`. -/
def rest (s : Sys) (p : Slot) : Holdings :=
  ∑ q ∈ Finset.univ.erase p, held (s.proc q) + listed s.pipes + listed s.kernel

def holdings (s : Sys) : Holdings :=
  ∑ q, held (s.proc q) + listed s.pipes + listed s.kernel

theorem holdings_eq (s : Sys) (p : Slot) : holdings s = held (s.proc p) + rest s p := by
  rw [holdings, rest, ← Finset.add_sum_erase _ _ (Finset.mem_univ p), add_assoc, add_assoc,
    add_assoc]

theorem setProc_self (s : Sys) (p : Slot) (r : Proc) : (s.setProc p r).proc p = r :=
  update_self ..

theorem setProc_of_ne (s : Sys) {p q : Slot} (r : Proc) (h : q ≠ p) :
    (s.setProc p r).proc q = s.proc q := update_of_ne h ..

theorem rest_setProc (s : Sys) (p : Slot) (r : Proc) (m : Memory) :
    rest ({ s with mem := m }.setProc p r) p = rest s p := by
  have : ∑ q ∈ Finset.univ.erase p, held (Function.update s.proc p r q)
      = ∑ q ∈ Finset.univ.erase p, held (s.proc q) :=
    Finset.sum_congr rfl fun q hq => by rw [update_of_ne (Finset.ne_of_mem_erase hq)]
  rw [rest, rest, Sys.setProc]
  rw [this]

theorem holdings_setProc (s : Sys) (p : Slot) (r : Proc) (m : Memory) :
    holdings ({ s with mem := m }.setProc p r) = held r + rest s p := by
  rw [holdings_eq _ p, rest_setProc, setProc_self]

variable {r : Proc}

theorem held_used (h : r.state ≠ .unused) :
    held r = page r.kstack + space r.pgdir := if_neg h

theorem held_unused (h : r.state = .unused) : held r = 0 := if_pos h

theorem stable_held (r : Proc) : Stable (held r) := by
  unfold held
  split
  · exact stable_zero
  · exact (stable_page _).add (stable_space _)

theorem stable_listed (l : List Page) : Stable (listed l) := fun _ _ _ _ => rfl

theorem stable_sum {ι : Type} (F : Finset ι) {f : ι → Holdings} (h : ∀ i, Stable (f i)) :
    Stable (∑ i ∈ F, f i) := by
  classical
  induction F using Finset.induction_on with
  | empty => exact stable_zero
  | insert i F hi ih =>
    rw [Finset.sum_insert hi]
    exact (h i).add ih

theorem stable_rest (s : Sys) (p : Slot) : Stable (rest s p) :=
  ((stable_sum _ fun q => stable_held (s.proc q)).add (stable_listed _)).add (stable_listed _)

theorem stable_holdings (s : Sys) : Stable (holdings s) :=
  ((stable_sum _ fun q => stable_held (s.proc q)).add (stable_listed _)).add (stable_listed _)

/-- `x` is the kernel stack, the page directory, a page table or a page in the user part of the
address space of `r`. -/
inductive Used (pt : Pt) (r : Proc) (x : Page) : Prop where
  | kstack (h : r.kstack = x)
  | pgdir (h : r.pgdir = x)
  | pgtab (i : Nat) (e : Pte) (hi : i < NPTENTRIES) (he : pt r.pgdir i = some e) (h : e.page = x)
  | mapped (v : Nat) (c : Pte) (hv : v * PGSIZE < KERNBASE) (hc : entryAt pt r.pgdir v = some c)
      (h : c.page = x)

/-- Every page of the allocator is free, or in use by a process, by a pipe or by the kernel. -/
def Accounted (img : Image) (s : Sys) : Prop :=
  ∀ x, img.end_ ≤ x → x < physPages →
    x ∈ s.mem.freelist ∨ (∃ p, (s.proc p).state ≠ .unused ∧ Used s.mem.pt (s.proc p) x) ∨
      x ∈ s.pipes ∨ x ∈ s.kernel

variable {x : Page}

theorem cell_pos {c : Option Pte} (h : 0 < cell c x) :
    ∃ e, c = some e ∧ e.page = x := by
  cases c with
  | none => exact absurd h (Nat.lt_irrefl 0)
  | some e => exact ⟨e, rfl, one_pos h⟩

theorem used_of_tree {pt : Pt} (h : 0 < tree pt r.pgdir x) :
    Used pt r x := by
  unfold tree at h
  rcases Nat.add_pos_iff_pos_or_pos.mp h with h | h
  · exact .pgdir (one_pos h)
  · obtain ⟨i, hi, hpos⟩ := Finset.sum_pos_iff.mp h
    have hi := Finset.mem_range.mp hi
    cases he : pt r.pgdir i with
    | none =>
      rw [he] at hpos
      exact absurd hpos (Nat.lt_irrefl 0)
    | some e =>
      rw [he] at hpos
      simp only [branch] at hpos
      rcases Nat.add_pos_iff_pos_or_pos.mp hpos with hpos | hpos
      · exact .pgtab i e hi he (one_pos hpos)
      · split at hpos
        · rename_i hu
          obtain ⟨j, hj, hpos⟩ := Finset.sum_pos_iff.mp hpos
          have hj := Finset.mem_range.mp hj
          obtain ⟨c, hc, hx⟩ := cell_pos hpos
          refine .mapped (i * NPTENTRIES + j) c ?_ ?_ hx
          · simp only [NPTENTRIES, userEntries, PGSIZE, KERNBASE] at *
            omega
          · have hp : pdx (i * NPTENTRIES + j) = i := by
              simp only [pdx, NPTENTRIES] at *
              omega
            have hq : ptx (i * NPTENTRIES + j) = j := by
              simp only [ptx, NPTENTRIES] at *
              omega
            rw [entryAt, hp, hq, he, Option.bind_some, hc]
        · exact absurd hpos (Nat.lt_irrefl 0)

theorem Used.pos {pt : Pt} (h : Used pt r x) :
    0 < one r.kstack x + tree pt r.pgdir x := by
  cases h with
  | kstack h =>
    rw [h, one_self]
    omega
  | pgdir h =>
    have := tree_dir_pos pt r.pgdir
    rw [h] at this ⊢
    omega
  | pgtab i e hi he h =>
    have := table_le_tree (x := x) hi he
    rw [h, one_self] at this
    omega
  | mapped v c hv hc h =>
    cases he : pt r.pgdir (pdx v) with
    | none =>
      rw [entryAt, he] at hc
      cases hc
    | some e =>
      rw [entryAt, he, Option.bind_some] at hc
      have h1 := leaf_le_tree (x := x) (pdx_user hv) he
      have h2 : cell (pt e.page (ptx v)) x ≤ leaf pt e.page x := cell_le_leaf (ptx_lt v)
      rw [hc] at h2
      simp only [cell, h, one_self] at h2
      omega

theorem holdings_apply (s : Sys) (pt : Pt) (x : Page) :
    holdings s pt x = ∑ q, held (s.proc q) pt x + s.pipes.count x + s.kernel.count x := by
  simp only [holdings, Pi.add_apply, Finset.sum_apply, listed]

theorem holdings_pos (s : Sys) (x : Page) :
    0 < total (holdings s) s.mem x ↔ x ∈ s.mem.freelist ∨
      (∃ p, (s.proc p).state ≠ .unused ∧ Used s.mem.pt (s.proc p) x) ∨
        x ∈ s.pipes ∨ x ∈ s.kernel := by
  have hsum : 0 < ∑ q, held (s.proc q) s.mem.pt x ↔
      ∃ p, (s.proc p).state ≠ .unused ∧ Used s.mem.pt (s.proc p) x := by
    rw [Finset.sum_pos_iff]
    constructor
    · rintro ⟨p, -, hp⟩
      by_cases hu : (s.proc p).state = .unused
      · rw [held_unused hu] at hp
        exact absurd hp (Nat.lt_irrefl 0)
      · rw [held_used hu] at hp
        refine ⟨p, hu, ?_⟩
        rcases Nat.add_pos_iff_pos_or_pos.mp hp with hp | hp
        · exact .kstack (one_pos hp)
        · exact used_of_tree hp
    · rintro ⟨p, hu, hx⟩
      refine ⟨p, Finset.mem_univ p, ?_⟩
      rw [held_used hu]
      exact hx.pos
  rw [total, holdings_apply, ← hsum, ← List.count_pos_iff, ← List.count_pos_iff,
    ← List.count_pos_iff]
  omega

/-! ## The invariant -/

/-- The pages given to the allocator. -/
def given (img : Image) : Finset Page := Finset.Ico img.end_ physPages

theorem ind_given (img : Image) (x : Page) :
    ind (given img) x = if img.end_ ≤ x ∧ x < physPages then 1 else 0 := by
  unfold ind given
  simp only [Finset.mem_Ico]

structure Exact (img : Image) (s : Sys) : Prop where
  once : ∀ x, total (holdings s) s.mem x = ind (given img) x
  small : ∀ p, (s.proc p).state ≠ .unused → (s.proc p).sz < KERNBASE

variable {img : Image} {s : Sys}

theorem Exact.accounted (h : Exact img s) : Accounted img s := by
  intro x h1 h2
  rw [← holdings_pos, h.once, ind_given, if_pos ⟨h1, h2⟩]
  exact Nat.one_pos

theorem not_accounted (h : total (holdings s) s.mem x < ind (given img) x) : ¬ Accounted img s := by
  intro hacc
  rw [ind_given] at h
  split at h
  · rename_i hx
    have := (holdings_pos s x).mpr (hacc x hx.1 hx.2)
    omega
  · omega

/-! ## The calls -/

def Event.fails : Event → List Bool
  | .fork _ fails => fails
  | .exec _ _ fails => fails
  | .sbrk _ _ fails => fails
  | .pipealloc fails => fails
  | .exit _ => []
  | .wait _ _ => []
  | .pipeclose _ => []

/-- What a call allocates as long as no allocation fails. -/
def callPlan (img : Image) (s : Sys) : Event → List Kind
  | .fork p _ => if findUnused s.proc = none then [] else forkPlan img (s.proc p).sz
  | .exec _ f _ => execPlan img f
  | .sbrk p n _ => growPlan (fun i => (s.mem.pt (s.proc p).pgdir i).isSome) (s.proc p).sz n
  | .pipealloc _ => [.pipe]
  | .exit _ => []
  | .wait _ _ => []
  | .pipeclose _ => []

/-- What the first failing allocation of a call is for. -/
def failure (img : Image) (s : Sys) (e : Event) : Option Kind :=
  firstFailure (callPlan img s e) e.fails s.mem.freelist.length

/-- After a call that started in order. -/
structure Done (img : Image) (K : Option Kind) (s : Sys) : Prop where
  book : Book (given img) K (holdings s) (fun _ => K ≠ some .pgtab) s.mem
  small : ∀ p, (s.proc p).state ≠ .unused → (s.proc p).sz < KERNBASE

theorem Done.exact {K : Option Kind} (h : Done img K s) (hK : K ≠ some .pgtab) : Exact img s := by
  refine ⟨?_, h.small⟩
  rcases h.book.mode with ⟨-, hx⟩ | ⟨hpt, -⟩
  · exact hx
  · exact absurd hpt hK

theorem Done.not_accounted (h : Done img (some .pgtab) s) :
    ¬ Accounted img s := by
  rcases h.book.mode with ⟨hne, -⟩ | ⟨-, x, hx⟩
  · exact absurd rfl hne
  · exact Mem.not_accounted hx

section Steps

variable {img : Image} {s s' : Sys} {p : Slot} {K : Option Kind}
variable {fails : List Bool}

theorem run_eq_some {α : Type} {m : M α} {r : α × Memory}
    (h : run s fails m = some r) : m { s.mem with fails := fails } = .ok r := by
  unfold run at h
  split at h
  · rename_i hm
    rw [hm, Option.some.inj h]
  · cases h

theorem Exact.start (h : Exact img s) {ks : List Kind}
    (hK : firstFailure ks fails s.mem.freelist.length = K) :
    Book (given img) K (holdings s) (Due False ks K) { s.mem with fails := fails } :=
  ⟨fun x => (h.once x).le, .inl ⟨⟨hK, False.elim⟩, h.once⟩⟩

/-- A slot is replaced by another one, or freed. -/
theorem Done.setProc (h : Exact img s) {m : Memory} {r : Proc}
    (hb : Book (given img) K (held r + rest s p) (fun _ => K ≠ some .pgtab) m)
    (hsz : r.state ≠ .unused → r.sz < KERNBASE) :
    Done img K ({ s with mem := m }.setProc p r) := by
  refine ⟨?_, fun q hq => ?_⟩
  · rw [holdings_setProc]
    exact hb
  · by_cases hqp : q = p
    · subst hqp
      rw [setProc_self] at *
      exact hsz hq
    · rw [setProc_of_ne _ _ hqp] at *
      exact h.small q hq

theorem Done.replace (h : Exact img s) {m : Memory} {r : Proc} (hr : r.state ≠ .unused)
    (hb : Book (given img) K (space r.pgdir + (page r.kstack + rest s p))
      (fun _ => K ≠ some .pgtab) m) (hsz : r.sz < KERNBASE) :
    Done img K ({ s with mem := m }.setProc p r) := by
  refine Done.setProc h ?_ fun _ => hsz
  rwa [held_used hr, add_comm (page _), add_assoc]

theorem holdings_used (hp : (s.proc p).state ≠ .unused) :
    holdings s = space (s.proc p).pgdir + (page (s.proc p).kstack + rest s p) := by
  rw [holdings_eq s p, held_used hp, add_comm (page _), add_assoc]

theorem Exact.done (h : Exact img s) : Done img none s :=
  ⟨⟨fun x => (h.once x).le, .inl ⟨(nomatch ·), h.once⟩⟩, h.small⟩

/-- The holdings depend on a few fields only. -/
theorem Done.congr (h : Done img K s)
    (hproc : ∀ q, ((s'.proc q).state = .unused ↔ (s.proc q).state = .unused) ∧
      (s'.proc q).kstack = (s.proc q).kstack ∧ (s'.proc q).pgdir = (s.proc q).pgdir ∧
      (s'.proc q).sz = (s.proc q).sz)
    (hmem : s'.mem = s.mem) (hpipes : s'.pipes = s.pipes) (hkernel : s'.kernel = s.kernel) :
    Done img K s' := by
  have hheld : ∀ q, held (s'.proc q) = held (s.proc q) := by
    intro q
    obtain ⟨h1, h2, h3, -⟩ := hproc q
    simp only [held, h1, h2, h3]
  refine ⟨?_, fun q hq => ?_⟩
  · rw [holdings, Finset.sum_congr rfl fun q _ => hheld q, hmem, hpipes, hkernel]
    exact h.book
  · obtain ⟨h1, -, -, h4⟩ := hproc q
    rw [h4]
    exact h.small q fun heq => hq (h1.mpr heq)

theorem findUnused_state {t : Slot → Proc} {p : Slot} (h : findUnused t = some p) :
    (t p).state = .unused := by
  simpa using List.find?_some h

theorem Proc.runs_used {r : Proc} (h : r.runs = true) : r.state ≠ .unused := by
  simp only [Proc.runs, decide_eq_true_eq] at h
  exact h.1

theorem forkStep_done (h : Exact img s) (hp : (s.proc p).state ≠ .unused)
    (hK : failure img s (.fork p fails) = K) (hs : forkStep img s p fails = some s') :
    Done img K s' ∧ (s'.proc = s.proc → holdings s' s'.mem.pt = holdings s s.mem.pt) := by
  unfold forkStep at hs
  cases hu : findUnused s.proc with
  | none =>
    rw [hu] at hs
    cases hs
    have hK : none = K := by rwa [failure, callPlan, if_pos hu] at hK
    subst hK
    exact ⟨h.done, fun _ => rfl⟩
  | some np =>
    rw [hu] at hs
    obtain ⟨⟨r, m⟩, hrun, rfl⟩ := Option.map_eq_some_iff.mp hs
    rw [failure, callPlan, if_neg (by simp [hu])] at hK
    have hspec := (forkPages_spec (stable_holdings s) (h.small p hp) (h.start hK)).ok rfl
      (run_eq_some hrun)
    have hnp := findUnused_state hu
    cases r with
    | none => exact ⟨⟨hspec.2, h.small⟩, fun _ => hspec.1⟩
    | some sd =>
      refine ⟨Done.setProc h ?_ fun _ => h.small p hp, fun heq => ?_⟩
      · rw [holdings_eq s np, held_unused hnp, zero_add] at hspec
        rwa [held_used (by simp)]
      · have := congrArg Proc.state (congrFun heq np)
        rw [hnp] at this
        simp only [setProc_self] at this
        cases this

theorem execStep_done (h : Exact img s) {f : ExecFile}
    (hp : (s.proc p).state ≠ .unused) (hK : failure img s (.exec p f fails) = K)
    (hs : execStep img s p f fails = some s') :
    Done img K s' ∧ (s'.proc = s.proc → holdings s' s'.mem.pt = holdings s s.mem.pt) := by
  unfold execStep at hs
  obtain ⟨⟨r, m⟩, hrun, rfl⟩ := Option.map_eq_some_iff.mp hs
  have hstart := h.start (K := K) hK
  rw [holdings_used hp] at hstart
  have hspec := (exec_spec ((stable_page _).add (stable_rest s p)) hstart).ok rfl (run_eq_some hrun)
  cases r with
  | none =>
    rw [← holdings_used hp] at hspec
    exact ⟨⟨hspec.2, h.small⟩, fun _ => hspec.1⟩
  | some ds =>
    obtain ⟨hne, hsz, hb⟩ := hspec
    refine ⟨Done.replace h hp hb hsz, fun heq => ?_⟩
    have := congrArg Proc.pgdir (congrFun heq p)
    simp only [setProc_self] at this
    exact absurd this hne

theorem sbrkStep_done (h : Exact img s) {n : Int}
    (hp : (s.proc p).state ≠ .unused) (hK : failure img s (.sbrk p n fails) = K)
    (hs : sbrkStep img s p n fails = some s') : Done img K s' := by
  unfold sbrkStep at hs
  obtain ⟨⟨r, m⟩, hrun, rfl⟩ := Option.map_eq_some_iff.mp hs
  have hstart := h.start (K := K) hK
  rw [holdings_used hp] at hstart
  obtain ⟨hb, hsz⟩ := (growproc_spec ((stable_page _).add (stable_rest s p)) (h.small p hp)
    hstart).ok rfl (run_eq_some hrun)
  cases r with
  | none =>
    rw [← holdings_used hp] at hb
    exact ⟨hb, h.small⟩
  | some sz => exact Done.replace h hp hb (hsz sz rfl)

theorem exitStep_done (h : Exact img s) (hp : (s.proc p).state ≠ .unused)
    (hK : failure img s (.exit p) = K) (hs : exitStep s p = some s') : Done img K s' := by
  unfold exitStep at hs
  split at hs
  · cases hs
  · cases hs
    have hK : none = K := hK
    subst hK
    refine h.done.congr (fun q => ?_) rfl rfl rfl
    by_cases hq : q = p
    · subst hq
      rw [setProc_self]
      dsimp only
      split
      · exact ⟨by simp [hp], rfl, rfl, rfl⟩
      · exact ⟨by simp [hp], rfl, rfl, rfl⟩
    · rw [setProc_of_ne _ _ hq]
      dsimp only
      split
      · exact ⟨Iff.rfl, rfl, rfl, rfl⟩
      · exact ⟨Iff.rfl, rfl, rfl, rfl⟩

theorem waitStep_done (h : Exact img s) {killed : Bool} (hK : failure img s (.wait p killed) = K)
    (hs : waitStep img s p killed = some s') : Done img K s' := by
  have hK : none = K := hK
  subst hK
  unfold waitStep at hs
  cases hz : findZombie s p with
  | none =>
    rw [hz] at hs
    dsimp only at hs
    split at hs
    · cases hs
      exact h.done
    · cases hs
  | some q =>
    rw [hz] at hs
    obtain ⟨⟨r, m⟩, hrun, rfl⟩ := Option.map_eq_some_iff.mp hs
    have hq : (s.proc q).state ≠ .unused := by
      have := List.find?_some hz
      simp only [Bool.and_eq_true, decide_eq_true_eq] at this
      rw [this.2]
      exact fun heq => nomatch heq
    have hstart : Book (given img) none (holdings s) (Due False [] none)
        { s.mem with fails := [] } := h.start rfl
    rw [holdings_eq s q, held_used hq] at hstart
    have hb := (reap_spec (stable_rest s q) (hstart.imp Due.sound)).ok rfl (run_eq_some hrun)
    refine Done.setProc h ?_ fun hne => absurd rfl hne
    rw [held_unused rfl, zero_add]
    exact hb

theorem pipeallocStep_done (h : Exact img s)
    (hK : failure img s (.pipealloc fails) = K) (hs : pipeallocStep s fails = some s') :
    Done img K s' := by
  unfold pipeallocStep at hs
  obtain ⟨⟨r, m⟩, hrun, rfl⟩ := Option.map_eq_some_iff.mp hs
  have hspec := (kalloc_spec (Q := fun _ => True) ((h.start hK).imp fun hd => ⟨trivial, hd⟩)).ok
    rfl (run_eq_some hrun)
  obtain ⟨-, hspec⟩ := hspec
  cases r with
  | none => exact ⟨hspec.imp fun hK => sound_of_eq hK (by decide), h.small⟩
  | some pg =>
    refine ⟨Book.move hspec (fun x => ?_) fun hd => hd.2.sound, h.small⟩
    simp only [total, Pi.add_apply, holdings_apply, page, one, List.count_cons, beq_iff_eq]
    omega

theorem pipecloseStep_done (h : Exact img s) {pg : Page}
    (hK : failure img s (.pipeclose pg) = K) (hs : pipecloseStep img s pg = some s') :
    Done img K s' := by
  have hK : none = K := hK
  subst hK
  unfold pipecloseStep at hs
  split at hs
  · rename_i hmem
    obtain ⟨⟨r, m⟩, hrun, rfl⟩ := Option.map_eq_some_iff.mp hs
    have hstart : Book (given img) none (holdings { s with pipes := s.pipes.erase pg } + page pg)
        (fun _ => (none : Option Kind) ≠ some .pgtab) { s.mem with fails := [] } := by
      refine h.done.book.move (fun x => ?_) id
      have hcount : (s.pipes.erase pg).count x = s.pipes.count x - if pg = x then 1 else 0 := by
        rw [List.count_erase]
        simp only [beq_iff_eq]
      have hpos := List.count_pos_iff.mpr hmem
      simp only [total, Pi.add_apply, holdings_apply, page, one, hcount]
      split
      · rename_i heq
        subst heq
        omega
      · omega
    exact ⟨(kfree_spec img hstart (stable_holdings _)).ok rfl (run_eq_some hrun), h.small⟩
  · cases hs

theorem step_done (h : Exact img s) {e : Event} (hK : failure img s e = K)
    (hs : step img s e = some s') : Done img K s' := by
  cases e with
  | fork p fails =>
    obtain ⟨hp, hs⟩ := Option.ite_none_right_eq_some.mp hs
    exact (forkStep_done h (Proc.runs_used hp) hK hs).1
  | exec p f fails =>
    obtain ⟨hp, hs⟩ := Option.ite_none_right_eq_some.mp hs
    exact (execStep_done h (Proc.runs_used hp) hK hs).1
  | sbrk p n fails =>
    obtain ⟨hp, hs⟩ := Option.ite_none_right_eq_some.mp hs
    exact sbrkStep_done h (Proc.runs_used hp) hK hs
  | exit p =>
    obtain ⟨hp, hs⟩ := Option.ite_none_right_eq_some.mp hs
    exact exitStep_done h (Proc.runs_used hp) hK hs
  | wait p killed =>
    obtain ⟨-, hs⟩ := Option.ite_none_right_eq_some.mp hs
    exact waitStep_done h hK hs
  | pipealloc fails => exact pipeallocStep_done h hK hs
  | pipeclose pg => exact pipecloseStep_done h hK hs

/-! ## Calls that fail -/

/-- The calls of `fork` and `exec`. -/
def Event.copies : Event → Bool
  | .fork _ _ => true
  | .exec _ _ _ => true
  | _ => false

/-- A `fork` or `exec` that changes no process leaves the free pages as they were. -/
def KeepsFree (x : Trans Sys Event) : Prop :=
  x.ev.copies = true → x.post.proc = x.pre.proc →
    ∀ y, y ∈ x.post.mem.freelist ↔ y ∈ x.pre.mem.freelist

theorem keepsFree_of_exact {x : Trans Sys Event} (h : Exact img x.pre)
    (hs : step img x.pre x.ev = some x.post) (hK : failure img x.pre x.ev ≠ some .pgtab) :
    KeepsFree x := by
  intro hc heq y
  have hpost := (step_done h rfl hs).exact hK
  have hsame : holdings x.post x.post.mem.pt = holdings x.pre x.pre.mem.pt := by
    obtain ⟨pre, e, post⟩ := x
    cases e with
    | fork p fails =>
      obtain ⟨hp, hs⟩ := Option.ite_none_right_eq_some.mp hs
      exact (forkStep_done h (Proc.runs_used hp) rfl hs).2 heq
    | exec p f fails =>
      obtain ⟨hp, hs⟩ := Option.ite_none_right_eq_some.mp hs
      exact (execStep_done h (Proc.runs_used hp) rfl hs).2 heq
    | sbrk | exit | wait | pipealloc | pipeclose => cases hc
  have h1 := h.once y
  have h2 := hpost.once y
  rw [total] at h1 h2
  rw [hsame] at h2
  rw [← List.count_pos_iff, ← List.count_pos_iff]
  omega

end Steps

end StrideXv6.Mem
