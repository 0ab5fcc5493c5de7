import StrideXv6.Lib.Links
import StrideXv6.Bio.System

set_option autoImplicit false

/-! # The list of buffers

`bio.c` keeps the buffers in a list that is linked both ways and closed by `bcache.head`. Here are
the links as `binit` and `brelse` set them, and the loop of `bget` that goes back from the head for
a buffer to recycle. `Cache` has a list of buffers in the place of the links: `listed_binit` and
`Listed.steps` say that the links represent that list at the start and after every step.

`lru_order` is about every sequence of releases: the links are a ring through all buffers, in the
order of their last releases, and the loop finds the buffer that was not released for longest.
-/

namespace StrideXv6.Bio.Mru

/-! ## bio.c -/

/-- What `next` and `prev` point to. -/
inductive Node where
  | head
  | buf (b : BufId)
  deriving DecidableEq

/-- The links and the flags `B_BUSY` and `B_DIRTY`. -/
structure State where
  links : Links Node
  busy : BufId → Bool
  dirty : BufId → Bool

/-- The links after `binit`, from any before it. -/
def binit (s : Links Node) : Links Node :=
  (List.finRange NBUF).foldl (fun s b => s.pushFront .head (.buf b))
    ((s.setPrev .head .head).setNext .head .head)

/-- The six assignments of `brelse(b)`. -/
def relink (s : Links Node) (b : BufId) : Links Node :=
  (s.unlink (.buf b)).pushFront .head (.buf b)

/-- `brelse(b)`; `none` if it panics. -/
def brelse (s : State) (b : BufId) : Option State :=
  if s.busy b then some { s with links := relink s.links b, busy := Function.update s.busy b false }
  else none

/-- The test in the second loop of `bget`. -/
def recyclable (s : State) : Node → Bool
  | .head => false
  | .buf b => !s.busy b && !s.dirty b

/-- The second loop of `bget` with at most `n` tests of its condition: the buffer, or `some none`
for the panic. -/
def recycle (s : State) (n : Nat) : Option (Option Node) :=
  s.links.mirror.find .head (recyclable s) n (s.links.prev .head)

/-! ## Runs -/

inductive Event where
  /-- `brelse(b)` -/
  | brelse (b : BufId)
  /-- any change of flags, by `bget`, `bwrite`, `log_write` or `ideintr` -/
  | flags (busy dirty : BufId → Bool)

def step (s : State) : Event → Option State
  | .brelse b => brelse s b
  | .flags busy dirty => some { s with busy := busy, dirty := dirty }

/-- After `binit`, with no flag set. -/
def start (s : Links Node) : State := ⟨binit s, fun _ => false, fun _ => false⟩

def Event.released : Event → Option BufId
  | .brelse b => some b
  | .flags _ _ => none

/-- The buffers released, the last one first. -/
def released (es : List Event) : List BufId := (es.filterMap Event.released).reverse

/-- The number of releases after the last one of `b`; that of all releases if it had none. -/
def since (es : List Event) (b : BufId) : Nat := (released es).idxOf b

/-! ## The list that the links represent -/

/-- The links are a ring through all buffers, in the order `l`. -/
structure Listed (s : Links Node) (l : List BufId) : Prop where
  ring : s.Ring .head (l.map .buf)
  all : ∀ b, b ∈ l

theorem buf_injective : Function.Injective Node.buf := fun _ _ h => Node.buf.inj h

variable {s : Links Node} {l : List BufId}
variable {es : List Event}

theorem Listed.nodup (h : Listed s l) : l.Nodup := (List.nodup_cons.mp h.ring.nodup).2.of_map _

theorem Listed.length (h : Listed s l) : l.length = NBUF := by
  have hfull : l.toFinset = Finset.univ :=
    Finset.eq_univ_of_forall fun b => List.mem_toFinset.mpr (h.all b)
  rw [← List.toFinset_card_of_nodup h.nodup, hfull, Finset.card_univ, Fintype.card_fin]

theorem ring_foldl (bs : List BufId) (h : s.Ring .head (l.map .buf))
    (hnd : (bs.reverse ++ l).Nodup) :
    (bs.foldl (fun s b => s.pushFront .head (.buf b)) s).Ring .head
      ((bs.reverse ++ l).map .buf) := by
  induction bs generalizing s l with
  | nil => exact h
  | cons b bs ih =>
    rw [List.reverse_cons, List.append_assoc, List.singleton_append] at hnd ⊢
    have hb : b ∉ l := (List.nodup_cons.mp (List.nodup_append.mp hnd).2.1).1
    refine ih (l := b :: l) (h.pushFront ?_) hnd
    rw [List.mem_cons, List.mem_map_of_injective buf_injective]
    rintro (heq | hmem)
    · cases heq
    · exact hb hmem

/-- `binit` makes the list that `Cache` starts with. -/
theorem listed_binit (s : Links Node) : Listed (binit s) (List.finRange NBUF).reverse := by
  refine ⟨?_, fun b => List.mem_reverse.mpr (List.mem_finRange b)⟩
  have hring := ring_foldl (l := []) (List.finRange NBUF) (s.ring_nil .head) (by
    rw [List.append_nil]
    exact List.nodup_reverse.mpr (List.nodup_finRange NBUF))
  rwa [List.append_nil] at hring

theorem Listed.relink (h : Listed s l) (b : BufId) : Listed (relink s b) (b :: l.erase b) := by
  refine ⟨?_, fun b' => ?_⟩
  · have hring := h.ring.moveFront (List.mem_map_of_mem (h.all b))
    rwa [← List.map_erase buf_injective, ← List.map_cons] at hring
  · by_cases hb : b' = b
    · rw [hb]
      exact List.mem_cons_self
    · exact List.mem_cons_of_mem _ ((List.mem_erase_of_ne hb).mpr (h.all b'))

/-- The links after the next step of a process. -/
def follow (s : Links Node) : Pc → Links Node
  | .relink b => relink s b
  | _ => s

theorem ideintr_mru {ι α : Type} (c : Cache ι α) : (ideintr c).mru = c.mru := by
  unfold ideintr
  split
  · rfl
  · dsimp only
    split
    · rfl
    · obtain ⟨D, e, h⟩ := idestart_eq { c.setBuf _ (finished c _) with idequeue := _ } _
      rw [h]
      rfl

variable {ι α : Type} [DecidableEq ι] {c c' : Cache ι α}

theorem Listed.steps {p : ι} (h : Listed s c.mru) (hst : Steps c p c') (hpan : c'.panic = none) :
    Listed (follow s (c.pc p)) c'.mru := by
  cases hst with
  | relink hp => exact hp ▸ h.relink _
  | panic e => cases hpan
  | enqueue hp _ =>
    obtain ⟨D, e, henq⟩ := enqueue_eq c p _ _
    rw [hp, henq]
    exact h
  | _ =>
    rw [‹c.pc p = _›]
    exact h

/-- A step of a process or the disk, with the links. -/
def Follows (x y : Links Node × Cache ι α) : Prop :=
  (∃ p, Steps x.2 p y.2 ∧ y.2.panic = none ∧ y.1 = follow x.1 (x.2.pc p)) ∨ y = (x.1, ideintr x.2)

/-- The loop finds the last buffer of the list that is neither busy nor dirty. -/
theorem Listed.recycle {s : State} (h : Listed s.links l) (n : Nat) :
    recycle s (NBUF + 1 + n)
      = some ((l.reverse.find? fun b => !s.busy b && !s.dirty b).map Node.buf) := by
  have hfind := h.ring.mirror.find (recyclable s) n
  rw [List.length_reverse, List.length_map, h.length, ← List.map_reverse, List.find?_map] at hfind
  exact hfind

/-! ## The order -/

/-- `x` was released after the last release of `y`, or neither was released. -/
def Before (es : List Event) (x y : BufId) : Prop :=
  since es x < since es y ∨ x ∉ released es ∧ y ∉ released es

theorem released_brelse (es : List Event) (b : BufId) :
    released (es ++ [.brelse b]) = b :: released es := by
  rw [released, List.filterMap_append, List.reverse_append]
  rfl

theorem released_flags (es : List Event) (busy dirty : BufId → Bool) :
    released (es ++ [.flags busy dirty]) = released es := by
  rw [released, List.filterMap_append, List.reverse_append]
  rfl

theorem since_self (es : List Event) (b : BufId) : since (es ++ [.brelse b]) b = 0 := by
  rw [since, released_brelse, List.idxOf_cons_self]

theorem since_of_ne {x b : BufId} (es : List Event) (h : x ≠ b) :
    since (es ++ [.brelse b]) x = since es x + 1 := by
  rw [since, released_brelse, List.idxOf_cons_ne _ h.symm]
  rfl

theorem Before.le {x y : BufId} (h : Before es x y) :
    since es x ≤ since es y := by
  rcases h with h | ⟨hx, hy⟩
  · exact h.le
  · rw [since, since, List.idxOf_eq_length_iff.mpr hx, List.idxOf_eq_length_iff.mpr hy]

theorem Before.brelse {x y b : BufId} (h : Before es x y) (hx : x ≠ b)
    (hy : y ≠ b) : Before (es ++ [.brelse b]) x y := by
  rw [Before, since_of_ne es hx, since_of_ne es hy, released_brelse, List.mem_cons, List.mem_cons]
  rcases h with h | ⟨hx', hy'⟩
  · exact .inl (Nat.succ_lt_succ h)
  · exact .inr ⟨not_or.mpr ⟨hx, hx'⟩, not_or.mpr ⟨hy, hy'⟩⟩

/-- The buffer released goes before all others, which keep their order. -/
theorem pairwise_brelse (b : BufId) (hnd : l.Nodup)
    (h : l.Pairwise (Before es)) : (b :: l.erase b).Pairwise (Before (es ++ [.brelse b])) := by
  have hne : ∀ x ∈ l.erase b, x ≠ b := fun x hx => (hnd.mem_erase_iff.mp hx).1
  rw [List.pairwise_cons]
  constructor
  · intro x hx
    left
    rw [since_self, since_of_ne es (hne x hx)]
    exact Nat.succ_pos _
  · refine (h.sublist List.erase_sublist).imp_of_mem fun hx hy hxy => ?_
    exact hxy.brelse (hne _ hx) (hne _ hy)

/-- What a run keeps. -/
def Inv (es : List Event) (s : State) : Prop :=
  ∃ l, Listed s.links l ∧ l.Pairwise (Before es)

theorem inv_step {s t : State} {e : Event} (hst : step s e = some t)
    (h : Inv es s) : Inv (es ++ [e]) t := by
  obtain ⟨l, hl, hord⟩ := h
  cases e with
  | brelse b =>
    rw [step, brelse] at hst
    split at hst
    · cases hst
      exact ⟨b :: l.erase b, hl.relink b, pairwise_brelse b hl.nodup hord⟩
    · cases hst
  | flags busy dirty =>
    cases hst
    refine ⟨l, hl, hord.imp fun hxy => ?_⟩
    rwa [Before, since, since, released_flags]

theorem inv_start (g : Links Node) : Inv [] (start g) := by
  refine ⟨_, listed_binit g, List.pairwise_of_forall fun x y => .inr ⟨?_, ?_⟩⟩
  · exact List.not_mem_nil
  · exact List.not_mem_nil

/-- The first buffer of the reversed list that passes a test was released before all others that
do. -/
theorem find_reverse_last {p : BufId → Bool} {b b' : BufId}
    (h : l.Pairwise (Before es)) (hfind : l.reverse.find? p = some b) (hmem : b' ∈ l)
    (hb' : p b' = true) : since es b' ≤ since es b := by
  obtain ⟨-, as, bs, hsplit, has⟩ := List.find?_eq_some_iff_append.mp hfind
  have hl : l = bs.reverse ++ b :: as.reverse := by
    rw [← List.reverse_reverse l, hsplit, List.reverse_append, List.reverse_cons,
      List.append_assoc, List.singleton_append]
  rw [hl] at h hmem
  rcases List.mem_append.mp hmem with hin | hin
  · exact ((List.pairwise_append.mp h).2.2 b' hin b List.mem_cons_self).le
  · rcases List.mem_cons.mp hin with rfl | hin
    · exact le_refl _
    · have := has b' (List.mem_reverse.mp hin)
      rw [hb'] at this
      cases this

/-- The links are a ring through all buffers, in the order of the releases, and `bget` recycles the
buffer that was not released for longest. -/
structure IsLru (es : List Event) (s : State) (l : List BufId) : Prop where
  nodup : l.Nodup
  all : ∀ b, b ∈ l
  length : l.length = NBUF
  visits : ∀ (k : Nat) (hk : k < l.length), s.links.next^[k + 1] .head = .buf (l.get ⟨k, hk⟩)
  back : s.links.next^[NBUF + 1] .head = .head
  inverse : ∀ x, s.links.prev (s.links.next x) = x ∧ s.links.next (s.links.prev x) = x
  order : l.Pairwise (Before es)
  recycles : ∀ n, ∃ r, recycle s (NBUF + 1 + n) = some (r.map Node.buf) ∧
    (r = none ↔ ∀ b, s.busy b = true ∨ s.dirty b = true) ∧
    ∀ b, r = some b → s.busy b = false ∧ s.dirty b = false ∧
      ∀ b', s.busy b' = false → s.dirty b' = false → since es b' ≤ since es b

theorem isLru_of_listed {s : State} (h : Listed s.links l)
    (hord : l.Pairwise (Before es)) : IsLru es s l := by
  have hin : ∀ x : Node, x ∈ Node.head :: l.map Node.buf := fun x => by
    cases x with
    | head => exact List.mem_cons_self
    | buf b => exact List.mem_cons_of_mem _ (List.mem_map_of_mem (h.all b))
  refine ⟨h.nodup, h.all, h.length, fun k hk => ?_, ?_, fun x => ?_, hord, fun n => ?_⟩
  · rw [h.ring.seg.iterate k (by rwa [List.length_map])]
    exact List.getElem_map ..
  · have hlen := h.ring.seg.iterate_length
    rwa [List.length_map, h.length] at hlen
  · exact ⟨h.ring.seg.prev_next x (hin x), h.ring.next_prev x (hin x)⟩
  · refine ⟨_, h.recycle n, ?_, fun b hb => ?_⟩
    · rw [List.find?_eq_none]
      constructor
      · intro hno b
        have := hno b (List.mem_reverse.mpr (h.all b))
        cases hbusy : s.busy b <;> cases hdirty : s.dirty b <;> simp_all
      · intro hall b _
        rcases hall b with hb | hb <;> simp [hb]
    · have htest := List.find?_some hb
      simp only [Bool.and_eq_true, Bool.not_eq_true'] at htest
      refine ⟨htest.1, htest.2, fun b' hbusy hdirty => ?_⟩
      exact find_reverse_last hord hb (h.all b') (by simp [hbusy, hdirty])

theorem lru_order (g : Links Node) (es : List Event) {s : State}
    (h : Runs.exec step (start g) es = some s) : ∃ l, IsLru es s l := by
  obtain ⟨tr, hrun, hlast, hevs⟩ := Runs.isRun_of_exec h
  have hinv := hrun.history (J := Inv) (inv_start g) fun _ _ _ _ hst hJ => inv_step hst hJ
  rw [hevs, hlast] at hinv
  obtain ⟨l, hl, hord⟩ := hinv
  exact ⟨l, isLru_of_listed hl hord⟩

/-- A buffer in the middle is released, then the first of the list twice, and then the last. -/
def fourReleases : List Event :=
  [.flags (fun _ => true) (fun _ => false), .brelse ⟨7, by decide⟩, .brelse ⟨29, by decide⟩,
    .flags (fun _ => true) (fun _ => false), .brelse ⟨29, by decide⟩, .brelse buf0]

theorem lru_order_four :
    ∃ s l, Runs.exec step (start ⟨id, id⟩) fourReleases = some s ∧ IsLru fourReleases s l := by
  obtain ⟨s, hs⟩ := Option.isSome_iff_exists.mp
    (show (Runs.exec step (start ⟨id, id⟩) fourReleases).isSome = true from rfl)
  obtain ⟨l, hl⟩ := lru_order ⟨id, id⟩ fourReleases hs
  exact ⟨s, l, hs, hl⟩

end StrideXv6.Bio.Mru
