import Mathlib.Computability.Language

set_option autoImplicit false

/-! # The matcher of grep

`match`, `matchhere` and `matchstar` of `grep.c` on strings that end with a NUL, or with the list. A
pattern stands for a list of items, each with a language, and may be anchored at both ends
(`pattern`); the matcher finds out if the text contains a word of the product of these languages
(`match_iff`).
-/

namespace StrideXv6.Grep

/-! ## grep.c -/

/-- `s[i]`; behind the list there is a NUL. -/
def chr (s : List UInt8) (i : Nat) : UInt8 := s.getD i 0

def caret : UInt8 := 94
def dollar : UInt8 := 36
def star : UInt8 := 42
def dot : UInt8 := 46

theorem length_pos_of_chr {s : List UInt8} (h : chr s 0 ≠ 0) : 0 < s.length := by
  cases s with
  | nil => exact absurd rfl h
  | cons x s => exact Nat.succ_pos _

mutual

/-- `matchhere`: search for `re` at the beginning of `text`. -/
def matchhere (re text : List UInt8) : Bool :=
  if _h : chr re 0 = 0 then true
  else if chr re 1 = star then matchstar (chr re 0) (re.drop 2) text
  else if chr re 0 = dollar ∧ chr re 1 = 0 then chr text 0 = 0
  else if chr text 0 ≠ 0 ∧ (chr re 0 = dot ∨ chr re 0 = chr text 0) then
    matchhere (re.drop 1) (text.drop 1)
  else false
termination_by (re.length, 0)
decreasing_by
  all_goals
    have := length_pos_of_chr _h
    exact .left _ _ (by rw [List.length_drop]; omega)

/-- `matchstar`: search for `c*re` at the beginning of `text`. -/
def matchstar (c : UInt8) (re text : List UInt8) : Bool :=
  if matchhere re text then true
  else if _h : chr text 0 ≠ 0 ∧ (chr text 0 = c ∨ c = dot) then matchstar c re (text.drop 1)
  else false
termination_by (re.length, text.length + 1)
decreasing_by
  · exact .right _ (Nat.succ_pos _)
  · have := length_pos_of_chr _h.1
    exact .right _ (by rw [List.length_drop]; omega)

end

/-- The loop of `match`. -/
def matchAnywhere (re text : List UInt8) : Bool :=
  if matchhere re text then true
  else if _h : chr text 0 ≠ 0 then matchAnywhere re (text.drop 1)
  else false
termination_by text.length
decreasing_by
  have := length_pos_of_chr _h
  rw [List.length_drop]
  omega

/-- `match` -/
def match_ (re text : List UInt8) : Bool :=
  if chr re 0 = caret then matchhere (re.drop 1) text else matchAnywhere re text

/-! ## Patterns -/

/-- An item of a pattern: a character, or a character with a `*`. -/
inductive Item where
  | one (c : UInt8)
  | many (c : UInt8)
  deriving DecidableEq

structure Pattern where
  bol : Bool
  items : List Item
  eol : Bool
  deriving DecidableEq

/-- The items, and whether there is a `$` at the end. -/
def parse : List UInt8 → List Item × Bool
  | [] => ([], false)
  | [c] => if c = dollar then ([], true) else ([.one c], false)
  | c :: c' :: re =>
    if c' = star then (.many c :: (parse re).1, (parse re).2)
    else (.one c :: (parse (c' :: re)).1, (parse (c' :: re)).2)

def pattern (re : List UInt8) : Pattern :=
  if re.head? = some caret then ⟨true, (parse re.tail).1, (parse re.tail).2⟩
  else ⟨false, (parse re).1, (parse re).2⟩

/-- `x` is one of the characters that `c` stands for. -/
def Fits (c x : UInt8) : Prop := c = dot ∨ x = c

def Item.lang : Item → Language UInt8
  | .one c => {s | ∃ x, s = [x] ∧ Fits c x}
  | .many c => KStar.kstar {s | ∃ x, s = [x] ∧ Fits c x}

/-- The text contains a match of the pattern. -/
def Pattern.Occurs (p : Pattern) (text : List UInt8) : Prop :=
  ∃ before s behind, text = before ++ s ++ behind ∧ s ∈ (p.items.map Item.lang).prod ∧
    (p.bol = true → before = []) ∧ (p.eol = true → behind = [])

/-- The C string at the beginning of a list. -/
def cstr (s : List UInt8) : List UInt8 := s.takeWhile (· ≠ 0)

/-! ## Strings -/

variable {s : List UInt8}

theorem cstr_of_eq (h : chr s 0 = 0) : cstr s = [] := by
  cases s with
  | nil => rfl
  | cons x s =>
    have hx : x = 0 := h
    rw [cstr, List.takeWhile_cons_of_neg (by simpa using hx)]

theorem cstr_of_ne (h : chr s 0 ≠ 0) : cstr s = chr s 0 :: cstr (s.drop 1) := by
  cases s with
  | nil => exact absurd rfl h
  | cons x s =>
    have hx : x ≠ 0 := h
    rw [cstr, List.takeWhile_cons_of_pos (by simpa using hx)]
    rfl

theorem cstr_eq_nil_iff : cstr s = [] ↔ chr s 0 = 0 := by
  refine ⟨fun h => ?_, cstr_of_eq⟩
  by_contra h0
  rw [cstr_of_ne h0] at h
  exact List.cons_ne_nil _ _ h

theorem chr_one (s : List UInt8) : chr s 1 = chr (s.drop 1) 0 := by
  simp [chr, List.getD_eq_getElem?_getD]

/-! ## What the items match -/

variable {c : UInt8}

theorem mem_many :
    s ∈ (Item.many c).lang ↔ ∀ x ∈ s, Fits c x := by
  constructor
  · rintro ⟨L, rfl, hL⟩ x hx
    obtain ⟨l, hl, hxl⟩ := List.mem_flatten.mp hx
    obtain ⟨y, rfl, hy⟩ := hL l hl
    rwa [List.mem_singleton.mp hxl]
  · intro h
    refine ⟨s.map fun x => [x], (List.flatMap_singleton' s).symm, fun l hl => ?_⟩
    obtain ⟨x, hx, rfl⟩ := List.mem_map.mp hl
    exact ⟨x, rfl, h x hx⟩

/-- The text begins with a match of `re`. -/
def Here (re text : List UInt8) : Prop :=
  ∃ s behind, text = s ++ behind ∧ s ∈ ((parse re).1.map Item.lang).prod ∧
    ((parse re).2 = true → behind = [])

theorem here_nil (text : List UInt8) : Here [] text :=
  ⟨[], text, rfl, Set.mem_singleton _, fun h => absurd h Bool.false_ne_true⟩

theorem here_end (text : List UInt8) : Here [dollar] text ↔ text = [] := by
  constructor
  · rintro ⟨s, behind, rfl, hs, hend⟩
    have hs : s = [] := hs
    rw [hs, hend rfl]
    rfl
  · rintro rfl
    exact ⟨[], [], rfl, Set.mem_singleton _, fun _ => rfl⟩

/-- The text begins with characters that `c` stands for, with `P` behind them. -/
def Spread (c : UInt8) (P : List UInt8 → Prop) (text : List UInt8) : Prop :=
  ∃ s behind, text = s ++ behind ∧ (∀ x ∈ s, Fits c x) ∧ P behind

theorem here_many (c : UInt8) (re text : List UInt8) :
    Here (c :: star :: re) text ↔ Spread c (Here re) text := by
  have hparse : parse (c :: star :: re) = (.many c :: (parse re).1, (parse re).2) := by
    rw [parse, if_pos rfl]
  unfold Here
  rw [hparse]
  constructor
  · rintro ⟨s, behind, rfl, hs, hend⟩
    rw [List.map_cons, List.prod_cons] at hs
    obtain ⟨s₁, h₁, s₂, h₂, rfl⟩ := hs
    exact ⟨s₁, s₂ ++ behind, List.append_assoc .., mem_many.mp h₁, s₂, behind, rfl, h₂, hend⟩
  · rintro ⟨s₁, rest, rfl, h₁, s₂, behind, rfl, h₂, hend⟩
    refine ⟨s₁ ++ s₂, behind, (List.append_assoc ..).symm, ?_, hend⟩
    rw [List.map_cons, List.prod_cons]
    exact ⟨s₁, mem_many.mpr h₁, s₂, h₂, rfl⟩

variable {re : List UInt8}

theorem parse_one (hstar : re.head? ≠ some star)
    (hend : ¬ (c = dollar ∧ re = [])) : parse (c :: re) = (.one c :: (parse re).1, (parse re).2) := by
  cases re with
  | nil =>
    exact if_neg fun hc => hend ⟨hc, rfl⟩
  | cons c' re =>
    rw [parse, if_neg]
    rintro rfl
    exact hstar rfl

theorem here_one (text : List UInt8) (hstar : re.head? ≠ some star)
    (hend : ¬ (c = dollar ∧ re = [])) :
    Here (c :: re) text ↔ ∃ x t, text = x :: t ∧ Fits c x ∧ Here re t := by
  unfold Here
  rw [parse_one hstar hend]
  constructor
  · rintro ⟨s, behind, rfl, hs, he⟩
    rw [List.map_cons, List.prod_cons] at hs
    obtain ⟨s₁, ⟨x, rfl, hx⟩, s₂, h₂, rfl⟩ := hs
    exact ⟨x, s₂ ++ behind, rfl, hx, s₂, behind, rfl, h₂, he⟩
  · rintro ⟨x, t, rfl, hx, s₂, behind, rfl, h₂, he⟩
    refine ⟨x :: s₂, behind, rfl, ?_, he⟩
    rw [List.map_cons, List.prod_cons]
    exact ⟨[x], ⟨x, rfl, hx⟩, s₂, h₂, rfl⟩

/-! ## The matcher -/

theorem spread_nil {P : List UInt8 → Prop} : Spread c P [] ↔ P [] := by
  constructor
  · rintro ⟨s, behind, h, -, hP⟩
    obtain ⟨rfl, rfl⟩ := List.append_eq_nil_iff.mp h.symm
    exact hP
  · exact fun h => ⟨[], [], rfl, fun x hx => absurd hx List.not_mem_nil, h⟩

theorem spread_cons {c x : UInt8} {P : List UInt8 → Prop} {t : List UInt8} :
    Spread c P (x :: t) ↔ P (x :: t) ∨ Fits c x ∧ Spread c P t := by
  constructor
  · rintro ⟨s, behind, h, hs, hP⟩
    cases s with
    | nil =>
      rw [List.nil_append] at h
      exact .inl (h ▸ hP)
    | cons y s =>
      obtain ⟨rfl, rfl⟩ := List.cons_eq_cons.mp h
      exact .inr ⟨hs x List.mem_cons_self, s, behind, rfl,
        fun z hz => hs z (List.mem_cons_of_mem _ hz), hP⟩
  · rintro (hP | ⟨hx, s, behind, rfl, hs, hP⟩)
    · exact ⟨[], x :: t, rfl, fun y hy => absurd hy List.not_mem_nil, hP⟩
    · refine ⟨x :: s, behind, rfl, fun y hy => ?_, hP⟩
      rcases List.mem_cons.mp hy with rfl | hy
      · exact hx
      · exact hs y hy

theorem matchstar_step (c : UInt8) (re text : List UInt8) : matchstar c re text = true ↔
    matchhere re text = true ∨
      (chr text 0 ≠ 0 ∧ Fits c (chr text 0)) ∧ matchstar c re (text.drop 1) = true := by
  have hfits : Fits c (chr text 0) ↔ chr text 0 = c ∨ c = dot := or_comm
  rw [hfits, matchstar]
  split_ifs with hm hc
  · exact iff_of_true rfl (.inl hm)
  · exact ⟨fun h => .inr ⟨hc, h⟩, fun h => (h.resolve_left hm).2⟩
  · exact iff_of_false not_false fun h => hc (h.resolve_left hm).1

theorem matchstar_iff {P : List UInt8 → Prop} (c : UInt8)
    (h : ∀ text, matchhere re text = true ↔ P (cstr text)) (text : List UInt8) :
    matchstar c re text = true ↔ Spread c P (cstr text) := by
  induction text with
  | nil =>
    rw [matchstar_step, h, cstr_of_eq rfl, spread_nil]
    exact ⟨fun hor => hor.resolve_right fun hc => hc.1.1 rfl, .inl⟩
  | cons x text ih =>
    rw [matchstar_step, h, List.drop_one, List.tail_cons, ih]
    by_cases h0 : chr (x :: text) 0 = 0
    · rw [cstr_of_eq h0, spread_nil]
      exact ⟨fun hor => hor.resolve_right fun hc => hc.1.1 h0, .inl⟩
    · rw [cstr_of_ne h0, spread_cons]
      refine or_congr_right (and_congr_left fun _ => ?_)
      exact and_iff_right h0

/-- **matchhere** finds out if the text begins with a match. -/
theorem matchhere_iff (re text : List UInt8) :
    matchhere re text = true ↔ Here (cstr re) (cstr text) := by
  -- both calls are made with a shorter pattern
  induction hn : re.length using Nat.strong_induction_on generalizing re text with
  | _ n ih =>
  subst hn
  rw [matchhere]
  split_ifs with h0 hstar hend hone
  · rw [cstr_of_eq h0]
    exact iff_of_true rfl (here_nil _)
  · have hpos := length_pos_of_chr h0
    have h1 : chr (re.drop 1) 0 ≠ 0 := by
      rw [← chr_one, hstar]
      decide
    rw [matchstar_iff _ fun text => ih (re.drop 2).length (by rw [List.length_drop]; omega) _ text rfl,
      cstr_of_ne h0, cstr_of_ne h1, ← chr_one, hstar, List.drop_drop]
    exact (here_many ..).symm
  · have h1 : chr (re.drop 1) 0 = 0 := (chr_one re).symm.trans hend.2
    rw [cstr_of_ne h0, cstr_of_eq h1, hend.1, here_end, cstr_eq_nil_iff, decide_eq_true_iff]
  all_goals
    -- the first character of the pattern stands for itself
    have hhead : (cstr (re.drop 1)).head? ≠ some star := by
      rw [chr_one] at hstar
      by_cases h1 : chr (re.drop 1) 0 = 0
      · rw [cstr_of_eq h1]
        exact (Option.some_ne_none star).symm
      · rw [cstr_of_ne h1]
        exact fun h => hstar (Option.some.inj h)
    have hlast : ¬ (chr re 0 = dollar ∧ cstr (re.drop 1) = []) := by
      rwa [cstr_eq_nil_iff, ← chr_one]
    rw [cstr_of_ne h0, here_one _ hhead hlast]
  · have hpos := length_pos_of_chr h0
    rw [ih (re.drop 1).length (by rw [List.length_drop]; omega) _ _ rfl, cstr_of_ne hone.1]
    constructor
    · exact fun h => ⟨_, _, rfl, hone.2.imp_right Eq.symm, h⟩
    · rintro ⟨x, t, heq, -, h⟩
      rwa [(List.cons_eq_cons.mp heq).2]
  · refine iff_of_false not_false ?_
    rintro ⟨x, t, heq, hfits, -⟩
    have hne : chr text 0 ≠ 0 := fun h => List.cons_ne_nil x t (heq ▸ cstr_of_eq h)
    rw [cstr_of_ne hne] at heq
    rw [← (List.cons_eq_cons.mp heq).1] at hfits
    exact hone ⟨hne, hfits.imp_right Eq.symm⟩

theorem matchAnywhere_step (re text : List UInt8) : matchAnywhere re text = true ↔
    matchhere re text = true ∨ chr text 0 ≠ 0 ∧ matchAnywhere re (text.drop 1) = true := by
  rw [matchAnywhere]
  split_ifs with hm h0
  · exact iff_of_true rfl (.inl hm)
  · exact ⟨fun h => .inr ⟨h0, h⟩, fun h => (h.resolve_left hm).2⟩
  · exact iff_of_false not_false fun h => h0 (h.resolve_left hm).1

theorem matchAnywhere_iff (re text : List UInt8) :
    matchAnywhere re text = true ↔ ∃ before rest, cstr text = before ++ rest ∧ Here (cstr re) rest := by
  induction text with
  | nil =>
    have hnil : cstr [] = [] := rfl
    rw [matchAnywhere_step, matchhere_iff, hnil]
    constructor
    · exact fun h => ⟨[], [], rfl, h.resolve_right fun hc => hc.1 rfl⟩
    · rintro ⟨before, rest, h, hhere⟩
      obtain ⟨-, rfl⟩ := List.append_eq_nil_iff.mp h.symm
      exact .inl hhere
  | cons x text ih =>
    rw [matchAnywhere_step, matchhere_iff, List.drop_one, List.tail_cons, ih]
    constructor
    · rintro (h | ⟨h0, before, rest, heq, h⟩)
      · exact ⟨[], _, rfl, h⟩
      · refine ⟨x :: before, rest, ?_, h⟩
        rw [cstr_of_ne h0, List.cons_append, ← heq]
        rfl
    · rintro ⟨before, rest, heq, h⟩
      cases before with
      | nil =>
        rw [List.nil_append] at heq
        exact .inl (heq ▸ h)
      | cons y before =>
        have h0 : chr (x :: text) 0 ≠ 0 := fun h0 => by
          rw [cstr_of_eq h0] at heq
          cases heq
        rw [cstr_of_ne h0, List.cons_append] at heq
        exact .inr ⟨h0, before, rest, (List.cons_eq_cons.mp heq).2, h⟩

/-- **The matcher** finds out if the text contains a match of the pattern. -/
theorem match_iff (re text : List UInt8) :
    match_ re text = true ↔ (pattern (cstr re)).Occurs (cstr text) := by
  unfold match_ pattern
  by_cases hc : chr re 0 = caret
  · have h0 : chr re 0 ≠ 0 := by
      rw [hc]
      decide
    rw [if_pos hc, matchhere_iff, cstr_of_ne h0, hc, if_pos List.head?_cons]
    constructor
    · rintro ⟨s, behind, heq, hs, hend⟩
      exact ⟨[], s, behind, heq, hs, fun _ => rfl, hend⟩
    · rintro ⟨before, s, behind, heq, hs, hbol, hend⟩
      rw [hbol rfl] at heq
      exact ⟨s, behind, heq, hs, hend⟩
  · have hhead : (cstr re).head? ≠ some caret := by
      by_cases h0 : chr re 0 = 0
      · rw [cstr_of_eq h0]
        exact (Option.some_ne_none caret).symm
      · rw [cstr_of_ne h0]
        exact fun h => hc (Option.some.inj h)
    rw [if_neg hc, matchAnywhere_iff, if_neg hhead]
    constructor
    · rintro ⟨before, rest, heq, s, behind, rfl, hs, hend⟩
      exact ⟨before, s, behind, heq.trans (List.append_assoc ..).symm, hs,
        fun h => absurd h Bool.false_ne_true, hend⟩
    · rintro ⟨before, s, behind, heq, hs, -, hend⟩
      exact ⟨before, s ++ behind, heq.trans (List.append_assoc ..), s, behind, rfl, hs, hend⟩

end StrideXv6.Grep
