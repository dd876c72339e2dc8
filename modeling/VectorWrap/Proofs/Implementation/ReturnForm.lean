import VectorWrap.Implementation.Return
import VectorWrap.Proofs.Implementation.Bindings
import VectorWrap.Proofs.Scan.Written
import VectorWrap.Proofs.Text.Level
import VectorWrap.Proofs.Text.Words

/-!
# The form of a return line

A line that is recognised as a return has the name of a return macro, a text in parentheses of which
the expression is the trim, and a semicolon or none, with layout at any place between
(`exists_frame`).  The text ends before the parenthesis behind which nothing else is left
(`exists_of_argument?`).

The parts are kept in a structure (`Frame`), apart from the kind of the macro and the text in its
parentheses.  That text need not be matched, which is why the end is told by what follows the
parenthesis and not by its depth alone.
-/

namespace VectorWrap

theorem ArgSlot.not_inKind_of_isLayout {c : Char} (h : Text.isLayout c = true) :
    inKind c = false := by
  simp only [Text.isLayout, Bool.or_eq_true, beq_iff_eq] at h
  rcases h with ((rfl | rfl) | rfl) | rfl <;> decide

namespace Return
open Scan Text

/-! ### How a return line is written -/

/-- The ending of a return macro: capitals, digits and underscores. -/
structure IsKind (kind : Text) : Prop where
  ne_nil : kind ≠ []
  inKind : ∀ c ∈ kind, ArgSlot.inKind c = true

/-- Layout alone. -/
def IsGap (s : Text) : Prop :=
  ∀ c ∈ s, isLayout c = true

/-- What stands around the parts of a return line: layout, and a semicolon at its end or none. -/
structure Frame where
  left : Text
  between : Text
  behind : Text
  semicolon : Bool
  right : Text
  left_gap : IsGap left := by simp [IsGap, isLayout]
  between_gap : IsGap between := by simp [IsGap, isLayout]
  behind_gap : IsGap behind := by simp [IsGap, isLayout]
  right_gap : IsGap right := by simp [IsGap, isLayout]

namespace Frame

/-- What is left of the line behind its last parenthesis. -/
def ending (f : Frame) : Text :=
  f.behind ++ (if f.semicolon then [';'] else []) ++ f.right

/-- The line with these parts; `inner` stands between the parentheses. -/
def line (f : Frame) (kind inner : Text) : Text :=
  f.left ++ "PG_RETURN_" ++ kind ++ f.between ++ "(" ++ inner ++ ")" ++ f.ending

theorem line_eq (f : Frame) (kind inner : Text) : f.line kind inner =
    f.left ++ ("PG_RETURN_" ++ (kind ++ (f.between ++ '(' :: (inner ++ ')' :: f.ending)))) := by
  simp [line]

end Frame

/-! ### The end of a line -/

theorem dropWhile_gap {a : Text} (ha : IsGap a) (s : Text) :
    (a ++ s).dropWhile isLayout = s.dropWhile isLayout :=
  List.dropWhile_append_of_pos ha

theorem dropWhile_of_gap {a : Text} (ha : IsGap a) : a.dropWhile isLayout = [] :=
  List.dropWhile_eq_nil_iff.mpr ha

theorem isGap_takeWhile (s : Text) : IsGap (s.takeWhile isLayout) :=
  fun _ hc => List.mem_takeWhile_imp hc

/-- Behind the parenthesis of a frame the line ends. -/
theorem Frame.endsLine_ending (f : Frame) : endsLine f.ending = true := by
  rw [endsLine, Frame.ending, List.append_assoc, dropWhile_gap f.behind_gap]
  cases f.semicolon with
  | true =>
    have sign : ([';'] ++ f.right).dropWhile isLayout = ';' :: f.right := rfl
    rw [if_pos rfl, sign]
    simp [dropWhile_of_gap f.right_gap]
  | false =>
    rw [if_neg Bool.false_ne_true, List.nil_append, dropWhile_of_gap f.right_gap]

/-- Layout, and perhaps a semicolon between. -/
theorem exists_of_endsLine {s : Text} (h : endsLine s = true) :
    ∃ (a b : Text) (sign : Bool), IsGap a ∧ IsGap b ∧
      s = a ++ (if sign then [';'] else []) ++ b := by
  have whole := List.takeWhile_append_dropWhile (p := isLayout) (l := s)
  rw [endsLine] at h
  split at h
  · next none =>
    exact ⟨s, [], false, List.dropWhile_eq_nil_iff.mp none, by simp [IsGap], by simp⟩
  · next c r some =>
    rw [Bool.and_eq_true, beq_iff_eq, List.isEmpty_iff] at h
    obtain ⟨rfl, none⟩ := h
    rw [some] at whole
    exact ⟨_, r, true, isGap_takeWhile s, List.dropWhile_eq_nil_iff.mp none, by simp [whole]⟩

/-! ### The expression -/

/-- A character that does not end the line belongs to the argument. -/
theorem argument?_cons {d : Nat} {c : Char} {s : Text}
    (h : ¬ (d = 0 ∧ c = ')' ∧ endsLine s = true)) :
    argument? d (c :: s) = (argument? (depthBehind d c) s).map (c :: ·) :=
  if_neg h

theorem argument?_end {s : Text} (h : endsLine s = true) : argument? 0 (')' :: s) = some [] :=
  if_pos ⟨rfl, rfl, h⟩

/-- An expression is followed by the parenthesis that ends the line. -/
theorem exists_of_argument? {d : Nat} {s e : Text} (h : argument? d s = some e) :
    ∃ r, s = e ++ ')' :: r ∧ endsLine r = true := by
  induction s generalizing d e with
  | nil => cases h
  | cons c s ih =>
    by_cases hc : d = 0 ∧ c = ')' ∧ endsLine s = true
    · obtain ⟨rfl, rfl, hs⟩ := hc
      rw [argument?_end hs] at h
      cases h
      exact ⟨s, rfl, hs⟩
    · rw [argument?_cons hc] at h
      obtain ⟨e, he, rfl⟩ := Option.map_eq_some_iff.mp h
      obtain ⟨r, rfl, hr⟩ := ih he
      exact ⟨r, rfl, hr⟩

/-! ### The parts of a line -/

/-- A mark is the name of a return macro up to its parenthesis. -/
theorem mark_eq_some_iff {s kind r : Text} : mark s = some (kind, r) ↔
    IsKind kind ∧ s = "PG_RETURN_" ++ (kind ++ r) ∧ ∃ b t, IsGap b ∧ r = b ++ '(' :: t := by
  constructor
  · intro h
    obtain ⟨_, s₁, hw, h⟩ := bind_eq_some.mp h
    obtain ⟨kind', s₂, hk, h⟩ := bind_eq_some.mp h
    obtain ⟨_, s₃, hp, h⟩ := bind_eq_some.mp h
    obtain ⟨rfl, rfl⟩ := pure_eq_some.mp h
    obtain ⟨rfl, _, t, hp⟩ := ahead_eq_some.mp hp
    obtain ⟨hne, rfl, rest⟩ := run1_eq_some.mp hk
    refine ⟨⟨hne, fun c hc => List.mem_takeWhile_imp hc⟩, ?_, s₂.takeWhile isLayout, t,
      isGap_takeWhile s₂, ?_⟩
    · rw [exactly_eq_some.mp hw, ← rest, List.takeWhile_append_dropWhile]
    · have paren : s₂.dropWhile isLayout = '(' :: t := symbol_eq_some.mp hp
      rw [← paren, List.takeWhile_append_dropWhile]
  · rintro ⟨hk, rfl, b, t, hb, rfl⟩
    have first : ∀ c, (b ++ '(' :: t).head? = some c → ArgSlot.inKind c = false := by
      intro c hc
      cases b with
      | nil =>
        obtain rfl : '(' = c := by simpa using hc
        rfl
      | cons d b =>
        obtain rfl : d = c := by simpa using hc
        exact ArgSlot.not_inKind_of_isLayout (hb d List.mem_cons_self)
    have read : run1 ArgSlot.inKind (kind ++ (b ++ '(' :: t)) = some (kind, b ++ '(' :: t) :=
      run1_eq_some.mpr ⟨hk.ne_nil, takeWhile_append_of_head hk.inKind first,
        dropWhile_append_of_head hk.inKind first⟩
    have paren : symbol "(" (b ++ '(' :: t) = some ((), t) :=
      symbol_eq_some.mpr ((dropWhile_gap hb _).trans rfl)
    exact bind_eq_some.mpr ⟨(), _, exactly_eq_some.mpr rfl, bind_eq_some.mpr ⟨kind, _, read,
      bind_eq_some.mpr ⟨(), _, ahead_eq_some.mpr ⟨rfl, (), t, paren⟩, rfl⟩⟩⟩

/-- The parts of a return line. -/
theorem lineForm_eq_some_iff {line kind value r : Text} :
    lineForm line = some ((kind, value), r) ↔ r = [] ∧ ∃ s t e,
      mark (line.dropWhile isLayout) = some (kind, s) ∧ s.dropWhile isLayout = '(' :: t ∧
        argument? 0 (t.dropWhile isLayout) = some e ∧ value = trim e := by
  constructor
  · intro h
    obtain ⟨_, s₁, hl, h⟩ := bind_eq_some.mp h
    obtain ⟨kind', s, hm, h⟩ := bind_eq_some.mp h
    obtain ⟨_, t, hp, h⟩ := bind_eq_some.mp h
    obtain ⟨_, s₄, hl', h⟩ := bind_eq_some.mp h
    obtain ⟨e, s₅, ha, h⟩ := bind_eq_some.mp h
    obtain ⟨hv, rfl⟩ := pure_eq_some.mp h
    cases hv
    obtain ⟨e', he, ha⟩ := Option.map_eq_some_iff.mp ha
    cases ha
    rw [← layout_eq_some.mp hl] at hm
    rw [← layout_eq_some.mp hl'] at he
    exact ⟨rfl, s, t, e, hm, symbol_eq_some.mp hp, he, rfl⟩
  · rintro ⟨rfl, s, t, e, hm, hp, he, rfl⟩
    refine bind_eq_some.mpr ⟨(), _, rfl, bind_eq_some.mpr ⟨kind, s, hm, ?_⟩⟩
    refine bind_eq_some.mpr ⟨(), t, symbol_eq_some.mpr hp, bind_eq_some.mpr ⟨(), _, rfl, ?_⟩⟩
    exact bind_eq_some.mpr ⟨e, [], by rw [he]; rfl, rfl⟩

/-! ### Lines that are recognised -/

theorem isBlank_of_gap {a : Text} (h : IsGap a) : ∀ c ∈ a, isBlank c = true :=
  fun c hc => isBlank_of_isLayout (h c hc)

/-- A line that is recognised is a return line. -/
theorem exists_frame {line kind value : Text} (h : ofLine? line = some (kind, value)) :
    IsKind kind ∧ ∃ (f : Frame) (e : Text), line = f.line kind e ∧ trim e = value := by
  obtain ⟨⟨_, r⟩, h, rfl⟩ := Option.map_eq_some_iff.mp h
  obtain ⟨rfl, s, t, e, hm, hp, he, rfl⟩ := lineForm_eq_some_iff.mp h
  obtain ⟨hk, hline, b, t', hb, rfl⟩ := mark_eq_some_iff.mp hm
  obtain rfl : t' = t := by
    rw [dropWhile_gap hb] at hp
    exact (List.cons_eq_cons.mp hp).2
  obtain ⟨r, whole, hr⟩ := exists_of_argument? he
  obtain ⟨a, c, sign, ha, hc, rfl⟩ := exists_of_endsLine hr
  have gap := isGap_takeWhile t'
  have inner := List.takeWhile_append_dropWhile (p := isLayout) (l := t')
  rw [whole] at inner
  refine ⟨hk, ⟨line.takeWhile isLayout, b, a, sign, c, isGap_takeWhile line, hb, ha, hc⟩,
    t'.takeWhile isLayout ++ e, ?_, trim_blank_append (isBlank_of_gap gap) e⟩
  rw [Frame.line_eq, List.append_assoc, Frame.ending, inner, ← hline,
    List.takeWhile_append_dropWhile]

end Return

end VectorWrap
