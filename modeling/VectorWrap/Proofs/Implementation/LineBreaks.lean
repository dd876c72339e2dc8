import VectorWrap.Proofs.Implementation.Layout
import VectorWrap.Proofs.Implementation.Marks
import VectorWrap.Proofs.Implementation.Reordered

/-!
# Line breaks

A line that is broken where a parenthesis is open is put together again, with the blank that stood
there (`joinFrom_break`, `logical_break`).  A carriage return before a line feed is dropped with a
comment, or trimmed, and so makes no difference to the lines of any body (`logical_withReturns`).
Slots and returns are found with any layout, so that the whole reading of a body stays the same.

A break is made at a blank that stands in the code and in parentheses (`MayBreak`); in a literal it
would be another literal, and outside of parentheses two lines.  For carriage returns the relation
`Returned` puts one before some of the line feeds; it is kept by stripping and by splitting into
lines, and lost by trimming.
-/

namespace VectorWrap

namespace Text

variable {c d : Char} {s t : Text}

/-! ### Layout for layout -/

/-- One character of layout may be put in the place of another. -/
theorem collapse_swap (hc : isLayout c = true) (hd : isLayout d = true) (a b : Text) :
    collapse (a ++ c :: b) = collapse (a ++ d :: b) := by
  induction a with
  | nil => rw [List.nil_append, List.nil_append, collapse, collapse, if_pos hc, if_pos hd]
  | cons x a ih => exact collapse_cons_congr x ih

/-! ### Pieces that meet -/

/-- Of two texts one after the other the last piece of one and the first of the other are one. -/
theorem splitBy_append_parts {p : Char → Bool} {y : Text} {ys : List Text}
    (ht : splitBy p t = y :: ys) (s : Text) :
    ∃ xs x, splitBy p s = xs ++ [x] ∧ splitBy p (s ++ t) = xs ++ (x ++ y) :: ys := by
  induction s with
  | nil => exact ⟨[], [], rfl, ht⟩
  | cons c s ih =>
    obtain ⟨xs, x, hs, hst⟩ := ih
    cases hc : p c with
    | true => exact ⟨[] :: xs, x, by simp [splitBy, hc, hs], by simp [splitBy, hc, hst]⟩
    | false =>
      cases xs with
      | nil => exact ⟨[], c :: x, by simp [splitBy, hc, hs], by simp [splitBy, hc, hst]⟩
      | cons z zs =>
        exact ⟨(c :: z) :: zs, x, by simp [splitBy, hc, hs], by simp [splitBy, hc, hst]⟩

/-- No blank is trimmed behind what ends otherwise. -/
theorem exists_trim_of_last (h : ∃ c ∈ s.getLast?, isBlank c = false) :
    trim s ≠ [] ∧ ∃ a, s = a ++ trim s ∧ ∀ c ∈ a, isBlank c = true := by
  obtain ⟨c, hc, hcb⟩ := h
  obtain ⟨a, b, hab, ha, hb⟩ := exists_trim s
  cases b using List.reverseRecOn with
  | nil =>
    rw [List.append_nil] at hab
    refine ⟨fun h => ?_, a, hab, ha⟩
    rw [hab, h, List.append_nil] at hc
    rw [ha c (List.mem_of_getLast? hc)] at hcb
    cases hcb
  | append_singleton b d =>
    rw [hab, ← List.append_assoc, List.getLast?_concat] at hc
    cases hc
    rw [hb c (by simp)] at hcb
    cases hcb

/-- No blank is trimmed before what begins otherwise. -/
theorem exists_trim_of_head (h : ∃ c ∈ s.head?, isBlank c = false) :
    trim s ≠ [] ∧ ∃ b, s = trim s ++ b ∧ ∀ c ∈ b, isBlank c = true := by
  obtain ⟨c, hc, hcb⟩ := h
  obtain ⟨b, hb, hs⟩ := exists_dropWhile_eq_trim s
  cases s with
  | nil => cases hc
  | cons d s =>
    cases hc
    rw [List.dropWhile_cons_of_neg (by simp [hcb])] at hs
    refine ⟨fun h => ?_, b, hs, hb⟩
    rw [h, List.nil_append] at hs
    rw [hb c (hs ▸ List.mem_cons_self)] at hcb
    cases hcb

/-- Two texts between which one blank stands are trimmed at their outer ends. -/
theorem trim_between (hs : ∃ c ∈ s.getLast?, isBlank c = false)
    (ht : ∃ c ∈ t.head?, isBlank c = false) : trim (s ++ ' ' :: t) = trim s ++ ' ' :: trim t := by
  obtain ⟨hs₀, a, hsa, ha⟩ := exists_trim_of_last hs
  obtain ⟨ht₀, b, htb, hb⟩ := exists_trim_of_head ht
  have trimmed : Trimmed (trim s ++ ' ' :: trim t) :=
    { head := fun c hc => (trimmed_trim s).head c <| by
        rwa [List.head?_append_of_ne_nil _ hs₀] at hc
      last := fun c hc => (trimmed_trim t).last c <| by
        rwa [← List.singleton_append, ← List.append_assoc,
          List.getLast?_append_of_ne_nil _ ht₀] at hc }
  have whole : s ++ ' ' :: t = a ++ (trim s ++ ' ' :: trim t) ++ b := by
    conv_lhs => rw [hsa, htb]
    simp
  rw [whole, trim_append ha hb trimmed]

end Text

namespace Line
open Scan Text

variable {g : Region} {c : Char} {s t : Text}

/-! ### Texts without comments -/

/-- No part of the text is a comment. -/
def Uncommented (g : Region) (s : Text) : Prop :=
  ∀ p ∈ walk g s, p.1.isComment = false

instance : Decidable (Uncommented g s) :=
  inferInstanceAs (Decidable (∀ p ∈ walk g s, _))

theorem isComment_behind (g : Region) (c : Char) : (g.behind c).isComment = false := by
  cases g <;> simp only [Region.behind, afterLiteral, afterCode] <;> split_ifs <;> rfl

/-- Outside comments a character is kept, and closes or opens a literal. -/
theorem step_behind (hg : g.isComment = false) (h : ¬ (g = .code ∧ opensComment c s)) :
    walk g (c :: s) = (g, c :: s) :: walk (g.behind c) s ∧
      stripFrom g (c :: s) = c :: stripFrom (g.behind c) s := by
  cases g with
  | code =>
    have plain : ¬ opensComment c s := fun ho => h ⟨rfl, ho⟩
    exact ⟨walk_code plain, stripFrom_code plain⟩
  | literal q escaped => exact ⟨walk_literal q escaped c s, stripFrom_literal q escaped c s⟩
  | block | line => cases hg

/-- A text is uncommented exactly if its first character opens no comment and the rest is
uncommented. -/
theorem uncommented_cons : Uncommented g (c :: s) ↔
    g.isComment = false ∧ ¬ (g = .code ∧ opensComment c s) ∧ Uncommented (g.behind c) s := by
  constructor
  · intro h
    have hg := h _ (mem_walk g (c :: s))
    have plain : ¬ (g = .code ∧ opensComment c s) := by
      rintro ⟨rfl, ho⟩
      obtain ⟨g', r, hg', e⟩ := step_comment ho
      have := h (g', r) (by rw [e]; exact List.mem_cons_of_mem _ (mem_walk g' r))
      rw [hg'] at this
      cases this
    refine ⟨hg, plain, fun p hp => h p ?_⟩
    rw [(step_behind hg plain).1]
    exact List.mem_cons_of_mem _ hp
  · rintro ⟨hg, plain, h⟩ p hp
    rw [(step_behind hg plain).1] at hp
    rcases List.mem_cons.mp hp with rfl | hp
    · exact hg
    · exact h p hp

/-- A text without comments is stripped already. -/
theorem stripFrom_of_uncommented (h : Uncommented g s) : stripFrom g s = s := by
  induction s generalizing g with
  | nil => rw [stripFrom]
  | cons c s ih =>
    obtain ⟨hg, plain, h⟩ := uncommented_cons.mp h
    rw [(step_behind hg plain).2, ih h]

/-- No comment comes about where layout is put for other layout outside literals. -/
theorem Uncommented.swap {d : Char} (hc : isLayout c = true) (hd : isLayout d = true) {a b : Text}
    (h : Uncommented g (a ++ c :: b)) (ha : a.foldl Region.behind g = .code) :
    Uncommented g (a ++ d :: b) := by
  have ne {e x : Char} (he : isLayout e = true) (hx : isLayout x = false) : e ≠ x := by
    rintro rfl
    rw [he] at hx
    cases hx
  induction a generalizing g with
  | nil =>
    obtain rfl : g = .code := ha
    obtain ⟨hg, -, h⟩ := uncommented_cons.mp h
    rw [behind_of_not_quote (isQuote_of_isLayout hc)] at h
    refine uncommented_cons.mpr ⟨hg, fun ho => ne hd (by decide) ho.2.1, ?_⟩
    rwa [behind_of_not_quote (isQuote_of_isLayout hd)]
  | cons x a ih =>
    obtain ⟨hg, plain, h⟩ := uncommented_cons.mp h
    refine uncommented_cons.mpr ⟨hg, ?_, ih h ha⟩
    rintro ⟨rfl, rfl, ho⟩
    cases a with
    | nil => rcases ho with ho | ho <;> exact ne hd (by decide) (Option.some.inj ho)
    | cons y a => exact plain ⟨rfl, rfl, ho⟩

/-! ### Open parentheses -/

/-- What a character adds to the count depends on its region only. -/
theorem parenStep_eq (hg : g.isComment = false) (d : Int) (c : Char) :
    parenStep (d, g) c = (d + (parenStep (0, g) c).1, g.behind c) := by
  cases g with
  | code =>
    simp only [parenStep, Region.behind, afterCode]
    split_ifs <;> simp [sub_eq_add_neg]
  | literal q escaped => simp [parenStep, Region.behind, afterLiteral]
  | block | line => cases hg

/-- Parentheses are counted on from what is open. -/
theorem foldl_parenStep_eq (hg : g.isComment = false) (d : Int) (s : Text) :
    s.foldl parenStep (d, g) = (d + (s.foldl parenStep (0, g)).1, s.foldl Region.behind g) := by
  induction s generalizing g d with
  | nil => simp
  | cons c s ih =>
    have rest := isComment_behind g c
    rw [List.foldl_cons, List.foldl_cons, List.foldl_cons, parenStep_eq hg d, parenStep_eq hg 0,
      ih rest, ih rest (0 + _), add_assoc, zero_add]

/-- Behind a text that ends its literals the count goes on from zero. -/
theorem parenBalance_append {a : Text} (ha : EndsLiterals a) (b : Text) :
    parenBalance (a ++ b) = parenBalance a + parenBalance b := by
  rw [parenBalance, List.foldl_append, foldl_parenStep_eq rfl 0 a, ha, foldl_parenStep_eq rfl,
    zero_add]
  rfl

/-- Blanks open and close nothing. -/
theorem foldl_parenStep_blanks {b : Text} (hb : ∀ c ∈ b, isBlank c = true) (p : Int × Region) :
    (b.foldl parenStep p).1 = p.1 := by
  induction b generalizing p with
  | nil => rfl
  | cons c b ih =>
    obtain ⟨hc, hb⟩ := List.forall_mem_cons.mp hb
    have ne {x : Char} (hx : isBlank x = false) : c ≠ x := by
      rintro rfl
      rw [hc] at hx
      cases hx
    have hq : ¬ (c = '"' ∨ c = '\'') := not_or.mpr ⟨ne (by decide), ne (by decide)⟩
    have ho : c ≠ '(' := ne (by decide)
    have hp : c ≠ ')' := ne (by decide)
    rw [List.foldl_cons, ih hb]
    obtain ⟨d, g⟩ := p
    cases g <;> simp [parenStep, hq, ho, hp]

/-- Trimming does not change the count. -/
theorem parenBalance_trim (s : Text) : parenBalance (trim s) = parenBalance s := by
  obtain ⟨a, b, hab, ha, hb⟩ := exists_trim s
  have front : EndsLiterals a :=
    endsLiterals_of_quoteless fun c hc => isQuote_of_edge (.inr (ha c hc))
  conv_rhs => rw [hab]
  rw [List.append_assoc, parenBalance_append front]
  have none_before : parenBalance a = 0 := foldl_parenStep_blanks ha _
  have none_behind : parenBalance (trim s ++ b) = parenBalance (trim s) := by
    rw [parenBalance, List.foldl_append]
    exact foldl_parenStep_blanks hb _
  rw [none_before, none_behind, zero_add]

/-- How many parentheses are open behind lines, counted anew where none is. -/
def depthAfter (lines : List Text) (depth : Int) : Int :=
  lines.foldl (fun d line => max 0 (d + parenBalance line)) depth

/-- How many parentheses of the logical line are open at the end of a text. -/
def openDepth (s : Text) : Int :=
  let lines := splitBy (· == '\n') s
  depthAfter lines.dropLast 0 + parenBalance (lines.getLastD [])

/-- Lines of blanks do not count. -/
theorem depthAfter_physical {depth : Int} (h : 0 ≤ depth) (lines : List Text) :
    depthAfter ((lines.map trim).filter (!·.isEmpty)) depth = depthAfter lines depth := by
  induction lines generalizing depth with
  | nil => rfl
  | cons line lines ih =>
    have rest := ih (le_max_left 0 (depth + parenBalance line))
    by_cases hl : trim line = []
    · have none_open : parenBalance line = 0 := by rw [← parenBalance_trim, hl]; rfl
      rw [none_open, add_zero, max_eq_right h] at rest
      simpa [hl, depthAfter, none_open, max_eq_right h] using rest
    · simpa [hl, depthAfter, parenBalance_trim] using rest

/-- **Two lines are joined that are broken inside a parenthesis.** -/
theorem joinFrom_break {u v : Text} (hu : u ≠ []) (hclosed : EndsLiterals u) (xs ys : List Text)
    (pending : Text) {depth : Int} (h : 0 < depthAfter xs depth + parenBalance u) :
    joinFrom pending depth (xs ++ u :: v :: ys) =
      joinFrom pending depth (xs ++ (u ++ ' ' :: v) :: ys) := by
  induction xs generalizing pending depth with
  | nil =>
    have balance : parenBalance (u ++ ' ' :: v) = parenBalance u + parenBalance v := by
      rw [parenBalance_append hclosed]
      rfl
    have joined := joined_ne_nil (l := pending) hu
    have behind : (if pending.isEmpty then u ++ ' ' :: v else pending ++ ' ' :: (u ++ ' ' :: v)) =
        (if pending.isEmpty then u else pending ++ ' ' :: u) ++ ' ' :: v := by
      split_ifs <;> simp
    have goes_on : ¬ depth + parenBalance u ≤ 0 := not_le.mpr h
    simp only [List.nil_append, joinFrom, behind, balance, ← add_assoc, if_neg goes_on]
    generalize (if pending.isEmpty then u else pending ++ ' ' :: u) = front at joined
    have started : front.isEmpty = false := by simpa using joined
    simp only [started, Bool.false_eq_true, if_false]
  | cons x xs ih =>
    simp only [List.cons_append, joinFrom]
    generalize (if pending.isEmpty then x else pending ++ ' ' :: x) = front
    rw [depthAfter, List.foldl_cons] at h
    split_ifs with hd
    · rw [max_eq_left hd] at h
      rw [ih [] h]
    · rw [max_eq_right (not_le.mp hd).le] at h
      exact ih front h

/-! ### A break inside a parenthesis -/

/-- Behind lines that close their literals only the last line is open. -/
theorem endsLiterals_last {xs : List Text} {x : Text} (hs : splitBy (· == '\n') s = xs ++ [x])
    (h : ∀ line ∈ xs, EndsLiterals line) : EndsLiterals s ↔ EndsLiterals x := by
  induction xs generalizing s with
  | nil =>
    obtain ⟨p, hp, rfl | ⟨rest, rfl⟩⟩ := exists_line s
    · rw [splitBy_of_none hp] at hs
      cases hs
      rfl
    · obtain ⟨y, ys, e, -⟩ := splitBy_cons_of_neg (· == '\n') rest
      rw [splitBy_append hp rfl, e] at hs
      cases hs
  | cons line xs ih =>
    obtain ⟨closed, others⟩ := List.forall_mem_cons.mp h
    obtain ⟨p, hp, rfl | ⟨rest, rfl⟩⟩ := exists_line s
    · rw [splitBy_of_none hp] at hs
      cases xs <;> cases hs
    · rw [splitBy_append hp rfl, List.cons_append] at hs
      obtain ⟨rfl, rest_eq⟩ := List.cons_eq_cons.mp hs
      rw [endsLiterals_append closed, ← ih rest_eq others]
      rfl

/-- The line may be broken between `a` and `b`, where a blank stands: nothing is commented out, each
literal is closed on its line, the blank is in none and has no other blank beside it, and a
parenthesis is open there. -/
structure MayBreak (a b : Text) : Prop where
  uncommented : Uncommented .code (a ++ ' ' :: b)
  closed : ∀ line ∈ splitBy (· == '\n') (a ++ ' ' :: b), EndsLiterals line
  outside : EndsLiterals a
  before : a.getLast?.any (!isBlank ·) = true
  behind : b.head?.any (!isBlank ·) = true
  inside : 0 < openDepth a

instance {a b : Text} : Decidable (MayBreak a b) :=
  decidable_of_iff (Uncommented .code (a ++ ' ' :: b) ∧
      (∀ line ∈ splitBy (· == '\n') (a ++ ' ' :: b), EndsLiterals line) ∧ EndsLiterals a ∧
      a.getLast?.any (!isBlank ·) = true ∧ b.head?.any (!isBlank ·) = true ∧ 0 < openDepth a)
    ⟨fun ⟨h₁, h₂, h₃, h₄, h₅, h₆⟩ => ⟨h₁, h₂, h₃, h₄, h₅, h₆⟩,
      fun h => ⟨h.uncommented, h.closed, h.outside, h.before, h.behind, h.inside⟩⟩

/-- The last piece ends as the text does. -/
theorem getLast?_splitBy {xs : List Text} {x : Text} (hs : splitBy (· == '\n') s = xs ++ [x])
    (h : ∃ c ∈ s.getLast?, isBlank c = false) : ∃ c ∈ x.getLast?, isBlank c = false := by
  obtain ⟨c, hc, hcb⟩ := h
  obtain ⟨w, rfl⟩ := List.getLast?_eq_some_iff.mp hc
  have alone : splitBy (· == '\n') [c] = [[c]] := splitBy_of_none <| by
    rw [List.forall_mem_singleton, beq_eq_false_iff_ne]
    rintro rfl
    cases hcb
  obtain ⟨ys, y, -, hw⟩ := splitBy_append_parts alone w
  rw [hs] at hw
  obtain ⟨-, rfl⟩ := List.append_inj' hw rfl |>.imp_right List.singleton_inj.mp
  exact ⟨c, List.getLast?_concat, hcb⟩

/-- The first piece begins as the text does. -/
theorem head?_splitBy {y : Text} {ys : List Text} (hs : splitBy (· == '\n') s = y :: ys)
    (h : ∃ c ∈ s.head?, isBlank c = false) : ∃ c ∈ y.head?, isBlank c = false := by
  obtain ⟨c, hc, hcb⟩ := h
  cases s with
  | nil => cases hc
  | cons d s =>
    cases hc
    obtain ⟨z, zs, -, hcons⟩ := splitBy_cons_of_neg (· == '\n') s
    have other : (c == '\n') = false := by
      rw [beq_eq_false_iff_ne]
      rintro rfl
      cases hcb
    rw [hcons c other] at hs
    cases hs
    exact ⟨c, rfl, hcb⟩

/-- **A line may be broken where a parenthesis is open.** -/
theorem logical_break {a b : Text} (h : MayBreak a b) :
    logical (a ++ '\n' :: b) = logical (a ++ ' ' :: b) := by
  -- the line of the blank is `x ++ ' ' :: y`
  obtain ⟨y, ys, hb, hcons⟩ := splitBy_cons_of_neg (· == '\n') b
  obtain ⟨xs, x, ha, hab⟩ := splitBy_append_parts (hcons ' ' rfl) a
  have closed := h.closed
  rw [hab] at closed
  have front : EndsLiterals x :=
    (endsLiterals_last ha fun line hl => closed line (List.mem_append_left _ hl)).mp h.outside
  have hx := getLast?_splitBy ha (by simpa [Option.any_eq_true] using h.before)
  have hy := head?_splitBy hb (by simpa [Option.any_eq_true] using h.behind)
  obtain ⟨hx₀, -⟩ := exists_trim_of_last hx
  obtain ⟨hy₀, -⟩ := exists_trim_of_head hy
  have opened : 0 < depthAfter ((xs.map trim).filter (!·.isEmpty)) 0 + parenBalance (trim x) := by
    have inside := h.inside
    simp only [openDepth, ha, List.dropLast_concat, List.getLastD_concat] at inside
    rwa [depthAfter_physical le_rfl, parenBalance_trim]
  -- both texts are their own lines
  have broken : Uncommented .code (a ++ '\n' :: b) := h.uncommented.swap rfl rfl h.outside
  have strip : stripComments (a ++ ' ' :: b) = a ++ ' ' :: b :=
    stripFrom_of_uncommented h.uncommented
  have strip' : stripComments (a ++ '\n' :: b) = a ++ '\n' :: b := stripFrom_of_uncommented broken
  have step := joinFrom_break (v := trim y) hx₀ ((endsLiterals_trim x).mpr front)
    ((xs.map trim).filter (!·.isEmpty)) ((ys.map trim).filter (!·.isEmpty)) [] opened
  rw [logical, logical, strip, strip', splitBy_append_sep rfl, ha, hb, hab]
  simpa [trim_between hx hy, hx₀, hy₀] using step

/-! ### Carriage returns -/

/-- A text with a carriage return before each of its line feeds. -/
def withReturns (s : Text) : Text :=
  s.flatMap fun c => if c = '\n' then ['\r', '\n'] else [c]

/-- The second text is the first one with carriage returns before some of its line feeds. -/
inductive Returned : Text → Text → Prop where
  | nil : Returned [] []
  | keep (c : Char) {s t : Text} (h : Returned s t) : Returned (c :: s) (c :: t)
  | feed {s t : Text} (h : Returned s t) : Returned ('\n' :: s) ('\r' :: '\n' :: t)

/-- The text with carriage returns before its line feeds is one with some of them. -/
theorem returned_withReturns (s : Text) : Returned s (withReturns s) := by
  induction s with
  | nil => exact .nil
  | cons c s ih =>
    rw [withReturns, List.flatMap_cons]
    split_ifs with hc
    · rw [hc]
      exact .feed ih
    · exact .keep c ih

/-- Carriage returns are layout. -/
theorem Returned.collapse (h : Returned s t) : Text.collapse t = Text.collapse s := by
  induction h with
  | nil => rfl
  | keep c _ ih => exact collapse_cons_congr c ih
  | @feed s t _ ih =>
    have dropped : Text.collapse ('\r' :: '\n' :: t) = Text.collapse ('\n' :: t) := rfl
    rw [dropped, collapse_cons_congr '\n' ih]

/-- A literal stands in quotes. -/
def Region.Quoted : Region → Prop
  | .literal q _ => isQuote q = true
  | _ => True

/-- What begins in the code is code or a literal. -/
theorem quoted_afterCode (c : Char) : (afterCode c).Quoted := by
  unfold afterCode
  split_ifs with hc
  · simpa [Region.Quoted, isQuote] using hc
  · trivial

theorem quoted_afterLiteral {q : Char} (hq : isQuote q = true) (escaped : Bool) (c : Char) :
    (afterLiteral q escaped c).Quoted := by
  unfold afterLiteral
  split_ifs
  · trivial
  · exact hq

theorem quoted_afterBlock (star : Bool) (c : Char) : (afterBlock star c).Quoted := by
  unfold afterBlock
  split_ifs <;> trivial

/-- The region behind a line feed. -/
def Region.fed : Region → Region
  | .literal q _ => .literal q false
  | .block _ => .block false
  | .code | .line => .code

theorem Region.Quoted.fed (hg : g.Quoted) : g.fed.Quoted := by
  cases g with
  | literal => exact hg
  | code | block | line => trivial

/-- A line break closes no literal and begins no escape. -/
theorem afterLiteral_of_layout {q : Char} (hq : isQuote q = true) (hc : isLayout c = true)
    (escaped : Bool) : afterLiteral q escaped c = .literal q false := by
  refine (if_neg fun h => ?_).trans ?_
  · rw [h.2, not_isLayout_of_isQuote hq] at hc
    cases hc
  · have plain : (c == '\\') = false := by
      rw [beq_eq_false_iff_ne]
      rintro rfl
      cases hc
    rw [plain, Bool.and_false]

/-- A line feed is kept, and so is a carriage return before it or not. -/
theorem stripFrom_feed (hg : g.Quoted) (s : Text) :
    stripFrom g ('\n' :: s) = '\n' :: stripFrom g.fed s ∧
      (stripFrom g ('\r' :: '\n' :: s) = '\n' :: stripFrom g.fed s ∨
        stripFrom g ('\r' :: '\n' :: s) = '\r' :: '\n' :: stripFrom g.fed s) := by
  have plain {c : Char} (hc : c ≠ '/') (t : Text) : ¬ opensComment c t := fun ho => hc ho.1
  cases g with
  | code =>
    rw [stripFrom_code (plain (by decide) _), stripFrom_code (plain (by decide) _)]
    exact ⟨rfl, .inr (congrArg ('\r' :: ·) (stripFrom_code (plain (by decide) _)))⟩
  | literal q escaped =>
    have stays {c : Char} (hc : isLayout c = true) := afterLiteral_of_layout hg hc
    simp only [stripFrom_literal, stays (c := '\r') rfl, stays (c := '\n') rfl]
    exact ⟨rfl, .inr rfl⟩
  | block star =>
    simp only [stripFrom_block]
    cases star <;> exact ⟨rfl, .inl rfl⟩
  | line => exact ⟨rfl, .inl rfl⟩

/-- Carriage returns open no comment. -/
theorem Returned.opensComment (h : Returned s t) (ho : opensComment c t) : opensComment c s := by
  obtain ⟨rfl, ho⟩ := ho
  cases h with
  | nil => exact ⟨rfl, ho⟩
  | keep d h => exact ⟨rfl, ho⟩
  | feed h => rcases ho with ho | ho <;> cases ho

/-- Without comments the texts differ in carriage returns as before. -/
theorem Returned.strip (h : Returned s t) (hg : g.Quoted) :
    Returned (stripFrom g s) (stripFrom g t) := by
  induction hk : s.length using Nat.strong_induction_on generalizing g s t with
  | _ k ih =>
    cases h with
    | nil =>
      rw [stripFrom]
      exact .nil
    | @feed s t h =>
      have rest := ih s.length (by simp [← hk]) h hg.fed rfl
      obtain ⟨fed, -⟩ := stripFrom_feed hg s
      rcases (stripFrom_feed hg t).2 with dropped | kept
      · rw [fed, dropped]
        exact .keep _ rest
      · rw [fed, kept]
        exact .feed rest
    | @keep c s t h =>
      have behind {g : Region} (hg : g.Quoted) := ih s.length (by simp [← hk]) h hg rfl
      cases g with
      | code =>
        by_cases ho : Scan.opensComment c s
        · -- the comment begins with the next character
          obtain ⟨rfl, ho⟩ := ho
          cases h with
          | nil => rcases ho with ho | ho <;> cases ho
          | feed h => rcases ho with ho | ho <;> cases ho
          | @keep d s t h =>
            have inside {g : Region} (hg : g.Quoted) :=
              ih s.length (by simp only [← hk, List.length_cons]; omega) h hg rfl
            rcases ho with ho | ho <;> cases ho <;> rw [stripFrom, stripFrom]
            · exact inside (g := .block false) trivial
            · exact inside (g := .line) trivial
        · -- a carriage return put behind the character does not open a comment either
          rw [stripFrom_code ho, stripFrom_code (mt h.opensComment ho)]
          exact .keep c (behind (quoted_afterCode c))
      | literal q escaped =>
        rw [stripFrom_literal, stripFrom_literal]
        exact .keep c (behind (quoted_afterLiteral hg escaped c))
      | block star =>
        have rest := behind (quoted_afterBlock star c)
        rw [stripFrom_block, stripFrom_block]
        split_ifs
        · exact .keep c rest
        · exact rest
      | line =>
        rw [stripFrom, stripFrom]
        split_ifs
        · exact .keep c (behind (g := .code) trivial)
        · exact behind (g := .line) trivial

/-- Each line is the same but for a carriage return at its end. -/
theorem Returned.lines (h : Returned s t) :
    List.Forall₂ (fun x y => y = x ∨ y = x ++ ['\r'])
      (splitBy (· == '\n') s) (splitBy (· == '\n') t) := by
  induction h with
  | nil => exact .cons (.inl rfl) .nil
  | @keep c s t _ ih =>
    obtain ⟨x, xs, hs, hcons⟩ := splitBy_cons_of_neg (· == '\n') s
    obtain ⟨y, ys, ht, hcons'⟩ := splitBy_cons_of_neg (· == '\n') t
    cases hc : c == '\n' with
    | true =>
      simp only [splitBy, hc, if_true]
      exact .cons (.inl rfl) ih
    | false =>
      rw [hs, ht] at ih
      rw [hcons c hc, hcons' c hc]
      obtain ⟨first, rest⟩ := List.forall₂_cons.mp ih
      exact .cons (first.imp (congrArg _) (congrArg _)) rest
  | @feed s t _ ih => exact .cons (.inr rfl) ih

/-- The lines are the same without the carriage returns. -/
theorem physical_of_returned (h : Returned s t) : physical t = physical s := by
  have trimmed {xs ys : List Text} (h : List.Forall₂ (fun x y => y = x ∨ y = x ++ ['\r']) xs ys) :
      ys.map trim = xs.map trim := by
    induction h with
    | nil => rfl
    | @cons x y xs ys hxy _ ih =>
      have same : trim y = trim x := by
        rcases hxy with rfl | rfl
        · rfl
        · exact trim_append_blanks (by simp [isBlank, blankRanges]) x
      rw [List.map_cons, List.map_cons, same, ih]
  rw [physical, trimmed h.lines, physical]

/-- **Carriage returns before line feeds change no line.** -/
theorem logical_withReturns (body : Text) : logical (withReturns body) = logical body := by
  have strip := (returned_withReturns body).strip (g := .code) trivial
  rw [logical, logical]
  exact congrArg (joinFrom [] 0) (physical_of_returned strip)

/-- A word without line breaks occurs in both texts or in none. -/
theorem Returned.contains (h : Returned s t) {w : Text} (hw : ∀ c ∈ w, isLineBreak c = false) :
    Text.contains w t = Text.contains w s := by
  have ne {d e : Char} (hd : isLineBreak d = false) (he : isLineBreak e = true) :
      (d == e) = false := by
    rw [beq_eq_false_iff_ne]
    rintro rfl
    rw [he] at hd
    cases hd
  have starts {w s t : Text} (hw : ∀ c ∈ w, isLineBreak c = false) (h : Returned s t) :
      w.isPrefixOf t = w.isPrefixOf s := by
    induction w generalizing s t with
    | nil => rfl
    | cons d w ih =>
      obtain ⟨hd, hw⟩ := List.forall_mem_cons.mp hw
      cases h with
      | nil => rfl
      | keep c h => rw [List.isPrefixOf_cons_cons, List.isPrefixOf_cons_cons, ih hw h]
      | feed h =>
        rw [List.isPrefixOf_cons_cons, List.isPrefixOf_cons_cons, ne hd rfl, ne hd rfl,
          Bool.false_and, Bool.false_and]
  induction h with
  | nil => rfl
  | keep c h ih => rw [Text.contains, Text.contains, starts hw (.keep c h), ih]
  | @feed s t h ih =>
    rw [Text.contains, Text.contains, Text.contains, starts hw (.feed h), ih]
    cases w with
    | nil => rfl
    | cons d w =>
      obtain ⟨hd, -⟩ := List.forall_mem_cons.mp hw
      rw [List.isPrefixOf_cons_cons, List.isPrefixOf_cons_cons, ne hd rfl]
      rfl

end Line

/-! ### Bodies -/

/-- What is read of a body. -/
structure Reading where
  lines : List Text
  slots : List ArgSlot
  returns : Option Text × Bool
  shape : Except Fault Shape

/-- What is read of a body. -/
def Reading.ofBody (body : Text) : Reading where
  lines := Line.ofBody body
  slots := ArgSlot.ofBody body
  returns := Return.summary body
  shape := Shape.classify (Line.ofBody body) (Return.summary body).2

/-- Bodies with the same logical lines and the same text but for layout are read alike. -/
theorem Reading.ofBody_congr {b c : Text} (lines : Line.logical c = Line.logical b)
    (layout : Text.collapse c = Text.collapse b) : ofBody c = ofBody b := by
  obtain ⟨slots, returns⟩ := reads_of_collapse layout
  have work : Line.ofBody c = Line.ofBody b := by rw [Line.ofBody, Line.ofBody, lines]
  rw [ofBody, ofBody, work, slots, returns]

/-- **The layout of a body makes no difference**: a line may be broken inside a parenthesis, and
line feeds may have carriage returns before them. -/
theorem Reading.ofBody_relaid :
    (∀ a b, Line.MayBreak a b → ofBody (a ++ '\n' :: b) = ofBody (a ++ ' ' :: b)) ∧
      ∀ body, ofBody (Line.withReturns body) = ofBody body :=
  ⟨fun a b h => ofBody_congr (Line.logical_break h) (Text.collapse_swap rfl rfl a b),
    fun body => ofBody_congr (Line.logical_withReturns body)
      (Line.returned_withReturns body).collapse⟩

/-- A call that is broken behind its first argument, in both conventions. -/
theorem Reading.ofBody_relaid_call :
    ofBody "  PG_RETURN_POINTER(tbox_make(a,\nb, c));\n" =
        ofBody "  PG_RETURN_POINTER(tbox_make(a, b, c));\n" ∧
      ofBody "  PG_RETURN_POINTER(tbox_make(a,\r\nb, c));\r\n" =
        ofBody "  PG_RETURN_POINTER(tbox_make(a,\nb, c));\n" :=
  ⟨ofBody_relaid.1 "  PG_RETURN_POINTER(tbox_make(a," "b, c));\n" (by decide +kernel),
    ofBody_relaid.2 "  PG_RETURN_POINTER(tbox_make(a,\nb, c));\n"⟩

/-- Of a body with carriage returns the same function is made. -/
theorem Implementation.ofBody_withReturns (symbol body : Text) (span : Span) :
    ofBody symbol (Line.withReturns body) span =
      (ofBody symbol body span).map fun n => { n with body := Line.withReturns body } := by
  have returned := Line.returned_withReturns body
  obtain ⟨slots, summary⟩ := reads_of_collapse returned.collapse
  have lines : Line.ofBody (Line.withReturns body) = Line.ofBody body := by
    rw [Line.ofBody, Line.ofBody, Line.logical_withReturns]
  have unbroken : Line.typeTagMark.all (!Scan.isLineBreak ·) = true := by decide
  exact ofBody_congr slots lines summary (returned.contains (by simpa using unbroken))

end VectorWrap
