import Mathlib
import VectorWrap.Text.Identifier

/-!
# Words, blanks and pieces

A name holds no blank, so what stands around a name can be trimmed and a name begins no layout.  A
text that was put together with separators between its pieces is taken apart into these pieces
(`splitBy_append`).

The lemmas on `takeWhile` and `dropWhile` are stated for the text that is read followed by the text
that is left, with a condition on the first character of that (`takeWhile_append_of_head`): in this
form they apply to a reader that goes through a composed text.
-/

namespace VectorWrap.Text

/-! ### Runs -/

/-- A character outside a class is in no text of that class. -/
theorem not_mem_of_class {p : Char → Bool} {s : Text} (hs : ∀ c ∈ s, p c = true) {c : Char}
    (hc : p c = false) : c ∉ s := fun hm => by
  rw [hs c hm] at hc
  cases hc

/-- A run ends where something begins that does not belong to it. -/
theorem dropWhile_append_of_head {p : Char → Bool} {a s : Text} (ha : ∀ c ∈ a, p c = true)
    (hs : ∀ c, s.head? = some c → p c = false) : (a ++ s).dropWhile p = s := by
  rw [List.dropWhile_append_of_pos ha]
  cases s with
  | nil => rfl
  | cons c s => exact List.dropWhile_cons_of_neg (by simp [hs c rfl])

/-- A run ends at the first character that does not belong to it. -/
theorem takeWhile_append_of_head {p : Char → Bool} {a s : Text} (ha : ∀ c ∈ a, p c = true)
    (hs : ∀ c, s.head? = some c → p c = false) : (a ++ s).takeWhile p = a := by
  rw [List.takeWhile_append_of_pos ha]
  cases s with
  | nil => simp
  | cons c s => rw [List.takeWhile_cons_of_neg (by simp [hs c rfl]), List.append_nil]

/-- A text is a run, or a run and what ends it. -/
theorem exists_run_of (p : Char → Bool) (s : Text) : ∃ w : Text, (∀ c ∈ w, p c = true) ∧
    (s = w ∨ ∃ c r, s = w ++ c :: r ∧ p c = false) := by
  refine ⟨s.takeWhile p, fun c hc => List.mem_takeWhile_imp hc, ?_⟩
  have whole := List.takeWhile_append_dropWhile (p := p) (l := s)
  have first := List.head?_dropWhile_not p s
  cases e : s.dropWhile p with
  | nil => exact .inl (by rw [e, List.append_nil] at whole; exact whole.symm)
  | cons c r =>
    rw [e] at whole first
    exact .inr ⟨c, r, whole.symm, by simpa using first⟩

/-! ### Names -/

/-- No character of a name is a blank. -/
theorem isBlank_of_inName {c : Char} (h : inName c = true) : isBlank c = false := by
  simp only [inName, Char.isAlphanum, Char.isAlpha, Char.isUpper, Char.isLower, Char.isDigit,
    Bool.or_eq_true, Bool.and_eq_true, decide_eq_true_eq, beq_iff_eq, ge_iff_le,
    UInt32.le_iff_toNat_le] at h
  rcases h with h | rfl
  · have hr : 48 ≤ c.toNat ∧ c.toNat ≤ 122 := by
      have : c.toNat = c.val.toNat := rfl
      simp only [Char.reduceVal] at h
      simp only [UInt32.reduceToNat] at h
      omega
    simp only [isBlank, blankRanges, List.any_cons, List.any_nil, Bool.or_false,
      Bool.or_eq_false_iff, Bool.and_eq_false_iff, decide_eq_false_iff_not]
    omega
  · decide

theorem ne_nil_of_isName {v : Text} (h : isName v = true) : v ≠ [] := by
  rintro rfl
  cases h

/-- A name has characters of names only. -/
theorem all_inName_of_isName {v : Text} (h : isName v = true) : ∀ c ∈ v, inName c = true := by
  cases v with
  | nil => cases h
  | cons c v =>
    simp only [isName, Bool.and_eq_true, List.all_eq_true] at h
    rintro d (_ | ⟨_, hd⟩)
    · exact inName_of_startsName h.1
    · exact h.2 d hd

theorem isBlank_of_isName {v : Text} (h : isName v = true) : ∀ c ∈ v, isBlank c = false :=
  fun c hc => isBlank_of_inName (all_inName_of_isName h c hc)

/-- A name begins with no layout. -/
theorem isLayout_of_startsName {c : Char} (h : startsName c = true) : isLayout c = false := by
  rw [Bool.eq_false_iff]
  intro hl
  have := isBlank_of_isLayout hl
  rw [isBlank_of_inName (inName_of_startsName h)] at this
  cases this

/-- Layout is in no name. -/
theorem inName_of_isLayout {c : Char} (h : isLayout c = true) : inName c = false := by
  rw [Bool.eq_false_iff]
  intro hn
  have := isBlank_of_inName hn
  rw [isBlank_of_isLayout h] at this
  cases this

/-! ### Trims -/

/-- A text that neither begins nor ends with a blank. -/
structure Trimmed (t : Text) : Prop where
  head : ∀ c, t.head? = some c → isBlank c = false
  last : ∀ c, t.getLast? = some c → isBlank c = false

theorem trimmed_of_not_blank {t : Text} (h : ∀ c ∈ t, isBlank c = false) : Trimmed t where
  head c hc := h c (List.mem_of_mem_head? hc)
  last c hc := h c (List.mem_of_getLast? hc)

/-- A trim drops what it trims away around a text that neither begins nor ends with it. -/
theorem trimBy_append {p : Char → Bool} {a t b : Text} (ha : ∀ c ∈ a, p c = true)
    (hb : ∀ c ∈ b, p c = true) (hh : ∀ c, t.head? = some c → p c = false)
    (hl : ∀ c, t.getLast? = some c → p c = false) : trimBy p (a ++ t ++ b) = t := by
  cases t with
  | nil =>
    have : (a ++ [] ++ b).dropWhile p = [] :=
      List.dropWhile_eq_nil_iff.mpr fun c hc => by
        simp only [List.append_nil, List.mem_append] at hc
        exact hc.elim (ha c) (hb c)
    rw [trimBy, this]
    rfl
  | cons c t =>
    have h₁ : (a ++ (c :: t) ++ b).dropWhile p = (c :: t) ++ b := by
      rw [List.append_assoc]
      exact dropWhile_append_of_head ha fun d hd => hh d (by simpa using hd)
    rw [trimBy, h₁, List.reverse_append,
      dropWhile_append_of_head (fun d hd => hb d (by simpa using hd)) fun d hd => ?_]
    · simp
    · exact hl d (by rwa [List.head?_reverse] at hd)

/-- A trim drops the blanks around a trimmed text. -/
theorem trim_append {a t b : Text} (ha : ∀ c ∈ a, isBlank c = true)
    (hb : ∀ c ∈ b, isBlank c = true) (ht : Trimmed t) : trim (a ++ t ++ b) = t :=
  trimBy_append ha hb ht.head ht.last

theorem trim_of_trimmed {t : Text} (h : Trimmed t) : trim t = t := by
  simpa using trim_append (a := []) (b := []) (by simp) (by simp) h

/-- Behind the leading blanks a text is its trim and blanks. -/
theorem exists_dropWhile_eq_trim (s : Text) : ∃ b : Text,
    (∀ c ∈ b, isBlank c = true) ∧ s.dropWhile isBlank = trim s ++ b := by
  refine ⟨((s.dropWhile isBlank).reverse.takeWhile isBlank).reverse, fun c hc => ?_, ?_⟩
  · exact List.mem_takeWhile_imp (List.mem_reverse.mp hc)
  · rw [trim, trimBy, ← List.reverse_append, List.takeWhile_append_dropWhile, List.reverse_reverse]

/-- A text is its trim between blanks. -/
theorem exists_trim (s : Text) : ∃ a b : Text, s = a ++ trim s ++ b ∧
    (∀ c ∈ a, isBlank c = true) ∧ ∀ c ∈ b, isBlank c = true := by
  obtain ⟨b, hb, h⟩ := exists_dropWhile_eq_trim s
  refine ⟨s.takeWhile isBlank, b, ?_, fun c hc => List.mem_takeWhile_imp hc, hb⟩
  rw [List.append_assoc, ← h, List.takeWhile_append_dropWhile]

/-- A trimmed text has no blanks at its ends. -/
theorem trimmed_trim (s : Text) : Trimmed (trim s) where
  head c hc := by
    obtain ⟨b, -, h⟩ := exists_dropWhile_eq_trim s
    have first := List.head?_dropWhile_not isBlank s
    rw [h, List.head?_append, hc] at first
    simpa using first
  last c hc := by
    rw [trim, trimBy, List.getLast?_reverse] at hc
    have first := List.head?_dropWhile_not isBlank (s.dropWhile isBlank).reverse
    rw [hc] at first
    simpa using first

/-- A trim takes nothing from the first word. -/
theorem takeWhile_trim (s : Text) :
    (trim s).takeWhile inName = (s.dropWhile isBlank).takeWhile inName := by
  obtain ⟨b, hb, h⟩ := exists_dropWhile_eq_trim s
  rw [h, List.takeWhile_append]
  split
  · next he =>
    have hn : b.takeWhile inName = [] := by
      cases b with
      | nil => rfl
      | cons c b =>
        refine List.takeWhile_cons_of_neg fun hc => ?_
        have := hb c List.mem_cons_self
        rw [isBlank_of_inName hc] at this
        cases this
    rw [hn, List.append_nil]
    exact List.IsPrefix.eq_of_length (List.takeWhile_prefix _) he
  · rfl

theorem trim_blank_append {a : Text} (ha : ∀ c ∈ a, isBlank c = true) (s : Text) :
    trim (a ++ s) = trim s := by
  rw [trim, trimBy, List.dropWhile_append_of_pos ha]
  rfl

/-- Blanks behind a text are trimmed away. -/
theorem trim_append_blanks {b : Text} (hb : ∀ c ∈ b, isBlank c = true) (s : Text) :
    trim (s ++ b) = trim s := by
  obtain ⟨x, y, hs, hx, hy⟩ := exists_trim s
  conv_lhs => rw [hs, List.append_assoc]
  exact trim_append hx (List.forall_mem_append.mpr ⟨hy, hb⟩) (trimmed_trim s)

/-! ### Pieces -/

section Pieces
attribute [local simp] splitBy

/-- A text without separators is one piece. -/
theorem splitBy_of_none {p : Char → Bool} {s : Text} (h : ∀ c ∈ s, p c = false) :
    splitBy p s = [s] := by
  induction s with
  | nil => rfl
  | cons c s ih =>
    obtain ⟨hc, hs⟩ := List.forall_mem_cons.mp h
    simp [hc, ih hs]

/-- A separator ends the piece before it. -/
theorem splitBy_append {p : Char → Bool} {a : Text} {c : Char} (ha : ∀ d ∈ a, p d = false)
    (hc : p c = true) (s : Text) : splitBy p (a ++ c :: s) = a :: splitBy p s := by
  induction a with
  | nil => simp [hc]
  | cons d a ih =>
    obtain ⟨hd, ha⟩ := List.forall_mem_cons.mp ha
    simp [hd, ih ha]

/-- There is a first piece, and a character that separates nothing is put in front of it. -/
theorem splitBy_cons_of_neg (p : Char → Bool) (s : Text) :
    ∃ x xs, splitBy p s = x :: xs ∧
      ∀ c, p c = false → splitBy p (c :: s) = (c :: x) :: xs := by
  obtain ⟨x, xs, h⟩ : ∃ x xs, splitBy p s = x :: xs := by
    cases s with
    | nil => exact ⟨[], [], rfl⟩
    | cons c s =>
      rw [splitBy]
      split_ifs
      · exact ⟨_, _, rfl⟩
      · cases splitBy p s <;> exact ⟨_, _, rfl⟩
  exact ⟨x, xs, h, fun c hc => by simp [hc, h]⟩

/-- A separator divides the pieces before it from those behind it. -/
theorem splitBy_append_sep {p : Char → Bool} {c : Char} (hc : p c = true) (s t : Text) :
    splitBy p (s ++ c :: t) = splitBy p s ++ splitBy p t := by
  induction s with
  | nil => simp [hc]
  | cons d s ih =>
    cases hd : p d with
    | true => simp [hd, ih]
    | false =>
      obtain ⟨x, xs, h, hcons⟩ := splitBy_cons_of_neg p s
      obtain ⟨y, ys, h', hcons'⟩ := splitBy_cons_of_neg p (s ++ c :: t)
      rw [ih, h, List.cons_append] at h'
      cases h'
      rw [List.cons_append, hcons d hd, hcons' d hd, List.cons_append]

/-- A piece stands in the text. -/
theorem infix_of_mem_splitBy {p : Char → Bool} {s piece : Text} (h : piece ∈ splitBy p s) :
    piece <:+: s := by
  -- the first piece is a prefix, which a character in front of it prolongs
  have parts : ∀ s x xs, splitBy p s = x :: xs → x <+: s ∧ ∀ y ∈ xs, y <:+: s := by
    intro s
    induction s with
    | nil =>
      rintro x xs ⟨⟩
      exact ⟨List.prefix_rfl, by simp⟩
    | cons c s ih =>
      intro x xs e
      obtain ⟨y, ys, h, hcons⟩ := splitBy_cons_of_neg p s
      obtain ⟨hy, hys⟩ := ih y ys h
      have later : ∀ z, z <:+: s → z <:+: c :: s := fun z hz =>
        hz.trans (List.suffix_cons c s).isInfix
      cases hc : p c with
      | true =>
        simp only [splitBy, hc, if_true, h] at e
        cases e
        refine ⟨List.nil_prefix, List.forall_mem_cons.mpr ⟨later _ hy.isInfix, fun z hz => ?_⟩⟩
        exact later z (hys z hz)
      | false =>
        rw [hcons c hc] at e
        cases e
        exact ⟨List.cons_prefix_cons.mpr ⟨rfl, hy⟩, fun z hz => later z (hys z hz)⟩
  obtain ⟨x, xs, hs, -⟩ := splitBy_cons_of_neg p s
  obtain ⟨hx, hxs⟩ := parts s x xs hs
  rw [hs] at h
  rcases List.mem_cons.mp h with rfl | h
  · exact hx.isInfix
  · exact hxs piece h

/-- No piece holds a separator. -/
theorem not_sep_of_mem_splitBy {p : Char → Bool} {s w : Text} (h : w ∈ splitBy p s) :
    ∀ c ∈ w, p c = false := by
  induction s generalizing w with
  | nil =>
    rw [List.mem_singleton.mp h]
    exact fun _ hc => nomatch hc
  | cons c s ih =>
    cases hc : p c with
    | true =>
      rw [splitBy, if_pos hc] at h
      rcases List.mem_cons.mp h with rfl | h
      · exact fun _ hd => nomatch hd
      · exact ih h
    | false =>
      obtain ⟨x, xs, e, hcons⟩ := splitBy_cons_of_neg p s
      rw [hcons c hc] at h
      rcases List.mem_cons.mp h with rfl | h
      · exact List.forall_mem_cons.mpr ⟨hc, ih (e ▸ List.mem_cons_self)⟩
      · exact ih (e ▸ List.mem_cons_of_mem x h)

/-- Pieces that were joined are found again. -/
theorem splitBy_joinWith {p : Char → Bool} {c : Char} (hc : p c = true) {ws : List Text}
    (hne : ws ≠ []) (h : ∀ w ∈ ws, ∀ d ∈ w, p d = false) : splitBy p (joinWith [c] ws) = ws := by
  induction ws with
  | nil => exact absurd rfl hne
  | cons w ws ih =>
    obtain ⟨hw, hws⟩ := List.forall_mem_cons.mp h
    cases ws with
    | nil => exact (congrArg _ List.intercalate_singleton).trans (splitBy_of_none hw)
    | cons v ws =>
      rw [joinWith, List.intercalate_cons_cons, List.append_assoc, List.singleton_append,
        splitBy_append hw hc]
      exact congrArg _ (ih (List.cons_ne_nil v ws) hws)

end Pieces

end VectorWrap.Text
