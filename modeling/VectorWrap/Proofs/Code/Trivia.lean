import VectorWrap.Code.Trivia
import VectorWrap.Proofs.Scan.Lookahead

/-!
# What is passed over

Under `Spacing.free` no line break ends a line comment: it takes the rest of the text
(`lineComment_free`).

Under `Spacing.exact` layout counts, and a line comment ends with its line.  The two spacings are
the two ways in which a grammar reads these rules: where layout is skipped between the turns of a
repetition, the line break that would end the comment is skipped as well.  Literals and block
comments are read alike in both.
-/

namespace VectorWrap.Scan

/-- A fixed text that begins otherwise is not read. -/
theorem exactly_of_ne {w s : Text} (h : ∀ x, s ≠ w ++ x) : exactly w s = none := by
  rw [Option.eq_none_iff_forall_ne_some]
  exact fun x hx => h x.2 (exactly_eq_some.mp hx)

theorem blockComment_of_ne {s : Text} (h : ∀ x, s ≠ '/' :: '*' :: x) : blockComment s = none :=
  bind_of_none (exactly_of_ne h)

/-- In the reading that passes over layout a line comment takes the rest of the text. -/
theorem lineComment_free (opening s : Text) :
    lineComment opening .free (opening ++ s) = some ((), []) := by
  have hr : run (fun _ => true) s = some (s, []) :=
    run_eq_some.mpr ⟨List.takeWhile_eq_self_iff.mpr fun _ _ => rfl,
      List.dropWhile_eq_nil_iff.mpr fun _ _ => rfl⟩
  exact bind_eq_some.mpr ⟨(), s, exactly_eq_some.mpr rfl, bind_eq_some.mpr ⟨s, [], hr, rfl⟩⟩

/-- The character begins a literal. -/
def isQuote (c : Char) : Bool :=
  c == '"' || c == '\''

/-- A character of a class without the two quotes begins no literal. -/
theorem isQuote_of_class (p : Char → Bool) (hd : p '"' = false) (hs : p '\'' = false) {c : Char}
    (h : p c = true) : isQuote c = false := by
  rw [Bool.eq_false_iff]
  intro hq
  simp only [isQuote, Bool.or_eq_true, beq_iff_eq] at hq
  rcases hq with rfl | rfl
  · rw [hd] at h
    cases h
  · rw [hs] at h
    cases h

theorem isQuote_of_isLayout {c : Char} (h : Text.isLayout c = true) : isQuote c = false :=
  isQuote_of_class Text.isLayout rfl rfl h

theorem not_isLayout_of_isQuote {c : Char} (hq : isQuote c = true) : Text.isLayout c = false := by
  simp only [isQuote, Bool.or_eq_true, beq_iff_eq] at hq
  rcases hq with rfl | rfl <;> rfl

theorem isQuote_of_inName {c : Char} (h : Text.inName c = true) : isQuote c = false :=
  isQuote_of_class Text.inName rfl rfl h

/-- The character `c` begins a comment before `s`. -/
def opensComment (c : Char) (s : Text) : Prop :=
  c = '/' ∧ (s.head? = some '*' ∨ s.head? = some '/')

/-- Nothing is passed over where neither a literal nor a comment begins. -/
theorem trivia_eq_none {spacing : Spacing} {c : Char} {s : Text} (hq : isQuote c = false)
    (hs : ¬ opensComment c s) : trivia spacing (c :: s) = none := by
  simp only [isQuote, Bool.or_eq_false_iff, beq_eq_false_iff_ne] at hq
  have hb : blockComment (c :: s) = none := by
    refine blockComment_of_ne fun x h => hs ?_
    cases h
    exact ⟨rfl, .inl rfl⟩
  have hl : lineComment "//" spacing (c :: s) = none := by
    have he : exactly "//" (c :: s) = none := by
      refine exactly_of_ne fun x h => hs ?_
      cases h
      exact ⟨rfl, .inr rfl⟩
    cases spacing <;> exact bind_of_none he
  have literal_of_ne {q : Char} (h : c ≠ q) : literal spacing q (c :: s) = none :=
    bind_of_none (by simp [one, h])
  rw [trivia, orElse_of_none hb, orElse_of_none hl, orElse_of_none (literal_of_ne hq.1),
    literal_of_ne hq.2]

/-- No gap is read where no literal, no comment and no name begins. -/
theorem codeGap_eq_none {c : Char} {s : Text} (hq : isQuote c = false)
    (hs : ¬ opensComment c s) (hn : Text.startsName c = false) : codeGap (c :: s) = none := by
  rw [codeGap, orElse_of_none (trivia_eq_none hq hs)]
  exact bind_of_none (by simp [name, hn])

/-- Outside comments and literals a name is passed over as a whole. -/
theorem codeGap_name {c : Char} {s : Text} (hq : isQuote c = false) (hs : ¬ opensComment c s)
    (hn : Text.startsName c = true) :
    codeGap (c :: s) = some ((), (c :: s).dropWhile Text.inName) := by
  rw [codeGap, orElse_of_none (trivia_eq_none hq hs)]
  refine bind_eq_some.mpr ⟨c :: s.takeWhile Text.inName, s.dropWhile Text.inName, by
    simp [name, hn], ?_⟩
  rw [List.dropWhile_cons_of_pos (Text.inName_of_startsName hn)]
  rfl

/-- A line comment takes the rest of the text. -/
theorem codeGap_line (s : Text) : codeGap ('/' :: '/' :: s) = some ((), []) := by
  have hb : blockComment ('/' :: '/' :: s) = none := blockComment_of_ne (by simp)
  have hl : lineComment "//" .free ('/' :: '/' :: s) = some ((), []) := lineComment_free "//" s
  have ht : trivia .free ('/' :: '/' :: s) = some ((), []) := by
    rw [trivia, orElse_of_none hb, orElse_of_some hl]
  exact orElse_of_some ht

/-- A block comment is passed over up to its end. -/
theorem trivia_block {s a r : Text} (h : splitAt? "*/" s = some (a, r)) (spacing : Spacing) :
    trivia spacing ('/' :: '*' :: s) = some ((), r) :=
  orElse_of_some (bind_eq_some.mpr ⟨(), s, exactly_eq_some.mpr rfl,
    bind_eq_some.mpr ⟨a, r, h, rfl⟩⟩)

/-- A literal is passed over up to its quote. -/
theorem trivia_literal {spacing : Spacing} {q : Char} {s r : Text} (hq : isQuote q = true)
    (h : closeQuote? spacing q false s = some r) : trivia spacing (q :: s) = some ((), r) := by
  have literal_self : literal spacing q (q :: s) = some ((), r) :=
    bind_eq_some.mpr ⟨q, s, by simp [one], by simp [h]⟩
  have hb : blockComment (q :: s) = none := blockComment_of_ne fun x e => by
    cases e
    cases hq
  have hl : lineComment "//" spacing (q :: s) = none := by
    have he : exactly "//" (q :: s) = none := exactly_of_ne fun x e => by
      cases e
      cases hq
    cases spacing <;> exact bind_of_none he
  rw [trivia, orElse_of_none hb, orElse_of_none hl]
  simp only [isQuote, Bool.or_eq_true, beq_iff_eq] at hq
  rcases hq with rfl | rfl
  · exact orElse_of_some literal_self
  · have hn : literal spacing '"' ('\'' :: s) = none := bind_of_none (by simp [one])
    rw [orElse_of_none hn, literal_self]

theorem codeGap_block {s a r : Text} (h : splitAt? "*/" s = some (a, r)) :
    codeGap ('/' :: '*' :: s) = some ((), r) :=
  orElse_of_some (trivia_block h .free)

theorem codeGap_literal {q : Char} {s r : Text} (hq : isQuote q = true)
    (h : closeQuote? .free q false s = some r) : codeGap (q :: s) = some ((), r) :=
  orElse_of_some (trivia_literal hq h)

end VectorWrap.Scan
