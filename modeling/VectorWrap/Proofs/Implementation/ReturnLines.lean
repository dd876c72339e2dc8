import VectorWrap.Proofs.Implementation.Calls
import VectorWrap.Proofs.Implementation.ReturnForm

/-!
# Return lines are recognised as written

The expression of a return line ends before the parenthesis behind which only layout and a semicolon
are left, no other being open.  The grammar passes over groups and characters up to there; an
opening parenthesis that is never closed is a character, but then no parenthesis behind it ends the
line, and both miss it (`ends_returnExpr`).

So a line is a return statement exactly if the grammar reads it as one.  With a matched expression
every such line is recognised, whatever layout stands around its parts, and a line that is
recognised has that form (`recognised_exactly`).

The grammar is related to the form in both directions: what it reads has the form, and what has the
form is read.  A claim on the lines that are not recognised needs the second, for there the grammar
has to fail.
-/

namespace VectorWrap

namespace Return
open Scan Text Implementation

/-! ### The expression -/

/-- The closing parenthesis ends the expression if it ends the line. -/
theorem argument?_of_closing? {d : Nat} {s a r : Text} (h : closing? d s = some (a, r))
    (hr : endsLine r = true) : argument? d s = some a := by
  induction s generalizing d a with
  | nil => cases h
  | cons c s ih =>
    by_cases hc : c = ')' ∧ d = 0
    · obtain ⟨rfl, rfl⟩ := hc
      cases h
      exact argument?_end hr
    · rw [closing?_cons hc] at h
      obtain ⟨⟨b, t⟩, hb, e⟩ := Option.map_eq_some_iff.mp h
      cases e
      rw [argument?_cons fun stop => hc ⟨stop.2.1, stop.1⟩, ih hb, Option.map_some]

/-- A group is passed over, and one that is not closed has no end of the line behind it. -/
theorem argument?_succ (d : Nat) (s : Text) :
    argument? (d + 1) s =
      (closing? d s).bind fun p => (argument? 0 p.2).map (p.1 ++ ')' :: ·) := by
  induction s generalizing d with
  | nil => rfl
  | cons c s ih =>
    rw [argument?_cons fun stop => Nat.succ_ne_zero d stop.1]
    by_cases hc : c = ')' ∧ d = 0
    · obtain ⟨rfl, rfl⟩ := hc
      rfl
    · rw [closing?_cons hc, depthBehind_succ hc, ih]
      cases closing? (depthBehind d c) s <;> simp [Function.comp_def]

theorem argument?_of_unclosed {d : Nat} {s : Text} (h : closing? d s = none) :
    argument? d s = none := by
  induction s generalizing d with
  | nil => rfl
  | cons c s ih =>
    have hc : ¬ (c = ')' ∧ d = 0) := by
      rintro ⟨rfl, rfl⟩
      cases h
    rw [closing?_cons hc, Option.map_eq_none_iff] at h
    rw [argument?_cons fun stop => hc ⟨stop.2.1, stop.1⟩, ih h, Option.map_none]

/-! ### The expression in the grammar -/

/-- A group in an expression, or a character that does not end the line. -/
def lineTurn : Peg Rule :=
  .oneOf [.rule .parenGroup, .inOrder [.absent Rule.lineEnd, .any]]

/-- A semicolon or none, and what has to be read behind it is layout. -/
theorem ends_semicolon {t : Bool} {b : Peg Rule} {es : List (Peg Rule)}
    (last : ∀ r, Ends grammar t (.inOrder (b :: es)) (Grammar.gap t r)
      (if (r.dropWhile isLayout).isEmpty then some [] else none)) (s : Text) :
    Ends grammar t (.inOrder (.opt (.text ";") :: b :: es)) (s.dropWhile isLayout)
      (if endsLine s then some [] else none) := by
  have again : (s.dropWhile isLayout).dropWhile isLayout = s.dropWhile isLayout :=
    List.dropWhile_idempotent _ _
  rw [endsLine]
  cases h : s.dropWhile isLayout with
  | nil =>
    have none : Ends grammar t (.text ";") [] none := .text _ _
    exact none.opt_none.next (last [])
  | cons c r =>
    by_cases hc : c = ';'
    · subst hc
      have sign : Ends grammar t (.text ";") (';' :: r) (some r) := .text _ _
      exact sign.opt_some.next (last r)
    · have none : Ends grammar t (.text ";") (c :: r) none := .no_text (Ne.symm hc) r
      have stays := last (c :: r)
      rw [← h, again, h] at stays
      have other : (c == ';' && (r.dropWhile isLayout).isEmpty) = false := by simp [hc]
      simp only [other]
      exact none.opt_none.next stays

/-- The end of a line is a parenthesis and what `endsLine` allows behind it. -/
theorem ends_lineEnd (s : Text) :
    Ends grammar true Rule.lineEnd (')' :: s) (if endsLine s then some [] else none) := by
  have blanks : ∀ r, Ends grammar true Rule.blanks r (some (r.dropWhile isLayout)) := agrees_blanks
  refine (Ends.char ')' s).next ((blanks s).next ?_)
  exact ends_semicolon (fun r => (blanks r).next (ends_end _)) s

/-- A character that does not end the line. -/
theorem ends_lineChar (c : Char) (s : Text) :
    Ends grammar true (.inOrder [.absent Rule.lineEnd, .any]) (c :: s)
      (if c = ')' ∧ endsLine s = true then none else some s) := by
  have any : Ends grammar true .any (c :: s) (some s) := .one rfl s
  by_cases hc : c = ')'
  · subst hc
    have ends := ends_lineEnd s
    cases h : endsLine s with
    | true =>
      rw [h] at ends
      exact ends.no_absent.no_first
    | false =>
      rw [h] at ends
      exact ends.absent.both any
  · have none : Ends grammar true Rule.lineEnd (c :: s) none := by
      have closing : Ends grammar true (.text ")") (c :: s) none := .no_text (Ne.symm hc) s
      exact closing.no_first
    rw [if_neg fun h => hc h.1]
    exact none.absent.both any

/-- Where a reading of an expression comes to a stop: before the parenthesis that ends the line, or
at its end if there is none. -/
def Stop (s z : Text) : Prop :=
  (∃ e, argument? 0 s = some e ∧ s = e ++ z) ∨ (argument? 0 s = none ∧ z = [])

/-- What is passed over belongs to the expression. -/
theorem Stop.behind {u r z : Text} (h : argument? 0 (u ++ r) = (argument? 0 r).map (u ++ ·))
    (hz : Stop r z) : Stop (u ++ r) z := by
  rcases hz with ⟨e, he, rfl⟩ | ⟨he, rfl⟩
  · exact .inl ⟨u ++ e, by rw [h, he, Option.map_some], (List.append_assoc u e z).symm⟩
  · exact .inr ⟨by rw [h, he, Option.map_none], rfl⟩

/-- An opening parenthesis is passed over with its group, or alone if the group is not closed. -/
theorem lineTurn_paren (s : Text) : ∃ r, Ends grammar true lineTurn ('(' :: s) (some r) ∧
    r.length < ('(' :: s).length ∧ ∀ z, Stop r z → Stop ('(' :: s) z := by
  have char := ends_lineChar '(' s
  rw [if_neg (by simp)] at char
  have group : Ends grammar true (.rule .parenGroup) ('(' :: s) (closeRest 0 s) := isGroup.ends s
  have inside : argument? 0 ('(' :: s) = (argument? 1 s).map ('(' :: ·) :=
    argument?_cons (by simp)
  rw [argument?_succ] at inside
  rw [closeRest] at group
  cases h : closing? 0 s with
  | some p =>
    obtain ⟨a, r⟩ := p
    rw [h] at group inside
    have whole : '(' :: s = ('(' :: a ++ [')']) ++ r := by simp [closing?_eq h]
    have shorter : r.length < ('(' :: s).length := by
      rw [whole, List.length_append]
      simp
    refine ⟨r, group.alt_left, shorter, fun z hz => ?_⟩
    rw [whole]
    refine hz.behind ?_
    rw [← whole, inside]
    simp [Function.comp_def]
  | none =>
    -- no parenthesis ends the line, so the expression goes to the end of the text in any case
    rw [h] at group inside
    refine ⟨s, group.alt_right char, Nat.lt_succ_self _, fun z hz => ?_⟩
    rcases hz with ⟨e, he, -⟩ | ⟨-, rfl⟩
    · rw [argument?_of_unclosed h] at he
      cases he
    · exact .inr ⟨inside, rfl⟩

/-- Any other character is passed over unless the line ends with it. -/
theorem lineTurn_char {c : Char} {s : Text} (ho : c ≠ '(')
    (hs : ¬ (c = ')' ∧ endsLine s = true)) :
    Ends grammar true lineTurn (c :: s) (some s) ∧ ∀ z, Stop s z → Stop (c :: s) z := by
  have char := ends_lineChar c s
  rw [if_neg hs] at char
  have none : Ends grammar true (.rule .parenGroup) (c :: s) none :=
    isGroup.ends_none (if_neg (Ne.symm ho))
  have flat : depthBehind 0 c = 0 := by
    rw [depthBehind, if_neg ho]
    split_ifs <;> rfl
  have passed : argument? 0 ([c] ++ s) = (argument? 0 s).map ([c] ++ ·) := by
    rw [List.singleton_append, argument?_cons fun stop => hs stop.2, flat]
    rfl
  exact ⟨none.alt_right char, fun z hz => hz.behind passed⟩

theorem ends_lineTurn (s : Text) : Ends grammar true lineTurn s none ∧ Stop s s ∨
    ∃ r, Ends grammar true lineTurn s (some r) ∧ r.length < s.length ∧
      ∀ z, Stop r z → Stop s z := by
  cases s with
  | nil =>
    have char : Ends grammar true (.inOrder [.absent Rule.lineEnd, .any]) [] none := by
      have closing : Ends grammar true (.text ")") [] none := .text _ _
      have ends : Ends grammar true Rule.lineEnd [] none := closing.no_first
      exact ends.absent.both (.no_one (by simp))
    exact .inl ⟨(isGroup.ends_none rfl).alt_right char, .inr ⟨rfl, rfl⟩⟩
  | cons c s =>
    by_cases ho : c = '('
    · subst ho
      exact .inr (lineTurn_paren s)
    by_cases hs : c = ')' ∧ endsLine s = true
    · have char := ends_lineChar c s
      rw [if_pos hs] at char
      have none : Ends grammar true (.rule .parenGroup) (c :: s) none :=
        isGroup.ends_none (if_neg (Ne.symm ho))
      obtain ⟨rfl, hs⟩ := hs
      exact .inl ⟨none.alt_right char, .inl ⟨[], argument?_end hs, rfl⟩⟩
    · obtain ⟨read, stop⟩ := lineTurn_char ho hs
      exact .inr ⟨s, read, Nat.lt_succ_self _, stop⟩

/-- **An expression is read up to the parenthesis that ends the line**, or to the end of the line if
there is none. -/
theorem ends_returnExpr {t : Bool} (s : Text) :
    ∃ z, Ends grammar t (.rule .returnExpr) s (some z) ∧ Stop s z := by
  obtain ⟨z, read, stop⟩ :=
    Ends.star_of_step (t := true) (P := Stop) (fun s _ _ => ends_lineTurn s) (s := s) rfl
  exact ⟨z, .call rfl read, stop⟩

/-! ### Lines in the grammar -/

/-- What closes a return line and its expression. -/
theorem ends_lineClose (s : Text) : Ends grammar false
    (.inOrder [.text ")", .opt (.text ";"), .absent .any]) (')' :: s)
    (if endsLine s then some [] else none) :=
  (Ends.char ')' s).next (ends_semicolon (fun r => ends_end (r.dropWhile isLayout)) s)

/-- A return line is read as its rule says, member by member. -/
theorem agrees_lineForm : Agrees grammar false lineForm (.inOrder [.rule .returnMacro, .text "(",
    .rule .returnExpr, .text ")", .opt (.text ";"), .absent .any]) := by
  refine Agrees.behind (agrees_mark.next fun kind => (agrees_symbol "(").next fun _ s => ?_)
  obtain ⟨z, expr, stop⟩ := ends_returnExpr (t := false) (Grammar.gap false s)
  have rest : ((do
      layout
      let value ← (fun s => (argument? 0 s).map fun e => (e, []) : Scan Text)
      pure (kind, trim value) : Scan (Text × Text)) s).map Prod.snd =
        (argument? 0 (Grammar.gap false s)).map fun _ => [] := by
    show (((argument? 0 (Grammar.gap false s)).map fun e => (e, [])).bind _).map Prod.snd = _
    cases argument? 0 (Grammar.gap false s) <;> rfl
  rw [rest]
  refine expr.next ?_
  rcases stop with ⟨e, he, whole⟩ | ⟨he, rfl⟩
  · obtain ⟨r, whole', hr⟩ := exists_of_argument? he
    obtain rfl : z = ')' :: r := List.append_cancel_left (whole.symm.trans whole')
    have close := ends_lineClose r
    rw [hr] at close
    rw [he]
    exact close
  · have none : Ends grammar false (.text ")") [] none := .text _ _
    rw [he]
    exact none.no_first

/-- The grammar reads the line to its end as a return; `kind` is the text of the ending of its
macro, and `value` that of its expression. -/
def Accepted (line kind value : Text) : Prop :=
  ∃ mark ending expr : Found Rule, grammar.Parses .returnLine line [mark, expr] ∧
    Reads grammar true (grammar.body .returnMacro) mark.here (some ([ending], mark.rest)) ∧
    mark.value = .returnMacro ∧ ending.part = (.returnKind, kind) ∧
    expr.part = (.returnExpr, value)

/-- The grammar reads the mark of a return macro, with its kind. -/
theorem reads_mark {s kind r : Text} (h : mark s = some (kind, r)) : ∃ ending,
    Reads grammar true (grammar.body .returnMacro) s (some ([ending], r)) ∧
      ending.part = (.returnKind, kind) := by
  obtain ⟨_, s₁, hw, h⟩ := bind_eq_some.mp h
  obtain ⟨kind', s₂, hk, h⟩ := bind_eq_some.mp h
  obtain ⟨_, s₃, hp, h⟩ := bind_eq_some.mp h
  obtain ⟨rfl, rfl⟩ := pure_eq_some.mp h
  have read : Reads grammar true (.rule .returnKind) s₁ (some ([⟨.returnKind, s₁, s₂⟩], s₂)) := by
    have read := agrees_returnKind s₁
    rw [hk] at read
    exact read.reads_rule
  have look : Reads grammar true (.ahead (.inOrder [Rule.blanks, .text "("])) s₂
      (some ([], s₃)) := by
    have look := agrees_parenAhead s₂
    rw [hp] at look
    obtain ⟨x, ahead⟩ := look.reads_some
    cases ahead with
    | ahead paren => exact .ahead paren
  have opening : Text.after? "PG_RETURN_" s = some s₁ := after?_eq_some.mpr (exactly_eq_some.mp hw)
  refine ⟨⟨.returnKind, s₁, s₂⟩, (Reads.text opening).next (read.both look), ?_⟩
  obtain ⟨-, first, rest⟩ := run1_eq_some.mp hk
  have whole : s₁ = kind' ++ s₂ := by rw [← first, ← rest, List.takeWhile_append_dropWhile]
  rw [Found.part, Found.text, whole, upTo_append_self]

/-- What is recognised is a return line in the grammar. -/
theorem accepted_of_lineForm {line kind value r : Text}
    (h : lineForm line = some ((kind, value), r)) :
    ∃ e, value = trim e ∧ Accepted line kind e := by
  obtain ⟨rfl, s, t, e, hm, hp, he, rfl⟩ := lineForm_eq_some_iff.mp h
  obtain ⟨z, expr, stop⟩ := ends_returnExpr (t := false) (t.dropWhile isLayout)
  obtain ⟨r, whole, hr⟩ := exists_of_argument? he
  obtain rfl : z = ')' :: r := by
    rcases stop with ⟨e', he', whole'⟩ | ⟨none, -⟩
    · obtain rfl : e = e' := by simpa using he.symm.trans he'
      exact List.append_cancel_left (whole'.symm.trans whole)
    · rw [he] at none
      cases none
  have marked : Reads grammar false (.rule .returnMacro) (line.dropWhile isLayout)
      (some ([⟨.returnMacro, line.dropWhile isLayout, s⟩], s)) := by
    have read := agrees_mark line
    have behind : (do layout; mark : Scan Text) line = some (kind, s) := hm
    rw [behind] at read
    exact read.reads_rule
  obtain ⟨ending, inner, kindPart⟩ := reads_mark hm
  have closed := ends_lineClose r
  rw [if_pos hr] at closed
  obtain ⟨x, close⟩ := closed.reads_some
  obtain rfl : x = [] := List.eq_nil_iff_forall_not_mem.mpr fun f hf =>
    List.not_mem_nil (close.mem_rules hf)
  refine ⟨e, rfl, ⟨.returnMacro, line.dropWhile isLayout, s⟩, ending,
    ⟨.returnExpr, t.dropWhile isLayout, ')' :: r⟩, ?_, inner, rfl, kindPart, ?_⟩
  · exact (Reads.text rfl).next <| marked.next <| (Reads.text (after?_eq_some.mpr hp)).next <|
      expr.reads_rule.next close
  · rw [Found.part, Found.text, whole, upTo_append_self]

/-- **A line is recognised where the grammar reads it as a return.** -/
theorem ofLine?_eq_some_iff {line kind value : Text} : ofLine? line = some (kind, value) ↔
    ∃ e, Accepted line kind e ∧ trim e = value := by
  constructor
  · intro h
    obtain ⟨⟨_, r⟩, h, rfl⟩ := Option.map_eq_some_iff.mp h
    obtain ⟨e, rfl, accepted⟩ := accepted_of_lineForm h
    exact ⟨e, accepted, rfl⟩
  · rintro ⟨e, ⟨mark, ending, expr, parses, inner, -, hk, he⟩, rfl⟩
    have members := agrees_lineForm line
    cases h : lineForm line with
    | none =>
      rw [h] at members
      have none : Reads grammar false (grammar.body .returnLine) line none :=
        ((Ends.text [] line).next members).reads_none
      cases parses.unique none
    | some v =>
      obtain ⟨⟨kind', value'⟩, r⟩ := v
      obtain ⟨e', rfl, mark', ending', expr', parses', inner', -, hk', he'⟩ :=
        accepted_of_lineForm h
      obtain ⟨rfl, rfl⟩ : mark = mark' ∧ expr = expr' := by simpa using parses.unique parses'
      obtain rfl : ending = ending' := by simpa using inner.unique inner'
      rw [hk] at hk'
      rw [he] at he'
      cases hk'
      cases he'
      rw [ofLine?, h]
      rfl

/-! ### Lines as they are written -/

theorem matched_of_gap {a : Text} (h : IsGap a) : Matched a :=
  matched_of_plain fun c hc => nesting_of_flat (isFlat_of_isLayout (h c hc))

/-- A return line with a matched expression. -/
theorem ofLine?_line (f : Frame) {kind i e j : Text} (hk : IsKind kind) (hi : IsGap i)
    (hj : IsGap j) (he : Matched e) :
    ofLine? (f.line kind (i ++ (e ++ j))) = some (kind, trim e) := by
  set inner := i ++ (e ++ j) with hinner
  have parts := List.takeWhile_append_dropWhile (p := isLayout) (l := inner)
  have matched : Matched (inner.dropWhile isLayout) := by
    have whole : Matched inner :=
      (matched_append (matched_of_gap hi)).mpr ((matched_append he).mpr (matched_of_gap hj))
    rw [← parts] at whole
    exact (matched_append (matched_of_gap (isGap_takeWhile inner))).mp whole
  have trimmed : trim e = trim (inner.dropWhile isLayout) := calc
    trim e = trim inner := by
      rw [hinner, trim_blank_append (isBlank_of_gap hi), trim_append_blanks (isBlank_of_gap hj)]
    _ = trim (inner.takeWhile isLayout ++ inner.dropWhile isLayout) := by rw [parts]
    _ = trim (inner.dropWhile isLayout) :=
      trim_blank_append (isBlank_of_gap (isGap_takeWhile inner)) _
  have front : (f.line kind inner).dropWhile isLayout =
      "PG_RETURN_" ++ (kind ++ (f.between ++ '(' :: (inner ++ ')' :: f.ending))) := by
    rw [Frame.line_eq, dropWhile_gap f.left_gap]
    rfl
  have inside : (inner ++ ')' :: f.ending).dropWhile isLayout =
      inner.dropWhile isLayout ++ ')' :: f.ending := by
    rw [List.dropWhile_append]
    split
    · next none => rw [List.isEmpty_iff.mp none]; rfl
    · rfl
  have closes : closing? 0 (inner.dropWhile isLayout ++ ')' :: f.ending) =
      some (inner.dropWhile isLayout, f.ending) :=
    closing?_eq_some_iff.mpr ⟨rfl, matched.1, by simpa using matched.2⟩
  have form : lineForm (f.line kind inner) = some ((kind, trim e), []) := by
    refine lineForm_eq_some_iff.mpr ⟨rfl, f.between ++ '(' :: (inner ++ ')' :: f.ending),
      inner ++ ')' :: f.ending, inner.dropWhile isLayout, ?_, ?_, ?_, trimmed⟩
    · rw [front]
      exact mark_eq_some_iff.mpr ⟨hk, rfl, f.between, _, f.between_gap, rfl⟩
    · rw [dropWhile_gap f.between_gap]
      rfl
    · rw [inside]
      exact argument?_of_closing? closes f.endsLine_ending
  rw [ofLine?, form]
  rfl

/-- **Return lines are recognised exactly.**  With an ending that is no empty word of capitals,
digits and underscores and a matched expression, a return line gives this ending and the trimmed
expression, whatever layout stands at its ends and around its parentheses, with a semicolon or
without.  A line that is recognised is such a line with some text between the parentheses, of which
the expression is the trim.  And the lines that are recognised are those that the grammar reads as
returns. -/
theorem recognised_exactly :
    (∀ (f : Frame) (kind i e j : Text), IsKind kind → IsGap i → IsGap j → Matched e →
      ofLine? (f.line kind (i ++ (e ++ j))) = some (kind, trim e)) ∧
    (∀ line kind value, ofLine? line = some (kind, value) →
      IsKind kind ∧ ∃ (f : Frame) (e : Text), line = f.line kind e ∧ trim e = value) ∧
    ∀ line kind value, ofLine? line = some (kind, value) ↔
      ∃ e, Accepted line kind e ∧ trim e = value :=
  ⟨fun f _ _ _ _ hk hi hj he => ofLine?_line f hk hi hj he, fun _ _ _ => exists_frame,
    fun _ _ _ => ofLine?_eq_some_iff⟩

/-- A closing parenthesis that ends no line belongs to the expression. -/
example : ofLine? "PG_RETURN_INT32(a)b)" = some ("INT32".toList, "a)b".toList) := by cbv

/-- A frame with a blank at every place. -/
def roomy : Frame where
  left := [' ']
  between := ['\t']
  behind := [' ']
  semicolon := true
  right := ['\r', '\n']

/-- The theorem for a line with a call in that frame. -/
theorem recognised_exactly_of_roomy :
    ofLine? " PG_RETURN_INT32\t( f(a, (b)) ) ;\r\n" =
      some ("INT32".toList, "f(a, (b))".toList) ∧
    (∃ e, Accepted " PG_RETURN_INT32\t( f(a, (b)) ) ;\r\n" "INT32" e ∧
      trim e = "f(a, (b))".toList) ∧
    ∃ (f : Frame) (e : Text), (" PG_RETURN_INT32\t( f(a, (b)) ) ;\r\n".toList : Text) =
      f.line "INT32" e ∧ trim e = "f(a, (b))".toList := by
  obtain ⟨reads, written, accepted⟩ := recognised_exactly
  have kind : IsKind "INT32" := ⟨by decide, List.all_eq_true.mp (by decide)⟩
  have space : IsGap [' '] := by simp [IsGap, isLayout]
  have read := reads roomy "INT32" [' '] "f(a, (b))" [' '] kind space space (by decide)
  have line : roomy.line "INT32" ([' '] ++ ("f(a, (b))" ++ [' '])) =
      " PG_RETURN_INT32\t( f(a, (b)) ) ;\r\n".toList := by decide +kernel
  have value : trim "f(a, (b))" = "f(a, (b))".toList := by decide +kernel
  rw [line, value] at read
  exact ⟨read, (accepted _ _ _).mp read, (written _ _ _ read).2⟩

end Return

end VectorWrap
