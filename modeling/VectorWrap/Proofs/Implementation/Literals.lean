import VectorWrap.Proofs.Implementation.Grammar

/-!
# Comments and literals in the grammar of native sources

What a reader of C passes over agrees with the grammar in both of its readings: inside a body, where
every character counts, and between the things of interest of a file, where layout is skipped even
in comments and literals.  A repetition that reads a literal stops at the quote that closes it, or
at the end of the text (`QuoteEnd`).

The two scanners are compared by the characters that they take in one turn.  Outside of a literal a
comment or a literal is one item of the grammar; inside of a literal a turn is one character, or a
backslash and one more (`literalTurn`), and where layout is skipped between the turns it is skipped
behind a backslash too.
-/

namespace VectorWrap

/-- Layout counts, so none is skipped. -/
def Spacing.tight : Spacing → Bool
  | .exact => true
  | .free => false

namespace Implementation
open Scan Rule

/-! ### Literals -/

section Literals

variable {spacing : Spacing} {q c : Char} {s : Text}

/-- A backslash escapes the next character, the layout before it skipped. -/
theorem closeQuote?_escaped (s : Text) : closeQuote? spacing q true s =
    (Grammar.gap spacing.tight s).tail?.bind (closeQuote? spacing q false) := by
  cases spacing with
  | exact => cases s <;> rfl
  | free =>
    induction s with
    | nil => rfl
    | cons c s ih =>
      rw [closeQuote?]
      cases hc : Text.isLayout c with
      | true =>
        have skip : Grammar.gap false (c :: s) = Grammar.gap false s :=
          List.dropWhile_cons_of_pos hc
        exact ih.trans (by rw [Spacing.tight, skip])
      | false =>
        have stay : Grammar.gap false (c :: s) = c :: s :=
          List.dropWhile_cons_of_neg (by simp [hc])
        rw [Spacing.tight, stay]
        rfl

theorem closeQuote?_quote : closeQuote? spacing q false (q :: s) = some s := by
  rw [closeQuote?, if_pos rfl]

theorem closeQuote?_backslash (hq : q ≠ '\\') :
    closeQuote? spacing q false ('\\' :: s) = closeQuote? spacing q true s := by
  rw [closeQuote?, if_neg (Ne.symm hq)]
  rfl

theorem closeQuote?_char (hc : c ≠ q) (he : c ≠ '\\') :
    closeQuote? spacing q false (c :: s) = closeQuote? spacing q false s := by
  rw [closeQuote?, if_neg hc, beq_false_of_ne he]

/-- Layout in a literal closes nothing. -/
theorem closeQuote?_gap (hl : Text.isLayout q = false) (t : Bool) (s : Text) :
    closeQuote? spacing q false (Grammar.gap t s) = closeQuote? spacing q false s := by
  cases t with
  | true => rfl
  | false =>
    induction s with
    | nil => rfl
    | cons c s ih =>
      cases hc : Text.isLayout c with
      | true =>
        have skip : Grammar.gap false (c :: s) = Grammar.gap false s :=
          List.dropWhile_cons_of_pos hc
        have quote : c ≠ q := by
          rintro rfl
          rw [hl] at hc
          cases hc
        have escape : c ≠ '\\' := by
          rintro rfl
          cases hc
        rw [skip, ih, closeQuote?_char quote escape]
      | false => rw [Grammar.gap_loose, List.dropWhile_cons_of_neg (by simp [hc])]

/-- Where a reading of a literal comes to a stop. -/
def QuoteEnd (spacing : Spacing) (q : Char) (s z : Text) : Prop :=
  match closeQuote? spacing q false s with
  | some r => z = q :: r
  | none => z = []

/-- A character of a literal, or a backslash and the character that it escapes. -/
def literalTurn (q : Char) : Peg Rule :=
  .oneOf [.inOrder [.text "\\", .any], .inOrder [.absent (.text [q]), .any]]

variable (hq : q ≠ '\\') (hl : Text.isLayout q = false)
include hq hl

omit hq hl in
/-- A character that is not the quote is read by itself. -/
theorem ends_literalChar (hc : c ≠ q) (hs : Grammar.gap spacing.tight (c :: s) = c :: s) :
    Ends grammar spacing.tight (.inOrder [.absent (.text [q]), .any]) (c :: s) (some s) := by
  have quote : Ends grammar spacing.tight (.text [q]) (c :: s) none := .no_text (Ne.symm hc) s
  exact quote.absent.both (hs.symm ▸ .one rfl s)

/-- A backslash is read with the character that it escapes, or by itself if none follows. -/
theorem literalTurn_backslash (hs : Grammar.gap spacing.tight ('\\' :: s) = '\\' :: s) :
    ∃ r, Ends grammar spacing.tight (literalTurn q) ('\\' :: s) (some r) ∧
      r.length < ('\\' :: s).length ∧
      ∀ z, QuoteEnd spacing q (Grammar.gap spacing.tight r) z →
        QuoteEnd spacing q ('\\' :: s) z := by
  have escape : Ends grammar spacing.tight (.text "\\") ('\\' :: s) (some s) := .text _ _
  have value := @closeQuote?_escaped spacing q s
  cases hg : Grammar.gap spacing.tight s with
  | nil =>
    have last : Ends grammar spacing.tight (.inOrder [.text "\\", .any]) ('\\' :: s) none :=
      escape.both (hg.symm ▸ .no_one (by simp))
    refine ⟨s, last.alt_right (ends_literalChar (Ne.symm hq) hs), Nat.lt_succ_self _,
      fun z hz => ?_⟩
    rw [hg] at hz value
    rw [QuoteEnd, closeQuote?_backslash hq, value]
    exact hz
  | cons d r =>
    have both : Ends grammar spacing.tight (.inOrder [.text "\\", .any]) ('\\' :: s) (some r) :=
      escape.both (hg.symm ▸ .one rfl r)
    have shorter : r.length < ('\\' :: s).length := by
      have := Grammar.length_gap_le spacing.tight s
      rw [hg] at this
      simp only [List.length_cons] at this ⊢
      omega
    refine ⟨r, both.alt_left, shorter, fun z hz => ?_⟩
    rw [QuoteEnd, closeQuote?_gap hl] at hz
    rw [hg] at value
    rw [QuoteEnd, closeQuote?_backslash hq, value]
    exact hz

/-- At each place in a literal a turn is taken or the literal ends. -/
theorem ends_literalTurn (hs : Grammar.gap spacing.tight s = s) :
    Ends grammar spacing.tight (literalTurn q) s none ∧ QuoteEnd spacing q s s ∨
      ∃ r, Ends grammar spacing.tight (literalTurn q) s (some r) ∧ r.length < s.length ∧
        ∀ z, QuoteEnd spacing q (Grammar.gap spacing.tight r) z → QuoteEnd spacing q s z := by
  cases s with
  | nil =>
    have escape : Ends grammar spacing.tight (.text "\\") [] none := .text _ _
    have quote : Ends grammar spacing.tight (.text [q]) [] none := .text _ _
    have char : Ends grammar spacing.tight (.inOrder [.absent (.text [q]), .any]) [] none :=
      quote.absent.both (hs.symm ▸ .no_one (by simp))
    exact .inl ⟨escape.no_first.alt_right char, rfl⟩
  | cons c s =>
    by_cases hc : c = q
    · subst hc
      have quote : Ends grammar spacing.tight (.text [c]) (c :: s) (some s) := .char c s
      have escape : Ends grammar spacing.tight (.text "\\") (c :: s) none :=
        .no_text (Ne.symm hq) s
      refine .inl ⟨escape.no_first.alt_right quote.no_absent.no_first, ?_⟩
      rw [QuoteEnd, closeQuote?_quote]
    by_cases he : c = '\\'
    · subst he
      exact .inr (literalTurn_backslash hq hl hs)
    · have escape : Ends grammar spacing.tight (.text "\\") (c :: s) none :=
        .no_text (Ne.symm he) s
      refine .inr ⟨s, escape.no_first.alt_right (ends_literalChar hc hs), Nat.lt_succ_self _,
        fun z hz => ?_⟩
      rw [QuoteEnd, closeQuote?_gap hl] at hz
      rw [QuoteEnd, closeQuote?_char hc he]
      exact hz

omit hq hl in
/-- A literal is read up to the quote that closes it. -/
theorem literal_quote (s : Text) :
    (Scan.literal spacing q (q :: s)).map Prod.snd = closeQuote? spacing q false s := by
  have quote : one (· == q) (q :: s) = some (q, s) := if_pos (beq_self_eq_true q)
  rw [Scan.literal, bind_of_some quote, Option.map_map]
  exact congrFun Option.map_id _

omit hq hl in
theorem literal_of_ne (hc : c ≠ q) (s : Text) : Scan.literal spacing q (c :: s) = none :=
  bind_of_none (if_neg (by simpa using hc))

/-- **A literal is read to the quote that closes it.** -/
theorem ends_literal (hs : Grammar.gap spacing.tight s = s) :
    Ends grammar spacing.tight (Rule.literal q) s ((Scan.literal spacing q s).map Prod.snd) := by
  cases s with
  | nil => exact (Ends.text [q] []).no_first
  | cons c s =>
    by_cases hc : c = q
    · subst hc
      obtain ⟨z, turns, hz⟩ := Ends.star_of_step (P := QuoteEnd spacing c)
        (fun s hs _ => ends_literalTurn hq hl hs) (Grammar.gap_gap spacing.tight s)
      rw [QuoteEnd, closeQuote?_gap hl] at hz
      rw [literal_quote]
      refine (Ends.char c s).next (turns.both ?_)
      cases h : closeQuote? spacing c false s with
      | none =>
        rw [h] at hz
        rw [hz]
        exact .text _ _
      | some r =>
        rw [h] at hz
        rw [hz]
        exact .char c r
    · rw [literal_of_ne hc]
      exact (Ends.no_text (Ne.symm hc) s).no_first

end Literals

/-! ### Comments -/

theorem agrees_comment :
    Agrees grammar true (blockComment <|> Scan.lineComment "//" .exact) comment :=
  (agrees_enclosed_tight "/*" rfl).orElse (agrees_lineComment "//")

theorem follows_comment :
    Follows grammar false (do layout; blockComment <|> Scan.lineComment "//" .free) comment :=
  (agrees_enclosed "/*" rfl).follows.orElse (follows_lineComment "//")

/-! ### Inside a body -/

theorem trivia_eq (spacing : Spacing) : trivia spacing = ((blockComment <|>
    Scan.lineComment "//" spacing) <|> Scan.literal spacing '"' <|> Scan.literal spacing '\'') := by
  rw [orElse_assoc]
  rfl

variable {e : Peg Rule} {s : Text}

/-- The grammar passes over what a reader of C passes over. -/
theorem ends_trivia {r : Text} {u : Unit} (h : trivia .exact s = some (u, r)) :
    Ends grammar true (triviaOr e) s (some r) := by
  have comment := agrees_comment s
  have double := @ends_literal .exact '"' s (by decide) rfl rfl
  have single := @ends_literal .exact '\'' s (by decide) rfl rfl
  rw [trivia_eq] at h
  rcases orElse_eq_some.mp h with h | ⟨hc, h⟩
  · rw [h] at comment
    exact comment.alt_left
  rw [hc] at comment
  rcases orElse_eq_some.mp h with h | ⟨hd, h⟩
  · rw [h] at double
    exact comment.alt_right double.alt_left
  · rw [hd] at double
    rw [h] at single
    exact comment.alt_right (double.alt_right single.alt_left)

/-- Where there is nothing to pass over, the grammar reads the other choice. -/
theorem ends_no_trivia {o : Option Text} (h : trivia .exact s = none)
    (he : Ends grammar true e s o) :
    Ends grammar true (triviaOr e) s o := by
  have comment := agrees_comment s
  have double := @ends_literal .exact '"' s (by decide) rfl rfl
  have single := @ends_literal .exact '\'' s (by decide) rfl rfl
  rw [trivia_eq] at h
  obtain ⟨hc, h⟩ := orElse_eq_none.mp h
  obtain ⟨hd, hs⟩ := orElse_eq_none.mp h
  rw [hc] at comment
  rw [hd] at double
  rw [hs] at single
  exact comment.alt_right (double.alt_right (single.alt_right he))

/-! ### Between the things of interest -/

theorem codeGap_eq : codeGap = ((blockComment <|> Scan.lineComment "//" .free) <|>
    Scan.literal .free '"' <|> Scan.literal .free '\'' <|> (do let _ ← name)) := by
  simp only [codeGap, trivia_eq, orElse_assoc]

/-- A literal between items is read as the grammar reads it. -/
theorem follows_literal {q : Char} (hq : q ≠ '\\') (hl : Text.isLayout q = false) :
    Follows grammar false (do layout; Scan.literal .free q) (Rule.literal q) :=
  Agrees.follows fun s =>
    @ends_literal .free q (Grammar.gap false s) hq hl (Grammar.gap_gap false s)

/-- What follows a literal is the end of the text. -/
theorem suffix_closeQuote? {spacing : Spacing} {q : Char} {escaped : Bool} {s r : Text}
    (h : closeQuote? spacing q escaped s = some r) : r <:+ s := by
  induction s generalizing escaped with
  | nil => cases escaped <;> cases h
  | cons c s ih =>
    have later {b : Bool} (h : closeQuote? spacing q b s = some r) : r <:+ c :: s :=
      (ih h).trans (List.suffix_cons c s)
    cases escaped with
    | true => exact later h
    | false =>
      rw [closeQuote?] at h
      split_ifs at h
      · cases h
        exact List.suffix_cons c r
      · exact later h

theorem suffix_trivia {spacing : Spacing} {s r : Text} {u : Unit}
    (h : trivia spacing s = some (u, r)) : r <:+ s := by
  have block : Local blockComment :=
    (rigid_exactly _).toLocal.bind fun _ =>
      (closed_upTo (by decide)).toLocal.bind fun _ => (rigid_pure _).toLocal
  have line : Local (Scan.lineComment "//" spacing) := by
    cases spacing <;> exact (rigid_exactly _).toLocal.bind fun _ =>
      (local_run _).bind fun _ => (rigid_pure _).toLocal
  have quoted {q : Char} {s r : Text} {u : Unit} (h : Scan.literal spacing q s = some (u, r)) :
      r <:+ s := by
    cases s with
    | nil => cases h
    | cons c s =>
      by_cases hc : c = q
      · subst hc
        have rest : some r = closeQuote? spacing c false s := by
          rw [← literal_quote, h]
          rfl
        exact (suffix_closeQuote? rest.symm).trans (List.suffix_cons c s)
      · rw [literal_of_ne hc] at h
        cases h
  rw [trivia_eq] at h
  exact suffix_orElse (suffix_orElse block.suffix line.suffix) (suffix_orElse quoted quoted) h

theorem suffix_codeGap {s r : Text} {u : Unit} (h : codeGap s = some (u, r)) : r <:+ s := by
  have word : Local (do let _ ← name : Scan Unit) :=
    local_name.bind fun _ => (rigid_pure _).toLocal
  exact suffix_orElse suffix_trivia word.suffix h

/-- **A search for things of interest is read by the grammar as it is made.** -/
theorem sweeps_of_calls {α : Type} {wanted : Rule → Bool} {kind : α → Rule} {item : Scan α}
    {e : Peg Rule} (hc : Calls grammar kind item e) (hk : ∀ a, wanted (kind a) = true)
    (word : wanted .word = false) (solid : (part e).solid grammar 2 = true)
    (turns : ∀ x ∈ (part e).turns, x.solid grammar 2 = true) :
    Sweeps grammar wanted kind (part e) item codeGap where
  consumes := Peg.consumes_of_solid solid
  stops := grounded.stops (Peg.consumes_of_solid solid) turns false
  suffix_gap := suffix_codeGap
  wanted_kind := hk
  reads_item := by
    intro c s a r hl h
    have bare : Grammar.gap false (c :: s) = c :: s := List.dropWhile_cons_of_neg (by simp [hl])
    have k := hc (c :: s) bare
    rw [h] at k
    exact .alt_left k
  passes := by
    intro c s hl h
    have bare : Grammar.gap false (c :: s) = c :: s := List.dropWhile_cons_of_neg (by simp [hl])
    have k := hc (c :: s) bare
    rw [h] at k
    have name : Agrees grammar false Scan.ident (.rule .word) := agrees_ident rfl rfl
    rw [codeGap_eq]
    refine .skip k (.orElse follows_comment (List.forall_mem_nil _) bare ?_)
    refine .orElse (follows_literal (by decide) rfl) (List.forall_mem_nil _) bare ?_
    refine .orElse (follows_literal (by decide) rfl) (List.forall_mem_nil _) bare ?_
    exact .last (name.follows.map fun _ => ()) (by simpa [Peg.rules] using word) bare

end Implementation

end VectorWrap
