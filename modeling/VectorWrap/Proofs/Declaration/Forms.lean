import VectorWrap.Proofs.Declaration.Groups

/-!
# The forms of statements in the grammar of scripts

Member by member, what reads a statement in a script is the rule of the grammar for it: it leaves
the same of every text.  Only behind what opens a statement the two differ in layout, for the
grammar has then looked for a part that may be missing.

The proofs follow the forms from member to member with the lemmas for sequences
(`Follows.next_follows`, `Agrees.next`), each of them naming the leaf that a member is; operators,
of which the properties take an argument of their own, are in `Declaration/Operators.lean`.
-/

namespace VectorWrap

namespace Statement
open Scan Rule

/-! ### Parts of statements -/

theorem agrees_word_of {w : Text} (hw : w.all Text.inName = true) :
    Agrees grammar false (Scan.keyword w) (.rule (.keyword w)) :=
  agrees_keyword rfl rfl hw

/-- The name of a function or a type is read as an identifier. -/
theorem agrees_nameRule : Agrees grammar false Scan.ident (.rule .ident) :=
  agrees_ident rfl rfl

/-- What opens a statement leaves the same but for layout. -/
theorem follows_introducer : Follows grammar false introducer opening := by
  have replace : Agrees grammar false (do Scan.keyword "or"; Scan.keyword "replace")
      (.inOrder [.rule (.keyword "or"), .rule (.keyword "replace")]) :=
    (agrees_word_of (by decide)).both fun _ => agrees_word_of (by decide)
  have create := (agrees_word_of (w := "create") (by decide)).follows.both_follows
    fun _ => replace.follows.orNone.map fun _ => ()
  exact create.orElse (agrees_word_of (by decide)).follows

theorem agrees_quoted : Agrees grammar false quoted (.rule .quoted) :=
  Agrees.layout (p := do exactly "'"; Scan.upTo "'")
    ((agrees_exactly "'").next fun _ => agrees_upTo_rule rfl rfl rfl) rfl

/-! ### Statements -/

/-- **The declaration of a function.** -/
theorem agrees_functionForm : Agrees grammar false functionForm (.rule .createFunction) := by
  refine Agrees.rule ?_ rfl
  refine follows_introducer.next fun _ => (agrees_word_of (by decide)).next fun _ => ?_
  refine agrees_nameRule.next fun name => ?_
  refine (isGroup.agrees_parenthesised rfl rfl).next fun params => ?_
  refine (agrees_word_of (by decide)).next fun _ => ?_
  have returnType : Agrees grammar false Scan.ident (.rule .returnType) :=
    Agrees.layout (Agrees.rule agrees_name rfl) rfl
  refine returnType.next fun type => (agrees_word_of (by decide)).next fun _ => ?_
  refine agrees_quoted.next fun _ => (agrees_symbol ",").next fun _ => ?_
  exact agrees_quoted.next fun symbol => (agrees_upTo (c := ';') rfl).map _

/-- **The declaration of a cast.** -/
theorem agrees_castForm : Agrees grammar false castForm (.rule .createCast) := by
  refine Agrees.rule ?_ rfl
  refine follows_introducer.next fun _ => (agrees_word_of (by decide)).next fun _ => ?_
  refine (agrees_symbol "(").next fun _ => agrees_nameRule.next fun source => ?_
  refine (agrees_word_of (by decide)).next fun _ => agrees_nameRule.next fun target => ?_
  refine (agrees_symbol ")").next fun _ => (agrees_word_of (by decide)).next fun _ => ?_
  refine (agrees_word_of (by decide)).next fun _ => agrees_nameRule.next fun function => ?_
  refine (agrees_symbol "(").next fun _ => (agrees_upTo_rule rfl rfl rfl).next fun args => ?_
  have target : Agrees grammar false (do Scan.keyword "as"; Scan.ident)
      (.inOrder [.rule (.keyword "as"), .rule .ident]) :=
    (agrees_word_of (by decide)).both fun _ => agrees_nameRule
  exact target.follows.orNone.next fun _ => (agrees_symbol ";").map _

/-- **The declaration of a type.** -/
theorem agrees_typeForm : Agrees grammar false typeForm (.rule .createType) := by
  refine Agrees.rule ?_ rfl
  refine follows_introducer.next fun _ => (agrees_word_of (by decide)).next fun _ => ?_
  refine agrees_nameRule.next fun name => ?_
  have members := isGroup.agrees.both fun _ => agrees_symbol ";"
  exact ((agrees_symbol ";").orElse members).map _

/-! ### Section marks -/

/-- A row of asterisks, which leaves the one that ends the comment. -/
theorem agrees_stars : Agrees grammar true stars asterisks := by
  have turn : ∀ s : Text, Ends grammar true (.inOrder [.absent (.text "*/"), .text "*"]) s none ∧
      s = dropStars s ∨
      ∃ r, Ends grammar true (.inOrder [.absent (.text "*/"), .text "*"]) s (some r) ∧
        r.length < s.length ∧ ∀ z, z = dropStars r → z = dropStars s := by
    intro s
    cases s with
    | nil => exact .inl ⟨(Ends.text _ _).absent.both (.text _ _), rfl⟩
    | cons c r =>
      by_cases hc : c = '*'
      · subst hc
        by_cases hr : r.head? = some '/'
        · obtain ⟨q, rfl⟩ := List.head?_eq_some_iff.mp hr
          have ends : Ends grammar true (.text "*/") ('*' :: '/' :: q) (some q) := .text _ _
          exact .inl ⟨ends.no_absent.no_first, by simp [dropStars]⟩
        · have goes : Ends grammar true (.text "*/") ('*' :: r) none := by
            cases r with
            | nil => exact .text _ _
            | cons d r =>
              have other : '/' ≠ d := by
                rintro rfl
                exact hr rfl
              have := Ends.text (g := grammar) (t := true) ['*', '/'] ('*' :: d :: r)
              rwa [Text.after?, if_pos rfl, Text.after?, if_neg other] at this
          refine .inr ⟨r, goes.absent.both (.text _ _), Nat.lt_succ_self _, ?_⟩
          simp [dropStars, hr]
      · refine .inl ⟨(Ends.no_text (Ne.symm hc) r).absent.both (.no_text (Ne.symm hc) r), ?_⟩
        simp [dropStars, hc]
  intro s
  obtain ⟨z, run, rfl⟩ := Ends.star_of_step (t := true) (P := fun s z => z = dropStars s)
    (fun s _ _ => turn s) (s := s) rfl
  exact run

theorem agrees_spaces : Agrees grammar true spaces blanks :=
  (agrees_run (readsOne_one _)).map _

theorem agrees_lineBreak : Agrees grammar true lineBreak .newline :=
  (agrees_exactly "\n").orElse ((agrees_exactly "\r\n").orElse (agrees_exactly "\r"))

/-- A label goes on to an asterisk or the end of the line. -/
theorem readsOne_label : ReadsOne grammar true
    (.inOrder [.absent (.oneOf [.text "*", .newline]), .any])
    (fun c => c != '*' && !isLineBreak c) :=
  ((Detects.char '*').alt detects_newline).readsOne (by simp [bne])

theorem agrees_label : Agrees grammar true (run1 fun c => c != '*' && !isLineBreak c)
    (.rule .sectionLabel) :=
  Agrees.rule (agrees_run1 readsOne_label) rfl

/-- **The mark of a section.** -/
theorem agrees_markForm : Agrees grammar false (do layout; markForm) (.rule .sectionMark) := by
  refine Agrees.layout ?_ rfl
  refine (agrees_exactly "/*").next fun _ => agrees_stars.next fun _ => ?_
  refine agrees_spaces.next fun _ => agrees_lineBreak.next fun _ => ?_
  refine agrees_spaces.next fun _ => (agrees_exactly "*").next fun _ => ?_
  refine agrees_spaces.next fun _ => agrees_label.next fun label => ?_
  refine agrees_spaces.next fun _ => agrees_lineBreak.next fun _ => ?_
  exact agrees_spaces.next fun _ => agrees_stars.next fun _ => (agrees_exactly "*/").map _

end Statement

end VectorWrap
