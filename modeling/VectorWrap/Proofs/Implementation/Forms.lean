import VectorWrap.Proofs.Implementation.Bodies
import VectorWrap.Proofs.Implementation.Bindings
import VectorWrap.Proofs.Implementation.Literals

/-!
# The things of interest in the grammar of native sources

The items of a file and what is searched for in a body are read as the rules for them say, member by
member.  A body is read to the brace that closes it, or to a place where none can be closed any
more (`BodyEnd`); a type is read token by token, each after a look for the variable that ends it.

Braces are like the parentheses of a group, but comments and literals are passed between them, as in
a sweep; so the scanner that counts braces has the same steps as the grammar's rule, which calls
itself for the braces inside (`ends_bodyParts`).
-/

namespace VectorWrap

namespace Implementation
open Scan Rule NativeSource

/-! ### Bodies -/

theorem readsOne_body : ReadsOne grammar true
    (.inOrder [.absent (.oneOf [.text "\x7b", .text "\x7d"]), .any])
    (fun c => c != '\x7b' && c != '\x7d') :=
  ((Detects.char '\x7b').alt (.char '\x7d')).readsOne (by simp [bne])

theorem isBrace_of_ne {c : Char} (ho : c ≠ '\x7b') (hc : c ≠ '\x7d') :
    Line.isBrace c = false := by
  simp only [Line.isBrace, Bool.or_eq_false_iff, beq_eq_false_iff_ne]
  exact ⟨ho, hc⟩

/-- Where no group, comment or literal begins, a part of a body is a character. -/
theorem bodyPart_of_char {s : Text} {o : Option Text} (plain : trivia .exact s = none)
    (opened : Ends grammar true (.text "\x7b") s none)
    (char : Ends grammar true
      (.inOrder [.absent (.oneOf [.text "\x7b", .text "\x7d"]), .any]) s o) :
    Ends grammar true bodyPart s o := by
  have group : Ends grammar true (.rule .braceGroup) s none := .call rfl opened.no_first
  exact ends_no_trivia plain (group.alt_right char)

/-- One step through a body, at every depth, where no brace stands. -/
theorem exists_bodyPart {c : Char} (hb : Line.isBrace c = false) (s : Text) :
    ∃ r, Ends grammar true bodyPart (c :: s) (some r) ∧ r.length < (c :: s).length ∧
      ∀ d, closeBody? d (c :: s) = closeBody? d r := by
  have solid : bodyPart.solid grammar 2 = true := by decide
  cases h : trivia .exact (c :: s) with
  | some v =>
    obtain ⟨u, r⟩ := v
    have part : Ends grammar true bodyPart (c :: s) (some r) := ends_trivia h
    obtain ⟨_, k⟩ := part.reads_some
    have shorter := Peg.consumes_of_solid solid k
    exact ⟨r, part, shorter, closeBody?_trivia hb h shorter⟩
  | none =>
    have plain : c ≠ '\x7b' ∧ c ≠ '\x7d' := by
      simpa only [Line.isBrace, Bool.or_eq_false_iff, beq_eq_false_iff_ne] using hb
    have char := readsOne_body (c :: s) rfl
    rw [Scan.one, if_pos (by simp [plain.1, plain.2])] at char
    exact ⟨s, bodyPart_of_char h (.no_text plain.1.symm s) char, Nat.lt_succ_self _,
      closeBody?_char hb h⟩

theorem closeBody?_nil (d : Nat) : closeBody? d [] = none := by
  rw [closeBody?.eq_def]

/-- An inner body is closed before the outer one. -/
theorem closeBody?_add (k d : Nat) (s : Text) :
    closeBody? (k + 1 + d) s = (closeBody? k s).bind (closeBody? d) := by
  induction hn : s.length using Nat.strong_induction_on generalizing k s with
  | _ n ih =>
    cases s with
    | nil =>
      rw [closeBody?_nil, closeBody?_nil]
      rfl
    | cons c s =>
      have later : s.length < n := hn ▸ Nat.lt_succ_self _
      by_cases ho : c = '\x7b'
      · subst ho
        rw [closeBody?_open, closeBody?_open, ← ih _ later (k + 1) s rfl, Nat.add_right_comm,
          Nat.add_right_comm k 1 1]
      by_cases hc : c = '\x7d'
      · subst hc
        cases k with
        | zero =>
          rw [Nat.zero_add, Nat.add_comm, closeBody?_close_succ, closeBody?_close]
          rfl
        | succ k =>
          rw [closeBody?_close_succ, Nat.add_right_comm (k + 1), closeBody?_close_succ,
            ← ih _ later k s rfl, Nat.add_right_comm]
      obtain ⟨r, -, hr, same⟩ := exists_bodyPart (isBrace_of_ne ho hc) s
      rw [same, same, ih _ (hn ▸ hr) k r rfl]

theorem closeBody?_succ (d : Nat) (s : Text) :
    closeBody? (d + 1) s = (closeBody? 0 s).bind (closeBody? d) := by
  rw [← closeBody?_add, Nat.zero_add, Nat.add_comm]

/-- Where a reading of a body comes to a stop. -/
def BodyEnd (s z : Text) : Prop :=
  match closeBody? 0 s with
  | some r => z = '\x7d' :: r
  | none => z = [] ∨ z.head? = some '\x7b'

/-- The brace is read where a body is closed. -/
theorem BodyEnd.close {t : Bool} {s z : Text} (h : BodyEnd s z) :
    Ends grammar t (.text "\x7d") (Grammar.gap t z) (closeBody? 0 s) := by
  unfold BodyEnd at h
  split at h
  · next r hr =>
    have stay : Grammar.gap t ('\x7d' :: r) = '\x7d' :: r := by cases t <;> rfl
    rw [hr, h, stay]
    exact .char _ r
  · next hr =>
    rw [hr]
    rcases h with rfl | h
    · cases t <;> exact .text _ _
    · obtain ⟨r, rfl⟩ := List.head?_eq_some_iff.mp h
      have stay : Grammar.gap t ('\x7b' :: r) = '\x7b' :: r := by cases t <;> rfl
      rw [stay]
      exact .no_text (by decide) r

/-- A group ends behind the brace that closes it. -/
theorem ends_brace {t : Bool} {s : Text}
    (h : ∃ z, Ends grammar true (.star bodyPart) s (some z) ∧ BodyEnd s z) :
    Ends grammar t (.rule .braceGroup) ('\x7b' :: s) (closeBody? 0 s) := by
  obtain ⟨z, h, hz⟩ := h
  exact .call rfl ((Ends.char '\x7b' s).next (h.both hz.close))

/-- A brace that opens is passed over with its group, if bodies are read to their ends behind it; a
reading stops at one that is never closed. -/
theorem bodyPart_open {s : Text}
    (behind : ∃ z, Ends grammar true (.star bodyPart) s (some z) ∧ BodyEnd s z) :
    Ends grammar true bodyPart ('\x7b' :: s) none ∧ BodyEnd ('\x7b' :: s) ('\x7b' :: s) ∨
      ∃ r, Ends grammar true bodyPart ('\x7b' :: s) (some r) ∧
        r.length < ('\x7b' :: s).length ∧ ∀ z, BodyEnd r z → BodyEnd ('\x7b' :: s) z := by
  have plain : trivia .exact ('\x7b' :: s) = none :=
    trivia_eq_none (by decide) fun h => absurd h.1 (by decide)
  have group : Ends grammar true (.rule .braceGroup) ('\x7b' :: s) (closeBody? 0 s) :=
    ends_brace behind
  have rest : closeBody? 0 ('\x7b' :: s) = (closeBody? 0 s).bind (closeBody? 0) := by
    rw [closeBody?_open, closeBody?_succ]
  cases h : closeBody? 0 s with
  | some r =>
    rw [h] at group rest
    have part : Ends grammar true bodyPart ('\x7b' :: s) (some r) :=
      ends_no_trivia plain group.alt_left
    have solid : bodyPart.solid grammar 2 = true := by decide
    obtain ⟨_, k⟩ := part.reads_some
    refine .inr ⟨r, part, Peg.consumes_of_solid solid k, fun z hz => ?_⟩
    rw [BodyEnd, rest]
    exact hz
  | none =>
    rw [h] at group rest
    refine .inl ⟨ends_no_trivia plain (group.alt_right (readsOne_body ('\x7b' :: s) rfl)), ?_⟩
    rw [BodyEnd, rest]
    exact .inr rfl

/-- **Parts of a body are read to the brace that closes it**, or, if there is none, to the end of
the text or to a brace that is never closed. -/
theorem ends_bodyParts (s : Text) :
    ∃ z, Ends grammar true (.star bodyPart) s (some z) ∧ BodyEnd s z := by
  refine Ends.star_of_step (t := true) (P := BodyEnd) (fun s _ shorter => ?_) rfl
  have char := readsOne_body s rfl
  cases s with
  | nil =>
    refine .inl ⟨bodyPart_of_char rfl (.text _ _) char, ?_⟩
    rw [BodyEnd, closeBody?_nil]
    exact .inl rfl
  | cons c s =>
    by_cases ho : c = '\x7b'
    · subst ho
      exact bodyPart_open (shorter s (Nat.lt_succ_self _) rfl)
    by_cases hc : c = '\x7d'
    · subst hc
      have plain : trivia .exact ('\x7d' :: s) = none :=
        trivia_eq_none (by decide) fun h => absurd h.1 (by decide)
      refine .inl ⟨bodyPart_of_char plain (.no_text (by decide) s) char, ?_⟩
      rw [BodyEnd, closeBody?_close]
    · obtain ⟨r, part, hr, same⟩ := exists_bodyPart (isBrace_of_ne ho hc) s
      refine .inr ⟨r, part, hr, fun z hz => ?_⟩
      rw [BodyEnd, same]
      exact hz

/-- **A body in braces.** -/
theorem agrees_bodyForm : Agrees grammar false bodyForm
    (.inOrder [.text "\x7b", .rule .bodyText, .text "\x7d"]) := by
  refine (agrees_symbol "\x7b").next fun _ s => ?_
  obtain ⟨z, parts, hz⟩ := ends_bodyParts (Grammar.gap false s)
  have body : Ends grammar false (.rule .bodyText) (Grammar.gap false s) (some z) :=
    .call rfl parts
  have rest : ((do layout
                   fun s => (closeBody? 0 s).map fun r => ((Text.upTo s r).dropLast, r) : Scan Text)
      s).map Prod.snd = closeBody? 0 (Grammar.gap false s) := by
    show ((closeBody? 0 (Grammar.gap false s)).map fun r => (_, r)).map Prod.snd = _
    rw [Option.map_map]
    exact congrFun Option.map_id _
  rw [rest]
  exact body.both hz.close

/-! ### Items -/

theorem agrees_word_of {w : Text} (hw : w.all Text.inName = true) :
    Agrees grammar false (exactWord w) (.rule (.keyword w)) :=
  agrees_exactWord rfl rfl hw

theorem agrees_nameRule : Agrees grammar false Scan.ident (.rule .ident) :=
  agrees_ident rfl rfl

theorem agrees_argsForm : Agrees grammar false argsForm argsExpr :=
  (agrees_symbol "(").next fun _ => (agrees_symbol "PG_FUNCTION_ARGS").both fun _ =>
    agrees_symbol ")"

/-- **The export of a function.** -/
theorem agrees_exportForm : Agrees grammar false exportForm (.rule .exportDecl) := by
  refine Agrees.rule ?_ rfl
  refine (agrees_word_of (by decide)).next fun _ => (agrees_word_of (by decide)).next fun _ => ?_
  exact agrees_nameRule.next fun name => agrees_argsForm.next fun _ => (agrees_symbol ";").map _

/-- **The definition of a function.** -/
theorem agrees_definitionForm : Agrees grammar false definitionForm (.rule .functionDef) := by
  refine Agrees.rule ?_ rfl
  refine (agrees_word_of (by decide)).next fun _ => agrees_nameRule.next fun name => ?_
  exact agrees_argsForm.next fun _ => agrees_bodyForm.map _

/-! ### Bindings -/

theorem agrees_blanks : Agrees grammar true layout blanks :=
  (agrees_run (readsOne_one Text.isLayout)).map fun _ => ()

theorem symbol_bind {α : Type} (w : Text) (q : Unit → Scan α) :
    (Scan.symbol w >>= q) = layout >>= fun _ => exactly w >>= q := by
  rw [Scan.symbol, bind_assoc]

/-- The fetch of an argument. -/
theorem agrees_fetch : Agrees grammar false (do layout; ArgSlot.fetch) (.rule .getarg) := by
  have kind : Agrees grammar true (run1 ArgSlot.inKind) (.rule .getargKind) :=
    Agrees.rule (agrees_run1 (readsOne_one _)) rfl
  have number : Agrees grammar true (run1 Char.isDigit) (.rule .number) :=
    Agrees.rule (agrees_run1 (readsOne_one _)) rfl
  refine Agrees.layout ?_ rfl
  refine (agrees_exactly "PG_GETARG_").next fun _ => kind.next fun kind => ?_
  rw [symbol_bind]
  refine agrees_blanks.next fun _ => (agrees_exactly "(").next fun _ => ?_
  refine agrees_blanks.next fun _ => number.next fun digits => ?_
  rw [symbol_bind]
  exact agrees_blanks.next fun _ => (agrees_exactly ")").map _

/-- A cast. -/
theorem agrees_castForm : Agrees grammar false ArgSlot.castForm (.rule .cast) := by
  have type : Agrees grammar false (do layout; run1 (· != ')')) (.rule .castText) :=
    Agrees.layout (agrees_run1 ((Detects.char ')').readsOne fun _ => rfl)) rfl
  refine Agrees.rule ?_ rfl
  refine (agrees_symbol "(").next fun _ => Agrees.behind (type.next fun type => ?_)
  exact (agrees_symbol ")").map _

theorem agrees_assignmentMembers : Agrees grammar false ArgSlot.assignment
    (.inOrder [.rule .ident, .text "=", .opt (.rule .cast), .rule .getarg]) := by
  refine agrees_nameRule.next fun var => (agrees_symbol "=").next fun _ => ?_
  refine agrees_castForm.follows.orNone.next fun cast => ?_
  exact Agrees.behind (agrees_fetch.map fun x => (⟨cast, var, x.1, x.2⟩ : ArgSlot.Binding))

/-- **An assignment.** -/
theorem agrees_assignment : Agrees grammar false ArgSlot.assignment (.rule .assignBinding) :=
  Agrees.rule agrees_assignmentMembers rfl

/-! ### Types -/

/-- The variable of a declaration and its equals sign, which are looked for ahead. -/
theorem agrees_variableAhead : Agrees grammar false ArgSlot.variableAhead variableEnd := by
  refine agrees_nameRule.next fun _ => (agrees_symbol "=").next fun _ => ?_
  exact Agrees.absent (agrees_symbol "=")

/-- Behind a look for a variable no layout is left. -/
theorem typeToken_eq : ArgSlot.typeToken = (do
    layout
    absent ArgSlot.variableAhead
    layout
    (do let _ ← run1 Text.inName) <|> exactly "*" <|> exactly "::") := by
  funext s
  have look : absent ArgSlot.variableAhead (Grammar.gap false s) = none ∨
      absent ArgSlot.variableAhead (Grammar.gap false s) = some ((), Grammar.gap false s) := by
    unfold absent
    cases ArgSlot.variableAhead (Grammar.gap false s) <;> simp
  have skip : layout s = some ((), Grammar.gap false s) := rfl
  rw [ArgSlot.typeToken, bind_of_some skip, bind_of_some skip]
  rcases look with h | h
  · rw [bind_of_none h, bind_of_none h]
  · rw [bind_of_some h, bind_of_some h]
    exact congrArg _ (Grammar.gap_gap false s).symm

/-- A token of a type. -/
theorem agrees_typeToken : Agrees grammar false ArgSlot.typeToken
    (.inOrder [.absent variableEnd, .rule .typeToken]) := by
  have token : Agrees grammar false
      (do layout; (do let _ ← run1 Text.inName) <|> exactly "*" <|> exactly "::")
      (.rule .typeToken) := by
    refine Agrees.layout ?_ rfl
    exact ((agrees_run1 (readsOne_one _)).map _).orElse
      ((agrees_exactly "*").orElse (agrees_exactly "::"))
  rw [typeToken_eq]
  exact Agrees.behind ((Agrees.absent agrees_variableAhead.after_layout).both fun _ => token)

/-- A token of a type has a character. -/
theorem shrinks_typeToken {s r : Text} {u : Unit} (h : ArgSlot.typeToken s = some (u, r)) :
    r.length < s.length := by
  have solid : Peg.solid grammar 2 (.inOrder [.absent variableEnd, .rule .typeToken]) = true := by
    decide
  have token := agrees_typeToken s
  rw [h] at token
  obtain ⟨_, k⟩ := token.reads_some
  exact (Peg.consumes_of_solid solid k).trans_le (Grammar.length_gap_le false s)

/-- The type of a declaration, which leaves layout before the variable. -/
theorem follows_typeForm : Follows grammar false ArgSlot.typeForm (.rule .typeSpec) := by
  have tokens := agrees_typeToken.follows.both_follows fun a =>
    (agrees_typeToken.follows.many shrinks_typeToken).map (a :: ·)
  exact Follows.rule (tokens.lexeme.map Text.squeeze) rfl

/-- **A declaration.** -/
theorem agrees_declaration : Agrees grammar false ArgSlot.declaration (.rule .declBinding) := by
  refine Agrees.rule ?_ rfl
  refine follows_typeForm.next fun type => ?_
  exact agrees_assignmentMembers.map _

/-! ### Return macros -/

theorem agrees_returnKind : Agrees grammar true (run1 ArgSlot.inKind) (.rule .returnKind) :=
  Agrees.rule (agrees_run1 (readsOne_one _)) rfl

theorem agrees_parenAhead :
    Agrees grammar true (Scan.ahead (Scan.symbol "(")) (.ahead (.inOrder [blanks, .text "("])) :=
  Agrees.ahead (agrees_blanks.both fun _ => agrees_exactly "(")

/-- **A return macro**, up to its parenthesis. -/
theorem agrees_mark : Agrees grammar false (do layout; Return.mark) (.rule .returnMacro) := by
  refine Agrees.layout ?_ rfl
  refine (agrees_exactly "PG_RETURN_").next fun _ => agrees_returnKind.next fun kind => ?_
  exact agrees_parenAhead.map _

end Implementation

end VectorWrap
