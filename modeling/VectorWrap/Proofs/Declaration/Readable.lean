import VectorWrap.Proofs.Declaration.Cuts
import VectorWrap.Proofs.Declaration.Operators
import VectorWrap.Proofs.Declaration.Sections

/-!
# Every text is read as a script

The alternatives of a script read a statement as the form of its kind does, and pass over what the
gap does (`Statement.sweeps`), so the grammar reads every text to its end and calls the statements
that the sweep finds (`Script.reads_every_text`).  Nothing that a reading then cuts out of the text
by byte offsets is cut inside a character.

The order of the alternatives matters at comments.  A mark is itself a comment and is tried first;
any other comment is passed before a statement is tried, so that no statement is found in it, and
the sweep has the same order in its gap.
-/

namespace VectorWrap

namespace Statement
open Scan Rule

/-! ### Rules of statements -/

/-- The rule that reads a statement. -/
def rule : Statement → Rule
  | mark .. => .sectionMark
  | function .. => .createFunction
  | cast .. => .createCast
  | type .. => .createType
  | operator .. => .createOperator

/-- The rules of interest. -/
def isStatement : Rule → Bool
  | .sectionMark | .createFunction | .createCast | .createType | .createOperator => true
  | _ => false

theorem isStatement_rule (v : Statement) : isStatement v.rule = true := by
  cases v <;> rfl

theorem rule_markForm : Gives markForm fun v => v.rule = .sectionMark := by
  unfold markForm
  repeat refine Gives.bind fun _ => ?_
  exact .pure rfl

theorem rule_functionForm : Gives functionForm fun v => v.rule = .createFunction := by
  unfold functionForm
  repeat refine Gives.bind fun _ => ?_
  exact .pure rfl

theorem rule_castForm : Gives castForm fun v => v.rule = .createCast := by
  unfold castForm
  repeat refine Gives.bind fun _ => ?_
  exact .pure rfl

theorem rule_typeForm : Gives typeForm fun v => v.rule = .createType := by
  unfold typeForm
  repeat refine Gives.bind fun _ => ?_
  exact .pure rfl

theorem rule_operatorForm : Gives operatorForm fun v => v.rule = .createOperator := by
  unfold operatorForm
  repeat refine Gives.bind fun _ => ?_
  exact .pure rfl

theorem calls_mark : Calls grammar rule markForm (.rule .sectionMark) :=
  .rule agrees_markForm rule_markForm

/-- A statement calls the rule of its kind. -/
theorem calls_statement :
    Calls grammar rule (functionForm <|> castForm <|> typeForm <|> operatorForm) statement := by
  refine .orElse (.rule agrees_functionForm.after_layout rule_functionForm) ?_
  refine .orElse (.rule agrees_castForm.after_layout rule_castForm) ?_
  exact .orElse (.rule agrees_typeForm.after_layout rule_typeForm)
    (.rule agrees_operatorForm.after_layout rule_operatorForm)

/-! ### Scripts -/

/-- Where a statement is read that is no mark there is no comment. -/
theorem not_comment {c : Char} {s r : Text} {v : Statement} (hc : Text.isLayout c = false)
    (hm : markForm (c :: s) = none) (h : form (c :: s) = some (v, r)) : c ≠ '/' ∧ c ≠ '-' := by
  have letter : Text.inName c = true := by
    rw [← Bool.not_eq_false]
    intro mark
    rw [form_of_mark mark hc, hm] at h
    cases h
  refine ⟨?_, ?_⟩ <;> rintro rfl <;> exact absurd letter (by decide)

/-- **The grammar of scripts reads what the sweep for statements reads.** -/
theorem sweeps : Sweeps grammar isStatement rule part form gap where
  consumes := Peg.consumes_of_solid (show part.solid grammar 2 = true by decide)
  stops := grounded.stops (Peg.consumes_of_solid (show part.solid grammar 2 = true by decide))
    (by decide) false
  suffix_gap := suffix_gap
  wanted_kind := isStatement_rule
  reads_item := by
    intro c s v r hc h
    have bare : Grammar.gap false (c :: s) = c :: s := List.dropWhile_cons_of_neg (by simp [hc])
    have mark := calls_mark (c :: s) bare
    cases hm : markForm (c :: s) with
    | some w =>
      rw [hm] at mark
      rw [form, orElse_of_some hm] at h
      cases h
      exact .alt_left mark
    | none =>
      rw [hm] at mark
      -- a statement begins where neither kind of comment does
      obtain ⟨slash, dash⟩ := not_comment hc hm h
      have block : Ends grammar false (.enclosed "/*" "*/") (c :: s) none :=
        (Ends.no_text slash.symm s).no_first
      have line : Ends grammar false (.lineComment "--") (c :: s) none :=
        (Ends.no_text dash.symm s).no_first
      rw [form, orElse_of_none hm] at h
      have statement := calls_statement (c :: s) bare
      rw [h] at statement
      exact .alt_right mark (.alt_right block.reads_none (.alt_right line.reads_none
        (.alt_left statement)))
  passes := by
    intro c s hc h
    have bare : Grammar.gap false (c :: s) = c :: s := List.dropWhile_cons_of_neg (by simp [hc])
    have mark := calls_mark (c :: s) bare
    have statement := calls_statement (c :: s) bare
    obtain ⟨hm, hs⟩ := orElse_eq_none.mp h
    rw [hm] at mark
    rw [hs] at statement
    have word : Agrees grammar false Scan.ident (.rule .word) := agrees_ident rfl rfl
    refine .skip mark ?_
    refine .orElse (agrees_enclosed "/*" rfl).follows (by decide) bare ?_
    refine .orElse (follows_lineComment "--") (by decide) bare (.skip statement ?_)
    refine .orElse (agrees_enclosed "'" rfl).follows (by decide) bare ?_
    refine .orElse (agrees_enclosed "$$" rfl).follows (by decide) bare ?_
    exact .last (word.follows.map fun _ => ()) (by decide) bare

end Statement

namespace Script
open Statement

/-- **Every text is a script.**  Each rule of the grammar has exactly one outcome on every text, and
no repetition has a turn that reads nothing.  The rule for a file reads every text to the end, and
the statements that it calls, with what was left before and after each, are those that are
interpreted; the byte offsets by which these are taken apart all fall between characters. -/
theorem reads_every_text (file : Option Nat) (source : Text) :
    grammar.Total ∧
      grammar.ReadsAll .file isStatement (fun s => (statements s).map (Found.call rule)) ∧
      cutParse file source = .ok (parse file source) :=
  ⟨grounded.total, sweeps.readsAll rfl, cutParse_eq file source⟩

end Script

end VectorWrap
