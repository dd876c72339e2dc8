import VectorWrap.Declaration.Statement
import VectorWrap.Proofs.Grammar.Leaves
import VectorWrap.Proofs.Grammar.Sweep
import VectorWrap.Proofs.Grammar.Total

/-!
# The grammar of declaration scripts

The rules are those of the grammar of declaration scripts, with the alternatives in its order: the
mark of a section, the statements that are reported, and what stands between them down to any single
character, so that no text is refused.  `grounded` is what the general theory needs to know of it.
-/

namespace VectorWrap

namespace Statement

/-- The rules of the grammar that are more than a name for an expression. -/
inductive Rule where
  | file
  | sectionMark
  | sectionLabel
  | word
  /-- A word in any letter case, given in small letters. -/
  | keyword (w : Text)
  | ident
  | createFunction
  | paramText
  | parenGroup
  | returnType
  | quoted
  | quotedText
  | createCast
  | castArgs
  | createType
  | createOperator
  | opSymbol
  | opAttr
  | opValue
  deriving DecidableEq, Repr

namespace Rule
open Peg

/-! ### Expressions that several rules have -/

/-- Spaces and tabs. -/
def blanks : Peg Rule :=
  star (.one fun c => c == ' ' || c == '\t')

/-- Asterisks, but not one that ends a comment. -/
def asterisks : Peg Rule :=
  star (inOrder [.absent (.text "*/"), .text "*"])

/-- What opens a statement. -/
def opening : Peg Rule :=
  oneOf [
    inOrder [.rule (.keyword "create"),
      opt (inOrder [.rule (.keyword "or"), .rule (.keyword "replace")])],
    .rule (.keyword "declare")]

/-! ### Rules -/

/-- A statement. -/
def statement : Peg Rule :=
  oneOf [.rule .createFunction, .rule .createCast, .rule .createType, .rule .createOperator]

/-- What may stand in a script, in the order in which it is tried. -/
def part : Peg Rule :=
  oneOf [
    .rule .sectionMark,
    .enclosed "/*" "*/",
    .lineComment "--",
    statement,
    .enclosed "'" "'",
    .enclosed "$$" "$$",
    .rule .word,
    any]

/-- The expression of a rule. -/
def body : Rule → Peg Rule
  | file => Peg.file part
  | sectionMark => inOrder [
      .text "/*", asterisks, blanks, newline,
      blanks, .text "*", blanks, .rule .sectionLabel, blanks, newline,
      blanks, asterisks, .text "*/"]
  | sectionLabel => plus (inOrder [.absent (oneOf [.text "*", newline]), any])
  | word => identifier
  | keyword w => inOrder [.letters w, .absent (.one Text.inName)]
  | ident => identifier
  | createFunction => inOrder [
      opening, .rule (.keyword "function"), .rule .ident,
      inOrder [.text "(", .rule .paramText, .text ")"],
      .rule (.keyword "returns"), .rule .returnType, .rule (.keyword "as"),
      .rule .quoted, .text ",", .rule .quoted, before ";", .text ";"]
  | paramText => star (groupOrChar .parenGroup)
  | parenGroup => inOrder [.text "(", star (groupOrChar .parenGroup), .text ")"]
  | returnType => .rule .ident
  | quoted => inOrder [.text "'", .rule .quotedText, .text "'"]
  | quotedText => before "'"
  | createCast => inOrder [
      opening, .rule (.keyword "cast"),
      .text "(", .rule .ident, .rule (.keyword "as"), .rule .ident, .text ")",
      .rule (.keyword "with"), .rule (.keyword "function"), .rule .ident,
      .text "(", inOrder [.rule .castArgs, .text ")"],
      opt (inOrder [.rule (.keyword "as"), .rule .ident]), .text ";"]
  | castArgs => before ")"
  | createType => inOrder [
      opening, .rule (.keyword "type"), .rule .ident,
      oneOf [.text ";", inOrder [.rule .parenGroup, .text ";"]]]
  | createOperator => inOrder [
      opening, .rule (.keyword "operator"), .rule .opSymbol, .text "(", .rule .opAttr,
      star (inOrder [.text ",", .rule .opAttr]), .text ")", .text ";"]
  | opSymbol => plus (inOrder [.absent (oneOf [.text "(", .one Text.isLayout]), any])
  | opAttr => inOrder [.rule .ident, .text "=", .rule .opValue]
  | opValue => plus (oneOf [.rule .parenGroup,
      inOrder [.absent (oneOf [.text ",", .text ")"]), any]])

/-- No layout is skipped inside the rule. -/
def tight : Rule → Bool
  | file | createFunction | createCast | createType | createOperator | opAttr => false
  | _ => true

end Rule

/-- The grammar of declaration scripts. -/
def grammar : Grammar Rule :=
  ⟨Rule.body, Rule.tight⟩

/-! ### The grammar comes to an end -/

/-- A rule calls only rules of lower rank where it begins. -/
def Rule.rank : Rule → Nat
  | .file => 3
  | .createFunction | .createCast | .createType | .createOperator | .opAttr => 2
  | .paramText | .returnType | .opValue => 1
  | _ => 0

/-- The grammar is grounded: every repetition reads something in each turn, and the rules have
ranks. -/
theorem grounded : grammar.Grounded 2 Rule.rank where
  turns r := by
    cases r with
    | keyword w => simp [grammar, Rule.body, Peg.inOrder, Peg.turns]
    | _ => decide
  lefts r := by
    cases r with
    | keyword w => simp [grammar, Rule.body, Peg.inOrder, Peg.lefts]
    | _ => decide

end Statement

end VectorWrap
