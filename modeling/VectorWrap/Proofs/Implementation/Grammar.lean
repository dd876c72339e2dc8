import VectorWrap.Implementation.Source
import VectorWrap.Proofs.Grammar.Leaves
import VectorWrap.Proofs.Grammar.Sweep

/-!
# The grammar of native sources

One grammar has the rules for the items of a file and those for what is found in a body: fetches of
arguments into variables, with a type or without, return macros, and the line of a return.  A file
and the three searches of a body are read in the same way: a thing of interest, comments, literals
and words, which are passed over, or any character (`Rule.part`).

The turns of its repetitions read at least one character each, and no rule comes back to itself
without having read one (`grounded`), so every rule has an outcome on every text.
-/

namespace VectorWrap

namespace Implementation

/-- The rules of the grammar that are more than a name for an expression. -/
inductive Rule where
  | ident
  | word
  | number
  /-- A word as it is written. -/
  | keyword (w : Text)
  | file
  | exportDecl
  | functionDef
  | bodyText
  | braceGroup
  | getarg
  | getargKind
  | cast
  | castText
  | typeToken
  | typeSpec
  | declBinding
  | assignBinding
  | declScan
  | assignScan
  | returnMacro
  | returnKind
  | macroScan
  | returnLine
  | returnExpr
  | parenGroup
  | callExpr
  | callArgs
  deriving DecidableEq, Repr

namespace Rule
open Peg

/-! ### Expressions that several rules have -/

/-- Layout as a part of a rule that skips none. -/
def blanks : Peg Rule :=
  star (.one Text.isLayout)

/-- The ending of a macro. -/
def kindExpr : Peg Rule :=
  plus (.one ArgSlot.inKind)

/-- A comment. -/
def comment : Peg Rule :=
  oneOf [enclosed "/*" "*/", lineComment "//"]

/-- A literal between two `q`, neither of them escaped by a backslash. -/
def literal (q : Char) : Peg Rule :=
  inOrder [.text [q],
    star (oneOf [inOrder [.text "\\", any], inOrder [.absent (.text [q]), any]]), .text [q]]

/-- A comment, a literal, or something else. -/
def triviaOr (e : Peg Rule) : Peg Rule :=
  oneOf [comment, literal '"', literal '\'', e]

/-- A part of a body. -/
def bodyPart : Peg Rule :=
  triviaOr (oneOf [.rule .braceGroup,
    inOrder [.absent (oneOf [.text "\x7b", .text "\x7d"]), any]])

/-- The parameter list that all native functions have. -/
def argsExpr : Peg Rule :=
  inOrder [.text "(", .text "PG_FUNCTION_ARGS", .text ")"]

/-- What ends a type: the variable and an equals sign that no other follows. -/
def variableEnd : Peg Rule :=
  inOrder [.rule .ident, .text "=", .absent (.text "=")]

/-- What closes the expression of a return line. -/
def lineEnd : Peg Rule :=
  inOrder [.text ")", blanks, opt (.text ";"), blanks, .absent any]

/-- The alternatives of a file: things of interest, and what stands between them. -/
def part (items : Peg Rule) : Peg Rule :=
  oneOf [items, triviaOr (oneOf [.rule .word, any])]

/-! ### Rules -/

/-- The items of a file. -/
def items : Peg Rule :=
  oneOf [.rule .exportDecl, .rule .functionDef]

/-- The expression of a rule. -/
def body : Rule → Peg Rule
  | ident => identifier
  | word => identifier
  | number => plus (.one Char.isDigit)
  | keyword w => inOrder [.text w, .absent (.one Text.inName)]
  | file => Peg.file (part items)
  | exportDecl => inOrder [
      .rule (.keyword "PGDLLEXPORT"), .rule (.keyword "Datum"), .rule .ident, argsExpr, .text ";"]
  | functionDef => inOrder [
      .rule (.keyword "Datum"), .rule .ident, argsExpr, .text "\x7b", .rule .bodyText, .text "\x7d"]
  | bodyText => star bodyPart
  | braceGroup => inOrder [.text "\x7b", star bodyPart, .text "\x7d"]
  | getarg => inOrder [
      .text "PG_GETARG_", .rule .getargKind, blanks, .text "(", blanks, .rule .number, blanks,
      .text ")"]
  | getargKind => kindExpr
  | cast => inOrder [.text "(", .rule .castText, .text ")"]
  | castText => plus (inOrder [.absent (.text ")"), any])
  | typeToken => oneOf [plus (.one Text.inName), .text "*", .text "::"]
  | typeSpec => plus (inOrder [.absent variableEnd, .rule .typeToken])
  | declBinding => inOrder [
      .rule .typeSpec, .rule .ident, .text "=", opt (.rule .cast), .rule .getarg]
  | assignBinding => inOrder [.rule .ident, .text "=", opt (.rule .cast), .rule .getarg]
  | declScan => Peg.file (part (.rule .declBinding))
  | assignScan => Peg.file (part (.rule .assignBinding))
  | returnMacro => inOrder [
      .text "PG_RETURN_", .rule .returnKind, .ahead (inOrder [blanks, .text "("])]
  | returnKind => kindExpr
  | macroScan => Peg.file (part (.rule .returnMacro))
  | returnLine => inOrder [
      .text [], .rule .returnMacro, .text "(", .rule .returnExpr, .text ")", opt (.text ";"),
      .absent any]
  | returnExpr => star (oneOf [.rule .parenGroup, inOrder [.absent lineEnd, any]])
  | parenGroup => inOrder [.text "(", star (groupOrChar .parenGroup), .text ")"]
  | callExpr => inOrder [
      .text [], .rule .ident, .text "(", .rule .callArgs, .text ")", .absent any]
  | callArgs => star (groupOrChar .parenGroup)

/-- No layout is skipped inside the rule. -/
def tight : Rule → Bool
  | file | exportDecl | functionDef | cast | typeSpec | declBinding | assignBinding | declScan
  | assignScan | macroScan | returnLine | callExpr => false
  | _ => true

end Rule

/-- The grammar of native sources. -/
def grammar : Grammar Rule :=
  ⟨Rule.body, Rule.tight⟩

/-! ### The grammar comes to an end -/

/-- A rule calls only rules of lower rank where it begins. -/
def Rule.rank : Rule → Nat
  | .file | .declScan | .assignScan | .macroScan => 3
  | .declBinding => 2
  | .exportDecl | .functionDef | .bodyText | .typeSpec | .assignBinding | .returnLine
  | .returnExpr | .callExpr | .callArgs => 1
  | _ => 0

/-- The grammar is grounded: every repetition reads something in each turn, and the rules have
ranks. -/
theorem grounded : grammar.Grounded 2 Rule.rank where
  turns r := by
    cases r with
    | keyword w => simp [grammar, Rule.body, Peg.inOrder, Peg.turns]
    | _ => decide
  lefts r := by
    cases r with
    | keyword w => simp [grammar, Rule.body, Peg.inOrder, Peg.lefts]
    | _ => decide

end Implementation

end VectorWrap
