import VectorWrap.Code.Trivia
import VectorWrap.Declaration.Basic

/-!
# Statements of a declaration script

The statements that say something about functions, and the section marks between them. Keywords
have no letter case, layout may stand between any two tokens, and a statement that does not follow
its form to the end is not read at all.

The forms are tried in one order at every place that the sweep comes to (`form`), and where none of
them reads, a gap or a single character is passed over. So one statement that cannot be read costs
nothing but itself, but for a line comment, whose text the gap takes with all that follows.
-/

namespace VectorWrap

/-- A statement of a script, its parts not yet interpreted. -/
inductive Statement where
  /-- A block comment that holds one line, the title of a section. -/
  | mark (label : Text)
  /-- A function, with the text of its parameter list and the symbol as quoted. -/
  | function (name params returnType symbol : Text)
  | cast (source target function args : Text)
  | type (name : Text)
  | operator (symbol : Text) (properties : List (Text × Text))
  deriving DecidableEq, Repr

namespace Statement
open Scan

/-! ### Section marks -/

/-- Reads spaces and tabs. -/
def spaces : Scan Unit := do
  let _ ← run fun c => c == ' ' || c == '\t'

/-- Reads one line break. -/
def lineBreak : Scan Unit :=
  exactly "\n" <|> exactly "\r\n" <|> exactly "\r"

/-- Drops asterisks, but not one that a slash follows. -/
def dropStars : Text → Text
  | [] => []
  | c :: r => if c = '*' ∧ r.head? ≠ some '/' then dropStars r else c :: r

/-- Reads asterisks up to the end of the comment or of their run. -/
def stars : Scan Unit := fun s => some ((), dropStars s)

/-- Reads a section mark: a first line of asterisks, a line with the title after one, and a last
line of asterisks. -/
def markForm : Scan Statement := do
  exactly "/*"
  stars
  spaces
  lineBreak
  spaces
  exactly "*"
  spaces
  let label ← run1 fun c => c != '*' && !isLineBreak c
  spaces
  lineBreak
  spaces
  stars
  exactly "*/"
  pure (.mark (Text.trim label))

/-! ### Statements -/

/-- Reads what opens a statement: `create`, `create or replace` or `declare`. -/
def introducer : Scan Unit :=
  (do keyword "create"; let _ ← orNone do keyword "or"; keyword "replace") <|> keyword "declare"

/-- Reads a quoted text; gives what stands between the quotes. -/
def quoted : Scan Text := do
  symbol "'"
  upTo "'"

/-- Reads a function declaration. -/
def functionForm : Scan Statement := do
  introducer
  keyword "function"
  let name ← ident
  let params ← parenthesised
  keyword "returns"
  let returnType ← ident
  keyword "as"
  let _ ← quoted
  symbol ","
  let symbol ← quoted
  let _ ← upTo ";"
  pure (.function name params returnType symbol)

/-- Reads a cast. -/
def castForm : Scan Statement := do
  introducer
  keyword "cast"
  symbol "("
  let source ← ident
  keyword "as"
  let target ← ident
  symbol ")"
  keyword "with"
  keyword "function"
  let function ← ident
  symbol "("
  let args ← upTo ")"
  let _ ← orNone do keyword "as"; ident
  symbol ";"
  pure (.cast source target function args)

/-- Reads a type, declared or defined. -/
def typeForm : Scan Statement := do
  introducer
  keyword "type"
  let name ← ident
  symbol ";" <|> (do let _ ← parenthesised; symbol ";")
  pure (.type name)

/-- Splits before the first comma or closing parenthesis at top level. -/
def valueEnd? (depth : Nat) : Text → Option (Text × Text)
  | [] => none
  | c :: r =>
      if depth = 0 ∧ (c = ',' ∨ c = ')') then some ([], c :: r)
      else
        let inner := if c = '(' then depth + 1 else if c = ')' then depth - 1 else depth
        (valueEnd? inner r).map fun (a, b) => (c :: a, b)

/-- Reads a property of an operator: a key and a value that is not empty. -/
def property : Scan (Text × Text) := do
  let key ← ident
  symbol "="
  layout
  let value ← (fun s => valueEnd? 0 s : Scan Text)
  guard (value ≠ [])
  pure (Text.lower key, Text.trim value)

/-- Reads an operator. -/
def operatorForm : Scan Statement := do
  introducer
  keyword "operator"
  layout
  let name ← run1 fun c => c != '(' && !Text.isLayout c
  symbol "("
  let first ← property
  let more ← many do symbol ","; property
  symbol ")"
  symbol ";"
  pure (.operator name (first :: more))

/-- Reads a statement or a section mark. -/
def form : Scan Statement :=
  markForm <|> functionForm <|> castForm <|> typeForm <|> operatorForm

/-- What stands between statements: comments, of which a line comment takes the rest of the
script, quoted texts and whole words. -/
def gap : Scan Unit :=
  blockComment <|> lineComment "--" .free
    <|> (do exactly "'"; let _ ← upTo "'")
    <|> (do exactly "$$"; let _ ← upTo "$$")
    <|> (do let _ ← name)

end Statement

end VectorWrap
