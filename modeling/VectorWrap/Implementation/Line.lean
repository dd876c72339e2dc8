import VectorWrap.Text.Basic
import VectorWrap.Text.Identifier

/-!
# Processing lines

The lines of a body that do its work: without comments, joined while a parenthesis is open, and
without bindings, type tags, freeing of argument copies and lone braces. An `if` with its statement
on one line becomes two lines.

Parentheses are counted twice, where lines are joined and where an `if` is split. Both counts are
taken as unbounded. A count that is kept in 32 bits is the same up to 2³¹ parentheses that are open
at one place, hence in every body of less than two gibibytes.
-/

namespace VectorWrap.Line

/-! ### Comments -/

/-- Where in a body a character stands. -/
inductive Region where
  | code
  /-- In a literal closed by `quote`, after a backslash if `escaped`. -/
  | literal (quote : Char) (escaped : Bool)
  /-- In a block comment, after an asterisk if `star`. -/
  | block (star : Bool)
  | line
  deriving DecidableEq, Repr

/-- A text without its comments but with their line feeds; it begins in the given region. -/
def stripFrom : Region → Text → Text
  | _, [] => []
  | .code, '/' :: '*' :: r => stripFrom (.block false) r
  | .code, '/' :: '/' :: r => stripFrom .line r
  | .code, c :: r => c :: stripFrom (if c = '"' ∨ c = '\'' then .literal c false else .code) r
  | .literal q escaped, c :: r =>
      c :: stripFrom (if !escaped ∧ c = q then .code else .literal q (!escaped && c == '\\')) r
  | .block star, c :: r =>
      if c = '\n' then c :: stripFrom (.block false) r
      else stripFrom (if star ∧ c = '/' then .code else .block (c == '*')) r
  | .line, c :: r => if c = '\n' then c :: stripFrom .code r else stripFrom .line r

/-- A text without its comments but with their line feeds. -/
def stripComments (s : Text) : Text :=
  stripFrom .code s

/-! ### Logical lines -/

/-- Adds a character to the count of open parentheses; inside literals none counts. -/
def parenStep : Int × Region → Char → Int × Region
  | (d, .literal q escaped), c =>
      (d, if !escaped ∧ c = q then .code else .literal q (!escaped && c == '\\'))
  | (d, region), c =>
      if c = '"' ∨ c = '\'' then (d, .literal c false)
      else if c = '(' then (d + 1, region)
      else if c = ')' then (d - 1, region)
      else (d, region)

/-- How many more parentheses a line opens than it closes. -/
def parenBalance (line : Text) : Int :=
  (line.foldl parenStep (0, .code)).1

/-- Joins lines by single spaces as long as a parenthesis is open; `pending` is what has been
joined so far, with `depth` parentheses open. -/
def joinFrom (pending : Text) (depth : Int) : List Text → List Text
  | [] => if pending.isEmpty then [] else [pending]
  | t :: ts =>
      let joined := if pending.isEmpty then t else pending ++ ' ' :: t
      let open' := depth + parenBalance t
      if open' ≤ 0 then joined :: joinFrom [] 0 ts else joinFrom joined open' ts

/-- The logical lines of a body. -/
def logical (body : Text) : List Text :=
  joinFrom [] 0
    (((Text.splitBy (· == '\n') (stripComments body)).map Text.trim).filter (!·.isEmpty))

/-! ### Lines that are dropped or split -/

/-- Is a brace. -/
def isBrace (c : Char) : Bool :=
  c == Char.ofNat 0x7B || c == Char.ofNat 0x7D

/-- A text without blanks, then without braces, then without blanks at its ends. -/
def unbrace (s : Text) : Text :=
  Text.trim (Text.trimBy isBrace s)

/-- What begins the line that asks for the type of an argument. -/
def typeTagMark : Text := "meosType basetype ="

/-- The variable of that line. -/
def typeTagVar : Text := "basetype"

/-- Does no work of its own: empty, or a binding, a type tag or the freeing of an argument copy. -/
def isIdle (line : Text) : Bool :=
  line.isEmpty || line == [';'] || Text.contains "PG_GETARG_" line ||
    Text.contains typeTagMark line || "PG_FREE_IF_COPY".toList.isPrefixOf line

/-- Splits a text after the parenthesis at which the count of open ones comes back to zero. Quotes
have no meaning here. -/
def afterGroup? (depth : Int) : Text → Option (Text × Text)
  | [] => none
  | c :: r =>
      if c = ')' ∧ depth = 1 then some ([c], r)
      else
        let inner := if c = '(' then depth + 1 else if c = ')' then depth - 1 else depth
        (afterGroup? inner r).map fun (a, b) => (c :: a, b)

/-- The head and the statement of an `if` that has both on one line. -/
def splitIf? (line : Text) : Option (Text × Text) := do
  let rest ← Text.after? "if" line
  guard !((rest.head?.map Text.inName).getD false)
  let (group, tail) ← afterGroup? 0 (rest.dropWhile (· != '('))
  let statement := unbrace (Text.trim tail)
  guard !statement.isEmpty
  pure ("if" ++ rest.takeWhile (· != '(') ++ group, statement)

/-- The processing lines of a logical line. -/
def working (line : Text) : List Text :=
  let t := unbrace line
  if isIdle t then []
  else
    match splitIf? t with
    | some (head, statement) => [head, statement]
    | none => [t]

/-- The processing lines of a body. -/
def ofBody (body : Text) : List Text :=
  (logical body).flatMap working

end VectorWrap.Line
