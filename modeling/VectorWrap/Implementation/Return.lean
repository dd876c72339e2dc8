import VectorWrap.Implementation.Slot

/-!
# Return macros

A body gives its result by `PG_RETURN_K(e);`, where the ending `K` says what kind of value it is
and `NULL` that there is none.
-/

namespace VectorWrap.Return
open Scan

/-- The ending of the macro that returns no value. -/
def nullKind : Text := "NULL"

/-- Reads the name of a return macro before its parenthesis; gives its ending. -/
def mark : Scan Text := do
  exactly "PG_RETURN_"
  let kind ← run1 ArgSlot.inKind
  ahead (symbol "(")
  pure kind

/-- The endings of the return macros of a body, in order. -/
def kinds (body : Text) : List Text :=
  (sweep mark codeGap body).map Found.value

/-- The first kind of value that a body returns, and whether it may return none. -/
def summary (body : Text) : Option Text × Bool :=
  ((kinds body).find? (· != nullKind), (kinds body).contains nullKind)

/-! ### Return lines -/

/-- Only layout and at most one semicolon are left. -/
def endsLine (s : Text) : Bool :=
  match s.dropWhile Text.isLayout with
  | [] => true
  | c :: r => c == ';' && (r.dropWhile Text.isLayout).isEmpty

/-- The text before the last parenthesis of a line; `depth` parentheses are open inside it. -/
def argument? (depth : Nat) : Text → Option Text
  | [] => none
  | c :: r =>
      if depth = 0 ∧ c = ')' ∧ endsLine r then some []
      else
        let inner := if c = '(' then depth + 1 else if c = ')' then depth - 1 else depth
        (argument? inner r).map (c :: ·)

/-- Reads the ending of a return macro, the parenthesis and what is in it, to the end of the
line. -/
def lineForm : Scan (Text × Text) := do
  layout
  let kind ← mark
  symbol "("
  layout
  let value ← (fun s => (argument? 0 s).map fun e => (e, []) : Scan Text)
  pure (kind, Text.trim value)

/-- The kind and the expression of a line that is one return statement. -/
def ofLine? (line : Text) : Option (Text × Text) :=
  (lineForm line).map Prod.fst

/-- The line returns no value. -/
def isNull (line : Text) : Bool :=
  match ofLine? line with
  | some (kind, _) => kind == nullKind
  | none => false

end VectorWrap.Return
