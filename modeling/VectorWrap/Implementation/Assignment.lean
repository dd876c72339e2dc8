import VectorWrap.Text.Identifier
import VectorWrap.Text.Position

/-!
# Assignments

A line `T v = e;` or `v = e;` read apart. The variable is found from the right end of what precedes
the equals sign, one byte after the last character that cannot belong to it; where that character
takes more than one byte the cut falls inside it and the reading is a `Fault`.
-/

namespace VectorWrap

/-- An assignment, with the type if it declares its variable. -/
structure Assignment where
  type? : Option Text
  var : Text
  value : Text
  deriving DecidableEq, Repr

namespace Assignment

/-- Splits at the first equals sign that is no part of a comparison; `before` is the character
before the text. -/
def atEquals? (before : Char) : Text → Option (Text × Text)
  | [] => none
  | c :: r =>
      if c = '=' ∧ r.head? ≠ some '=' ∧ ¬ before ∈ ['=', '!', '<', '>'] then some ([], r)
      else (atEquals? c r).map fun (a, b) => (c :: a, b)

/-- The line without blanks at its ends and without the semicolons at its right end. -/
def body (line : Text) : Text :=
  Text.trim (Text.trimEndBy (· == ';') (Text.trim line))

/-- What precedes the variable at the right end, and the variable. -/
def target (left : Text) : Except Fault (Text × Text) :=
  let var := (left.reverse.takeWhile Text.inName).reverse
  let before := (left.reverse.dropWhile Text.inName).reverse
  match before.getLast? with
  | none => .ok ([], var)
  | some c => if c.utf8Size = 1 then .ok (before, var) else .error .insideCharacter

/-- The assignment that a line is. -/
def ofLine (line : Text) : Except Fault (Option Assignment) :=
  match atEquals? ' ' (body line) with
  | none => .ok none
  | some (l, r) =>
      let left := Text.trim l
      let value := Text.trim r
      if value.isEmpty ∨ '(' ∈ left then .ok none
      else do
        let (before, var) ← target left
        if Text.isName var then
          let type := Text.trim before
          pure (some ⟨if type.isEmpty then none else some (Text.squeeze type), var, value⟩)
        else pure none

end Assignment

end VectorWrap
