import VectorWrap.Text.Basic

/-!
# Splitting at top-level commas

A comma separates two parts when as many parentheses have been closed as opened before it. The
count is signed: after a surplus `)` no comma separates until it is made good.

The count is taken as unbounded. One that is kept in 32 bits is the same up to 2³¹ parentheses that
are open, or closed without having been opened, at one place; that takes a text of two gibibytes.
-/

namespace VectorWrap.Text

/-- What a character adds to the number of open parentheses. -/
def nesting (c : Char) : Int :=
  if c = '(' then 1 else if c = ')' then -1 else 0

/-- The pieces between the commas at which `depth` is back to zero. -/
def topPieces (depth : Int) : Text → List Text
  | [] => [[]]
  | c :: r =>
      if c = ',' ∧ depth = 0 then [] :: topPieces depth r
      else
        match topPieces (depth + nesting c) r with
        | [] => [[c]]
        | t :: ts => (c :: t) :: ts

/-- The trimmed pieces between top-level commas, without the empty ones. -/
def splitTopLevel (s : Text) : List Text :=
  ((topPieces 0 s).map trim).filter (!·.isEmpty)

end VectorWrap.Text
