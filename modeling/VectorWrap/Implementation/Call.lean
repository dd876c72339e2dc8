import VectorWrap.Scan.Basic
import VectorWrap.Text.Split

/-!
# Calls

The expression that a body returns is a call with its arguments, or else one bare term.
-/

namespace VectorWrap

/-- A call of a function, or a term where no function is named. -/
structure Call where
  name? : Option Text
  args : List Text
  deriving DecidableEq, Repr

namespace Call
open Scan

/-- A term that is no call. -/
def bare (term : Text) : Call :=
  ⟨none, [term]⟩

/-- The name of a bare term that is an identifier. -/
def bareName? (c : Call) : Option Text :=
  match c.name?, c.args with
  | none, [t] => if Text.isName t then some t else none
  | _, _ => none

/-- The call as it is written. -/
def display (c : Call) : Text :=
  match c.name? with
  | some f => f ++ "(" ++ Text.joinWith ", " c.args ++ ")"
  | none => Text.joinWith ", " c.args

/-- Reads a call to the end of the text. -/
def form : Scan Call := do
  let f ← ident
  let args ← parenthesised
  layout
  atEnd
  pure ⟨some f, Text.splitTopLevel args⟩

/-- The call that an expression is. -/
def parse (expression : Text) : Call :=
  let e := Text.trim expression
  match form e with
  | some (c, _) => c
  | none => bare e

end Call

end VectorWrap
