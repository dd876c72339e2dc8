import VectorWrap.Implementation.Basic

/-!
# Native sources

A C source is swept for export declarations and function definitions. Each exported symbol is
matched with the first definition of its name; an export without one is dropped.
-/

namespace VectorWrap

/-- What a C source implements. -/
structure NativeSource where
  functions : List Implementation := []
  /-- The exported symbols without a definition. -/
  dropped : List Text := []
  deriving Repr

namespace NativeSource
open Scan

/-- A part of a source that matters. -/
inductive Item where
  | exported (name : Text)
  | defined (name body : Text)
  deriving DecidableEq, Repr

/-! ### Bodies -/

/-- What follows the brace that closes a body; `depth` more are open. Braces in comments and
literals do not count. -/
def closeBody? (depth : Nat) (s : Text) : Option Text :=
  match _h : s with
  | [] => none
  | c :: r =>
      if c = Char.ofNat 0x7B then closeBody? (depth + 1) r
      else if c = Char.ofNat 0x7D then
        match depth with
        | 0 => some r
        | d + 1 => closeBody? d r
      else
        match progress (trivia .exact) s with
        | some (_, ⟨rest, _⟩) => closeBody? depth rest
        | none => closeBody? depth r
termination_by s.length
decreasing_by all_goals simp_all

/-- Reads a body in braces; gives what stands between them, without the layout at its beginning. -/
def bodyForm : Scan Text := do
  symbol [Char.ofNat 0x7B]
  layout
  fun s => (closeBody? 0 s).map fun r => ((Text.upTo s r).dropLast, r)

/-! ### Items -/

/-- Reads the parameter list that all native functions have. -/
def argsForm : Scan Unit := do
  symbol "("
  symbol "PG_FUNCTION_ARGS"
  symbol ")"

/-- Reads an export declaration. -/
def exportForm : Scan Item := do
  exactWord "PGDLLEXPORT"
  exactWord "Datum"
  let name ← ident
  argsForm
  symbol ";"
  pure (.exported name)

/-- Reads a function definition. -/
def definitionForm : Scan Item := do
  exactWord "Datum"
  let name ← ident
  argsForm
  let body ← bodyForm
  pure (.defined name body)

/-- The items of a source. -/
def items (source : Text) : List (Found Item) :=
  sweep (exportForm <|> definitionForm) codeGap source

/-! ### Functions -/

/-- The symbol that an item exports. -/
def exported? (f : Found Item) : Option Text :=
  match f.value with
  | .exported name => some name
  | .defined .. => none

/-- The body that an item gives to a symbol, with where the definition stands. -/
def bodyOf? (file : Option Nat) (source symbol : Text) (f : Found Item) : Option (Text × Span) :=
  match f.value with
  | .defined name body => if name = symbol then some (body, f.span file source) else none
  | .exported _ => none

/-- The functions of a source, in the order of their exports. -/
def parse (file : Option Nat) (source : Text) : Except Fault NativeSource :=
  let found := items source
  (found.filterMap exported?).foldlM (fun (acc : NativeSource) symbol =>
    match found.findSome? (bodyOf? file source symbol) with
    | some (body, span) => do
        let n ← Implementation.ofBody symbol body span
        pure { acc with functions := acc.functions ++ [n] }
    | none => pure { acc with dropped := acc.dropped ++ [symbol] }) {}

end NativeSource

end VectorWrap
