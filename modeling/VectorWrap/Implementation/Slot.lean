import VectorWrap.Code.Trivia

/-!
# Argument slots

A body fetches its arguments by lines such as `T v = (C) PG_GETARG_K(i);`. Two readings find them:
one wants a type before the variable, the other the variable alone; what the first has found the
second does not count again. Slots are listed by argument number, those of one number in the order
in which they were found.

The readings are sweeps over the body (`pass`), each with its own form, and are compared by the
ranges of what they found (`found`). The type of a cast counts more than that of the variable. A
number that does not fit in 64 bits makes no slot.
-/

namespace VectorWrap

/-- An argument fetched into a variable. -/
structure ArgSlot where
  /-- The ending of the fetching macro, such as `TBOX_P` or `INT32`. -/
  kind : Text
  var : Text
  index : Nat
  /-- The type of the cast, or else of the variable, where one is written. -/
  type? : Option Text
  deriving DecidableEq, Repr

namespace ArgSlot
open Scan

/-! ### Bindings -/

/-- May stand in the ending of a macro. -/
def inKind (c : Char) : Bool :=
  c.isUpper || c.isDigit || c == '_'

/-- Reads a fetching macro; gives its ending and the digits of its argument. -/
def fetch : Scan (Text × Text) := do
  exactly "PG_GETARG_"
  let kind ← run1 inKind
  symbol "("
  layout
  let digits ← run1 Char.isDigit
  symbol ")"
  pure (kind, digits)

/-- Reads a cast; gives its type. -/
def castForm : Scan Text := do
  symbol "("
  layout
  let type ← run1 (· != ')')
  symbol ")"
  pure (Text.squeeze type)

/-- A fetch into a variable, as written. -/
structure Binding where
  type? : Option Text
  var : Text
  kind : Text
  digits : Text
  deriving DecidableEq, Repr

/-- Reads a variable, the equals sign and a fetch with its cast. -/
def assignment : Scan Binding := do
  let var ← ident
  symbol "="
  let cast? ← orNone castForm
  layout
  let (kind, digits) ← fetch
  pure ⟨cast?, var, kind, digits⟩

/-- Reads what ends a type: the variable and an equals sign that no other follows. -/
def variableAhead : Scan Unit := do
  let _ ← ident
  symbol "="
  layout
  absent (exactly "=")

/-- Reads a token of a type. -/
def typeToken : Scan Unit := do
  layout
  absent variableAhead
  (do let _ ← run1 Text.inName) <|> exactly "*" <|> exactly "::"

/-- Reads a type up to the variable of its declaration. -/
def typeForm : Scan Text := do
  let t ← lexeme (many1 typeToken)
  pure (Text.squeeze t)

/-- Reads a declaration with a fetch. A cast gives the type if there is one. -/
def declaration : Scan Binding := do
  let type ← typeForm
  let b ← assignment
  pure { b with type? := b.type? <|> some type }

/-! ### Slots of a body -/

/-- The number that decimal digits write. -/
def number (digits : Text) : Nat :=
  digits.foldl (fun n d => n * 10 + (d.toNat - '0'.toNat)) 0

/-- The greatest argument number that can be counted. -/
def maxIndex : Nat := Nat.pow 2 64 - 1

/-- The slot of a binding, if its number can be counted. -/
def ofBinding? (b : Binding) : Option ArgSlot :=
  if number b.digits ≤ maxIndex then some ⟨b.kind, b.var, number b.digits, b.type?⟩ else none

/-- The bindings of one reading that make slots, with where they stand. -/
def pass (form : Scan Binding) (body : Text) : List (ArgSlot × Span) :=
  (sweep form codeGap body).filterMap fun f =>
    (ofBinding? f.value).map fun slot => (slot, f.span none body)

/-- The slots of a body in the order in which they are found: the declared ones, then the assigned
ones that are not part of a declared one. -/
def found (body : Text) : List ArgSlot :=
  let declared := pass declaration body
  let assigned := (pass assignment body).filter fun (_, here) =>
    !declared.any fun (_, seen) => seen.overlaps here
  (declared ++ assigned).map Prod.fst

/-- The slots of a body by argument number. -/
def ofBody (body : Text) : List ArgSlot :=
  (found body).mergeSort fun a b => a.index ≤ b.index

end ArgSlot

end VectorWrap
