import VectorWrap.Implementation.Shape

/-!
# Native implementations

What a wrapper has to know of the C function behind a symbol, all of it read from the body.
-/

namespace VectorWrap

/-- A native function and what its body says. -/
structure Implementation where
  symbol : Text
  /-- The fetched arguments, by number. -/
  slots : List ArgSlot
  /-- The body asks for the type of an argument. -/
  needsTypeTag : Bool
  /-- The call whose value is returned first. -/
  delegated? : Option Call
  /-- The ending of the first return macro that gives a value. -/
  returnKind? : Option Text
  /-- The body may return no value. -/
  nullable : Bool
  body : Text
  shape : Shape
  span : Span
  deriving DecidableEq, Repr

namespace Implementation

/-- The variables of the slots. -/
def slotVars (n : Implementation) : List Text :=
  n.slots.map (·.var)

/-- The variable for the type of an argument, where the body asks for it. -/
def typeTagVar? (n : Implementation) : Option Text :=
  if n.needsTypeTag then some Line.typeTagVar else none

/-- The call that the first line that returns a value gives back. -/
def delegatedCall? (lines : List Text) : Option Call :=
  ((lines.filterMap Return.ofLine?).find? fun (kind, _) => kind != Return.nullKind).map
    fun (_, expr) => Call.parse expr

/-- Reads the body of a symbol. -/
def ofBody (symbol body : Text) (span : Span) : Except Fault Implementation := do
  let lines := Line.ofBody body
  let (returnKind?, nullable) := Return.summary body
  let shape ← Shape.classify lines nullable
  pure {
    symbol, returnKind?, nullable, body, shape, span
    slots := ArgSlot.ofBody body
    needsTypeTag := Text.contains Line.typeTagMark body
    delegated? := delegatedCall? lines }

end Implementation

end VectorWrap
