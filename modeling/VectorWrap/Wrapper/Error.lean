import VectorWrap.Text.Position

/-!
# Why a wrapper is refused

The causes for which no wrapper is generated, each with its code and its message.
-/

namespace VectorWrap

/-- A cause that a declaration, or the set of them, gets no wrapper. -/
inductive GenError where
  /-- A type of the declaration is in no table. -/
  | unsupportedType (declaration type : Text)
  /-- The number of parameters is not the `expected` one. -/
  | unsupportedArity (declaration : Text) (arity : Nat) (expected : Text)
  /-- The body fetches an argument for which there is neither parameter nor default. -/
  | missingSlotBinding (symbol var : Text) (index : Nat)
  /-- The body has no shape, and placeholders are denied. -/
  | unclassifiedBody (symbol : Text)
  /-- Two declarations would get the same member name. -/
  | keyCollision (key first second : Text)
  deriving DecidableEq, Repr

namespace GenError

/-- The name of the cause. -/
def label : GenError → Text
  | .unsupportedType .. => "UnsupportedType"
  | .unsupportedArity .. => "UnsupportedArity"
  | .missingSlotBinding .. => "MissingSlotBinding"
  | .unclassifiedBody .. => "UnclassifiedBody"
  | .keyCollision .. => "KeyCollision"

/-- The code under which diagnostics report the cause. -/
def code : GenError → Text
  | .unsupportedType .. => "E0101"
  | .unsupportedArity .. => "E0102"
  | .missingSlotBinding .. => "E0103"
  | .unclassifiedBody .. => "E0104"
  | .keyCollision .. => "E0201"

/-- The cause in words. -/
def message : GenError → Text
  | .unsupportedType d t => "unsupported type " ++ Text.tick t ++ " in " ++ Text.tick d
  | .unsupportedArity d n e =>
      "unsupported arity " ++ Text.decimal n ++ " for " ++ Text.tick d ++ " (expected " ++ e ++ ")"
  | .missingSlotBinding s v i =>
      "native slot " ++ Text.decimal i ++ " (" ++ Text.tick v ++ ") of " ++ Text.tick s
        ++ " has no declared parameter or default"
  | .unclassifiedBody s => "native body of " ++ Text.tick s ++ " has no recognized shape"
  | .keyCollision k a b =>
      "disambiguation key " ++ Text.tick k ++ " is produced by both " ++ Text.tick a ++ " and "
        ++ Text.tick b

end GenError

end VectorWrap
