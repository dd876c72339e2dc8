import VectorWrap.Text.Position

/-!
# Declarations

What a script of SQL declarations says: functions with the native symbol that implements each,
section marks, casts, types and operators.
-/

namespace VectorWrap

/-- A parameter that a caller must give. -/
structure Param where
  type : Text
  name : Text
  deriving DecidableEq, Repr

/-- A SQL function that a native symbol implements. -/
structure Declaration where
  name : Text
  returnType : Text
  params : List Param
  /-- What stands for the parameters with a default, which come after `params`. -/
  defaults : List Text
  symbol : Text
  /-- The whole statement as written. -/
  definition : Text
  category : Text
  isOperator : Bool
  isAggregate : Bool
  isCast : Bool
  operator? : Option Text
  line : Nat
  span : Span
  deriving DecidableEq, Repr

namespace Declaration

/-- The types of the parameters. -/
def types (d : Declaration) : List Text :=
  d.params.map (·.type)

/-- A cast that reads or writes the text form of a value: `cstring` is among its types. -/
def isCastOnly (d : Declaration) : Bool :=
  d.isCast && (Text.sameLetters d.returnType "cstring" ||
    d.types.any (Text.sameLetters · "cstring"))

/-- The signature as messages show it. -/
def display (d : Declaration) : Text :=
  d.name ++ "(" ++ Text.joinWith ", " d.types ++ ") -> " ++ d.returnType ++ " [" ++ d.symbol ++ "]"

end Declaration

/-- A cast from one type to another by a function with the given argument types. -/
structure Cast where
  source : Text
  target : Text
  function : Text
  args : List Text
  deriving DecidableEq, Repr

/-- An operator symbol for a function, with the types of its operands. -/
structure Operator where
  symbol : Text
  procedure : Text
  left? : Option Text
  right? : Option Text
  deriving DecidableEq, Repr

/-- The types of the operands that are there, left before right. -/
def Operator.args (op : Operator) : List Text :=
  op.left?.toList ++ op.right?.toList

end VectorWrap
