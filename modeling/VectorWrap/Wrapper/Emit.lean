import VectorWrap.Declaration.Category
import VectorWrap.Matching.Key
import VectorWrap.Wrapper.Closure

/-!
# Wrappers

The wrapper for a declaration under one of its keys: a member function and its declaration in the
header. Plain keys of some declarations get none; cast keys always do.
-/

namespace VectorWrap

/-- A generated wrapper. -/
structure Wrapper where
  /-- The SQL name of the function. -/
  declName : Text
  key : Text
  kind : WrapperKind
  /-- The name of the member function. -/
  function : Text
  declaration : Text
  source : Text
  /-- The call has to be written by hand. -/
  placeholder : Bool
  deriving DecidableEq, Repr

/-- Why a plain key gets no wrapper. -/
inductive Skip where
  | category (category : Text)
  | wireFunction
  | castOnly
  deriving DecidableEq, Repr

/-- The reason in words. -/
def Skip.message : Skip → Text
  | .category c => "category " ++ Text.tick c
  | .wireFunction => "binary send/recv"
  | .castOnly => "cast only"

/-- What wrappers are made with. -/
structure Emitter where
  types : TypeTable
  structName : Text
  policy : PlaceholderPolicy
  deriving Repr

namespace Emitter

/-- Why a key gets no wrapper, if so. -/
def skip? (d : Declaration) (key : Text) : Option Skip :=
  if Key.isCast key then none
  else if Category.isExcluded d.category then some (.category d.category)
  else if Category.isWire d.symbol then some .wireFunction
  else if d.isCastOnly then some .castOnly
  else none

/-- The kind of the wrapper of a key. -/
def kindOf (key : Text) : WrapperKind :=
  if Key.isCast key then .cast else .scalar

/-- The call of a closure on some vectors. -/
def call (c : Closure) (inputs : List Text) (count : Text) : ExecutorCall :=
  { executor := c.executor, withNulls := c.withNulls, typeParams := c.typeParams
    retType := c.retType, inputs, count, body := c.body }

/-- The input vectors of a scalar wrapper. -/
def scalarInputs (arity : Nat) : List Text :=
  (List.range arity).map fun i => "args.data[" ++ Text.decimal i ++ "]"

/-- The member function around a closure. -/
def source (structName function : Text) (kind : WrapperKind) (arity : Nat) (c : Closure) : Text :=
  match kind with
  | .scalar => Layout.scalarFunction structName function (call c (scalarInputs arity) "args.size()")
  | .cast => Layout.castFunction structName function (call c ["source"] "count")

/-- The declaration of the member function. -/
def declaration (function : Text) : WrapperKind → Text
  | .scalar => Layout.scalarDeclaration function
  | .cast => Layout.castDeclaration function

/-- The wrapper for a key that is not skipped. -/
def wrapper (e : Emitter) (d : Declaration) (n : Implementation) (key : Text) :
    Except EmitFailure Wrapper := do
  let kind := kindOf key
  let function := Key.member key
  let closure ← Closure.make e.types e.policy d n function kind
  pure {
    declName := d.name, key, kind, function
    declaration := declaration function kind
    source := source e.structName function kind d.params.length closure
    placeholder := closure.placeholder }

/-- The wrapper for a key, or none if the key is skipped. -/
def emit (e : Emitter) (d : Declaration) (n : Implementation) (key : Text) :
    Except EmitFailure (Option Wrapper) :=
  match skip? d key with
  | some _ => pure none
  | none => (e.wrapper d n key).map some

end Emitter

end VectorWrap
