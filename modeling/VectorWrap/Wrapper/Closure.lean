import VectorWrap.Code.Token
import VectorWrap.Declaration.Basic
import VectorWrap.Implementation.Basic
import VectorWrap.Types.Table
import VectorWrap.Wrapper.Error
import VectorWrap.Wrapper.Fragment

/-!
# Closures

The closure of a wrapper works on one row: it makes the arguments, asks for the type of one if the
native body does, makes the native call as the body's shape says, and gives the result back. The
result variable is called `ret` throughout; what a body calls it is renamed, and so are the two
functions that allocate and free.

The parts are made in a fixed order, and the first that cannot be made decides why there is no
wrapper: the executor, the element types, the type of the result, the arguments in the order of
their slots, and then the call. Only reading a copied line can be a fault.
-/

namespace VectorWrap

/-- What to do with a body that has no shape. -/
inductive PlaceholderPolicy where
  /-- A placeholder stands for the call, and a warning is given. -/
  | warn
  /-- The wrapper is refused. -/
  | deny
  deriving DecidableEq, Repr

/-- The two kinds of wrapper. -/
inductive WrapperKind where
  | scalar
  | cast
  deriving DecidableEq, Repr

/-- Why the making of a wrapper ends without one. -/
inductive EmitFailure where
  | refused (cause : GenError)
  | fault (fault : Fault)
  deriving DecidableEq, Repr

/-- A closure and what its executor call needs. -/
structure Closure where
  executor : Text
  typeParams : List Text
  retType : Text
  withNulls : Bool
  body : List Text
  placeholder : Bool
  deriving DecidableEq, Repr

namespace Closure

/-! ### The signature -/

/-- The executor for a number of parameters. -/
def executorFor (d : Declaration) (kind : WrapperKind) : Except GenError Text :=
  let arity := d.params.length
  match kind, arity with
  | _, 1 => .ok "UnaryExecutor"
  | .scalar, 2 => .ok "BinaryExecutor"
  | .scalar, 3 => .ok "TernaryExecutor"
  | .cast, _ => .error (.unsupportedArity d.display arity "1")
  | .scalar, _ => .error (.unsupportedArity d.display arity "1..=3")

/-- The element type in vectors of a type of the declaration. -/
def elementType (types : TypeTable) (d : Declaration) (type : Text) : Except GenError Text :=
  match types.executorType? type with
  | some t => .ok t
  | none => .error (.unsupportedType d.display type)

/-! ### Renaming -/

/-- The name of the result variable. -/
def result : Text := "ret"

/-- The renaming of a body: the result variable and the functions that allocate and free. The
variable that is returned counts as the result unless it is an argument. -/
def outputRenaming (n : Implementation) : Renaming :=
  let fixed : Renaming := [("result", result), ("palloc", "malloc"), ("pfree", "free")]
  match n.shape.returnedVar? with
  | some v => if n.slotVars.contains v then fixed else (v, result) :: fixed
  | none => fixed

/-! ### Arguments -/

/-- The lines that make an argument, and its buffer if it has one. -/
structure ArgCode where
  lines : List Text
  buffer? : Option Text
  deriving DecidableEq, Repr

/-- The C type of a slot: as written, or else as the fetching macro says. -/
def slotType? (slot : ArgSlot) : Option Text :=
  slot.type? <|> TypeTable.kindType? slot.kind

/-- The code for the argument of the parameter number `slot.index`. -/
def paramCode (types : TypeTable) (typeParams : List Text) (function var paramType : Text)
    (slot : ArgSlot) : ArgCode :=
  let src := Layout.argName slot.index
  let element := typeParams.getD slot.index []
  if slot.kind = "DATUM".toList then ⟨Fragment.datumArg var element src, none⟩
  else
    match types.argForm paramType with
    | .bytes =>
        let written := slotType? slot <|> (types.blob? paramType).map (·.cType)
        ⟨Fragment.bytesArg (written.getD "void *") var src function, some var⟩
    | .timestamp => ⟨Fragment.timestampArg var src, none⟩
    | .interval => ⟨Fragment.intervalArg var src, some var⟩
    | .text =>
        let asText := slot.kind == "TEXT_P".toList
        ⟨Fragment.textArg slot.index var src asText, if asText then some var else none⟩
    | .scalar => ⟨[Fragment.bind ((slotType? slot).getD element) var src], none⟩

/-- The code for an argument: from its parameter, or else from the default in its place. -/
def argCode (types : TypeTable) (d : Declaration) (typeParams : List Text)
    (function symbol : Text) (renames : Renaming) (slot : ArgSlot) : Except GenError ArgCode :=
  let var := renames.text slot.var
  match d.params[slot.index]? with
  | some p => .ok (paramCode types typeParams function var p.type slot)
  | none =>
      match d.defaults[slot.index - d.params.length]? with
      | some value => .ok ⟨[Fragment.bind ((slotType? slot).getD "auto") var value], none⟩
      | none => .error (.missingSlotBinding symbol slot.var slot.index)

/-- The parameter whose type a body asks for: that of its first fetch of a value of any type, or
else the first. -/
def tagIndex (d : Declaration) (n : Implementation) : Nat :=
  ((n.slots.find? fun s => s.kind == "DATUM".toList && s.index < d.params.length).map
    (·.index)).getD 0

/-- The lines that ask for the type of an argument. -/
def tagLines (d : Declaration) (typeParams : List Text) (n : Implementation) : List Text :=
  match n.typeTagVar? with
  | none => []
  | some var =>
      let i := tagIndex d n
      Fragment.typeTag var (typeParams.getD i []) (Layout.argName i)

/-! ### The call -/

/-- A copied line in which the result of `malloc` gets the cast that C++ wants. -/
def castAlloc (line : Text) : Except Fault Text := do
  match ← Assignment.ofLine line with
  | some ⟨some type, var, value⟩ =>
      if type.getLast? = some '*' ∧ "malloc(".toList.isPrefixOf value then
        pure (Fragment.bind type var ("(" ++ type ++ ")" ++ value))
      else pure line
  | _ => pure line

/-- The line puts newly allocated memory into the variable. -/
def allocates (line var : Text) : Except Fault Bool := do
  match ← Assignment.ofLine line with
  | some a => pure (a.var == var && Text.contains "malloc(" a.value)
  | none => pure false

/-- The lines of a call, with the buffers that are still to be released after it. -/
structure CallCode where
  lines : List Text
  buffers : List Text
  deriving DecidableEq, Repr

/-- Binds the result to the returned expression if it has another name. A buffer that is returned
is the result from then on. -/
def bindResult (retCType expr : Text) (buffers : List Text) : CallCode :=
  if expr = result then ⟨[], buffers⟩
  else ⟨[Fragment.bind retCType result expr], buffers.filter (· ≠ expr)⟩

/-- The lines before others. -/
def CallCode.after (lines : List Text) (c : CallCode) : CallCode :=
  { c with lines := lines ++ c.lines }

/-- The C type of what the native function returns: by its return macro, or else by the declared
type. -/
def returnType (types : TypeTable) (d : Declaration) (n : Implementation) : Text :=
  ((n.returnKind?.bind TypeTable.kindType?) <|> (types.blob? d.returnType).map (·.cType)).getD
    "auto"

/-- The guard of a body, releasing what has been allocated before it, and the line of setup. -/
def guardLines (rename : Text → Text) (retType : Text) (buffers : List Text)
    (setup? : Option Text) (guard : Text) : Except Fault (List Text) :=
  match setup? with
  | none => pure (Fragment.nullGuard (rename guard) buffers retType)
  | some setup => do
      let line ← castAlloc (rename setup)
      let own ← allocates line result
      pure (line :: Fragment.nullGuard (rename guard)
        (buffers ++ if own then [result] else []) retType)

/-- The code for the call of a body with a shape; `none` for one without. -/
def callCode (shape : Shape) (rename : Text → Text) (retCType retType : Text)
    (buffers : List Text) : Except Fault (Option CallCode) :=
  match shape with
  | .call expr => pure (some ⟨[Fragment.bind retCType result (rename expr)], buffers⟩)
  | .assigned type _ call => pure (some ⟨[Fragment.bind type result (rename call)], buffers⟩)
  | .filled setup call expr => do
      let line ← castAlloc (rename setup)
      pure (some ((bindResult retCType (rename expr) buffers).after [line, rename call]))
  | .guarded setup? guard expr => do
      let lines ← guardLines rename retType buffers setup? guard
      pure (some ((bindResult retCType (rename expr) buffers).after lines))
  | .block lines expr => do
      let copied ← lines.mapM fun l => castAlloc (rename l)
      pure (some ((bindResult retCType (rename expr) buffers).after copied))
  | .unclassified _ => pure none

/-! ### The result -/

/-- The lines that give the result back and release it and the buffers. -/
def outputLines (types : TypeTable) (d : Declaration) (retType : Text) (buffers : List Text) :
    List Text :=
  let (convert, release) : List Text × List Text :=
    match types.resultForm d.returnType with
    | .blob =>
        let size := ((types.blob? d.returnType).map (·.size)).getD .varlena
        (["string_t out = StringVector::AddStringOrBlob(result, (const char *)ret, "
          ++ size.expr result ++ ");"], [Fragment.free result])
    | .timestamp => (["timestamp_tz_t out = MeosToDuckDBTimestamp((timestamp_tz_t)ret);"], [])
    | .cstring =>
        (["string_t out = StringVector::AddString(result, ret);"], [Fragment.free result])
    | .text =>
        (["char *ret_str = text2cstring(ret);",
          "string_t out = StringVector::AddString(result, ret_str);"],
          [Fragment.free "ret_str", Fragment.free result])
    | .scalar => ([retType ++ " out = ret;"], [])
  convert ++ buffers.map Fragment.free ++ release ++ ["return out;".toList]

/-- The lines that stand for a call to be written by hand. -/
def placeholderLines (retType : Text) (buffers : List Text) : List Text :=
  [Fragment.placeholder] ++ buffers.map Fragment.free ++ ["return " ++ retType ++ "();"]

/-! ### The closure -/

/-- A result that may be refused, where more can go wrong. -/
def orRefuse {α : Type} (r : Except GenError α) : Except EmitFailure α :=
  r.mapError .refused

/-- A result that may be a fault, where more can go wrong. -/
def orFault {α : Type} (r : Except Fault α) : Except EmitFailure α :=
  r.mapError .fault

/-- The closure of the wrapper named `function`. -/
def make (types : TypeTable) (policy : PlaceholderPolicy) (d : Declaration) (n : Implementation)
    (function : Text) (kind : WrapperKind) : Except EmitFailure Closure := do
  let executor ← orRefuse (executorFor d kind)
  let typeParams ← orRefuse (d.types.mapM (elementType types d))
  let retType ← orRefuse (elementType types d d.returnType)
  let renames := outputRenaming n
  let args ← orRefuse (n.slots.mapM (argCode types d typeParams function n.symbol renames))
  let before := args.flatMap (·.lines) ++ tagLines d typeParams n
  let buffers := args.filterMap (·.buffer?)
  let call? ← orFault (callCode n.shape renames.text (returnType types d n) retType buffers)
  let make (lines : List Text) (placeholder : Bool) : Closure :=
    { executor, typeParams, retType, placeholder, withNulls := n.nullable, body := before ++ lines }
  match call?, policy with
  | some c, _ => pure (make (c.lines ++ [] :: outputLines types d retType c.buffers) false)
  | none, .warn => pure (make ([] :: placeholderLines retType buffers) true)
  | none, .deny => throw (.refused (.unclassifiedBody n.symbol))

end Closure

end VectorWrap
