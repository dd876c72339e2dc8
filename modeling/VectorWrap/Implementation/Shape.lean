import VectorWrap.Implementation.Assignment
import VectorWrap.Implementation.Call
import VectorWrap.Implementation.Line
import VectorWrap.Implementation.Return

/-!
# Shapes of bodies

The number of processing lines and the place of the null return decide what a body is: a call, a
call kept in a variable, a call that fills a buffer, a call behind a null guard, or a block to copy.
A body of any other form has no shape.
-/

namespace VectorWrap

/-- The form of a body. In all but the last, the final line is the one return of a value. -/
inductive Shape where
  /-- `PG_RETURN_K(expr);` -/
  | call (expr : Text)
  /-- `type var = call;` and the return of `var`. -/
  | assigned (type var call : Text)
  /-- Two lines of which neither is a guard or a null return, and the return of `result`. -/
  | filled (setup call result : Text)
  /-- A guard with a null return, after a line of setup if there is one. -/
  | guarded (setup? : Option Text) (guard result : Text)
  /-- Three lines to copy as they are. -/
  | block (lines : List Text) (result : Text)
  | unclassified (lines : List Text)
  deriving DecidableEq, Repr

namespace Shape

/-- The name of the form. -/
def label : Shape → Text
  | .call .. => "single-call"
  | .assigned .. => "pre-assigned-call"
  | .filled .. => "pre-allocated-output"
  | .guarded .. => "null-guarded-call"
  | .block .. => "verbatim-block"
  | .unclassified .. => "unclassified"

/-- A text that is an identifier. -/
def ifName (s : Text) : Option Text :=
  if Text.isName s then some s else none

/-- The variable that the return gives back unchanged. -/
def returnedVar? : Shape → Option Text
  | .assigned _ var _ => some var
  | .filled _ _ result => ifName result
  | .guarded _ _ result => ifName result
  | .block _ result => ifName result
  | .call _ => none
  | .unclassified _ => none

/-- The line begins like the head of an `if`. -/
def isIfHead (line : Text) : Bool :=
  match Text.after? "if" line with
  | some r => (r.dropWhile Text.isBlank).head? == some '('
  | none => false

/-- The condition of a line that is the head of an `if` and nothing more. -/
def guardCondition? (line : Text) : Option Text := do
  let rest ← Text.after? "if" line
  let inner ← Text.after? "(" (Text.trim rest)
  let condition ← Text.before? ")" inner
  pure (Text.trim condition)

/-- Neither the head of an `if` nor a null return. -/
def isPlain (line : Text) : Bool :=
  !isIfHead line && !Return.isNull line

/-- The line returns a value. -/
def returnsValue (line : Text) : Bool :=
  match Return.ofLine? line with
  | some (kind, _) => kind != Return.nullKind
  | none => false

/-- The shape of the lines before the return of `result`, if they have one. -/
def ofLines? (before : List Text) (nullable : Bool) (result : Text) :
    Except Fault (Option Shape) :=
  match before, nullable with
  | [], _ => .ok (some (.call result))
  | [l], _ => do
      match ← Assignment.ofLine l with
      | some a =>
          if (Call.parse result).bareName? = some a.var then
            pure (some (.assigned (a.type?.getD "auto") a.var a.value))
          else pure none
      | none => pure none
  | [l, m], _ =>
      match guardCondition? l, Return.isNull m with
      | some condition, true => .ok (some (.guarded none condition result))
      | _, _ =>
          if isPlain l && isPlain m then .ok (some (.filled l m result)) else .ok none
  | [l, m, n], true =>
      match guardCondition? m with
      | some condition =>
          if isPlain l && Return.isNull n then .ok (some (.guarded (some l) condition result))
          else .ok none
      | none => .ok none
  | [l, m, n], false => .ok (some (.block [l, m, n] result))
  | _, _ => .ok none

/-- The shape of a body with the given processing lines; `nullable` says that it may return no
value. -/
def classify (lines : List Text) (nullable : Bool) : Except Fault Shape :=
  match lines.getLast?.bind Return.ofLine? with
  | none => .ok (.unclassified lines)
  | some (kind, result) =>
      if kind = Return.nullKind ∨ lines.dropLast.any returnsValue then .ok (.unclassified lines)
      else (ofLines? lines.dropLast nullable result).map fun s => s.getD (.unclassified lines)

end Shape

end VectorWrap
