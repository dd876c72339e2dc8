import VectorWrap.Declaration.Parameters
import VectorWrap.Declaration.Section
import VectorWrap.Declaration.Statement

/-!
# Declaration scripts

A script is swept for statements; what the marks, casts and operators say is then put into the
function declarations, wherever in the script they stand.

The flags of a declaration are a join over the whole script: a cast that calls it may stand before
it or behind it, and so may the operator it stands behind. Its category is that of the section that
its line is in. A function whose quoted symbol is blank declares nothing.
-/

namespace VectorWrap

/-- What a script declares, each kind in the order of the script. -/
structure Script where
  declarations : List Declaration := []
  marks : List SectionMark := []
  casts : List Cast := []
  types : List Text := []
  operators : List Operator := []
  deriving Repr

namespace Script

/-- The statements of a script. -/
def statements (source : Text) : List (Found Statement) :=
  Scan.sweep Statement.form Statement.gap source

/-- The line on which a thing begins. -/
def lineOf {α : Type} (source : Text) (f : Found α) : Nat :=
  Text.nextLine (Text.upTo source f.here)

/-! ### What single statements say -/

/-- The section mark of a statement. -/
def mark? (source : Text) (f : Found Statement) : Option SectionMark :=
  match f.value with
  | .mark label => some ⟨label, lineOf source f⟩
  | _ => none

/-- The cast of a statement; its argument types stand between commas. -/
def cast? (f : Found Statement) : Option Cast :=
  match f.value with
  | .cast source target function args =>
      some ⟨source, target, function,
        ((Text.splitBy (· == ',') args).map Text.trim).filter (!·.isEmpty)⟩
  | _ => none

/-- The type of a statement. -/
def type? (f : Found Statement) : Option Text :=
  match f.value with
  | .type name => some name
  | _ => none

/-- The value of the last property that has one of the keys. -/
def valueOf? (keys : List Text) (properties : List (Text × Text)) : Option Text :=
  (properties.reverse.find? fun (k, _) => keys.contains k).map Prod.snd

/-- The operator of a statement, if it names a procedure. -/
def operator? (f : Found Statement) : Option Operator :=
  match f.value with
  | .operator symbol properties => do
      let procedure ← valueOf? ["procedure".toList, "function".toList] properties
      pure ⟨symbol, procedure, valueOf? ["leftarg".toList] properties,
        valueOf? ["rightarg".toList] properties⟩
  | _ => none

/-! ### Declarations -/

/-- The function takes arguments of exactly these types. -/
def takes (params : List Param) (args : List Text) : Bool :=
  args == params.map (·.type)

/-- A cast calls the function, or its symbol is one that reads or writes a text form. -/
def isCast (casts : List Cast) (name symbol : Text) (params : List Param) : Bool :=
  casts.any (fun c => c.function == name && takes params c.args) || Category.isTextual symbol

/-- The symbol of the first operator that the function stands behind. -/
def operatorOf? (operators : List Operator) (name : Text) (params : List Param) : Option Text :=
  (operators.find? fun op => op.procedure == name && takes params op.args).map (·.symbol)

/-- The declaration of a statement, unless its symbol is blank. -/
def declaration? (file : Option Nat) (source : Text) (marks : List SectionMark)
    (casts : List Cast) (operators : List Operator) (f : Found Statement) : Option Declaration :=
  match f.value with
  | .function name paramText returnType quoted =>
      let symbol := Text.trim quoted
      if symbol.isEmpty then none
      else
        let (params, defaults) := Param.parseList paramText
        let line := lineOf source f
        let category := categoryAt marks line
        some {
          name, returnType, params, defaults, symbol, category, line
          definition := f.text
          isOperator := Category.isOperator category
          isAggregate := Category.isAggregate category
          isCast := isCast casts name symbol params
          operator? := operatorOf? operators name params
          span := f.span file source }
  | _ => none

/-- What a script declares. -/
def parse (file : Option Nat) (source : Text) : Script :=
  let found := statements source
  let marks := found.filterMap (mark? source)
  let casts := found.filterMap cast?
  let operators := found.filterMap operator?
  { declarations := found.filterMap (declaration? file source marks casts operators)
    marks, casts, operators
    types := found.filterMap type? }

/-- Two scripts read one after the other. -/
def append (a b : Script) : Script :=
  ⟨a.declarations ++ b.declarations, a.marks ++ b.marks, a.casts ++ b.casts, a.types ++ b.types,
    a.operators ++ b.operators⟩

instance : Append Script := ⟨append⟩

end Script

end VectorWrap
