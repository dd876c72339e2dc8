import VectorWrap.Declaration.Basic
import VectorWrap.Implementation.Basic
import VectorWrap.Matching.Key
import VectorWrap.Wrapper.Error

/-!
# Matching declarations with implementations

A declaration is matched with the first implementation of its symbol. Its keys are the symbol
alone, or the symbol with the parameter types when other matched declarations share it, and for a
cast the cast key after that. Two keys with one member name are a collision, and then nothing is
matched.

Declarations are taken up one by one (`step`), each with the keys that it has among all of them, and
the member names that have been given are carried along (`Owners`). Sharing of a symbol is counted
over all declarations, so a key does not depend on the order; which two declarations collide first
does.
-/

namespace VectorWrap

/-- A declaration with its implementation and its keys, the plain one first. -/
structure Match where
  declaration : Declaration
  implementation : Implementation
  keys : List Text
  deriving Repr

/-- The matched and the unmatched declarations, each in the order of the declarations, and two
tables by symbol. -/
structure Matching where
  units : List Match := []
  unmatched : List Declaration := []
  /-- The implementation of each matched symbol. -/
  implementations : List (Text × Implementation) := []
  /-- The keys of each matched symbol, in order. -/
  keys : List (Text × List Text) := []
  deriving Repr

namespace Matching

/-! ### Keys -/

/-- The first implementation of a symbol. -/
def implementation? (natives : List Implementation) (symbol : Text) : Option Implementation :=
  natives.find? (·.symbol == symbol)

/-- The plain key of a declaration among all. -/
def baseKey (all : List Declaration) (d : Declaration) : Text :=
  if all.countP (·.symbol == d.symbol) > 1 then Key.overload d.symbol d.types else d.symbol

/-- The keys of a declaration among all. -/
def keysOf (all : List Declaration) (d : Declaration) : List Text :=
  let base := baseKey all d
  if d.isCast then [base, Key.cast base] else [base]

/-! ### Tables -/

/-- Enters a value for a key that has none yet. -/
def enter {α : Type} (key : Text) (value : α) (table : List (Text × α)) : List (Text × α) :=
  if (table.lookup key).isSome then table else table ++ [(key, value)]

/-- Adds keys to those of a symbol. -/
def extend (symbol : Text) (keys : List Text) : List (Text × List Text) → List (Text × List Text)
  | [] => [(symbol, keys)]
  | (s, ks) :: table =>
      if s = symbol then (s, ks ++ keys) :: table else (s, ks) :: extend symbol keys table

/-- The matching with one more matched declaration. -/
def add (m : Matching) (u : Match) : Matching :=
  { m with
    units := m.units ++ [u]
    implementations := enter u.declaration.symbol u.implementation m.implementations
    keys := extend u.declaration.symbol u.keys m.keys }

/-- The matching with one more unmatched declaration. -/
def leave (m : Matching) (d : Declaration) : Matching :=
  { m with unmatched := m.unmatched ++ [d] }

/-! ### One declaration after the other -/

/-- The member names that have been given, each with the declaration it was given to. -/
abbrev Owners := List (Text × Text)

/-- Gives the member names of the keys to a declaration, unless one has been given before. -/
def claim (owners : Owners) (owner : Text) : List Text → Except GenError Owners
  | [] => .ok owners
  | k :: ks =>
      match owners.lookup (Key.member k) with
      | some first => .error (.keyCollision (Key.member k) first owner)
      | none => claim ((Key.member k, owner) :: owners) owner ks

/-- What the declarations so far have come to, and the member names given to them. -/
structure Progress where
  matching : Matching := {}
  owners : Owners := []

/-- Takes up one declaration of all. -/
def step (natives : List Implementation) (all : List Declaration) (p : Progress)
    (d : Declaration) : Except GenError Progress :=
  match implementation? natives d.symbol with
  | none => .ok { p with matching := p.matching.leave d }
  | some n => do
      let keys := keysOf all d
      let owners ← claim p.owners d.display keys
      pure ⟨p.matching.add ⟨d, n, keys⟩, owners⟩

/-- Matches declarations with implementations. -/
def make (declarations : List Declaration) (natives : List Implementation) :
    Except GenError Matching := do
  let p ← declarations.foldlM (step natives declarations) {}
  pure p.matching

/-- The matched symbols, each once, in order. -/
def symbols (m : Matching) : List Text :=
  m.keys.map Prod.fst

/-- The keys of all matched declarations of a symbol, in order. -/
def keysFor (m : Matching) (symbol : Text) : List Text :=
  (m.keys.lookup symbol).getD []

/-! ### The dry run -/

/-- What a dry run says of the operator of a declaration, if it has one. -/
def operatorNote : Option Text → Text
  | none => []
  | some s => " op " ++ Text.tick s

/-- What a dry run says of a matched declaration. -/
def unitLine (u : Match) : Text :=
  u.declaration.display ++ "  [" ++ u.declaration.category ++ "]"
    ++ operatorNote u.declaration.operator? ++ "  shape=" ++ u.implementation.shape.label
    ++ "  keys=" ++ Text.joinWith "," u.keys

/-- What a dry run says of an unmatched declaration. -/
def unmatchedLine (d : Declaration) : Text :=
  d.display ++ "  [" ++ d.category ++ "]  (no native implementation)"

/-- What a dry run says: a line for each matched, then for each unmatched declaration. -/
def dryRun (m : Matching) : List Text :=
  m.units.map unitLine ++ m.unmatched.map unmatchedLine

end Matching

end VectorWrap
