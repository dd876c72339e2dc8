import VectorWrap.Text.Basic

/-!
# TOML tables

A document is built line by line into one table. Where a table comes from decides what may still be
added to it: a header may fill in a table that only headers below it have made, dotted keys may go
on in a table that dotted keys have made, and what stands in braces is complete.

All additions go through one function that changes the table at a path and makes the tables on the
way (`change`). What an addition demands of the table that it finds there is the function it is
given.
-/

namespace VectorWrap.Toml

/-- What has made a table. -/
inductive Origin where
  /-- Its own header, or the document. -/
  | header
  /-- A header of a table inside it. -/
  | implied
  /-- A dotted key. -/
  | dotted
  /-- Braces. -/
  | braces
  deriving DecidableEq, Repr

/-- A value. Of numbers, truth values and moments only the presence is kept. -/
inductive Value where
  | string (text : Text)
  /-- A number or a truth value. -/
  | plain
  /-- A day, a time of day or both. -/
  | date
  /-- An array; `ofHeaders` says that each element has a header of its own. -/
  | array (items : List Value) (ofHeaders : Bool)
  | table (entries : List (Text × Value)) (origin : Origin)
  deriving Repr

/-- The entries of a table, each key once, and what has made it. -/
structure Table where
  entries : List (Text × Value) := []
  origin : Origin := .header
  deriving Repr

namespace Table

/-- A table as a value. -/
def toValue (t : Table) : Value :=
  .table t.entries t.origin

/-- The value of a key. -/
def get? (t : Table) (k : Text) : Option Value :=
  t.entries.lookup k

/-- Puts a value under a key, in the place of an earlier one. -/
def set (t : Table) (k : Text) (v : Value) : Table :=
  if (t.get? k).isSome then
    { t with entries := t.entries.map fun e => if e.1 = k then (k, v) else e }
  else { t with entries := t.entries ++ [(k, v)] }

/-- Changes the table at a path. Tables on the way are made where there are none; in an array of
tables the way leads through the last one. -/
def change (byKey : Bool) (f : Table → Option Table) : List Text → Table → Option Table
  | [], t => f t
  | k :: ks, t =>
      match t.get? k with
      | none => do
          let c ← change byKey f ks ⟨[], if byKey then .dotted else .implied⟩
          pure (t.set k c.toValue)
      | some (.table entries origin) =>
          if origin = .braces ∨ (byKey ∧ origin = .header) then none
          else do
            let c ← change byKey f ks ⟨entries, origin⟩
            pure (t.set k c.toValue)
      | some (.array items true) =>
          match items.getLast? with
          | some (.table entries origin) => do
              let c ← change byKey f ks ⟨entries, origin⟩
              pure (t.set k (.array (items.dropLast ++ [c.toValue]) true))
          | _ => none
      | some _ => none

/-- Puts a value under a dotted key; the key must be new, and dotted keys and others do not share a
table. -/
def insert (path : List Text) (k : Text) (v : Value) (t : Table) : Option Table :=
  change true (fun u =>
    if (u.origin == .dotted) == path.isEmpty ∨ (u.get? k).isSome then none
    else some (u.set k v)) path t

/-- Opens the table of a header, which must be new or made by headers inside it. -/
def openTable (path : List Text) (k : Text) (t : Table) : Option Table :=
  change false (fun u =>
    match u.get? k with
    | none => some (u.set k (.table [] .header))
    | some (.table entries .implied) => some (u.set k (.table entries .header))
    | some _ => none) path t

/-- Adds a table to the array of a header. -/
def openElement (path : List Text) (k : Text) (t : Table) : Option Table :=
  change false (fun u =>
    match u.get? k with
    | none => some (u.set k (.array [.table [] .header] true))
    | some (.array items true) => some (u.set k (.array (items ++ [.table [] .header]) true))
    | some _ => none) path t

end Table

/-- A line of a document that says something. A key is split before its last part. -/
inductive Line where
  | header (path : List Text) (key : Text)
  | element (path : List Text) (key : Text)
  | entry (path : List Text) (key : Text) (value : Value)
  deriving Repr

/-- Adds a line to a document; the path is that of the table whose header came last. -/
def addLine : List Text × Table → Line → Option (List Text × Table)
  | (_, t), .header path k => (t.openTable path k).map fun t => (path ++ [k], t)
  | (_, t), .element path k => (t.openElement path k).map fun t => (path ++ [k], t)
  | (here, t), .entry path k v =>
      (t.change false (Table.insert path k v) here).map fun t => (here, t)

/-- The table that the lines of a document make, if they agree with each other. -/
def ofLines (ls : List Line) : Option Table :=
  (ls.foldlM addLine ([], ({} : Table))).map Prod.snd

end VectorWrap.Toml
