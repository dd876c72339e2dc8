import VectorWrap.Toml.Plain
import VectorWrap.Toml.Value

/-!
# TOML documents

A document is read line by line; a value may run over several lines where its form allows it. Arrays
and braces nest up to a fixed depth. A document with a malformed line, or with lines that do not
agree with each other, is refused as a whole.

The readers are scanners over the whole document, with the value for the nested forms as a
parameter; `value` ties the knot with a count of how deep it may still go. What lines there are is
known first, and then they are put into one table.
-/

namespace VectorWrap.Toml
open Scan

/-! ### Between values -/

/-- Skips the blanks of a line. -/
def space : Scan Unit := do
  let _ ← run isSpace

/-- Reads a comment. -/
def comment : Scan Unit := do
  exactly "#"
  let _ ← run isPrinted

/-- Skips blanks, comments and line breaks. -/
def filler : Scan Unit := do
  let _ ← many ((do let _ ← run1 isSpace) <|> comment <|> lineBreak)

/-- Reads what the scanner reads, several times with commas between. -/
def commaList {α : Type} (gap : Scan Unit) (item : Scan α) : Scan (List α) := do
  let first? ← orNone item
  match first? with
  | none => pure []
  | some first => do
      let more ← many do
        gap
        exactly ","
        gap
        item
      pure (first :: more)

/-! ### Keys -/

/-- May stand in a key without quotes. -/
def inBareKey (c : Char) : Bool :=
  c.isAlphanum || c == '_' || c == '-'

/-- Reads one part of a key. -/
def keyPart : Scan Text :=
  run1 inBareKey <|> basicString <|> literalString

/-- Reads a key, dotted or not; its last part stands apart. -/
def dottedKey : Scan (List Text × Text) := do
  let first ← keyPart
  let more ← many do
    space
    exactly "."
    space
    keyPart
  pure ((first :: more).dropLast, more.getLast?.getD first)

/-! ### Values -/

/-- Reads a value that holds no other. -/
def scalar : Scan Value :=
  (do pure (.string (← quoted))) <|> (do moment; pure .date) <|> (do plain; pure .plain)

/-- Reads an array of values. A comma may follow the last. -/
def array (value : Scan Value) : Scan Value := do
  exactly "["
  filler
  let items ← commaList filler value
  filler
  if !items.isEmpty then
    let _ ← orNone (exactly ",")
  filler
  exactly "]"
  pure (.array items false)

/-- Reads a key with its value. -/
def entry (value : Scan Value) : Scan (List Text × Text × Value) := do
  let (path, key) ← dottedKey
  space
  exactly "="
  space
  let v ← value
  pure (path, key, v)

/-- Reads a table in braces, all on one line. -/
def braces (value : Scan Value) : Scan Value := do
  exactly "\x7b"
  space
  let entries ← commaList space (entry value)
  space
  exactly "\x7d"
  let t ← StateT.lift (entries.foldlM (fun (t : Table) (path, k, v) => t.insert path k v)
    ⟨[], .braces⟩)
  pure t.toValue

/-- Reads a value whose arrays and braces nest at most so deep. -/
def value : Nat → Scan Value
  | 0 => scalar
  | depth + 1 => scalar <|> array (value depth) <|> braces (value depth)

/-- How deep arrays and braces may nest. -/
def maxDepth : Nat := 80

/-! ### Lines -/

/-- Reads the header of an array of tables. -/
def elementLine : Scan Line := do
  exactly "[["
  space
  let (path, key) ← dottedKey
  space
  exactly "]]"
  pure (.element path key)

/-- Reads the header of a table. -/
def headerLine : Scan Line := do
  exactly "["
  space
  let (path, key) ← dottedKey
  space
  exactly "]"
  pure (.header path key)

/-- Reads a line with a key and its value. -/
def entryLine : Scan Line := do
  let (path, key, v) ← entry (value maxDepth)
  pure (.entry path key v)

/-- Reads a line, which may say nothing. -/
def line : Scan (Option Line) := do
  space
  let l ← orNone (elementLine <|> headerLine <|> entryLine)
  space
  let _ ← orNone comment
  lineBreak <|> atEnd
  pure l

/-- A document without the mark that may stand before it. -/
def withoutMark (s : Text) : Text :=
  (Text.after? [Char.ofNat 0xFEFF] s).getD s

/-- The table that a document describes. -/
def read? (s : Text) : Option Table := do
  let (lines, rest) ← many line (withoutMark s)
  guard rest.isEmpty
  ofLines (lines.filterMap id)

end VectorWrap.Toml
