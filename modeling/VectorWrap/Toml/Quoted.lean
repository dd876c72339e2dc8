import VectorWrap.Scan.Basic

/-!
# TOML strings

A basic string stands in double quotes and knows escapes, a literal string stands in single quotes
and keeps its characters as they are. With tripled quotes a string may run over several lines: a
line break right after the opening quotes is dropped, every other one counts as a line feed, and one
or two quotes may stand before the closing three.

An escape by a code point must name a character, and control characters other than the tab may not
stand in a string at all. In a string of several lines a backslash at the end of a line takes the
blanks and line breaks that follow with it.
-/

namespace VectorWrap.Toml
open Scan

/-! ### Characters -/

/-- A blank inside a line: a space or a tab. -/
def isSpace (c : Char) : Bool :=
  c == ' ' || c == '\t'

/-- May stand in comments and in strings: no control character but the tab. -/
def isPrinted (c : Char) : Bool :=
  c == '\t' || (0x20 ≤ c.toNat && c.toNat != 0x7F)

/-- Reads a line break, a line feed with or without a carriage return before it. -/
def lineBreak : Scan Unit :=
  exactly "\n" <|> exactly "\r\n"

/-! ### Escapes -/

/-- The characters with an escape of one letter. -/
def shortEscapes : List (Char × Char) :=
  [('b', Char.ofNat 0x08), ('t', '\t'), ('n', '\n'), ('f', Char.ofNat 0x0C), ('r', '\r'),
    ('"', '"'), ('\\', '\\')]

/-- The value of a hexadecimal digit. -/
def hexValue? (c : Char) : Option Nat :=
  if c.isDigit then some (c.toNat - '0'.toNat)
  else if 'a' ≤ c.toLower ∧ c.toLower ≤ 'f' then some (c.toLower.toNat - 'a'.toNat + 10)
  else none

/-- Reads exactly `n` hexadecimal digits onto a value. -/
def hexDigits : Nat → Nat → Scan Nat
  | 0, value => pure value
  | n + 1, value => do
      let c ← one fun _ => true
      let d ← StateT.lift (hexValue? c)
      hexDigits n (value * 16 + d)

/-- Reads the code point of an escape, which must be that of a character. -/
def codePoint (digits : Nat) : Scan Char := do
  let n ← hexDigits digits 0
  guard (Nat.isValidChar n)
  pure (Char.ofNat n)

/-- Reads what follows the backslash of an escape. -/
def escaped : Scan Char := do
  let c ← one fun _ => true
  if c = 'u' then codePoint 4
  else if c = 'U' then codePoint 8
  else StateT.lift (shortEscapes.lookup c)

/-- Reads an escape. -/
def escape : Scan Char := do
  exactly "\\"
  escaped

/-! ### Strings on one line -/

/-- A character that a string with the given quote keeps as it is. -/
def isLiteral (quote c : Char) : Bool :=
  isPrinted c && c != quote

/-- A character that a basic string keeps as it is. -/
def isBasic (c : Char) : Bool :=
  isLiteral '"' c && c != '\\'

/-- Reads a basic string. -/
def basicString : Scan Text := do
  exactly "\""
  let cs ← many (one isBasic <|> escape)
  exactly "\""
  pure cs

/-- Reads a literal string. -/
def literalString : Scan Text := do
  exactly "'"
  let cs ← run (isLiteral '\'')
  exactly "'"
  pure cs

/-! ### Strings on several lines -/

/-- Reads a line break as the line feed it counts as. -/
def lineFeed : Scan Text := do
  lineBreak
  pure ['\n']

/-- Reads one or two quotes that do not close the string. -/
def innerQuotes (quote : Char) : Scan Text := do
  let q ← run1 (· == quote)
  guard (q.length ≤ 2)
  pure q

/-- Reads three to five quotes; gives those before the closing three. -/
def closingQuotes (quote : Char) : Scan Text := do
  let q ← run1 (· == quote)
  guard (3 ≤ q.length ∧ q.length ≤ 5)
  pure (q.drop 3)

/-- Reads a backslash at the end of a line with all blanks and line breaks after it, which count for
nothing. -/
def continuation : Scan Text := do
  exactly "\\"
  let _ ← run isSpace
  lineBreak
  let _ ← many (lineBreak <|> (do let _ ← run1 isSpace))
  pure []

/-- Reads a part of a basic string on several lines. -/
def basicPart : Scan Text :=
  run1 isBasic <|> lineFeed <|> innerQuotes '"' <|> continuation <|> (do pure [← escape])

/-- Reads a part of a literal string on several lines. -/
def literalPart : Scan Text :=
  run1 (isLiteral '\'') <|> lineFeed <|> innerQuotes '\''

/-- Reads a string in tripled quotes made of the given parts. -/
def tripled (quote : Char) (part : Scan Text) : Scan Text := do
  exactly [quote, quote, quote]
  let _ ← orNone lineBreak
  let ts ← many part
  let last ← closingQuotes quote
  pure (ts.flatten ++ last)

/-- Reads a string of any form. -/
def quoted : Scan Text :=
  tripled '"' basicPart <|> tripled '\'' literalPart <|> basicString <|> literalString

end VectorWrap.Toml
