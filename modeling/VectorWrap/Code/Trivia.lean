import VectorWrap.Scan.Basic

/-!
# Comments and quoted literals

What a reader of C passes over: block comments, line comments, string and character literals. A
comment or literal that is never closed is none, and its first character stands for itself.

There are two readings. Under `Spacing.exact` every character counts: a line comment ends before the
next line break. Under `Spacing.free` layout may stand between any two characters and is passed over
there: no line break is ever seen, so a line comment takes the rest of the text, and a backslash
escapes the next character that is not layout.
-/

namespace VectorWrap

/-- Whether layout counts inside comments and literals. -/
inductive Spacing where
  | exact
  | free
  deriving DecidableEq, Repr

namespace Scan

/-- Ends a line. -/
def isLineBreak (c : Char) : Bool :=
  c == '\n' || c == '\r'

/-- Reads a block comment. -/
def blockComment : Scan Unit := do
  exactly "/*"
  let _ ← upTo "*/"

/-- Reads a line comment that `opening` begins. -/
def lineComment (opening : Text) : Spacing → Scan Unit
  | .exact => do
      exactly opening
      let _ ← run (!isLineBreak ·)
  | .free => do
      exactly opening
      let _ ← run fun _ => true

/-- What follows the closing `quote`; `escaped` says that a backslash has just been read. -/
def closeQuote? (spacing : Spacing) (quote : Char) : Bool → Text → Option Text
  | _, [] => none
  | true, c :: r => closeQuote? spacing quote (spacing == .free && Text.isLayout c) r
  | false, c :: r =>
      if c = quote then some r else closeQuote? spacing quote (c == '\\') r

/-- Reads a literal in `quote`s. -/
def literal (spacing : Spacing) (quote : Char) : Scan Unit := do
  let _ ← one (· == quote)
  fun s => (closeQuote? spacing quote false s).map fun r => ((), r)

/-- Reads a comment or a quoted literal of C. -/
def trivia (spacing : Spacing) : Scan Unit :=
  blockComment <|> lineComment "//" spacing <|> literal spacing '"' <|> literal spacing '\''

/-- What stands between two things of interest in C: trivia, and whole words, so that nothing is
read from the middle of one. -/
def codeGap : Scan Unit :=
  trivia .free <|> (do let _ ← name)

end Scan

end VectorWrap
