import VectorWrap.Text.Identifier

/-!
# Tokens of C text

A line of C is read as identifiers, quoted literals, numbers and single marks; put together again
the tokens are the line (`concat_tokens`). Renaming acts on the identifiers alone, so a name inside
a literal, or the letters of a number such as `1e5f`, are never taken for one.

A literal ends at the next quote of its own kind that no backslash escapes, or at the end of the
text. A mark is one character, and blanks are marks as well, so that every character of a line
belongs to one token.
-/

namespace VectorWrap

/-- A token of a line of C. -/
inductive Token where
  | identifier (name : Text)
  /-- A quoted literal with its quotes; the closing one is missing if the line ends first. -/
  | literal (text : Text)
  /-- A digit and the letters, digits, underscores and points that follow it. -/
  | number (text : Text)
  | mark (c : Char)
  deriving DecidableEq, Repr

/-- New names for some identifiers; of two entries for one name the first counts. -/
abbrev Renaming := List (Text × Text)

namespace Token

/-- The characters of a token. -/
def text : Token → Text
  | .identifier t => t
  | .literal t => t
  | .number t => t
  | .mark c => [c]

/-- The text that the tokens make. -/
def concat (ts : List Token) : Text :=
  ts.flatMap text

/-- Splits what follows an opening `quote` after the closing one. A backslash keeps the next
character from closing. -/
def afterQuote (quote : Char) : Bool → Text → Text × Text
  | _, [] => ([], [])
  | escaped, c :: r =>
      if !escaped && c = quote then ([c], r)
      else
        let (a, b) := afterQuote quote (!escaped && c = '\\') r
        (c :: a, b)

/-- What a literal has behind its opening quote, and what follows it, make the text. -/
theorem append_afterQuote (q : Char) (e : Bool) (s : Text) :
    (afterQuote q e s).1 ++ (afterQuote q e s).2 = s := by
  induction s generalizing e with
  | nil => rfl
  | cons c r ih =>
    unfold afterQuote
    split
    · rfl
    · simp [ih]

/-- May stand inside a number. -/
def inNumber (c : Char) : Bool :=
  Text.inName c || c == '.'

/-- The first token of a text that begins with `c`, and what follows it. -/
def first (c : Char) (r : Text) : Token × Text :=
  if Text.startsName c then (.identifier (c :: r.takeWhile Text.inName), r.dropWhile Text.inName)
  else if c = '"' ∨ c = '\'' then
    (.literal (c :: (afterQuote c false r).1), (afterQuote c false r).2)
  else if c.isDigit then (.number (c :: r.takeWhile inNumber), r.dropWhile inNumber)
  else (.mark c, r)

/-- The first token and what is left of the text make the text. -/
theorem text_first (c : Char) (r : Text) : (first c r).1.text ++ (first c r).2 = c :: r := by
  unfold first
  split
  · simp [text]
  · split
    · simp [text, append_afterQuote]
    · split <;> simp [text]

/-- A token has a character. -/
theorem length_first (c : Char) (r : Text) : (first c r).2.length < (c :: r).length := by
  have h := congrArg List.length (text_first c r)
  have : 0 < (first c r).1.text.length := by
    unfold first
    split
    · simp [text]
    · split
      · simp [text]
      · split <;> simp [text]
  simp only [List.length_append] at h
  omega

end Token

namespace Text

/-- The tokens of a text, in order. -/
def tokens (s : Text) : List Token :=
  match s with
  | [] => []
  | c :: r => (Token.first c r).1 :: tokens (Token.first c r).2
termination_by s.length
decreasing_by exact Token.length_first c r

/-- The tokens of a text make the text. -/
theorem concat_tokens (s : Text) : Token.concat (tokens s) = s := by
  fun_induction tokens s with
  | case1 => rfl
  | case2 c r ih =>
    rw [Token.concat, List.flatMap_cons, ← Token.concat, ih]
    exact Token.text_first c r

end Text

namespace Renaming

/-- The new name of an identifier, or the identifier itself. -/
def apply (m : Renaming) (name : Text) : Text :=
  (m.lookup name).getD name

/-- A token with its name renamed, if it is an identifier. -/
def token (m : Renaming) : Token → Token
  | .identifier t => .identifier (m.apply t)
  | t => t

/-- A text with all its identifiers renamed. -/
def text (m : Renaming) (s : Text) : Text :=
  Token.concat ((Text.tokens s).map m.token)

end Renaming

end VectorWrap
