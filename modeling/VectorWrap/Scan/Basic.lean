import VectorWrap.Text.Identifier
import VectorWrap.Text.Position

/-!
# Scanners

A scanner reads the beginning of a text: it fails, or gives a value and what is left. Scanners are
greedy and take the first alternative that reads, so what one reads does not depend on what comes
after it. `many` and `sweep` go on only while something is consumed (`progress`), hence end on
every text.

A sweep is what reads a whole text: at each place it takes an item, or else a gap, or else one
character. What it gives are the items with the text before and behind each, from which ranges are
counted.
-/

namespace VectorWrap

/-- Reads the beginning of a text. -/
abbrev Scan (α : Type) := StateT Text Option α

/-- Something read in a text, with what was left before and after it. -/
structure Found (α : Type) where
  value : α
  here : Text
  rest : Text
  deriving DecidableEq, Repr

namespace Scan

/-! ### Single steps -/

/-- Skips spaces, tabs and line breaks. -/
def layout : Scan Unit := fun s => some ((), s.dropWhile Text.isLayout)

/-- Reads exactly `w`. -/
def exactly (w : Text) : Scan Unit := fun s => (Text.after? w s).map fun r => ((), r)

/-- Reads `w` after skipping layout. -/
def symbol (w : Text) : Scan Unit := do
  layout
  exactly w

/-- Reads the longest run of characters that satisfy `p`. -/
def run (p : Char → Bool) : Scan Text := fun s => some (s.takeWhile p, s.dropWhile p)

/-- Reads the longest run of characters that satisfy `p`, which must not be empty. -/
def run1 (p : Char → Bool) : Scan Text := fun s =>
  match s with
  | [] => none
  | c :: r => if p c then some (c :: r.takeWhile p, r.dropWhile p) else none

/-- Reads one character that satisfies `p`. -/
def one (p : Char → Bool) : Scan Char := fun s =>
  match s with
  | [] => none
  | c :: r => if p c then some (c, r) else none

/-- Reads an identifier. -/
def name : Scan Text := fun s =>
  match s with
  | [] => none
  | c :: r =>
      if Text.startsName c then some (c :: r.takeWhile Text.inName, r.dropWhile Text.inName)
      else none

/-- Reads an identifier after skipping layout. -/
def ident : Scan Text := do
  layout
  name

/-- Reads the word `w`, given in small letters, in any letter case, after skipping layout. The word
must not go on. -/
def keyword (w : Text) : Scan Unit := do
  layout
  let t ← run Text.inName
  guard (Text.lower t = w)

/-- Reads the word `w` as it is written, after skipping layout. The word must not go on. -/
def exactWord (w : Text) : Scan Unit := do
  layout
  let t ← run Text.inName
  guard (t = w)

/-- Reads the rest of the text if it is empty. -/
def atEnd : Scan Unit := fun s => if s.isEmpty then some ((), s) else none

/-! ### Reading up to something -/

/-- Splits a text at the first occurrence of `w`, which belongs to neither part. -/
def splitAt? (w : Text) : Text → Option (Text × Text)
  | [] => if w.isEmpty then some ([], []) else none
  | c :: r =>
      match Text.after? w (c :: r) with
      | some t => some ([], t)
      | none => (splitAt? w r).map fun (a, b) => (c :: a, b)

/-- Reads up to and with the next `w`; gives the text before it. -/
def upTo (w : Text) : Scan Text := fun s => splitAt? w s

/-- Splits a text at the `)` that closes the parenthesis opened before it, which belongs to neither
part; `depth` more have been opened since. -/
def closing? (depth : Nat) : Text → Option (Text × Text)
  | [] => none
  | c :: r =>
      if c = '(' then (closing? (depth + 1) r).map fun (a, b) => (c :: a, b)
      else if c = ')' then
        match depth with
        | 0 => some ([], r)
        | d + 1 => (closing? d r).map fun (a, b) => (c :: a, b)
      else (closing? depth r).map fun (a, b) => (c :: a, b)

/-- Reads a parenthesised text, parentheses balanced; gives what stands inside, without the layout
at its beginning. -/
def parenthesised : Scan Text := do
  symbol "("
  layout
  fun s => closing? 0 s

/-! ### Combining scanners -/

/-- Succeeds where `p` reads something, and reads nothing. -/
def ahead {α : Type} (p : Scan α) : Scan Unit := fun s => (p s).map fun _ => ((), s)

/-- Succeeds where `p` fails, and reads nothing. -/
def absent {α : Type} (p : Scan α) : Scan Unit := fun s =>
  match p s with
  | some _ => none
  | none => some ((), s)

/-- Reads what `p` reads, or nothing where it fails. -/
def orNone {α : Type} (p : Scan α) : Scan (Option α) := fun s =>
  match p s with
  | some (a, r) => some (some a, r)
  | none => some (none, s)

/-- Reads with `p` and gives the text that it read. -/
def lexeme {α : Type} (p : Scan α) : Scan Text := fun s =>
  (p s).map fun (_, r) => (Text.upTo s r, r)

/-- Runs a scanner and keeps its result only if it consumed something. -/
def progress {α : Type} (p : Scan α) (s : Text) :
    Option (α × { r : Text // r.length < s.length }) :=
  match p s with
  | none => none
  | some (a, r) => if h : r.length < s.length then some (a, ⟨r, h⟩) else none

/-- Reads with `p` again and again until it fails. -/
def repeated {α : Type} (p : Scan α) (s : Text) : List α × Text :=
  match progress p s with
  | none => ([], s)
  | some (a, ⟨r, _⟩) =>
      let (as, t) := repeated p r
      (a :: as, t)
termination_by s.length

/-- Reads with `p` as often as it can. -/
def many {α : Type} (p : Scan α) : Scan (List α) := fun s => some (repeated p s)

/-- Reads with `p` at least once and as often as it can. -/
def many1 {α : Type} (p : Scan α) : Scan (List α) := do
  let a ← p
  let as ← many p
  pure (a :: as)

/-- Everything that `item` reads in a text, from left to right. Layout between two things is
skipped; where `item` fails, what `gap` reads is passed over, and one character where `gap` fails
too. -/
def sweep {α : Type} (item : Scan α) (gap : Scan Unit) (s : Text) : List (Found α) :=
  match _h : s.dropWhile Text.isLayout with
  | [] => []
  | c :: r =>
      match progress item (c :: r) with
      | some (a, ⟨rest, _⟩) => ⟨a, c :: r, rest⟩ :: sweep item gap rest
      | none =>
          match progress gap (c :: r) with
          | some (_, ⟨rest, _⟩) => sweep item gap rest
          | none => sweep item gap r
termination_by s.length
decreasing_by
  all_goals
    have hs := Text.length_dropWhile_le Text.isLayout s
    simp only [_h, List.length_cons] at *
    omega

end Scan

namespace Found

/-- The text that was read. -/
def text {α : Type} (f : Found α) : Text :=
  Text.upTo f.here f.rest

/-- Where in `source` the thing was read. -/
def span {α : Type} (f : Found α) (file : Option Nat) (source : Text) : Span :=
  Span.between file source f.here f.rest

end Found

end VectorWrap
