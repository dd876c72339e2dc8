import VectorWrap.Text.Basic

/-!
# Positions

Positions in a source are counted in bytes of its UTF-8 form and lines from one. A cut at a byte
that lies inside a character has no result: `Fault` says so, and whoever cuts passes it on. The same
holds of what cannot be shown.
-/

namespace VectorWrap

/-- Why something cannot be done with positions. -/
inductive Fault where
  /-- A cut was asked for at a byte inside a character. -/
  | insideCharacter
  /-- A range that ends before it begins was to be shown. -/
  | reversedRange
  deriving DecidableEq, Repr

/-- The fault in words. -/
def Fault.message : Fault → Text
  | .insideCharacter => "cannot cut a text inside a character"
  | .reversedRange => "cannot show a range that ends before it begins"

namespace Text

/-- The number of bytes of a text's UTF-8 form. -/
def byteLength : Text → Nat
  | [] => 0
  | c :: r => c.utf8Size + byteLength r

/-- The characters of the first `n` bytes, or all of them if there are fewer. -/
def takeBytes : Nat → Text → Except Fault Text
  | 0, _ => .ok []
  | _ + 1, [] => .ok []
  | n + 1, c :: r =>
      if c.utf8Size ≤ n + 1 then (takeBytes (n + 1 - c.utf8Size) r).map (c :: ·)
      else .error .insideCharacter

/-- One more than the number of line feeds of a text: the line on which what follows it begins. -/
def nextLine (s : Text) : Nat :=
  s.count '\n' + 1

/-- The line of a byte offset; an offset past the end stands for the end. -/
def lineAt (s : Text) (offset : Nat) : Except Fault Nat :=
  (takeBytes offset s).map nextLine

/-- The part of `s` that was read when `rest` is left. -/
def upTo (s rest : Text) : Text :=
  s.take (s.length - rest.length)

end Text

/-- A half-open range of bytes in the source file with the given number. -/
structure Span where
  file : Option Nat
  start : Nat
  stop : Nat
  deriving DecidableEq, Repr

namespace Span

/-- The two ranges share a byte; an empty range shares none with one that ends or begins there. -/
def overlaps (a b : Span) : Bool :=
  !(a.stop ≤ b.start || a.start ≥ b.stop)

/-- The range between two positions of `source`, each given by what is left there. -/
def between (file : Option Nat) (source here rest : Text) : Span :=
  ⟨file, Text.byteLength source - Text.byteLength here,
    Text.byteLength source - Text.byteLength rest⟩

end Span

end VectorWrap
