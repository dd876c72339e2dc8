import VectorWrap.Text.Basic

/-!
# Styles of output

Whether lines are coloured is decided by three variables of the environment, of which the first that
says something counts.
-/

namespace VectorWrap

/-- How a run speaks. -/
structure Style where
  colours : Bool
  /-- Nothing is said of single units. -/
  quiet : Bool
  deriving DecidableEq, Repr

/-- A way to set off a text on a terminal. -/
inductive Accent where
  | red
  | green
  | yellow
  | blue
  | lilac
  | dim
  | bold
  deriving DecidableEq, Repr

namespace Accent

/-- The parameter of the control sequence that begins the accent. -/
def parameter : Accent → Text
  | .red => "31"
  | .green => "32"
  | .yellow => "33"
  | .blue => "34"
  | .lilac => "38;5;147"
  | .dim => "2"
  | .bold => "1"

/-- A control sequence with the given parameter. -/
def control (parameter : Text) : Text :=
  Char.ofNat 0x1B :: '[' :: parameter ++ "m"

end Accent

namespace Style

/-- Lines are coloured. `NO_COLOR` with any value forbids it; then `FORCE_COLOR` demands it, or
forbids it with `0`; then the terminal `dumb` forbids it. -/
def wantsColours (noColor? force? term? : Option Text) : Bool :=
  match noColor?, force? with
  | some _, _ => false
  | none, some f => f != "0".toList
  | none, none => term? != some "dumb".toList

/-- A text with accents, if there are colours. -/
def paint (s : Style) (accents : List Accent) (t : Text) : Text :=
  if s.colours then
    accents.flatMap (fun a => Accent.control a.parameter) ++ t ++ Accent.control "0"
  else t

end Style

end VectorWrap
