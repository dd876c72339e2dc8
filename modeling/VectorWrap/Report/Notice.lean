import VectorWrap.Files.Path
import VectorWrap.Report.Style

/-!
# Notices

What a run says while it goes on, line by line. A quiet run says nothing of single files and units
unless something fails.
-/

namespace VectorWrap

/-- Where a notice goes. -/
inductive Channel where
  | out
  | err
  deriving DecidableEq, Repr

/-- A line of output, without its line feed. -/
structure Notice where
  channel : Channel
  text : Text
  deriving DecidableEq, Repr

namespace Notice

/-- Notices that are left out when quiet. -/
def unlessQuiet (s : Style) (notices : List Notice) : List Notice :=
  if s.quiet then [] else notices

/-- A wrapper has been generated. -/
def generated (s : Style) (name detail : Text) : List Notice :=
  unlessQuiet s
    [⟨.out, s.paint [.green] "generated" ++ " " ++ name ++ "  " ++ s.paint [.dim] detail⟩]

/-- A wrapper has been skipped. -/
def skipped (s : Style) (name reason : Text) : List Notice :=
  unlessQuiet s [⟨.out, s.paint [.dim] "skipped  " ++ " " ++ name ++ "  (" ++ reason ++ ")"⟩]

/-- A wrapper could not be generated. -/
def failed (s : Style) (name message : Text) : List Notice :=
  [⟨.err, s.paint [.red] "failed   " ++ " " ++ name ++ ": " ++ message⟩]

/-- A file has been read. -/
def parsed (s : Style) (path : Path) (count : Nat) (what : Text) : List Notice :=
  unlessQuiet s
    [⟨.out, "  parsed " ++ path.text ++ ": " ++ Text.decimal count ++ " " ++ what⟩]

/-- A run has come to its end. -/
def success (s : Style) (count : Nat) (header source : Path) : List Notice :=
  [⟨.out, s.paint [.bold, .green]
    (Text.decimal count ++ " units  -> " ++ header.text ++ ", " ++ source.text)⟩]

/-- An error. -/
def error (s : Style) (message : Text) : List Notice :=
  [⟨.err, s.paint [.red] message⟩]

/-- A warning. -/
def warning (s : Style) (message : Text) : List Notice :=
  [⟨.err, s.paint [.yellow] message⟩]

/-- A remark. -/
def info (s : Style) (message : Text) : List Notice :=
  unlessQuiet s [⟨.err, s.paint [.blue] message⟩]

end Notice

end VectorWrap
