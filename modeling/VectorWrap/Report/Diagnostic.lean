import VectorWrap.Report.Notice
import VectorWrap.Text.Position

/-!
# Diagnostics

What a run has to say of its inputs: errors, warnings and notes, each with a code and the name of a
file, many with a range in one of the sources that were read. Where the source is known a diagnostic
is shown by its title, elsewhere by one line with all that it says.
-/

namespace VectorWrap

/-- How much a diagnostic matters. -/
inductive Severity where
  | error
  | warning
  | note
  deriving DecidableEq, Repr

namespace Severity

/-- The word for the severity. -/
def word : Severity → Text
  | .error => "error"
  | .warning => "warning"
  | .note => "note"

/-- The word for the severity in titles. -/
def title : Severity → Text
  | .error => "Error"
  | .warning => "Warning"
  | .note => "Advice"

/-- The colour of titles. -/
def accent : Severity → Accent
  | .error => .red
  | .warning => .yellow
  | .note => .lilac

end Severity

/-- A remark on an input. -/
structure Diagnostic where
  severity : Severity
  code : Text
  /-- The file as messages name it. -/
  file : Text
  span? : Option Span
  message : Text
  deriving DecidableEq, Repr

/-- A text that has been read, with the name of its file. -/
structure Source where
  name : Text
  text : Text
  deriving DecidableEq, Repr

namespace Diagnostic

/-- A range as messages show it. -/
def spanText : Option Span → Text
  | none => []
  | some s => " @" ++ Text.decimal s.start ++ ".." ++ Text.decimal s.stop

/-- All that a diagnostic says, in one line. -/
def display (d : Diagnostic) : Text :=
  "[" ++ d.severity.word ++ " " ++ d.code ++ "] " ++ d.file ++ spanText d.span? ++ ": " ++ d.message

/-- The title of a diagnostic whose source is known. -/
def title (colours : Bool) (d : Diagnostic) : Text :=
  Style.paint ⟨colours, false⟩ [d.severity.accent]
    ("[" ++ d.code ++ "] " ++ d.severity.title ++ ":")
    ++ " " ++ d.message

/-- The number of diagnostics of a severity. -/
def count (s : Severity) (ds : List Diagnostic) : Nat :=
  ds.countP (·.severity == s)

/-- The range of a diagnostic, if it lies in a source that has been read. -/
def located? (sources : List Source) (d : Diagnostic) : Option Span := do
  let span ← d.span?
  let file ← span.file
  let _ ← sources[file]?
  pure span

/-- How a diagnostic is shown. -/
def render (colours : Bool) (sources : List Source) (d : Diagnostic) : Except Fault Notice :=
  match d.located? sources with
  | none => .ok ⟨.err, d.display⟩
  | some span =>
      if span.stop < span.start then .error .reversedRange else .ok ⟨.err, d.title colours⟩

end Diagnostic

end VectorWrap
