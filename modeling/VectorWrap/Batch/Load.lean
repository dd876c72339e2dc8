import VectorWrap.Batch.Session
import VectorWrap.Declaration.Script
import VectorWrap.Implementation.Source

/-!
# Loading

Reading the inputs of a run, in the order in which they are given. An input that cannot be read is
reported and counts as empty.
-/

namespace VectorWrap.Batch

/-- What is said of an input that cannot be read. -/
def unreadable (path : Path) (cause : FileError) : Text :=
  "warning: cannot read " ++ Text.tick path.text ++ ": " ++ cause.message

/-- What is reported of an input that cannot be read. -/
def unreadableWarning (path : Path) (cause : FileError) : Diagnostic :=
  ⟨.warning, "W0001", path.text, none, "cannot read file: " ++ cause.message⟩

/-- The text of an input with the number of its source, or none if it cannot be read. -/
def fetch (style : Style) (i : Input) : Batch (Option (Nat × Text)) := do
  match i.content with
  | .ok text =>
      let file ← addSource ⟨i.path.text, text⟩
      pure (some (file, text))
  | .error e =>
      say (Notice.warning style (unreadable i.path e))
      report [unreadableWarning i.path e]
      pure none

/-! ### Declarations -/

/-- Loads a declaration script. -/
def loadScript (style : Style) (i : Input) : Batch Script := do
  match ← fetch style i with
  | none => pure {}
  | some (file, text) =>
      let script := Script.parse (some file) text
      say (Notice.parsed style i.path script.declarations.length "functions")
      pure script

/-- Loads declaration scripts as one. -/
def loadDeclarations (style : Style) : List Input → Batch Script
  | [] => pure {}
  | i :: rest => do
      let script ← loadScript style i
      let others ← loadDeclarations style rest
      pure (script ++ others)

/-! ### Implementations -/

/-- What is reported of an exported symbol without a definition. -/
def droppedNote (path : Path) (symbol : Text) : Diagnostic :=
  ⟨.note, "N0001", path.text, none, Text.tick symbol ++ " is exported but has no body"⟩

/-- Loads a C source. -/
def loadSource (style : Style) (i : Input) : Batch (List Implementation) := do
  match ← fetch style i with
  | none => pure []
  | some (file, text) =>
      let source ← orStop (NativeSource.parse (some file) text)
      say (Notice.parsed style i.path source.functions.length "functions")
      report (source.dropped.map (droppedNote i.path))
      pure source.functions

/-- Loads the functions of C sources. -/
def loadNatives (style : Style) : List Input → Batch (List Implementation)
  | [] => pure []
  | i :: rest => do
      let functions ← loadSource style i
      let others ← loadNatives style rest
      pure (functions ++ others)

end VectorWrap.Batch
