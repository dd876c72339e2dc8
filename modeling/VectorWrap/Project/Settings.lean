import VectorWrap.Files.Path
import VectorWrap.Toml.Document
import VectorWrap.Wrapper.Closure

/-!
# Settings

What a configuration file says. Every setting may be left out and unknown ones are passed over, but
a value of the wrong form makes the whole file worthless. A group of settings is a table; written as
an array it gives the settings in their order, and a moment is a group without settings.

What a value may be is given by its form, a function that reads it or refuses it; `setting` allows
for its absence. A refusal anywhere refuses the file, so `ofTable?` is one chain of forms.
-/

namespace VectorWrap

/-- A type that is bytes in vectors, as a configuration file describes it. -/
structure BlobSetting where
  cType : Text
  /-- The text of the size, not yet read. -/
  size? : Option Text
  deriving DecidableEq, Repr

/-- What a configuration file says. -/
structure Settings where
  structName? : Option Text := none
  moduleName? : Option Text := none
  policy? : Option PlaceholderPolicy := none
  sqlDir? : Option Path := none
  sourceDir? : Option Path := none
  projectRoot? : Option Path := none
  headerDest? : Option Path := none
  sourceDest? : Option Path := none
  includes? : Option (List Text) := none
  /-- By name, in the order of the names. -/
  blobs : List (Text × BlobSetting) := []
  /-- By name, in the order of the names. -/
  scalars : List (Text × Text) := []
  deriving Repr

namespace Settings
open Toml (Value)

/-! ### Forms of values -/

/-- A value that must have a certain form if it is there. -/
def setting {α : Type} (form : Value → Option α) : Option Value → Option (Option α)
  | none => some none
  | some v => (form v).map some

/-- A text. -/
def text : Value → Option Text
  | .string t => some t
  | _ => none

/-- A path. -/
def path (v : Value) : Option Path :=
  (text v).map Path.mk

/-- A list of texts. -/
def texts : Value → Option (List Text)
  | .array items _ => items.mapM text
  | _ => none

/-- A table without entries, or an array without items. -/
def isEmpty : Value → Bool
  | .table entries _ => entries.isEmpty
  | .array items _ => items.isEmpty
  | _ => false

/-- The word of a choice: a text, or the key of a table with that one key and nothing under it. -/
def word : Value → Option Text
  | .string t => some t
  | .table [(k, v)] _ => if isEmpty v then some k else none
  | _ => none

/-- What is to be done about bodies without a shape. -/
def policy (v : Value) : Option PlaceholderPolicy := do
  let w ← word v
  if w = "warn".toList then some .warn
  else if w = "deny".toList then some .deny
  else none

/-- The settings of a group with the given names. -/
def group (names : List Text) : Value → Option (List (Option Value))
  | .table entries _ => some (names.map fun n => entries.lookup n)
  | .array items _ => some (names.zipIdx.map fun (_, i) => items[i]?)
  | .date => some (names.map fun _ => none)
  | _ => none

/-- The settings of a group that may be left out. -/
def groupOf (names : List Text) : Option Value → Option (List (Option Value))
  | none => some (names.map fun _ => none)
  | some v => group names v

/-- The entries of a table of things of one form, in the order of their names. A moment has no
entries, and stands only where things are texts. -/
def named {α : Type} (form : Value → Option α) : Option Value → Option (List (Text × α))
  | none => some []
  | some (.table entries _) =>
      (entries.mergeSort fun a b => !decide (b.1 < a.1)).mapM fun (k, v) => (form v).map (k, ·)
  | some .date => (form (.string [])).map fun _ => []
  | some _ => none

/-- A type that is bytes in vectors. -/
def blob (v : Value) : Option BlobSetting := do
  match ← group ["c_type", "size"] v with
  | [some cType, size?] => pure ⟨← text cType, ← setting text size?⟩
  | _ => none

/-! ### Files -/

/-- What a document says. -/
def ofTable? (t : Toml.Table) : Option Settings := do
  match ← groupOf ["struct_name", "module", "placeholder"] (t.get? "generator"),
    ← groupOf ["sql_dir", "src_dir", "project_root", "header_dest", "source_dest"] (t.get? "paths"),
    ← groupOf ["includes"] (t.get? "emit"), ← groupOf ["custom", "scalar"] (t.get? "types") with
  | [structName, moduleName, placeholder], [sqlDir, sourceDir, root, headerDest, sourceDest],
    [includes], [custom, scalar] =>
      pure {
        structName? := ← setting text structName
        moduleName? := ← setting text moduleName
        policy? := ← setting policy placeholder
        sqlDir? := ← setting path sqlDir
        sourceDir? := ← setting path sourceDir
        projectRoot? := ← setting path root
        headerDest? := ← setting path headerDest
        sourceDest? := ← setting path sourceDest
        includes? := ← setting texts includes
        blobs := ← named blob custom
        scalars := ← named text scalar }
  | _, _, _, _ => none

/-- What a file with the given text says, unless it is malformed. -/
def read? (s : Text) : Option Settings := do
  ofTable? (← Toml.read? s)

end Settings

end VectorWrap
