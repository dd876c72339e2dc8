import VectorWrap.Project.Settings
import VectorWrap.Files.System
import VectorWrap.Wrapper.Layout

/-!
# Projects

What one run works with, made out of a configuration file and of the directories that the
environment names. Relative paths in the file are seen from the directory that the file is in. A
file that cannot be read says nothing; a malformed one says nothing either, and there is a warning.

What the file leaves out has a default. Directories that the environment names go before those of
the file; the names of the structure and of the generated files are made into identifiers, and a
blank one counts as not given.
-/

namespace VectorWrap

/-- What one run works with. -/
structure Project where
  /-- Where relative paths of the configuration begin. -/
  root : Path := "."
  structName : Text := "TemporaryStruct"
  /-- The name of the generated files, without what tells header from source. -/
  moduleName : Text := "generated_functions"
  policy : PlaceholderPolicy := .warn
  /-- Where the declaration scripts are. -/
  sqlDir? : Option Path := none
  /-- Where the C sources are. -/
  sourceDir? : Option Path := none
  /-- The project that gets copies of the generated files, if there is one. -/
  projectRoot? : Option Path := none
  /-- The directory for the header in that project. -/
  headerDest : Path := "src/include/gen"
  /-- The directory for the source in that project. -/
  sourceDest : Path := "src/gen"
  includes : List Text := Layout.defaultIncludes
  types : TypeTable := .base
  deriving Repr

namespace Project

/-! ### Paths -/

/-- The file that holds the configuration unless another is named. -/
def configFile : Path := "Generator.toml"

/-- Where a declaration script is. -/
def sqlPath (p : Project) (file : Path) : Path :=
  file.joinTo p.sqlDir?

/-- Where a C source is. -/
def sourcePath (p : Project) (file : Path) : Path :=
  file.joinTo p.sourceDir?

/-- The name of the generated header. -/
def headerName (p : Project) : Path :=
  ⟨p.moduleName ++ ".hpp"⟩

/-- The name of the generated source. -/
def sourceName (p : Project) : Path :=
  ⟨p.moduleName ++ ".cpp"⟩

/-- The directory that a configuration file is in. -/
def rootOf (config : Path) : Path :=
  match config.parent? with
  | some dir => if dir.text.isEmpty then "." else dir
  | none => "."

/-! ### Types -/

/-- The size of a described type, which is that of its header unless the description is
understood. -/
def sizeOf (b : BlobSetting) : BlobSize :=
  (b.size?.bind BlobSize.parse?).getD .varlena

/-- What is said about a description whose size is not understood. -/
def sizeWarning? (name : Text) (b : BlobSetting) : Option Text :=
  match b.size? with
  | none => none
  | some s =>
      if (BlobSize.parse? s).isSome then none
      else some ("[types.custom] " ++ name ++ ": unknown size " ++ Text.tick s ++ ", using varlena")

/-- The type table with the described types, the scalars last. -/
def typesOf (s : Settings) : TypeTable :=
  let withBlobs := s.blobs.foldl (fun t (name, b) => t.addBlob name ⟨b.cType, sizeOf b⟩) .base
  s.scalars.foldl (fun t (name, host) => t.addScalar name host) withBlobs

/-! ### Configuration -/

/-- A name made out of a setting, unless that is blank. -/
def nameOf? (setting? : Option Text) : Option Text :=
  match setting? with
  | some s => if (Text.trim s).isEmpty then none else some (Text.toName s)
  | none => none

/-- The project that settings describe. -/
def ofSettings (root : Path) (sqlDir? sourceDir? : Option Path) (s : Settings) : Project :=
  let base : Project := {}
  { root
    structName := (nameOf? s.structName?).getD base.structName
    moduleName := (nameOf? s.moduleName?).getD base.moduleName
    policy := s.policy?.getD base.policy
    sqlDir? := sqlDir? <|> s.sqlDir?.map root.join
    sourceDir? := sourceDir? <|> s.sourceDir?.map root.join
    projectRoot? := s.projectRoot?.map root.join
    headerDest := s.headerDest?.getD base.headerDest
    sourceDest := s.sourceDest?.getD base.sourceDest
    includes := s.includes?.getD base.includes
    types := typesOf s }

/-- What is said about a malformed configuration file. -/
def malformed (config : Path) : Text :=
  "parse " ++ Text.tick config.text ++ " as TOML failed"

/-- What a configuration file says, and the warnings about it. -/
def settingsOf (config : Path) : Except FileError Text → Settings × List Text
  | .error _ => ({}, [])
  | .ok content =>
      match Settings.read? content with
      | none => ({}, [malformed config])
      | some s => (s, s.blobs.filterMap fun (name, b) => sizeWarning? name b)

/-- The project of a configuration file, and the warnings about it. Directories that the environment
names go before those of the file. -/
def configure (config : Input) (sqlDir? sourceDir? : Option Path) : Project × List Text :=
  let (s, warnings) := settingsOf config.path config.content
  (ofSettings (rootOf config.path) sqlDir? sourceDir? s, warnings)

end Project

end VectorWrap
