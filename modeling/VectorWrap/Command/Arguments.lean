import VectorWrap.Files.Path

/-!
# Command line arguments

An option takes the word after it, or what follows `=`; a list option takes all words up to the next
option. What an option has collected is checked when the next option or switch is read, or at the
end, so of two errors the one that is found first counts. A word that begins with a dash is never
the value of an option.

The options are told apart by what they take (`isSwitch`, `isList`, `isPath`), and one reading
serves them all. The state of the reading keeps the option whose values are being read, since where
they end is only known from the next word.
-/

namespace VectorWrap

/-- What a run is asked for on the command line. -/
structure Arguments where
  outputDir : Path := "generated"
  /-- Declaration scripts. -/
  sqlFiles : List Path := []
  /-- C sources. -/
  sources : List Path := []
  config? : Option Path := none
  structName? : Option Text := none
  moduleName? : Option Text := none
  quiet : Bool := false
  dryRun : Bool := false
  deriving DecidableEq, Repr

/-- Why a command line is not understood. -/
inductive UsageError where
  /-- A value is missing, or is an empty path. -/
  | invalidValue
  /-- A word is no option and belongs to none. -/
  | unknownArgument
  /-- An option or a switch that may stand once is repeated. -/
  | repeated
  /-- A switch is given a value. -/
  | unneededValue
  /-- Help is asked for. -/
  | helpWanted
  deriving DecidableEq, Repr

namespace Arguments

/-- What may be given by a name with two dashes before it. -/
inductive Parameter where
  | outputDir
  | sqlFiles
  | sources
  | config
  | structName
  | moduleName
  | quiet
  | dryRun
  | help
  deriving DecidableEq, Repr

namespace Parameter

/-- The names of the parameters. -/
def names : List (Text × Parameter) :=
  [("output-dir", .outputDir), ("sql-files", .sqlFiles), ("c-files", .sources),
    ("config", .config), ("struct-name", .structName), ("module", .moduleName), ("quiet", .quiet),
    ("dry-run", .dryRun), ("help", .help)]

/-- Takes no value. -/
def isSwitch : Parameter → Bool
  | .quiet | .dryRun | .help => true
  | .outputDir | .sqlFiles | .sources | .config | .structName | .moduleName => false

/-- Takes any number of values, and may stand more than once. -/
def isList : Parameter → Bool
  | .sqlFiles | .sources => true
  | .outputDir | .config | .structName | .moduleName | .quiet | .dryRun | .help => false

/-- Its values are paths. -/
def isPath : Parameter → Bool
  | .outputDir | .sqlFiles | .sources | .config => true
  | .structName | .moduleName | .quiet | .dryRun | .help => false

/-- Puts values into arguments. -/
def set (p : Parameter) (values : List Text) (a : Arguments) : Arguments :=
  let paths := values.map Path.mk
  match p with
  | .outputDir => { a with outputDir := paths.head?.getD a.outputDir }
  | .sqlFiles => { a with sqlFiles := a.sqlFiles ++ paths }
  | .sources => { a with sources := a.sources ++ paths }
  | .config => { a with config? := paths.head? }
  | .structName => { a with structName? := values.head? }
  | .moduleName => { a with moduleName? := values.head? }
  | .quiet => { a with quiet := true }
  | .dryRun => { a with dryRun := true }
  | .help => a

end Parameter

/-! ### Words -/

/-- What a word of the command line looks like. -/
inductive Word where
  /-- Two dashes and nothing else. -/
  | dashes
  /-- A name with two dashes before it, and what follows `=`. -/
  | long (name : Text) (value? : Option Text)
  /-- Letters with one dash before them. -/
  | short (first : Char)
  | value (text : Text)
  deriving DecidableEq, Repr

/-- What the word looks like. A dash alone is a value. -/
def Word.ofText : Text → Word
  | ['-', '-'] => .dashes
  | '-' :: '-' :: rest =>
      match Text.cut? '=' rest with
      | some (name, v) => .long name (some v)
      | none => .long rest none
  | '-' :: c :: _ => .short c
  | t => .value t

/-! ### Reading -/

/-- How far a command line has been read. -/
structure Reading where
  arguments : Arguments := {}
  /-- The parameters that have been given. -/
  given : List Parameter := []
  /-- The parameter whose values are being read, with those read so far. -/
  pending? : Option (Parameter × List Text) := none
  deriving Repr

namespace Reading

/-- Gives a parameter its values. -/
def give (p : Parameter) (values : List Text) (r : Reading) : Except UsageError Reading :=
  if !p.isSwitch && !p.isList && values.isEmpty then .error .invalidValue
  else if !p.isList && r.given.contains p then .error .repeated
  else if p.isPath && values.any List.isEmpty then .error .invalidValue
  else .ok { r with arguments := p.set values r.arguments, given := p :: r.given }

/-- Gives the pending parameter its values. -/
def settle (r : Reading) : Except UsageError Reading :=
  match r.pending? with
  | none => .ok r
  | some (p, values) => give p values { r with pending? := none }

/-- Reads a parameter, with the value after `=` if there is one. -/
def readParameter (p : Parameter) (value? : Option Text) (r : Reading) :
    Except UsageError Reading :=
  match value? with
  | some v =>
      if p.isSwitch then .error .unneededValue
      else do
        let r ← r.settle
        give p [v] r
  | none => do
      let r ← r.settle
      if p = .help then .error .helpWanted
      else if p.isSwitch then give p [] r
      else pure { r with pending? := some (p, []) }

/-- Reads a value, which must belong to the pending parameter. -/
def readValue (v : Text) (r : Reading) : Except UsageError Reading :=
  match r.pending? with
  | none => .error .unknownArgument
  | some (p, values) =>
      if p.isList || values.isEmpty then .ok { r with pending? := some (p, values ++ [v]) }
      else .error .unknownArgument

/-- Reads a word that is not two dashes alone. -/
def readWord (w : Word) (r : Reading) : Except UsageError Reading :=
  match w with
  | .dashes => .error .unknownArgument
  | .long name value? =>
      match Parameter.names.lookup name with
      | some p => r.readParameter p value?
      | none => .error .unknownArgument
  | .short c => if c = 'h' then r.readParameter .help none else .error .unknownArgument
  | .value v => r.readValue v

/-- Reads words. After two dashes alone no word is understood. -/
def readAll : List Text → Reading → Except UsageError Reading
  | [], r => r.settle
  | t :: ts, r =>
      match Word.ofText t with
      | .dashes => if ts.isEmpty then r.settle else .error .unknownArgument
      | w => do
          let r ← r.readWord w
          readAll ts r

end Reading

/-- Reads the words of a command line, without the name of the program. -/
def parse (words : List Text) : Except UsageError Arguments :=
  (Reading.readAll words {}).map (·.arguments)

end Arguments

end VectorWrap
