import VectorWrap.Batch.Run
import VectorWrap.Command.Arguments

/-!
# The command

What the program does with a command line that is understood: it configures a project, runs it and
says how that went. Everything that was reported of the inputs is said before the outcome.

There are four ways to end: with code 0 after a run or for help, with 1 if the run fails, with 2 for
a command line that is not understood, and with 101 for a fault. A fault is told without the
diagnostics, which may be what cannot be shown.
-/

namespace VectorWrap

/-- What the program sees of its surroundings. -/
structure Environment where
  /-- The current directory. -/
  here : Path
  noColor? : Option Text := none
  forceColor? : Option Text := none
  terminal? : Option Text := none
  /-- Where the declaration scripts are. -/
  sqlDir? : Option Path := none
  /-- Where the C sources are. -/
  sourceDir? : Option Path := none
  deriving DecidableEq, Repr

/-- How the program ends. -/
structure Exit where
  code : Nat
  notices : List Notice
  deriving DecidableEq, Repr

namespace Command

/-- The style that is asked for. -/
def styleOf (env : Environment) (a : Arguments) : Style :=
  ⟨Style.wantsColours env.noColor? env.forceColor? env.terminal?, a.quiet⟩

/-- The configuration file that is asked for. -/
def configOf (env : Environment) (a : Arguments) : Path :=
  a.config?.getD (env.here.join Project.configFile)

/-- The project with the names that the command line gives. -/
def override (a : Arguments) (p : Project) : Project :=
  { p with
    structName := (a.structName?.map Text.toName).getD p.structName
    moduleName := (a.moduleName?.map Text.toName).getD p.moduleName }

/-- The run that is asked for. -/
def requestOf (a : Arguments) : Request :=
  ⟨a.sqlFiles, a.sources, a.outputDir, a.dryRun⟩

/-- The counts of a run in words. -/
def countsText (s : Summary) (warnings : Nat) : Text :=
  Text.joinWith ", "
    [Text.decimal s.emitted ++ " emitted", Text.decimal s.skipped ++ " skipped",
      Text.decimal s.failed ++ " failed", Text.decimal s.placeholders ++ " placeholder(s)",
      Text.decimal warnings ++ " warning(s)"]

/-- What is said of a run that has written its files. The first two of them are those in the
directory for output. -/
def summaryNotices (style : Style) (a : Arguments) (p : Project) (s : Summary) (warnings : Nat) :
    List Notice :=
  Notice.info style (countsText s warnings)
    ++ Notice.success style s.emitted (p.headerIn a.outputDir) (p.sourceIn a.outputDir)
    ++ (s.written.drop 2).flatMap fun path => Notice.info style ("placed " ++ path.text)

/-- The end of a run that came upon a fault. -/
def faulted (said : List Notice) (f : Fault) : Exit :=
  ⟨101, said ++ [⟨.err, "fatal: " ++ f.message⟩]⟩

/-- The end of a run. -/
def exitOf (style : Style) (a : Arguments) (p : Project) (result : Except Failure Summary)
    (s : Session) : Exit :=
  match result with
  | .error (.fault f) => faulted s.notices f
  | _ =>
      match s.diagnostics.mapM (Diagnostic.render style.colours s.sources) with
      | .error f => faulted s.notices f
      | .ok shown =>
          let said := s.notices ++ shown
          match result with
          | .error e => ⟨1, said ++ Notice.error style ("error: " ++ e.message)⟩
          | .ok summary =>
              if a.dryRun then ⟨0, said⟩
              else
                let warnings := Diagnostic.count .warning s.diagnostics
                ⟨0, said ++ summaryNotices style a p summary warnings⟩

/-- Does what the arguments ask for. -/
def run {m : Type → Type} [Monad m] (fs : FileSystem m) (env : Environment) (a : Arguments) :
    m Exit := do
  let config := configOf env a
  let content ← fs.read config
  let (configured, warnings) := Project.configure ⟨config, content⟩ env.sqlDir? env.sourceDir?
  let p := override a configured
  let style := styleOf env a
  let said := warnings.flatMap fun w => Notice.warning style ("warning: " ++ w)
  let (result, s) ← Batch.run fs p style (requestOf a) { notices := said }
  pure (exitOf style a p result s)

/-! ### Usage -/

/-- What the program says of its use. -/
def usage : List Text :=
  ["Generate vectorized wrappers from SQL declarations and C sources",
    "",
    "Usage: vectorwrap [OPTIONS]",
    "",
    "Options:",
    "      --output-dir <DIR>        Directory for the generated files [default: generated]",
    "      --sql-files [<FILE>...]   Declaration scripts, seen from the script directory",
    "      --c-files [<FILE>...]     C sources, seen from the source directory",
    "      --config <FILE>           Configuration [default: Generator.toml]",
    "      --struct-name <NAME>      Name of the generated structure",
    "      --module <NAME>           Name of the generated files",
    "      --quiet                   Only say how the run went",
    "      --dry-run                 Only tell what is matched, and write nothing",
    "  -h, --help                    Print help"]

/-- What is wrong with a command line. -/
def usageMessage : UsageError → Text
  | .invalidValue => "a value is required for an option, and a path must not be empty"
  | .unknownArgument => "unexpected argument"
  | .repeated => "an option cannot be used multiple times"
  | .unneededValue => "unexpected value for a switch"
  | .helpWanted => "help"

/-- The end for a command line that is not understood, or that asks for help. -/
def usageExit : UsageError → Exit
  | .helpWanted => ⟨0, usage.map fun line => ⟨.out, line⟩⟩
  | e => ⟨2, [⟨.err, "error: " ++ usageMessage e⟩, ⟨.err, "For more information, try '--help'."⟩]⟩

/-- Does what a command line asks for. -/
def execute {m : Type → Type} [Monad m] (fs : FileSystem m) (env : Environment)
    (words : List Text) : m Exit :=
  match Arguments.parse words with
  | .error e => pure (usageExit e)
  | .ok a => run fs env a

end Command

end VectorWrap
