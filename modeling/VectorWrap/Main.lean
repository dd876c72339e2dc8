import VectorWrap.Command.Run

/-!
# The program

Runs the command on the files of the machine.
-/

namespace VectorWrap.Machine

/-- A text as the machine takes it. -/
def string (t : Text) : String :=
  String.ofList t

/-- The cause of an error of the machine. -/
def causeOf : IO.Error → FileError
  | .noFileOrDirectory .. => .notFound
  | .alreadyExists .. => .occupied
  | .inappropriateType .. => .notADirectory
  | e => .other e.toString.toList

/-- The outcome of an operation of the machine. -/
def outcome {α : Type} (io : IO α) : IO (Except FileError α) := do
  try
    let a ← io
    pure (.ok a)
  catch e => pure (.error (causeOf e))

/-- The text of a file. -/
def read (p : Path) : IO (Except FileError Text) := do
  match ← outcome (IO.FS.readBinFile (string p.text)) with
  | .error e => pure (.error e)
  | .ok bytes =>
      match String.fromUTF8? bytes with
      | some s => pure (.ok s.toList)
      | none => pure (.error .notText)

/-- Carries out an action. -/
def perform (a : FileAction) : IO (Except FileError Unit) :=
  match a with
  | .makeDirs p =>
      if p.text.isEmpty then pure (.ok ()) else outcome (IO.FS.createDirAll (string p.text))
  | .write p text => outcome (IO.FS.writeFile (string p.text) (string text))
  | .copy source target => outcome do
      let bytes ← IO.FS.readBinFile (string source.text)
      IO.FS.writeBinFile (string target.text) bytes

/-- The files of the machine. -/
def files : FileSystem IO := ⟨read, perform⟩

/-- A variable of the environment. -/
def environmentText? (name : String) : IO (Option Text) := do
  pure ((← IO.getEnv name).map String.toList)

/-- The surroundings of the program. -/
def environment : IO Environment := do
  let here ← IO.currentDir
  pure {
    here := ⟨here.toString.toList⟩
    noColor? := ← environmentText? "NO_COLOR"
    forceColor? := ← environmentText? "FORCE_COLOR"
    terminal? := ← environmentText? "TERM"
    sqlDir? := (← environmentText? "MOBILITYDB_SQL_DIR").map Path.mk
    sourceDir? := (← environmentText? "MOBILITYDB_SRC_DIR").map Path.mk }

/-- Says a notice. -/
def say (n : Notice) : IO Unit :=
  match n.channel with
  | .out => IO.println (string n.text)
  | .err => IO.eprintln (string n.text)

end VectorWrap.Machine

open VectorWrap in
/-- Runs the command with the words of the command line. -/
def main (words : List String) : IO UInt32 := do
  let env ← Machine.environment
  let exit ← Command.execute Machine.files env (words.map String.toList)
  exit.notices.forM Machine.say
  pure exit.code.toUInt32
