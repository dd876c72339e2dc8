import VectorWrap.Files.Path

/-!
# File systems

A program reads files and changes them only through the operations given here, so it can be run on
the files of a machine and on a tree of files that is a value.
-/

namespace VectorWrap

/-- Why an operation on a file fails. -/
inductive FileError where
  /-- There is nothing at the path. -/
  | notFound
  /-- There is something at the path already. -/
  | occupied
  /-- The path leads through a file. -/
  | notADirectory
  /-- The path leads to a directory. -/
  | isADirectory
  /-- What the file holds is no text. -/
  | notText
  /-- Any other cause, in words. -/
  | other (message : Text)
  deriving DecidableEq, Repr

namespace FileError

/-- The cause in words. -/
def message : FileError → Text
  | .notFound => "No such file or directory (os error 2)"
  | .occupied => "File exists (os error 17)"
  | .notADirectory => "Not a directory (os error 20)"
  | .isADirectory => "Is a directory (os error 21)"
  | .notText => "stream did not contain valid UTF-8"
  | .other m => m

end FileError

/-- A change to files. -/
inductive FileAction where
  /-- Makes a directory and those it lies in, where there are none. -/
  | makeDirs (path : Path)
  /-- Writes a file, in place of what it held. -/
  | write (path : Path) (text : Text)
  /-- Writes what one file holds to another. -/
  | copy (source target : Path)
  deriving DecidableEq, Repr

namespace FileAction

/-- What messages say of an action that has failed. -/
def failure : FileAction → Text
  | .makeDirs p => "create_dir_all(" ++ p.text ++ ") failed"
  | .write p _ => "write " ++ p.text ++ " failed"
  | .copy a b => "copy " ++ a.text ++ " -> " ++ b.text ++ " failed"

end FileAction

/-- The operations on files that a program in `m` may use. -/
structure FileSystem (m : Type → Type) where
  /-- The text of a file. -/
  read : Path → m (Except FileError Text)
  perform : FileAction → m (Except FileError Unit)

/-- A file as it was asked for and found. -/
structure Input where
  path : Path
  content : Except FileError Text

namespace FileSystem
variable {m : Type → Type} [Monad m]

/-- Reads files one after the other. -/
def readAll (fs : FileSystem m) : List Path → m (List Input)
  | [] => pure []
  | p :: ps => do
      let content ← fs.read p
      let others ← fs.readAll ps
      pure (⟨p, content⟩ :: others)

/-- Carries out actions one after the other, up to the first that fails. -/
def performAll (fs : FileSystem m) :
    List FileAction → m (Except (FileAction × FileError) Unit)
  | [] => pure (.ok ())
  | a :: as => do
      match ← fs.perform a with
      | .error e => pure (.error (a, e))
      | .ok () => fs.performAll as

end FileSystem

end VectorWrap
