import VectorWrap.Files.System
import VectorWrap.Report.Diagnostic
import VectorWrap.Wrapper.Error

/-!
# Sessions

What a run has read and said so far. A step of a run may stop it; what was read and said before
stays.
-/

namespace VectorWrap

/-- What has been read and said. -/
structure Session where
  /-- The sources that have been read; a file is known by its place in this list. -/
  sources : List Source := []
  diagnostics : List Diagnostic := []
  notices : List Notice := []
  deriving Repr

/-- Why a run stops. -/
inductive Failure where
  /-- The declarations cannot be told apart. -/
  | ambiguous (cause : GenError)
  | file (action : FileAction) (cause : FileError)
  | fault (fault : Fault)
  deriving DecidableEq, Repr

/-- The reason in words, with what was being done. -/
def Failure.message : Failure → Text
  | .ambiguous e => "disambiguation failed: " ++ e.message
  | .file a e => a.failure ++ ": " ++ e.message
  | .fault f => f.message

/-- A step of a run. -/
abbrev Batch (α : Type) := ExceptT Failure (StateM Session) α

namespace Batch

/-- Takes a step in a session. -/
def step {α : Type} (b : Batch α) (s : Session) : Except Failure α × Session :=
  (ExceptT.run b).run s

/-- Says something. -/
def say (notices : List Notice) : Batch Unit :=
  modify fun s => { s with notices := s.notices ++ notices }

/-- Adds diagnostics. -/
def report (diagnostics : List Diagnostic) : Batch Unit :=
  modify fun s => { s with diagnostics := s.diagnostics ++ diagnostics }

/-- Adds a source; gives the number by which spans refer to it. -/
def addSource (source : Source) : Batch Nat := do
  let s ← get
  set { s with sources := s.sources ++ [source] }
  pure s.sources.length

/-- The name of the file that a span is in. -/
def fileName (sources : List Source) (file : Option Nat) : Text :=
  match file.bind fun n => sources[n]? with
  | some source => source.name
  | none => "<unknown>"

/-- Gives what a step without effects gives, or stops. -/
def orStop {α : Type} : Except Fault α → Batch α
  | .ok a => pure a
  | .error f => throw (.fault f)

end Batch

end VectorWrap
