import VectorWrap.Batch.Generate
import VectorWrap.Batch.Load

/-!
# Runs

A run loads its inputs, generates the wrappers, and writes header and source: to the directory for
output, and from there to the project that uses them, if there is one. What a run writes is settled
before anything is written.

The plan of a run depends on what its inputs hold and on the session, and asks nothing else of the
file system. A dry run says what would be matched and plans no action. Actions are carried out in
order up to the first that fails, and a run that fails so names that action.
-/

namespace VectorWrap

/-- What a run has done. -/
structure Summary where
  emitted : Nat := 0
  skipped : Nat := 0
  failed : Nat := 0
  placeholders : Nat := 0
  /-- The written files, header before source, those in the directory for output first. -/
  written : List Path := []
  deriving DecidableEq, Repr

/-- What a run is going to do, with the summary that holds when it is done. -/
structure Plan where
  actions : List FileAction := []
  summary : Summary := {}
  deriving DecidableEq, Repr

/-! ### Writing -/

/-- A copy of a generated file. -/
structure Placement where
  source : Path
  dir : Path
  name : Path
  deriving DecidableEq, Repr

namespace Placement

/-- The copy. -/
def target (p : Placement) : Path :=
  p.dir.join p.name

/-- Makes the copy. -/
def actions (p : Placement) : List FileAction :=
  [.makeDirs p.dir, .copy p.source p.target]

end Placement

namespace Project

/-- The header in a directory. -/
def headerIn (p : Project) (dir : Path) : Path :=
  dir.join p.headerName

/-- The source in a directory. -/
def sourceIn (p : Project) (dir : Path) : Path :=
  dir.join p.sourceName

/-- The copies of the files that are generated in a directory. -/
def placements (p : Project) (dir : Path) : List Placement :=
  match p.projectRoot? with
  | none => []
  | some root =>
      [⟨p.headerIn dir, root.join p.headerDest, p.headerName⟩,
        ⟨p.sourceIn dir, root.join p.sourceDest, p.sourceName⟩]

/-- The files that are written. -/
def written (p : Project) (dir : Path) : List Path :=
  p.headerIn dir :: p.sourceIn dir :: (p.placements dir).map Placement.target

/-- Writes the generated files. -/
def writing (p : Project) (g : Generated) (dir : Path) : List FileAction :=
  .makeDirs dir :: .write (p.headerIn dir) g.header :: .write (p.sourceIn dir) g.source
    :: (p.placements dir).flatMap Placement.actions

/-- The summary of a run that has written the generated files. -/
def summaryOf (p : Project) (g : Generated) (dir : Path) : Summary :=
  { emitted := g.wrappers.length
    skipped := g.skipped
    failed := g.failed
    placeholders := g.placeholders
    written := p.written dir }

end Project

/-! ### Running -/

/-- What is asked of a run. -/
structure Request where
  scripts : List Path
  sources : List Path
  outputDir : Path
  /-- Only tells what is matched, and writes nothing. -/
  dryRun : Bool
  deriving DecidableEq, Repr

namespace Batch

/-- Says what is matched. -/
def tellMatches (m : Matching) : Batch Unit :=
  say (m.dryRun.map fun line => ⟨.out, line⟩)

/-- What a run on the given inputs is going to do. -/
def plan (p : Project) (style : Style) (request : Request) (scripts sources : List Input) :
    Batch Plan := do
  let script ← loadDeclarations style scripts
  let natives ← loadNatives style sources
  if request.dryRun then
    let m ← matchUnits script natives
    tellMatches m
    pure {}
  else
    let g ← generate p style script natives
    pure ⟨p.writing g request.outputDir, p.summaryOf g request.outputDir⟩

/-- Runs on a file system. -/
def run {m : Type → Type} [Monad m] (fs : FileSystem m) (p : Project) (style : Style)
    (request : Request) (s : Session) : m (Except Failure Summary × Session) := do
  let scripts ← fs.readAll (request.scripts.map p.sqlPath)
  let sources ← fs.readAll (request.sources.map p.sourcePath)
  match (plan p style request scripts sources).step s with
  | (.error e, s') => pure (.error e, s')
  | (.ok todo, s') =>
      match ← fs.performAll todo.actions with
      | .ok () => pure (.ok todo.summary, s')
      | .error (a, e) => pure (.error (.file a e), s')

end Batch

end VectorWrap
