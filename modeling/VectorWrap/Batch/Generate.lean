import VectorWrap.Batch.Session
import VectorWrap.Declaration.Script
import VectorWrap.Matching.Basic
import VectorWrap.Project.Basic
import VectorWrap.Wrapper.Emit

/-!
# Generating

Every key of every matched declaration comes to one outcome: its wrapper, a reason to skip it, or a
cause of failure. A failure concerns its key alone, and the others go on.

Matching comes first. A collision of names is reported and ends the step, so that nothing is
generated; a declaration without an implementation is noted and left out. After that only a fault
stops the step, and what was said and reported before it stays in the session.
-/

namespace VectorWrap

/-- What has become of a key. -/
inductive Outcome where
  | emitted (wrapper : Wrapper)
  | skipped (reason : Skip)
  | failed (cause : GenError)
  deriving DecidableEq, Repr

namespace Outcome

/-- The wrapper, if there is one. -/
def wrapper? : Outcome → Option Wrapper
  | .emitted w => some w
  | .skipped _ => none
  | .failed _ => none

/-- The key was skipped. -/
def isSkipped : Outcome → Bool
  | .skipped _ => true
  | .emitted _ => false
  | .failed _ => false

/-- The key failed. -/
def isFailed : Outcome → Bool
  | .failed _ => true
  | .emitted _ => false
  | .skipped _ => false

/-- What becomes of a key of a matched declaration. -/
def ofKey (e : Emitter) (u : Match) (key : Text) : Except Fault Outcome :=
  match Emitter.skip? u.declaration key with
  | some reason => .ok (.skipped reason)
  | none =>
      match e.wrapper u.declaration u.implementation key with
      | .ok w => .ok (.emitted w)
      | .error (.refused cause) => .ok (.failed cause)
      | .error (.fault f) => .error f

/-- What is said of an outcome. -/
def notices (style : Style) (u : Match) (key : Text) : Outcome → List Notice
  | .emitted w => Notice.generated style w.function u.implementation.shape.label
  | .skipped reason => Notice.skipped style key reason.message
  | .failed cause => Notice.failed style key cause.message

/-- What is reported of a wrapper whose call has to be written by hand. -/
def placeholderWarning (sources : List Source) (n : Implementation) : Diagnostic :=
  ⟨.warning, "W0104", Batch.fileName sources n.span.file, some n.span,
    Text.tick n.symbol ++ " needs manual completion: unrecognized body shape"⟩

/-- What is reported of a declaration that a key of it failed for. -/
def failureError (sources : List Source) (d : Declaration) (cause : GenError) : Diagnostic :=
  ⟨.error, cause.code, Batch.fileName sources d.span.file, some d.span, cause.message⟩

/-- What is reported of an outcome. -/
def diagnostics (sources : List Source) (u : Match) : Outcome → List Diagnostic
  | .emitted w => if w.placeholder then [placeholderWarning sources u.implementation] else []
  | .skipped _ => []
  | .failed cause => [failureError sources u.declaration cause]

end Outcome

/-- The two generated files, with what they are made of. -/
structure Generated where
  header : Text
  source : Text
  wrappers : List Wrapper
  skipped : Nat
  failed : Nat
  deriving DecidableEq, Repr

namespace Generated

/-- The files for the outcomes of all keys, in order. -/
def ofOutcomes (p : Project) (outcomes : List Outcome) : Generated :=
  let wrappers := outcomes.filterMap Outcome.wrapper?
  { header := Layout.headerFile p.structName (wrappers.map (·.declaration))
    source := Layout.sourceFile p.includes p.moduleName (wrappers.map (·.source))
    wrappers
    skipped := outcomes.countP Outcome.isSkipped
    failed := outcomes.countP Outcome.isFailed }

/-- The number of wrappers whose call has to be written by hand. -/
def placeholders (g : Generated) : Nat :=
  g.wrappers.countP (·.placeholder)

end Generated

namespace Matching

/-- Every key with its declaration, in order. -/
def keyed (m : Matching) : List (Match × Text) :=
  m.units.flatMap fun u => u.keys.map fun k => (u, k)

end Matching

namespace Batch

/-- What is reported of declarations that cannot be told apart. -/
def collisionError (cause : GenError) : Diagnostic :=
  ⟨.error, cause.code, "<match>", none, cause.message⟩

/-- What is reported of a declaration without an implementation. -/
def unmatchedNote (sources : List Source) (d : Declaration) : Diagnostic :=
  ⟨.note, "N0002", fileName sources d.span.file, some d.span,
    "no native implementation for " ++ Text.tick d.symbol⟩

/-- Matches declarations with implementations. -/
def matchUnits (script : Script) (natives : List Implementation) : Batch Matching := do
  match Matching.make script.declarations natives with
  | .error e =>
      report [collisionError e]
      throw (.ambiguous e)
  | .ok m =>
      let s ← get
      report (m.unmatched.map (unmatchedNote s.sources))
      pure m

/-- What the wrappers of a run are made with: the types of the project and of its scripts. -/
def emitterFor (p : Project) (script : Script) : Emitter :=
  { types := p.types.declare script.types, structName := p.structName, policy := p.policy }

/-- Brings keys to their outcomes. -/
def settle (style : Style) (e : Emitter) : List (Match × Text) → Batch (List Outcome)
  | [] => pure []
  | (u, key) :: rest => do
      let outcome ← orStop (Outcome.ofKey e u key)
      say (outcome.notices style u key)
      let s ← get
      report (outcome.diagnostics s.sources u)
      let others ← settle style e rest
      pure (outcome :: others)

/-- Generates the wrappers for declarations and their implementations. -/
def generate (p : Project) (style : Style) (script : Script) (natives : List Implementation) :
    Batch Generated := do
  let m ← matchUnits script natives
  let outcomes ← settle style (emitterFor p script) m.keyed
  pure (.ofOutcomes p outcomes)

end Batch

end VectorWrap
