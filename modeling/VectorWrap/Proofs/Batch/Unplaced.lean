import VectorWrap.Proofs.Batch.Results
import VectorWrap.Proofs.Implementation.LineComment

/-!
# Places are for messages only

Where declarations and functions stand has no part in what is generated for them: matching, the keys
and the wrappers are the same for those without a place (`generated_unplaced`).  A source read under
another number gives the same declarations and functions but for their places.  So the plan of a run
depends on what can be read of its inputs, and on nothing else (`step_plan`).

For each function on the way there is one lemma that takes the places out before it instead of
behind it.  The places themselves (`unplaced`) are set to one range of no source.
-/

namespace VectorWrap

/-! ### Without places -/

/-- The declaration, with no place in a source. -/
def Declaration.unplaced (d : Declaration) : Declaration :=
  { d with span := ⟨none, 0, 0⟩ }

/-- The function, with no place in a source. -/
def Implementation.unplaced (n : Implementation) : Implementation :=
  { n with span := ⟨none, 0, 0⟩ }

/-- The match, with no places in sources. -/
def Match.unplaced (u : Match) : Match :=
  ⟨u.declaration.unplaced, u.implementation.unplaced, u.keys⟩

/-- The script, with no places in sources. -/
def Script.unplaced (u : Script) : Script :=
  { u with declarations := u.declarations.map .unplaced }

/-! ### Matching -/

namespace Matching

/-- The matching, with no places in sources. -/
def unplaced (m : Matching) : Matching :=
  { units := m.units.map .unplaced
    unmatched := m.unmatched.map .unplaced
    implementations := m.implementations.map (Prod.map id .unplaced)
    keys := m.keys }

/-- The progress, with no places in sources. -/
def Progress.unplaced (p : Progress) : Progress :=
  ⟨p.matching.unplaced, p.owners⟩

variable {natives : List Implementation} {all : List Declaration}

/-- Functions are found by their symbols. -/
theorem implementation?_unplaced (natives : List Implementation) (symbol : Text) :
    implementation? (natives.map .unplaced) symbol =
      (implementation? natives symbol).map .unplaced := by
  rw [implementation?, implementation?, List.find?_map]
  rfl

/-- Keys are made of names and types. -/
theorem keysOf_unplaced (all : List Declaration) (d : Declaration) :
    keysOf (all.map .unplaced) d.unplaced = keysOf all d := by
  have same : (all.map Declaration.unplaced).countP (·.symbol == d.symbol) =
      all.countP (·.symbol == d.symbol) := List.countP_map
  have base : baseKey (all.map .unplaced) d.unplaced = baseKey all d := by
    rw [baseKey, baseKey, ← same]
    rfl
  rw [keysOf, base]
  rfl

theorem enter_unplaced (key : Text) (n : Implementation) (table : List (Text × Implementation)) :
    enter key n.unplaced (table.map (Prod.map id .unplaced)) =
      (enter key n table).map (Prod.map id .unplaced) := by
  have lookup : (table.map (Prod.map id Implementation.unplaced)).lookup key =
      (table.lookup key).map .unplaced := by
    induction table with
    | nil => rfl
    | cons entry table ih =>
      obtain ⟨k, v⟩ := entry
      rw [List.map_cons, Prod.map_apply, id_eq, List.lookup_cons, List.lookup_cons, ih]
      cases key == k <;> rfl
  rw [enter, enter, lookup, Option.isSome_map]
  split_ifs
  · rfl
  · rw [List.map_append]
    rfl

theorem add_unplaced (m : Matching) (u : Match) :
    m.unplaced.add u.unplaced = (m.add u).unplaced := by
  have units : (m.units ++ [u]).map Match.unplaced = m.units.map .unplaced ++ [u.unplaced] :=
    List.map_append
  simp only [add, unplaced, units, ← enter_unplaced]
  rfl

theorem leave_unplaced (m : Matching) (d : Declaration) :
    m.unplaced.leave d.unplaced = (m.leave d).unplaced := by
  simp only [leave, unplaced, List.map_append]
  rfl

/-- A step of the matching asks for no place. -/
theorem step_unplaced (natives : List Implementation) (all : List Declaration) (p : Progress)
    (d : Declaration) : step (natives.map .unplaced) (all.map .unplaced) p.unplaced d.unplaced =
      (step natives all p d).map .unplaced := by
  rw [step, step]
  have find : implementation? (natives.map .unplaced) d.unplaced.symbol =
      (implementation? natives d.symbol).map .unplaced := implementation?_unplaced natives d.symbol
  rw [find, keysOf_unplaced]
  cases implementation? natives d.symbol with
  | none => exact congrArg (fun m => Except.ok (Progress.mk m p.owners)) (leave_unplaced _ d)
  | some n =>
    have same : claim p.unplaced.owners d.unplaced.display = claim p.owners d.display := rfl
    simp only [Option.map_some, same]
    cases claim p.owners d.display (keysOf all d) with
    | error e => rfl
    | ok owners =>
      exact congrArg (fun m => Except.ok (Progress.mk m owners))
        (add_unplaced p.matching ⟨d, n, keysOf all d⟩)

/-- **Matching does not look at places.** -/
theorem make_unplaced (declarations : List Declaration) (natives : List Implementation) :
    make (declarations.map .unplaced) (natives.map .unplaced) =
      (make declarations natives).map .unplaced := by
  have fold (ds : List Declaration) (p : Progress) :
      (ds.map Declaration.unplaced).foldlM
          (step (natives.map .unplaced) (declarations.map .unplaced)) p.unplaced =
        (ds.foldlM (step natives declarations) p).map .unplaced := by
    induction ds generalizing p with
    | nil => rfl
    | cons d ds ih =>
      rw [List.map_cons, List.foldlM_cons, List.foldlM_cons, step_unplaced]
      cases step natives declarations p d with
      | error e => rfl
      | ok p' => exact ih p'
  have whole := fold declarations {}
  rw [make, make]
  have start : ({} : Progress).unplaced = {} := rfl
  rw [start] at whole
  rw [whole]
  cases declarations.foldlM (step natives declarations) {} <;> rfl

/-- The pairs of a matching, with no places. -/
theorem keyed_unplaced (m : Matching) :
    m.unplaced.keyed = m.keyed.map (Prod.map .unplaced id) := by
  rw [keyed, keyed, unplaced, List.flatMap_map, List.map_flatMap]
  simp only [List.map_map]
  rfl

end Matching

namespace Batch

variable {p : Project}

/-! ### Generating -/

theorem ofKey_unplaced (e : Emitter) (u : Match) (key : Text) :
    Outcome.ofKey e u.unplaced key = Outcome.ofKey e u key :=
  rfl

/-- What becomes of the keys does not depend on places. -/
theorem outcomes_unplaced (e : Emitter) (xs : List (Match × Text)) :
    outcomes e (xs.map (Prod.map .unplaced id)) = outcomes e xs := by
  rw [outcomes, outcomes, List.mapM_map]
  exact congrArg (List.mapM · xs) (funext fun x => ofKey_unplaced e x.1 x.2)

/-- **Generating does not look at places.** -/
theorem generated_unplaced (p : Project) (script : Script) (natives : List Implementation) :
    generated p script.unplaced (natives.map .unplaced) = generated p script natives := by
  have make : Matching.make script.unplaced.declarations (natives.map .unplaced) = _ :=
    Matching.make_unplaced script.declarations natives
  rw [generated, generated, make]
  cases Matching.make script.declarations natives with
  | error e => rfl
  | ok m =>
    simp only [Except.map, Matching.keyed_unplaced, outcomes_unplaced]
    rfl

end Batch

/-! ### Reading -/

namespace Script

theorem unplaced_append (u v : Script) : (u ++ v).unplaced = u.unplaced ++ v.unplaced := by
  show (append u v).unplaced = append u.unplaced v.unplaced
  simp [append, unplaced]

/-- The number of a source is in the places only. -/
theorem unplaced_parse (file file' : Option Nat) (source : Text) :
    (parse file source).unplaced = (parse file' source).unplaced := by
  have each (marks : List SectionMark) (casts : List Cast) (operators : List Operator)
      (f : Found Statement) :
      (declaration? file source marks casts operators f).map Declaration.unplaced =
        (declaration? file' source marks casts operators f).map Declaration.unplaced := by
    rw [declaration?, declaration?]
    cases f.value <;> try rfl
    dsimp only
    split_ifs <;> rfl
  rw [parse, parse, unplaced, unplaced]
  simp only [List.map_filterMap, each]

end Script

namespace NativeSource

/-- The source, its functions with no places. -/
def unplaced (u : NativeSource) : NativeSource :=
  { u with functions := u.functions.map .unplaced }

/-- What is found of a symbol, with no place. -/
def nowhere (find : Text → Option (Text × Span)) (symbol : Text) : Option (Text × Span) :=
  (find symbol).map fun found => (found.1, ⟨none, 0, 0⟩)

/-- A body is read without asking for its place. -/
theorem ofBody_unplaced (symbol body : Text) (span : Span) :
    Implementation.ofBody symbol body ⟨none, 0, 0⟩ =
      (Implementation.ofBody symbol body span).map .unplaced := by
  rw [Implementation.ofBody, Implementation.ofBody]
  dsimp only
  cases Shape.classify (Line.ofBody body) (Return.summary body).2 <;> rfl

theorem collect_nowhere (find : Text → Option (Text × Span)) (acc : NativeSource) (symbol : Text) :
    collect (nowhere find) acc.unplaced symbol = (collect find acc symbol).map .unplaced := by
  rw [collect, collect, nowhere]
  cases find symbol with
  | none => rfl
  | some found =>
    simp only [Option.map_some, ofBody_unplaced symbol found.1 found.2]
    cases Implementation.ofBody symbol found.1 found.2 with
    | error f => rfl
    | ok n => simp [bind, Except.bind, Except.map, pure, Except.pure, unplaced]

/-- Exports are looked up without asking where they stand. -/
theorem foldlM_collect_nowhere (find : Text → Option (Text × Span)) (symbols : List Text)
    (acc : NativeSource) : symbols.foldlM (collect (nowhere find)) acc.unplaced =
      (symbols.foldlM (collect find) acc).map .unplaced := by
  induction symbols generalizing acc with
  | nil => rfl
  | cons x xs ih =>
    rw [List.foldlM_cons, List.foldlM_cons, collect_nowhere]
    cases collect find acc x with
    | error f => rfl
    | ok acc' => exact ih acc'

/-- A source read under two numbers gives the same but for places. -/
theorem unplaced_parse (file file' : Option Nat) (source : Text) :
    (parse file source).map unplaced = (parse file' source).map unplaced := by
  have same : nowhere (lookup? file source) = nowhere (lookup? file' source) := by
    funext symbol
    rw [nowhere, nowhere, lookup?, lookup?, List.map_findSome?, List.map_findSome?]
    refine congrArg (List.findSome? · _) (funext fun f => ?_)
    rw [Function.comp_apply, Function.comp_apply, bodyOf?, bodyOf?]
    cases f.value with
    | exported name => rfl
    | defined name body =>
      dsimp only
      split_ifs <;> rfl
  rw [parse_eq, parse_eq, ← foldlM_collect_nowhere, ← foldlM_collect_nowhere, same]

end NativeSource

namespace Batch

/-- Scripts numbered from elsewhere are the same but for places. -/
theorem unplaced_scriptFrom (n n' : Nat) (xs : List Source) :
    (scriptFrom n xs).unplaced = (scriptFrom n' xs).unplaced := by
  induction xs generalizing n n' with
  | nil => rfl
  | cons x xs ih =>
    rw [scriptFrom, scriptFrom, Script.unplaced_append, Script.unplaced_append,
      Script.unplaced_parse (some n) (some n'), ih (n + 1) (n' + 1)]

/-- Functions numbered from elsewhere are the same but for places. -/
theorem unplaced_functionsFrom (n n' : Nat) (xs : List Source) :
    (functionsFrom n xs).map (List.map Implementation.unplaced) =
      (functionsFrom n' xs).map (List.map Implementation.unplaced) := by
  have cons (k : Nat) (x : Source) (xs : List Source) :
      (functionsFrom k (x :: xs)).map (List.map Implementation.unplaced) = (do
        let u ← (NativeSource.parse (some k) x.text).map NativeSource.unplaced
        let others ← (functionsFrom (k + 1) xs).map (List.map Implementation.unplaced)
        pure (u.functions ++ others)) := by
    rw [functionsFrom]
    cases NativeSource.parse (some k) x.text with
    | error f => rfl
    | ok u =>
      cases functionsFrom (k + 1) xs with
      | error f => rfl
      | ok others => exact congrArg Except.ok List.map_append
  induction xs generalizing n n' with
  | nil => rfl
  | cons x xs ih =>
    rw [cons, cons, NativeSource.unplaced_parse (some n) (some n'), ih (n + 1) (n' + 1)]

/-! ### Planning -/

/-- What a run is going to do with a script and with what C sources come to. -/
def planned (p : Project) (q : Request) (script : Script) :
    Except Fault (List Implementation) → Except Failure Plan
  | .error f => .error (.fault f)
  | .ok natives =>
      if q.dryRun then
        ((Matching.make script.declarations natives).map fun _ => {}).mapError .ambiguous
      else
        (generated p script natives).map fun g =>
          ⟨p.writing g q.outputDir, p.summaryOf g q.outputDir⟩

/-- What a run is going to do with inputs whose sources are numbered from `n`. -/
def plannedFrom (p : Project) (q : Request) (n : Nat) (scripts sources : List Source) :
    Except Failure Plan :=
  planned p q (scriptFrom n scripts) (functionsFrom (n + scripts.length) sources)

/-- A dry run plans nothing if the functions can be matched. -/
theorem step_dry (script : Script) (natives : List Implementation) (s : Session) :
    ((do
        let m ← matchUnits script natives
        tellMatches m
        pure ({} : Plan) : Batch Plan).step s).1 =
      ((Matching.make script.declarations natives).map fun _ => {}).mapError .ambiguous := by
  obtain ⟨s', matched, -⟩ := step_matchUnits_points script natives s
  cases hm : Matching.make script.declarations natives with
  | error e =>
    rw [hm] at matched
    rw [step_bind_error matched]
    rfl
  | ok m =>
    rw [hm] at matched
    rw [step_bind_ok matched]
    rfl

/-- Any other writes what is generated. -/
theorem step_write (p : Project) (style : Style) (dir : Path) (script : Script)
    (natives : List Implementation) (s : Session) :
    ((do
        let g ← generate p style script natives
        pure ⟨p.writing g dir, p.summaryOf g dir⟩ : Batch Plan).step s).1 =
      (generated p script natives).map fun g => ⟨p.writing g dir, p.summaryOf g dir⟩ := by
  obtain ⟨s', made, -⟩ := step_generate_points p style script natives s
  cases hg : generated p script natives with
  | error e =>
    rw [hg] at made
    rw [step_bind_error made]
    rfl
  | ok g =>
    rw [hg] at made
    rw [step_bind_ok made]
    rfl

/-- **A plan** depends on the inputs that can be read. -/
theorem step_plan (p : Project) (style : Style) (q : Request) (scripts sources : List Input)
    (s : Session) : ((plan p style q scripts sources).step s).1 =
      plannedFrom p q s.sources.length (Input.sources scripts) (Input.sources sources) := by
  obtain ⟨s₁, first, adds⟩ := step_loadDeclarations style scripts s
  obtain ⟨s₂, read, second, -, -, -⟩ := step_loadNatives style sources s₁
  rw [adds.sources, List.length_append] at second
  rw [plan, plannedFrom, step_bind_ok first]
  cases hn : functionsFrom (s.sources.length + (Input.sources scripts).length)
      (Input.sources sources) with
  | error f =>
    rw [hn] at second
    rw [step_bind_error second]
    rfl
  | ok natives =>
    rw [hn] at second
    rw [step_bind_ok second, planned]
    split_ifs
    · exact step_dry _ natives s₂
    · exact step_write p style q.outputDir _ natives s₂

/-- Plans do not depend on places. -/
theorem planned_unplaced (p : Project) (q : Request) (script : Script)
    (natives? : Except Fault (List Implementation)) :
    planned p q script.unplaced (natives?.map (List.map Implementation.unplaced)) =
      planned p q script natives? := by
  cases natives? with
  | error f => rfl
  | ok natives =>
    have make : Matching.make script.unplaced.declarations (natives.map .unplaced) = _ :=
      Matching.make_unplaced script.declarations natives
    rw [Except.map, planned, planned, generated_unplaced, make]
    cases Matching.make script.declarations natives <;> rfl

/-- The numbers of the sources have no part in a plan. -/
theorem plannedFrom_congr (p : Project) (q : Request) (n n' : Nat)
    (scripts sources : List Source) :
    plannedFrom p q n scripts sources = plannedFrom p q n' scripts sources := by
  rw [plannedFrom, plannedFrom, ← planned_unplaced, ← planned_unplaced p q (scriptFrom n' scripts),
    unplaced_scriptFrom n n', unplaced_functionsFrom _ (n' + scripts.length)]

end Batch

end VectorWrap
