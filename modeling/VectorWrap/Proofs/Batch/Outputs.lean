import VectorWrap.Proofs.Batch.Unplaced
import VectorWrap.Proofs.Files.Again

/-!
# What a run changes

A run settles what it writes before it writes anything, so a dry run and a run that fails before it
writes change nothing.  Any other changes its outputs only, and makes the directories that they need
(`run_keeps_to_outputs`).

Run once more, with a new session, it comes to the same and changes nothing, if no output is an
input and no input that could not be read can be read now.  The second condition is needed: the
first run makes directories, and then `out/../a.sql` leads somewhere
(`run_reads_through_new_directory`).

What changes is told place by place (`ChangesOutputs`): a place is as it was, or it is a new
directory on the way of an output, or it is a file where an output is.
-/

namespace VectorWrap

namespace FileTree

/-- The same files and directories. -/
structure Same (t t' : FileTree) : Prop where
  here : t'.here = t.here
  place : ∀ place, t'.node? place = t.node? place

/-- Two paths do not lead to the same place. -/
def Apart (t : FileTree) (a b : Path) : Prop :=
  ∀ place, t.locate a = .ok place → t.locate b ≠ .ok place

instance (t : FileTree) (a b : Path) : Decidable (t.Apart a b) :=
  match h : t.locate a with
  | .error _ => .isTrue fun _ ha => nomatch h.symm.trans ha
  | .ok place => decidable_of_iff (t.locate b ≠ .ok place)
      ⟨fun hb _ ha => Except.ok.inj (h.symm.trans ha) ▸ hb, fun apart => apart place h⟩

end FileTree

/-! ### What is written -/

namespace Project

/-- The directories that are made, with those they lie in. -/
def directories (p : Project) (dir : Path) : List Path :=
  dir :: (p.placements dir).map (·.dir)

/-- The paths of what a run reads. -/
def inputs (p : Project) (q : Request) : List Path :=
  q.scripts.map p.sqlPath ++ q.sources.map p.sourcePath

/-- The directories that are made are those of the project. -/
theorem filterMap_dir?_writing (p : Project) (g : Generated) (dir : Path) :
    (p.writing g dir).filterMap FileAction.dir? = p.directories dir := by
  rw [writing, directories, placements]
  cases p.projectRoot? <;> rfl

/-- The files that are written are those that are named. -/
theorem filterMap_target?_writing (p : Project) (g : Generated) (dir : Path) :
    (p.writing g dir).filterMap FileAction.target? = p.written dir := by
  rw [writing, written, placements]
  cases p.projectRoot? <;> rfl

/-- What is copied has been written. -/
theorem sourced_writing (p : Project) (g : Generated) (dir : Path) :
    FileAction.Sourced [] (p.writing g dir) := by
  rw [writing, placements]
  cases p.projectRoot? <;>
    simp [FileAction.Sourced, FileAction.source?, FileAction.target?, Placement.actions]

/-- Nothing has changed but that there are directories on the way of those for the outputs, and
files where the outputs are. -/
structure ChangesOutputs (p : Project) (dir : Path) (t t' : FileTree) : Prop where
  here : t'.here = t.here
  place : ∀ place, t'.node? place = t.node? place ∨
    (t.node? place = none ∧ t'.node? place = some .dir ∧
      ∃ d ∈ p.directories dir, t'.OnWay d place) ∨
    t.node? place ≠ some .dir ∧ (∃ text?, t'.node? place = some (.file text?)) ∧
      ∃ path ∈ p.written dir, t'.locate path = .ok place

theorem ChangesOutputs.refl (p : Project) (dir : Path) (t : FileTree) :
    p.ChangesOutputs dir t t :=
  ⟨rfl, fun _ => .inl rfl⟩

/-- No output is where an input is. -/
def InputsApart (p : Project) (q : Request) (t : FileTree) : Prop :=
  ∀ path ∈ p.inputs q, ∀ out ∈ p.written q.outputDir, t.Apart path out

instance (p : Project) (q : Request) (t : FileTree) : Decidable (p.InputsApart q t) :=
  List.decidableBAll _ _

/-- An input that cannot be read in the one tree cannot be read in the other. -/
def StayUnreadable (p : Project) (q : Request) (t t' : FileTree) : Prop :=
  ∀ path ∈ p.inputs q, (t.read path).isOk = false → (t'.read path).isOk = false

instance (p : Project) (q : Request) (t t' : FileTree) : Decidable (p.StayUnreadable q t t') :=
  List.decidableBAll _ _

end Project

namespace Batch

variable {p : Project} {style : Style} {q : Request} {s s' : Session} {t t' : FileTree}
  {r : Except Failure Summary}

/-! ### Planning -/

/-- A plan that is made is for a dry run, or to write what was generated. -/
theorem planned_eq_ok {script : Script} {natives? : Except Fault (List Implementation)}
    {todo : Plan} (h : planned p q script natives? = .ok todo) :
    q.dryRun = true ∧ todo = {} ∨ q.dryRun = false ∧ ∃ g,
      todo = ⟨p.writing g q.outputDir, p.summaryOf g q.outputDir⟩ := by
  cases natives? with
  | error f => cases h
  | ok natives =>
    rw [planned] at h
    split_ifs at h with dry
    · cases hm : Matching.make script.declarations natives with
      | error e =>
        rw [hm] at h
        cases h
      | ok m =>
        rw [hm] at h
        cases h
        exact .inl ⟨dry, rfl⟩
    · cases hg : generated p script natives with
      | error e =>
        rw [hg] at h
        cases h
      | ok g =>
        rw [hg] at h
        cases h
        exact .inr ⟨Bool.eq_false_of_not_eq_true dry, g, rfl⟩

/-- The inputs at some paths. -/
def inputsAt (t : FileTree) (paths : List Path) : List Input :=
  paths.map fun path => ⟨path, t.read path⟩

/-- The plan of a run on a tree. -/
def planOn (p : Project) (q : Request) (n : Nat) (t : FileTree) : Except Failure Plan :=
  plannedFrom p q n (Input.sources (inputsAt t (q.scripts.map p.sqlPath)))
    (Input.sources (inputsAt t (q.sources.map p.sourcePath)))

/-- What a run on a tree comes to when its actions are carried out. -/
def ending (todo : Plan) : Except (FileAction × FileError) Unit → Except Failure Summary
  | .ok () => .ok todo.summary
  | .error (a, e) => .error (.file a e)

/-- A run makes its plan, and then carries it out. -/
theorem run_plan (p : Project) (style : Style) (q : Request) (s : Session) (t : FileTree) :
    (run FileTree.system p style q s).run t =
      match (plan p style q (inputsAt t (q.scripts.map p.sqlPath))
        (inputsAt t (q.sources.map p.sourcePath))).step s with
      | (.error e, s') => ((.error e, s'), t)
      | (.ok todo, s') =>
          ((ending todo ((FileTree.system.performAll todo.actions).run t).1, s'),
            ((FileTree.system.performAll todo.actions).run t).2) := by
  rcases made : (plan p style q (inputsAt t (q.scripts.map p.sqlPath))
    (inputsAt t (q.sources.map p.sourcePath))).step s with ⟨r, s'⟩
  rw [inputsAt, inputsAt] at made
  rw [run, StateT.run_bind, FileTree.run_readAll]
  show StateT.run (do let sources ← FileTree.system.readAll _; _) t = _
  rw [StateT.run_bind, FileTree.run_readAll]
  dsimp only [bind]
  rw [made]
  cases r with
  | error e => rfl
  | ok todo =>
    dsimp only
    show StateT.run (do let done ← FileTree.system.performAll _; _) t = _
    rw [StateT.run_bind]
    rcases (FileTree.system.performAll todo.actions).run t with ⟨⟨a, e⟩ | _, t'⟩ <;> rfl

/-- What a run comes to is told by what can be read. -/
theorem run_eq (p : Project) (style : Style) (q : Request) (s : Session) (t : FileTree) :
    ∃ s', (run FileTree.system p style q s).run t =
      match planOn p q s.sources.length t with
      | .error e => ((.error e, s'), t)
      | .ok todo =>
          ((ending todo ((FileTree.system.performAll todo.actions).run t).1, s'),
            ((FileTree.system.performAll todo.actions).run t).2) := by
  have planning := step_plan p style q (inputsAt t (q.scripts.map p.sqlPath))
    (inputsAt t (q.sources.map p.sourcePath)) s
  rcases made : (plan p style q (inputsAt t (q.scripts.map p.sqlPath))
    (inputsAt t (q.sources.map p.sourcePath))).step s with ⟨r, s'⟩
  rw [made] at planning
  refine ⟨s', ?_⟩
  rw [run_plan, made, planOn, ← planning]
  cases r <;> rfl

/-- The two ways in which a run goes. -/
theorem run_cases (h : (run FileTree.system p style q s).run t = ((r, s'), t')) :
    (∃ e, planOn p q s.sources.length t = .error e ∧ r = .error e ∧ t' = t) ∨
      ∃ todo done, planOn p q s.sources.length t = .ok todo ∧
        (FileTree.system.performAll todo.actions).run t = (done, t') ∧ r = ending todo done := by
  obtain ⟨s₁, whole⟩ := run_eq p style q s t
  rw [h] at whole
  cases hp : planOn p q s.sources.length t with
  | error e =>
    rw [hp] at whole
    cases whole
    exact .inl ⟨e, rfl, rfl, rfl⟩
  | ok todo =>
    rw [hp] at whole
    cases whole
    exact .inr ⟨todo, _, rfl, rfl, rfl⟩

/-! ### What is changed -/

/-- Writing changes outputs only, as far as it gets. -/
theorem changes_writing {g : Generated} {dir : Path}
    {done : Except (FileAction × FileError) Unit}
    (h : (FileTree.system.performAll (p.writing g dir)).run t = (done, t')) :
    p.ChangesOutputs dir t t' := by
  obtain ⟨wrote, changes, target⟩ := FileTree.changes_performAll h
  refine ⟨changes.here, fun place => ?_⟩
  by_cases hw : wrote place
  · obtain ⟨other, file⟩ := changes.written place hw
    have led := target place hw
    rw [FileTree.Wrote, Project.filterMap_target?_writing] at led
    exact .inr (.inr ⟨other, file, led⟩)
  · rcases changes.kept place hw with same | ⟨none, dir, made⟩
    · exact .inl same
    · rw [FileTree.Made, Project.filterMap_dir?_writing] at made
      exact .inr (.inl ⟨none, dir, made⟩)

/-! ### Once more -/

/-- Inputs that are no outputs are read as before. -/
theorem sources_inputsAt {todo : Plan} {done : Except (FileAction × FileError) Unit}
    (ht : (FileTree.system.performAll todo.actions).run t = (done, t'))
    (hw : ∀ path ∈ todo.actions.filterMap FileAction.target?, path ∈ p.written q.outputDir)
    (apart : p.InputsApart q t') (unreadable : p.StayUnreadable q t t') {paths : List Path}
    (hp : ∀ path ∈ paths, path ∈ p.inputs q) :
    Input.sources (inputsAt t' paths) = Input.sources (inputsAt t paths) := by
  obtain ⟨wrote, changes, target⟩ := FileTree.changes_performAll ht
  have same : ∀ path ∈ paths, Input.source? ⟨path, t'.read path⟩ =
      Input.source? ⟨path, t.read path⟩ := by
    intro path hpath
    cases hr : t.read path with
    | ok text =>
      have read' : t'.read path = .ok text := changes.read hr fun place leads hw' => by
        obtain ⟨out, ho, leads'⟩ := target place hw'
        exact apart path (hp path hpath) out (hw out ho) place leads leads'
      rw [read']
    | error e =>
      have stays := unreadable path (hp path hpath) (by rw [hr]; rfl)
      cases hr' : t'.read path with
      | error e' => rfl
      | ok text =>
        rw [hr'] at stays
        cases stays
  rw [Input.sources, Input.sources, inputsAt, inputsAt, List.filterMap_map, List.filterMap_map]
  exact List.filterMap_congr same

/-- A run that has ended well can be made again, and then changes nothing. -/
theorem run_again {summary : Summary}
    (h : (run FileTree.system p style q s).run t = ((.ok summary, s'), t'))
    (apart : p.InputsApart q t') (unreadable : p.StayUnreadable q t t') (style' : Style) :
    ∃ s₂ t₂, (run FileTree.system p style' q {}).run t' = ((.ok summary, s₂), t₂) ∧
      t'.Same t₂ := by
  rcases run_cases h with ⟨e, -, he, -⟩ | ⟨todo, done, hp, ht, hr⟩
  · cases he
  · obtain ⟨a, e⟩ | _ := done
    · cases hr
    cases hr
    obtain ⟨targets, sourced⟩ : (∀ path ∈ todo.actions.filterMap FileAction.target?,
        path ∈ p.written q.outputDir) ∧ FileAction.Sourced [] todo.actions := by
      rcases planned_eq_ok hp with ⟨-, rfl⟩ | ⟨-, g, rfl⟩
      · exact ⟨nofun, trivial⟩
      · exact ⟨fun _ h => p.filterMap_target?_writing g q.outputDir ▸ h,
          p.sourced_writing g q.outputDir⟩
    have again : planOn p q 0 t' = .ok todo := by
      have scripts := sources_inputsAt ht targets apart unreadable
        fun path hpath => List.mem_append_left (q.sources.map p.sourcePath) hpath
      have sources := sources_inputsAt ht targets apart unreadable
        fun path hpath => List.mem_append_right (q.scripts.map p.sqlPath) hpath
      rw [planOn, scripts, sources, plannedFrom_congr p q 0 s.sources.length]
      exact hp
    obtain ⟨t₂, carried, same⟩ := FileTree.performAll_again ht sourced
    obtain ⟨s₂, whole⟩ := run_eq p style' q {} t'
    refine ⟨s₂, t₂, ?_, same.1, same.2⟩
    rw [whole, show planOn p q ({} : Session).sources.length t' = .ok todo from again]
    dsimp only
    rw [carried]
    rfl

/-- **A run** changes its outputs only: nothing in a dry run, nor if it fails before it writes.  If
it ends well and its inputs are apart from its outputs, a new one comes to the same and changes
nothing, unless an input can be read then that could not be read before. -/
theorem run_keeps_to_outputs
    (h : (run FileTree.system p style q s).run t = ((r, s'), t')) :
    ((q.dryRun = true ∨ ∃ e, r = .error e ∧ ∀ a c, e ≠ .file a c) → t' = t) ∧
      p.ChangesOutputs q.outputDir t t' ∧
      ∀ summary, r = .ok summary → p.InputsApart q t' → p.StayUnreadable q t t' → ∀ style',
        ∃ s₂ t₂, (run FileTree.system p style' q {}).run t' = ((.ok summary, s₂), t₂) ∧
          t'.Same t₂ := by
  refine ⟨?_, ?_, ?_⟩
  · rcases run_cases h with ⟨e, -, -, rfl⟩ | ⟨todo, done, hp, ht, rfl⟩
    · exact fun _ => rfl
    · rcases planned_eq_ok hp with ⟨-, rfl⟩ | ⟨dry, g, rfl⟩
      · cases ht
        exact fun _ => rfl
      · rintro (dry' | ⟨e, he, other⟩)
        · rw [dry] at dry'
          cases dry'
        · obtain ⟨a, c⟩ | _ := done
          · cases he
            exact absurd rfl (other a c)
          · cases he
  · rcases run_cases h with ⟨e, -, -, rfl⟩ | ⟨todo, done, hp, ht, -⟩
    · exact .refl p q.outputDir t'
    · rcases planned_eq_ok hp with ⟨-, rfl⟩ | ⟨-, g, rfl⟩
      · cases ht
        exact .refl p q.outputDir t
      · exact changes_writing ht
  · rintro summary rfl apart unreadable style'
    exact run_again h apart unreadable style'

/-! ### A small tree -/

/-- A source that exports and defines a function. -/
def constantSource : Text :=
  "PGDLLEXPORT Datum f(PG_FUNCTION_ARGS);\n" ++
    "Datum f(PG_FUNCTION_ARGS)\n\x7b\n  PG_RETURN_INT32(now());\n\x7d\n"

/-- A script that declares it. -/
def constantScript : Text :=
  "CREATE FUNCTION f(integer) RETURNS integer AS 'm', 'f' LANGUAGE C;"

/-- A directory with the script and the source. -/
def smallTree : FileTree :=
  ⟨[(["w"], .dir), (["w", "a.sql"], .file (some constantScript)),
    (["w", "a.c"], .file (some constantSource))], ["w"]⟩

/-- The source and a script, for output to a directory that is not there. -/
def requestFor (script : Path) : Request :=
  ⟨[script], ["a.c"], "out", false⟩

/-- A run for a script. -/
def runFor (script : Path) (t : FileTree) : (Except Failure Summary × Session) × FileTree :=
  (run FileTree.system {} ⟨false, false⟩ (requestFor script) {}).run t

/-- A run that ends well, with a property of the tree before and after it. -/
def endsOn (script : Path) (t : FileTree) (p : FileTree → Summary → Bool) : Bool :=
  satisfies (runFor script t).1.1 (p (runFor script t).2)

/-- A run that is seen to end well ends well. -/
theorem exists_of_endsOn {script : Path} {t : FileTree} {p : FileTree → Summary → Bool}
    (h : endsOn script t p = true) :
    ∃ summary s' t', runFor script t = ((.ok summary, s'), t') ∧ p t' summary = true := by
  obtain ⟨summary, hs, hp⟩ := exists_of_satisfies h
  exact ⟨summary, _, _, Prod.ext (Prod.ext hs rfl) rfl, hp⟩

/-- The theorem for a run that writes a wrapper. -/
theorem run_keeps_to_outputs_of_small : ∃ summary s₁ t₁ s₂ t₂,
    runFor "a.sql" smallTree = ((.ok summary, s₁), t₁) ∧ summary.emitted = 1 ∧
      Project.ChangesOutputs {} "out" smallTree t₁ ∧
      Project.InputsApart {} (requestFor "a.sql") t₁ ∧
      Project.StayUnreadable {} (requestFor "a.sql") smallTree t₁ ∧
      runFor "a.sql" t₁ = ((.ok summary, s₂), t₂) ∧ t₁.Same t₂ := by
  obtain ⟨summary, s₁, t₁, h, hp⟩ := @exists_of_endsOn "a.sql" smallTree
    (fun t₁ summary => summary.emitted == 1 &&
      decide (Project.InputsApart {} (requestFor "a.sql") t₁) &&
      decide (Project.StayUnreadable {} (requestFor "a.sql") smallTree t₁)) (by decide +kernel)
  simp only [Bool.and_eq_true, beq_iff_eq, decide_eq_true_eq, and_assoc] at hp
  obtain ⟨emitted, apart, unreadable⟩ := hp
  obtain ⟨-, changes, again⟩ := run_keeps_to_outputs h
  obtain ⟨s₂, t₂, second, same⟩ := again summary rfl apart unreadable ⟨false, false⟩
  exact ⟨summary, s₁, t₁, s₂, t₂, h, emitted, changes, apart, unreadable, second, same⟩

/-- A script is behind the directory that the first run makes: it is read by the second run only,
though no output is an input. -/
theorem run_reads_through_new_directory : ∃ first second s₁ s₂ t₁ t₂,
    runFor "out/../a.sql" smallTree = ((.ok first, s₁), t₁) ∧
      Project.InputsApart {} (requestFor "out/../a.sql") t₁ ∧
      runFor "out/../a.sql" t₁ = ((.ok second, s₂), t₂) ∧
      first.emitted = 0 ∧ second.emitted = 1 := by
  obtain ⟨first, s₁, t₁, h₁, hp⟩ := @exists_of_endsOn "out/../a.sql" smallTree
    (fun t₁ first => decide (Project.InputsApart {} (requestFor "out/../a.sql") t₁) &&
      first.emitted == 0 && endsOn "out/../a.sql" t₁ fun _ second => second.emitted == 1)
    (by decide +kernel)
  simp only [Bool.and_eq_true, beq_iff_eq, decide_eq_true_eq, and_assoc] at hp
  obtain ⟨apart, none, later⟩ := hp
  obtain ⟨second, s₂, t₂, h₂, one⟩ := exists_of_endsOn later
  exact ⟨first, second, s₁, s₂, t₁, t₂, h₁, apart, h₂, none, beq_iff_eq.mp one⟩

end Batch

end VectorWrap
