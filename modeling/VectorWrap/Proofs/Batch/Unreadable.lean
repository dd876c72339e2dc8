import VectorWrap.Proofs.Batch.Outputs

/-!
# Inputs that cannot be read

A run in which some inputs cannot be read goes as the run without them: the same sources get the
same numbers, the same is generated and written, and the diagnostics differ in one warning for each
of these inputs (`unreadable_isolated`).

The two runs are related step by step.  The sessions of the two have read the same and report the
same but for the warnings (`Session.Beside`), and a step of the one is followed by a step of the
other when it keeps the relation and gives the same (`Follows`).  A step of the run without the
inputs may be none at all: reading an input that cannot be read is followed by giving an empty
script, or no functions.
-/

namespace VectorWrap

/-- The diagnostic warns of an input that cannot be read. -/
def Diagnostic.isUnreadable (d : Diagnostic) : Bool :=
  d.code == "W0001".toList

/-- The warning for an input that cannot be read. -/
def Input.warning? (i : Input) : Option Diagnostic :=
  match i.content with
  | .ok _ => none
  | .error e => some (Batch.unreadableWarning i.path e)

/-- The warnings for the inputs that cannot be read, in order. -/
def Input.warnings (inputs : List Input) : List Diagnostic :=
  inputs.filterMap Input.warning?

/-- The inputs that can be read. -/
def Input.readable (inputs : List Input) : List Input :=
  inputs.filter (·.content.isOk)

/-- The sessions have read the same, and report the same behind `base` but for the warnings `ws`,
which only the first one has. -/
structure Session.Beside (base ws : List Diagnostic) (s s' : Session) : Prop where
  sources : s.sources = s'.sources
  diagnostics : ∃ added, s.diagnostics = base ++ added ∧
    s'.diagnostics = base ++ added.filter (!·.isUnreadable) ∧
    added.filter (·.isUnreadable) = ws

namespace Session.Beside

variable {base ws : List Diagnostic} {s s' : Session}

theorem refl (s : Session) : Beside s.diagnostics [] s s :=
  ⟨rfl, [], by simp, by simp, rfl⟩

theorem say (h : Beside base ws s s') (notices notices' : List Notice) :
    Beside base ws { s with notices := s.notices ++ notices }
      { s' with notices := s'.notices ++ notices' } :=
  ⟨h.sources, h.diagnostics⟩

theorem read (h : Beside base ws s s') (x : Source) :
    Beside base ws { s with sources := s.sources ++ [x] }
      { s' with sources := s'.sources ++ [x] } :=
  ⟨congrArg (· ++ [x]) h.sources, h.diagnostics⟩

theorem report (h : Beside base ws s s') {ds : List Diagnostic}
    (hd : ∀ d ∈ ds, d.isUnreadable = false) :
    Beside base ws { s with diagnostics := s.diagnostics ++ ds }
      { s' with diagnostics := s'.diagnostics ++ ds } := by
  obtain ⟨added, h₁, h₂, h₃⟩ := h.diagnostics
  have none : ds.filter (·.isUnreadable) = [] :=
    List.filter_eq_nil_iff.mpr fun d hm => by simp [hd d hm]
  have all : ds.filter (!·.isUnreadable) = ds :=
    List.filter_eq_self.mpr fun d hm => by simp [hd d hm]
  exact ⟨h.sources, added ++ ds, by simp [h₁], by simp [h₂, all], by simp [h₃, none]⟩

/-- Only the first one warns. -/
theorem warn (h : Beside base ws s s') {w : Diagnostic} (hw : w.isUnreadable = true)
    (notices : List Notice) : Beside base (ws ++ [w])
      { s with notices := s.notices ++ notices, diagnostics := s.diagnostics ++ [w] } s' := by
  obtain ⟨added, h₁, h₂, h₃⟩ := h.diagnostics
  exact ⟨h.sources, added ++ [w], by simp [h₁], by simp [h₂, hw], by simp [h₃, hw]⟩

end Session.Beside

namespace Batch

open Session (Beside)

variable {α β : Type} {ws ws' : List Diagnostic}

/-! ### One step follows another -/

/-- The step stops for faults only. -/
def OnlyFaults (b : Batch α) : Prop :=
  ∀ s e, (b.step s).1 = .error e → ∃ f, e = .fault f

/-- In sessions that are beside each other both steps give the same, and the first one reports the
warnings `ws` besides; of these it may miss the last ones if it stops for a fault. -/
def Follows (ws : List Diagnostic) (b b' : Batch α) : Prop :=
  ∀ ⦃base v s s'⦄, Beside base v s s' → ∃ w, (b.step s).1 = (b'.step s').1 ∧
    Beside base (v ++ w) (b.step s).2 (b'.step s').2 ∧
    (w = ws ∨ w <+: ws ∧ ∃ f, (b.step s).1 = .error (.fault f))

namespace Follows

/-- Steps that keep the relation as it is. -/
theorem of_beside {b b' : Batch α} (h : ∀ {base v s s'}, Beside base v s s' →
    (b.step s).1 = (b'.step s').1 ∧ Beside base v (b.step s).2 (b'.step s').2) :
    Follows [] b b' := fun _ v _ _ beside =>
  ⟨[], (h beside).1, (List.append_nil v).symm ▸ (h beside).2, .inl rfl⟩

theorem pure (a : α) : Follows [] (Pure.pure a) (Pure.pure a) :=
  of_beside fun h => ⟨rfl, h⟩

theorem throw (e : Failure) : Follows [] (MonadExcept.throw e : Batch α) (MonadExcept.throw e) :=
  of_beside fun h => ⟨rfl, h⟩

theorem orStop (r : Except Fault α) : Follows [] (Batch.orStop r) (Batch.orStop r) := by
  cases r with
  | ok a => exact .pure a
  | error f => exact .throw _

theorem say (notices notices' : List Notice) :
    Follows [] (Batch.say notices) (Batch.say notices') :=
  of_beside fun h => ⟨rfl, h.say notices notices'⟩

/-- What is reported in both runs is no such warning. -/
theorem report {ds : List Diagnostic} (hd : ∀ d ∈ ds, d.isUnreadable = false) :
    Follows [] (Batch.report ds) (Batch.report ds) :=
  of_beside fun h => ⟨rfl, h.report hd⟩

/-- A source gets the same number. -/
theorem addSource (x : Source) : Follows [] (Batch.addSource x) (Batch.addSource x) :=
  of_beside fun h => ⟨congrArg (Except.ok ∘ List.length) h.sources, h.read x⟩

/-- What is done with the sources that have been read. -/
theorem get_bind {f g : Session → Batch α}
    (h : ∀ s s', s.sources = s'.sources → Follows ws (f s) (g s')) :
    Follows ws (get >>= f) (get >>= g) := fun _ _ s s' beside => by
  rw [step_bind_ok (step_get s), step_bind_ok (step_get s')]
  exact h s s' beside.sources beside

/-- Warnings are not lost behind a step that stops, unless it stops for a fault. -/
theorem bind {b b' : Batch α} {f g : α → Batch β} (hb : Follows ws b b')
    (hf : ∀ a, Follows ws' (f a) (g a)) (hs : ws' = [] ∨ OnlyFaults b) :
    Follows (ws ++ ws') (b >>= f) (b' >>= g) := fun _ v s s' beside => by
  obtain ⟨w, same, beside₁, whole⟩ := hb beside
  rcases first : b.step s with ⟨r, s₁⟩
  rcases first' : b'.step s' with ⟨r', s₁'⟩
  rw [first, first'] at same beside₁
  rw [first] at whole
  obtain rfl : r = r' := same
  cases r with
  | error e =>
    rw [step_bind_error first, step_bind_error first']
    refine ⟨w, rfl, beside₁, ?_⟩
    rcases whole with rfl | ⟨front, fault⟩
    · rcases hs with rfl | only
      · exact .inl (List.append_nil w).symm
      · obtain ⟨f, rfl⟩ := only s e (by rw [first])
        exact .inr ⟨List.prefix_append _ _, f, rfl⟩
    · obtain ⟨f, stops⟩ := fault
      cases stops
      exact .inr ⟨front.trans (List.prefix_append _ _), f, rfl⟩
  | ok a =>
    obtain rfl : w = ws := whole.resolve_right fun h => nomatch h.2
    obtain ⟨w', same', beside₂, whole'⟩ := hf a beside₁
    rw [step_bind_ok first, step_bind_ok first']
    refine ⟨w ++ w', same', (List.append_assoc v w w') ▸ beside₂, ?_⟩
    rcases whole' with rfl | ⟨front, fault⟩
    · exact .inl rfl
    · exact .inr ⟨(List.prefix_append_right_inj w).mpr front, fault⟩

/-- Behind a step nothing is warned of. -/
theorem bind_quiet {b b' : Batch α} {f g : α → Batch β} (hb : Follows ws b b')
    (hf : ∀ a, Follows [] (f a) (g a)) : Follows ws (b >>= f) (b' >>= g) := by
  simpa using hb.bind hf (.inl rfl)

end Follows

/-! ### Loading -/

/-- An input that can be read is read in both runs. -/
theorem Follows.fetch {i : Input} (style : Style) (hi : i.content.isOk = true) :
    Follows [] (Batch.fetch style i) (Batch.fetch style i) := by
  rw [Batch.fetch]
  cases hc : i.content with
  | ok text => exact (addSource _).bind_quiet fun _ => .pure _
  | error e =>
    rw [hc] at hi
    cases hi

/-- Loading a script stops for a fault only. -/
theorem onlyFaults_loadScript (style : Style) (i : Input) : OnlyFaults (loadScript style i) :=
  fun s e h => by
    obtain ⟨s', run, -⟩ := step_loadScript style i s
    rw [run] at h
    cases h

theorem onlyFaults_loadSource (style : Style) (i : Input) : OnlyFaults (loadSource style i) :=
  fun s e h => by
    obtain ⟨s', run, -⟩ := step_loadSource style i s
    rw [run] at h
    cases hf : functionsFrom s.sources.length i.source?.toList with
    | ok functions =>
      rw [hf] at h
      cases h
    | error f =>
      rw [hf] at h
      cases h
      exact ⟨f, rfl⟩

/-- A script that can be read is loaded in both runs. -/
theorem Follows.loadScript {i : Input} (style : Style) (hi : i.content.isOk = true) :
    Follows [] (Batch.loadScript style i) (Batch.loadScript style i) := by
  refine (Follows.fetch style hi).bind_quiet fun x? => ?_
  cases x? with
  | none => exact .pure _
  | some x => exact (say _ _).bind_quiet fun _ => .pure _

/-- A C source that can be read is loaded in both runs. -/
theorem Follows.loadSource {i : Input} (style : Style) (hi : i.content.isOk = true) :
    Follows [] (Batch.loadSource style i) (Batch.loadSource style i) := by
  refine (Follows.fetch style hi).bind_quiet fun x? => ?_
  cases x? with
  | none => exact .pure _
  | some x =>
    refine (orStop _).bind_quiet fun source => (say _ _).bind_quiet fun _ =>
      (report fun d hd => ?_).bind_quiet fun _ => .pure _
    obtain ⟨symbol, -, rfl⟩ := List.mem_map.mp hd
    rfl

/-- What cannot be read leaves a warning, and nothing else. -/
theorem follows_loadScript {i : Input} {e : FileError} (style : Style)
    (hi : i.content = .error e) :
    Follows [unreadableWarning i.path e] (loadScript style i) (pure {}) := fun _ _ _ _ beside => by
  rw [loadScript, fetch, hi]
  exact ⟨[_], rfl, beside.warn rfl _, .inl rfl⟩

/-- A C source that cannot be read is like no source. -/
theorem follows_loadSource {i : Input} {e : FileError} (style : Style)
    (hi : i.content = .error e) :
    Follows [unreadableWarning i.path e] (loadSource style i) (pure []) := fun _ _ _ _ beside => by
  rw [loadSource, fetch, hi]
  exact ⟨[_], rfl, beside.warn rfl _, .inl rfl⟩

theorem readable_cons_ok {i : Input} {text : Text} (hi : i.content = .ok text)
    (rest : List Input) : Input.readable (i :: rest) = i :: Input.readable rest ∧
      Input.warnings (i :: rest) = Input.warnings rest :=
  ⟨List.filter_cons_of_pos (by rw [hi]; rfl),
    List.filterMap_cons_none (by rw [Input.warning?, hi])⟩

/-- An input that cannot be read is left out, and leaves a warning. -/
theorem readable_cons_error {i : Input} {e : FileError} (hi : i.content = .error e)
    (rest : List Input) : Input.readable (i :: rest) = Input.readable rest ∧
      Input.warnings (i :: rest) = unreadableWarning i.path e :: Input.warnings rest :=
  ⟨List.filter_cons_of_neg (by rw [hi]; exact Bool.false_ne_true),
    List.filterMap_cons_some (by rw [Input.warning?, hi])⟩

/-- Inputs are loaded one after the other as those that can be read, where one that cannot be read
counts for nothing. -/
theorem follows_all {M : Type} {load : Input → Batch M} {all : List Input → Batch M} {unit : M}
    {op : M → M → M} (unit_op : ∀ u, op unit u = u)
    (reads : ∀ i, i.content.isOk = true → Follows [] (load i) (load i))
    (warns : ∀ i e, i.content = .error e →
      Follows [unreadableWarning i.path e] (load i) (pure unit))
    (only : ∀ i, OnlyFaults (load i)) (nil : all [] = pure unit)
    (cons : ∀ i rest, all (i :: rest) = do
      let u ← load i
      let v ← all rest
      pure (op u v))
    (inputs : List Input) :
    Follows (Input.warnings inputs) (all inputs) (all (Input.readable inputs)) := by
  induction inputs with
  | nil =>
    rw [Input.readable, List.filter_nil, nil]
    exact .pure unit
  | cons i rest ih =>
    have others (u : M) := ih.bind_quiet fun v => .pure (op u v)
    cases hi : i.content with
    | ok text =>
      obtain ⟨readable, warnings⟩ := readable_cons_ok hi rest
      rw [readable, warnings, cons, cons]
      exact (reads i (by rw [hi]; rfl)).bind others (.inr (only i))
    | error e =>
      obtain ⟨readable, warnings⟩ := readable_cons_error hi rest
      have whole := (warns i e hi).bind others (.inr (only i))
      simp only [pure_bind, unit_op, bind_pure] at whole
      rw [readable, warnings, cons]
      exact whole

/-- **Scripts are loaded** as those that can be read. -/
theorem follows_loadDeclarations (style : Style) (inputs : List Input) :
    Follows (Input.warnings inputs) (loadDeclarations style inputs)
      (loadDeclarations style (Input.readable inputs)) :=
  follows_all Script.nil_append (fun _ => .loadScript style)
    (fun _ _ => follows_loadScript style) (onlyFaults_loadScript style) rfl (fun _ _ => rfl) inputs

/-- **C sources are loaded** as those that can be read. -/
theorem follows_loadNatives (style : Style) (inputs : List Input) :
    Follows (Input.warnings inputs) (loadNatives style inputs)
      (loadNatives style (Input.readable inputs)) :=
  follows_all List.nil_append (fun _ => .loadSource style)
    (fun _ _ => follows_loadSource style) (onlyFaults_loadSource style) rfl (fun _ _ => rfl) inputs

/-! ### Generating -/

theorem isUnreadable_code (cause : GenError) : (cause.code == "W0001".toList) = false := by
  cases cause <;> rfl

/-- What is reported of a key is no such warning. -/
theorem isUnreadable_of_mem_diagnostics {sources : List Source} {u : Match} {o : Outcome}
    {d : Diagnostic} (h : d ∈ o.diagnostics sources u) : d.isUnreadable = false := by
  cases o with
  | emitted w =>
    rw [Outcome.diagnostics] at h
    split_ifs at h
    · rw [List.mem_singleton.mp h]
      rfl
    · cases h
  | skipped reason => cases h
  | failed cause =>
    rw [List.mem_singleton.mp h]
    exact isUnreadable_code cause

namespace Follows

/-- Matching is the same in both runs. -/
theorem matchUnits (script : Script) (natives : List Implementation) :
    Follows [] (Batch.matchUnits script natives) (Batch.matchUnits script natives) := by
  rw [Batch.matchUnits]
  cases Matching.make script.declarations natives with
  | error e =>
    refine (report ?_).bind_quiet fun _ => .throw _
    exact List.forall_mem_singleton.mpr (isUnreadable_code e)
  | ok m =>
    refine get_bind fun s s' read => ?_
    rw [read]
    refine (report fun d hd => ?_).bind_quiet fun _ => .pure m
    obtain ⟨_, -, rfl⟩ := List.mem_map.mp hd
    rfl

/-- Settling is the same in both runs. -/
theorem settle (style : Style) (e : Emitter) (xs : List (Match × Text)) :
    Follows [] (Batch.settle style e xs) (Batch.settle style e xs) := by
  induction xs with
  | nil => exact .pure _
  | cons x xs ih =>
    obtain ⟨u, key⟩ := x
    refine (orStop _).bind_quiet fun o => (say _ _).bind_quiet fun _ =>
      get_bind fun s s' read => ?_
    rw [read]
    exact (report fun _ => isUnreadable_of_mem_diagnostics).bind_quiet fun _ =>
      ih.bind_quiet fun _ => .pure _

theorem generate (p : Project) (style : Style) (script : Script) (natives : List Implementation) :
    Follows [] (Batch.generate p style script natives) (Batch.generate p style script natives) :=
  (matchUnits script natives).bind_quiet fun m =>
    (settle style _ m.keyed).bind_quiet fun _ => .pure _

end Follows

/-! ### Running -/

/-- **A plan** is made as from the inputs that can be read. -/
theorem follows_plan (p : Project) (style : Style) (q : Request) (scripts sources : List Input) :
    Follows (Input.warnings (scripts ++ sources)) (plan p style q scripts sources)
      (plan p style q (Input.readable scripts) (Input.readable sources)) := by
  have only : OnlyFaults (loadDeclarations style scripts) := fun s e h => by
    obtain ⟨s', run, -⟩ := step_loadDeclarations style scripts s
    rw [run] at h
    cases h
  have warnings : Input.warnings (scripts ++ sources) =
      Input.warnings scripts ++ Input.warnings sources := List.filterMap_append
  rw [warnings]
  refine (follows_loadDeclarations style scripts).bind (fun script => ?_) (.inr only)
  refine (follows_loadNatives style sources).bind_quiet fun natives => ?_
  split_ifs
  · exact (Follows.matchUnits script natives).bind_quiet fun m =>
      (Follows.say _ _).bind_quiet fun _ => .pure _
  · exact (Follows.generate p style script natives).bind_quiet fun _ => .pure _

end Batch

/-- The request without the inputs that cannot be read. -/
def Project.readable (p : Project) (q : Request) (t : FileTree) : Request :=
  { q with
    scripts := q.scripts.filter fun path => (t.read (p.sqlPath path)).isOk
    sources := q.sources.filter fun path => (t.read (p.sourcePath path)).isOk }

namespace Batch

/-- The inputs at the paths that are left are those that can be read. -/
theorem inputsAt_filter (t : FileTree) (f : Path → Path) (paths : List Path) :
    inputsAt t ((paths.filter fun path => (t.read (f path)).isOk).map f) =
      Input.readable (inputsAt t (paths.map f)) := by
  simp only [inputsAt, Input.readable, List.map_map, List.filter_map]
  rfl

/-- Inputs that cannot be read give no source. -/
theorem sources_readable (inputs : List Input) :
    Input.sources (Input.readable inputs) = Input.sources inputs := by
  rw [Input.sources, Input.sources, Input.readable, List.filterMap_filter]
  refine List.filterMap_congr fun i _ => ?_
  rw [Input.source?]
  cases i.content <;> rfl

/-- The plan is made of the inputs that can be read. -/
theorem planOn_readable (p : Project) (q : Request) (n : Nat) (t : FileTree) :
    planOn p (p.readable q t) n t = planOn p q n t := by
  have scripts := inputsAt_filter t p.sqlPath q.scripts
  have sources := inputsAt_filter t p.sourcePath q.sources
  rw [planOn, planOn, Project.readable]
  dsimp only
  rw [scripts, sources, sources_readable, sources_readable]
  rfl

/-- The inputs of a run. -/
theorem inputsAt_inputs (p : Project) (q : Request) (t : FileTree) :
    inputsAt t (p.inputs q) =
      inputsAt t (q.scripts.map p.sqlPath) ++ inputsAt t (q.sources.map p.sourcePath) := by
  rw [Project.inputs, inputsAt, List.map_append]
  rfl

/-- **Inputs that cannot be read leave a warning each, and nothing else.**  Without them a run ends
in the same way with the same tree, has planned to write the same, and has read the same sources
under the same numbers.  What it reports is what is reported with them but for the warnings: one for
each of these inputs in order, unless the run stops for a fault; then there is one for each of the
first of them, those that it has come to. -/
theorem unreadable_isolated (p : Project) (style : Style) (q : Request) (s : Session)
    (t : FileTree) : ∃ r t' s₁ s₂ added,
      (run FileTree.system p style q s).run t = ((r, s₁), t') ∧
      (run FileTree.system p style (p.readable q t) s).run t = ((r, s₂), t') ∧
      planOn p (p.readable q t) s.sources.length t = planOn p q s.sources.length t ∧
      s₁.sources = s₂.sources ∧
      s₁.diagnostics = s.diagnostics ++ added ∧
      s₂.diagnostics = s.diagnostics ++ added.filter (!·.isUnreadable) ∧
      ((∀ f, r ≠ .error (.fault f)) →
        added.filter (·.isUnreadable) = Input.warnings (inputsAt t (p.inputs q))) ∧
      added.filter (·.isUnreadable) <+: Input.warnings (inputsAt t (p.inputs q)) := by
  obtain ⟨w, same, ⟨read, added, h₁, h₂, warned⟩, whole⟩ := follows_plan p style q
    (inputsAt t (q.scripts.map p.sqlPath)) (inputsAt t (q.sources.map p.sourcePath)) (.refl s)
  rw [← inputsAt_filter, ← inputsAt_filter] at same read h₂
  rw [List.nil_append] at warned
  rw [← inputsAt_inputs] at whole
  rcases first : (plan p style q (inputsAt t (q.scripts.map p.sqlPath))
    (inputsAt t (q.sources.map p.sourcePath))).step s with ⟨made, s₁⟩
  rcases second : (plan p style (p.readable q t)
    (inputsAt t ((p.readable q t).scripts.map p.sqlPath))
    (inputsAt t ((p.readable q t).sources.map p.sourcePath))).step s with ⟨made', s₂⟩
  -- both runs plan the same, so the commands that follow are the same
  obtain rfl : made = made' := by
    have same' := congrArg Prod.fst first
    rw [same] at same'
    exact same'.symm.trans (congrArg Prod.fst second)
  rw [first] at read h₁ whole
  have run₁ := run_plan p style q s t
  have run₂ := run_plan p style (p.readable q t) s t
  rw [first] at run₁
  rw [second] at run₂
  have read₂ : s₁.sources = s₂.sources := read.trans (congrArg (·.2.sources) second)
  have report₂ : s₂.diagnostics = s.diagnostics ++ added.filter (!·.isUnreadable) :=
    (congrArg (·.2.diagnostics) second).symm.trans h₂
  rw [← warned] at whole
  have front : added.filter (·.isUnreadable) <+: Input.warnings (inputsAt t (p.inputs q)) := by
    rcases whole with all | ⟨front, -⟩
    · exact all ▸ List.prefix_rfl
    · exact front
  cases made with
  | error e =>
    refine ⟨.error e, t, s₁, s₂, added, run₁, run₂, planOn_readable p q _ t, read₂, h₁, report₂,
      fun faultless => whole.resolve_right ?_, front⟩
    rintro ⟨-, f, stops⟩
    cases stops
    exact faultless f rfl
  | ok todo =>
    exact ⟨_, _, s₁, s₂, added, run₁, run₂, planOn_readable p q _ t, read₂, h₁, report₂,
      fun _ => whole.resolve_right (fun h => nomatch h.2), front⟩

/-- The small tree with a file that holds no text. -/
def mixedTree : FileTree :=
  ⟨(["w", "b.c"], .file none) :: smallTree.nodes, ["w"]⟩

/-- A script that is not there and a source that holds no text. -/
example : Project.readable {} ⟨["b.sql", "a.sql"], ["b.c", "a.c"], "out", false⟩ mixedTree =
      requestFor "a.sql" ∧
    Input.warnings (inputsAt mixedTree ["b.sql", "a.sql", "b.c", "a.c"]) =
      [unreadableWarning "b.sql" .notFound, unreadableWarning "b.c" .notText] := by
  decide +kernel

end Batch

end VectorWrap
