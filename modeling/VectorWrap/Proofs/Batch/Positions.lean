import VectorWrap.Proofs.Batch.Results
import VectorWrap.Proofs.Implementation.Spans

/-!
# Positions stay right

In one session declarations and C sources are loaded and wrappers generated, in any order and again
and again, from files that may change between the steps and from anything that was loaded before
(`Bench.Step`).  Sources are only ever added, so whatever a step loads keeps the number of its
source for good; and what a step reports points at something that was loaded.  Hence after any steps
every position is right (`Bench.positioned_of_steps`).

The sources before a step are a prefix of those behind it.  So a range that was right stays right
(`Points.mono`), and only what the step itself loads or reports has to be looked at.
-/

namespace VectorWrap

namespace Batch

/-! ### What is loaded -/

/-- Declarations of different sources have different files, those of one stand one behind the
other. -/
theorem pairwise_scriptFrom (n : Nat) (xs : List Source) :
    (scriptFrom n xs).declarations.Pairwise fun d d' =>
      d.span.file = d'.span.file → d.span.stop ≤ d'.span.start := by
  induction xs generalizing n with
  | nil => exact .nil
  | cons x xs ih =>
    refine List.pairwise_append.mpr ⟨?_, ih (n + 1), fun d hd d' hd' same => ?_⟩
    · refine (Script.pairwise_declarations (some n) x.text).imp ?_
      exact fun h _ => h
    · obtain ⟨i, y, -, hd'⟩ := mem_declarations_scriptFrom.mp hd'
      rw [(Script.placed_of_mem_declarations hd).file,
        (Script.placed_of_mem_declarations hd').file, Option.some.injEq] at same
      omega

/-- The functions of each source, under its number. -/
theorem exists_of_mem_functionsFrom {n : Nat} {xs : List Source} {natives : List Implementation}
    (h : functionsFrom n xs = .ok natives) : ∀ f ∈ natives, ∃ i x u, xs[i]? = some x ∧
      NativeSource.parse (some (n + i)) x.text = .ok u ∧ f ∈ u.functions := by
  induction xs generalizing n natives with
  | nil =>
    cases h
    exact nofun
  | cons x xs ih =>
    rw [functionsFrom] at h
    cases hu : NativeSource.parse (some n) x.text with
    | error f =>
      rw [hu] at h
      cases h
    | ok u =>
      cases ho : functionsFrom (n + 1) xs with
      | error f =>
        rw [hu, ho] at h
        cases h
      | ok others =>
        rw [hu, ho] at h
        cases h
        intro f hf
        rcases List.mem_append.mp hf with hf | hf
        · exact ⟨0, x, u, rfl, hu, hf⟩
        · obtain ⟨i, y, v, hy, hv, hf⟩ := ih ho f hf
          exact ⟨i + 1, y, v, hy, Nat.add_right_comm n 1 i ▸ hv, hf⟩

end Batch

/-! ### Steps -/

/-- A session, with all that was loaded in it. -/
structure Bench where
  session : Session := {}
  declarations : List Declaration := []
  natives : List Implementation := []

namespace Bench

open Session (Adds)

variable {p : Project} {style : Style} {a b c : Bench}

/-- What a step gives, if it does not stop. -/
def gained {α β : Type} (what : α → List β) : Except Failure α → List β
  | .ok x => what x
  | .error _ => []

/-- Loads declaration scripts. -/
def loadDeclarations (style : Style) (inputs : List Input) (b : Bench) : Bench :=
  let (r, s) := (Batch.loadDeclarations style inputs).step b.session
  { b with session := s, declarations := b.declarations ++ gained (·.declarations) r }

/-- Loads C sources. -/
def loadNatives (style : Style) (inputs : List Input) (b : Bench) : Bench :=
  let (r, s) := (Batch.loadNatives style inputs).step b.session
  { b with session := s, natives := b.natives ++ gained id r }

/-- Matches declarations with functions. -/
def matchUnits (script : Script) (natives : List Implementation) (b : Bench) : Bench :=
  { b with session := ((Batch.matchUnits script natives).step b.session).2 }

/-- Generates wrappers. -/
def generate (p : Project) (style : Style) (script : Script) (natives : List Implementation)
    (b : Bench) : Bench :=
  { b with session := ((Batch.generate p style script natives).step b.session).2 }

/-- The declarations and functions have been loaded. -/
structure Loaded (b : Bench) (script : Script) (natives : List Implementation) : Prop where
  declarations : script.declarations ⊆ b.declarations
  natives : natives ⊆ b.natives

/-- One step. -/
inductive Step (p : Project) (style : Style) : Bench → Bench → Prop where
  | loadDeclarations (b : Bench) (inputs : List Input) :
      Step p style b (b.loadDeclarations style inputs)
  | loadNatives (b : Bench) (inputs : List Input) :
      Step p style b (b.loadNatives style inputs)
  | matchUnits {b : Bench} {script : Script} {natives : List Implementation}
      (h : b.Loaded script natives) : Step p style b (b.matchUnits script natives)
  | generate {b : Bench} {script : Script} {natives : List Implementation}
      (h : b.Loaded script natives) : Step p style b (b.generate p style script natives)

/-! ### Positions -/

/-- A diagnostic points at a range of a source, between characters, and names its file. -/
def Points (sources : List Source) (g : Diagnostic) : Prop :=
  ∀ span ∈ g.span?, ∃ file source text, span.file = some file ∧ sources[file]? = some source ∧
    Text.slice span.start span.stop source.text = .ok text ∧ g.file = source.name

/-- All positions are right. -/
structure Positioned (b : Bench) : Prop where
  declaration : ∀ d ∈ b.declarations, ∃ file source, b.session.sources[file]? = some source ∧
    Script.Placed (some file) source.text d
  ordered : b.declarations.Pairwise fun d d' =>
    d.span.file = d'.span.file → d.span.stop ≤ d'.span.start
  native : ∀ n ∈ b.natives, ∃ file source, b.session.sources[file]? = some source ∧
    NativeSource.Placed (some file) source.text n
  diagnostic : ∀ g ∈ b.session.diagnostics, Points b.session.sources g

/-- What stands at an index of a list stands there in every longer one. -/
theorem getElem?_of_prefix {α : Type} {xs ys : List α} (h : xs <+: ys) {i : Nat} {x : α}
    (hx : xs[i]? = some x) : ys[i]? = some x := by
  obtain ⟨zs, rfl⟩ := h
  rw [List.getElem?_append_left (List.getElem?_eq_some_iff.mp hx).1, hx]

/-- With more sources a diagnostic points where it pointed. -/
theorem Points.mono {sources sources' : List Source} {g : Diagnostic} (h : Points sources g)
    (hs : sources <+: sources') : Points sources' g := by
  intro span hspan
  obtain ⟨file, source, text, hfile, there, slice, name⟩ := h span hspan
  exact ⟨file, source, text, hfile, getElem?_of_prefix hs there, slice, name⟩

theorem positioned_start : Positioned {} :=
  ⟨nofun, .nil, nofun, nofun⟩

/-- Adding sources and diagnostics to a session leaves what was loaded where it is. -/
theorem Positioned.adds {s : Session} {read : List Source} (h : a.Positioned)
    {q : Diagnostic → Prop} (hs : Adds read q a.session s) (hq : ∀ g, q g → Points s.sources g) :
    Positioned { a with session := s } where
  declaration d hd := by
    obtain ⟨file, source, there, placed⟩ := h.declaration d hd
    exact ⟨file, source, getElem?_of_prefix (hs.sources ▸ List.prefix_append _ _) there, placed⟩
  ordered := h.ordered
  native n hn := by
    obtain ⟨file, source, there, placed⟩ := h.native n hn
    exact ⟨file, source, getElem?_of_prefix (hs.sources ▸ List.prefix_append _ _) there, placed⟩
  diagnostic g hg := by
    obtain ⟨added, hd, hp⟩ := hs.diagnostics
    replace hg : g ∈ a.session.diagnostics ++ added := hd ▸ hg
    rcases List.mem_append.mp hg with hg | hg
    · exact (h.diagnostic g hg).mono (hs.sources ▸ List.prefix_append _ _)
    · exact hq g (hp g hg)

/-! ### Steps keep positions right -/

/-- Loading scripts keeps positions right. -/
theorem positioned_loadDeclarations (h : a.Positioned) (inputs : List Input) :
    (a.loadDeclarations style inputs).Positioned := by
  obtain ⟨s, loaded, adds⟩ := Batch.step_loadDeclarations style inputs a.session
  have kept : Positioned { a with session := s } :=
    h.adds adds fun g hg span hs => nomatch hg.symm.trans hs
  rw [loadDeclarations, loaded]
  have known :
      ∀ d ∈ (Batch.scriptFrom a.session.sources.length (Input.sources inputs)).declarations,
      ∃ file source, a.session.sources.length ≤ file ∧ s.sources[file]? = some source ∧
        Script.Placed (some file) source.text d := by
    intro d hd
    obtain ⟨i, x, hx, hd⟩ := Batch.mem_declarations_scriptFrom.mp hd
    refine ⟨_, x, Nat.le_add_right _ i, ?_, Script.placed_of_mem_declarations hd⟩
    rw [adds.sources, List.getElem?_append_right (Nat.le_add_right _ i), Nat.add_sub_cancel_left,
      hx]
  exact {
    declaration := List.forall_mem_append.mpr ⟨kept.declaration, fun d hd =>
      let ⟨file, source, _, there, placed⟩ := known d hd
      ⟨file, source, there, placed⟩⟩
    ordered := by
      refine List.pairwise_append.mpr ⟨h.ordered, Batch.pairwise_scriptFrom _ _, ?_⟩
      intro d hd d' hd' same
      obtain ⟨file, _, there, placed⟩ := h.declaration d hd
      obtain ⟨file', _, later, -, placed'⟩ := known d' hd'
      rw [placed.file, placed'.file, Option.some.injEq] at same
      have := (List.getElem?_eq_some_iff.mp there).1
      omega
    native := kept.native
    diagnostic := kept.diagnostic }

/-- Loading C sources keeps positions right. -/
theorem positioned_loadNatives (h : a.Positioned) (inputs : List Input) :
    (a.loadNatives style inputs).Positioned := by
  obtain ⟨s, read, loaded, adds, -, all⟩ := Batch.step_loadNatives style inputs a.session
  have kept : Positioned { a with session := s } :=
    h.adds adds fun g hg span hs => nomatch hg.symm.trans hs
  rw [loadNatives, loaded]
  cases hf : Batch.functionsFrom a.session.sources.length (Input.sources inputs) with
  | error f =>
    exact ⟨kept.declaration, kept.ordered, List.forall_mem_append.mpr ⟨kept.native, nofun⟩,
      kept.diagnostic⟩
  | ok natives =>
    refine ⟨kept.declaration, kept.ordered, List.forall_mem_append.mpr ⟨kept.native, ?_⟩,
      kept.diagnostic⟩
    intro n hn
    obtain ⟨i, x, u, hx, hu, hn⟩ := Batch.exists_of_mem_functionsFrom hf n hn
    refine ⟨_, x, ?_, NativeSource.placed_of_mem_functions hu hn⟩
    show s.sources[_]? = some x
    rw [adds.sources, all ⟨natives, hf⟩, List.getElem?_append_right (Nat.le_add_right _ i),
      Nat.add_sub_cancel_left, hx]

/-- What is reported of something that was loaded points at its range. -/
theorem Positioned.points (h : a.Positioned) {script : Script} {natives : List Implementation}
    (hl : a.Loaded script natives) {g : Diagnostic}
    (hg : Batch.PointsAt a.session.sources (Batch.IsRange script natives) g) :
    Points a.session.sources g := by
  intro span hspan
  obtain ⟨range, name⟩ := hg span hspan
  have named {file : Nat} {source : Source} (hfile : span.file = some file)
      (there : a.session.sources[file]? = some source) : g.file = source.name := by
    rw [name, Batch.fileName, hfile, Option.bind_some, there]
  rcases range with ⟨d, hd, rfl⟩ | ⟨n, hn, rfl⟩
  · obtain ⟨file, source, there, placed⟩ := h.declaration d (hl.declarations hd)
    exact ⟨file, source, _, placed.file, there, placed.slice, named placed.file there⟩
  · obtain ⟨file, source, there, placed⟩ := h.native n (hl.natives hn)
    obtain ⟨text, slice, -⟩ := placed.body
    exact ⟨file, source, text, placed.file, there, slice, named placed.file there⟩

/-- Reports on what is loaded keep positions right. -/
theorem Positioned.reports (h : a.Positioned) {script : Script} {natives : List Implementation}
    (hl : a.Loaded script natives) {s : Session}
    (hs : Adds [] (Batch.PointsAt a.session.sources (Batch.IsRange script natives)) a.session s) :
    Positioned { a with session := s } := by
  have same : s.sources = a.session.sources := hs.sources.trans (List.append_nil _)
  exact h.adds hs fun g hg => same ▸ h.points hl hg

/-- **A step** keeps all positions right, and the sources that are there. -/
theorem positioned_of_step (h : a.Positioned) (hab : Step p style a b) :
    b.Positioned ∧ a.session.sources <+: b.session.sources := by
  cases hab with
  | loadDeclarations inputs =>
    obtain ⟨s, loaded, adds⟩ := Batch.step_loadDeclarations style inputs a.session
    refine ⟨positioned_loadDeclarations h inputs, ?_⟩
    rw [loadDeclarations, loaded]
    exact adds.sources ▸ List.prefix_append _ _
  | loadNatives inputs =>
    obtain ⟨s, read, loaded, adds, -, -⟩ := Batch.step_loadNatives style inputs a.session
    refine ⟨positioned_loadNatives h inputs, ?_⟩
    rw [loadNatives, loaded]
    exact adds.sources ▸ List.prefix_append _ _
  | @matchUnits script natives hl =>
    obtain ⟨s, matched, adds⟩ := Batch.step_matchUnits_points script natives a.session
    rw [matchUnits, matched]
    exact ⟨h.reports hl adds, adds.sources ▸ List.prefix_append _ _⟩
  | @generate script natives hl =>
    obtain ⟨s, made, adds⟩ := Batch.step_generate_points p style script natives a.session
    rw [generate, made]
    exact ⟨h.reports hl adds, adds.sources ▸ List.prefix_append _ _⟩

/-- Any steps keep positions right. -/
theorem positioned_of_reachable (h : Relation.ReflTransGen (Step p style) {} a) :
    a.Positioned := by
  induction h with
  | refl => exact positioned_start
  | tail _ step ih => exact (positioned_of_step ih step).1

/-- **After any steps every position is right**, and no later step changes a source that is
there. -/
theorem positioned_of_steps (h : Relation.ReflTransGen (Step p style) {} a)
    (h' : Relation.ReflTransGen (Step p style) a b) :
    a.Positioned ∧ a.session.sources <+: b.session.sources := by
  refine ⟨positioned_of_reachable h, ?_⟩
  induction h' with
  | refl => exact List.prefix_rfl
  | tail steps step ih =>
    exact ih.trans (positioned_of_step (positioned_of_reachable (h.trans steps)) step).2

/-! ### A few steps -/

/-- A script of two functions. -/
def pairScript : Text :=
  "CREATE TYPE tbox;\nCREATE FUNCTION f(tbox) RETURNS tbox AS 'm', 'f' LANGUAGE C;\n" ++
    "CREATE FUNCTION g(tbox) RETURNS tbox AS 'm', 'g' LANGUAGE C;\n"

/-- A source of the first. -/
def firstSource : Text :=
  "PGDLLEXPORT Datum f(PG_FUNCTION_ARGS);\n" ++
    "Datum f(PG_FUNCTION_ARGS)\n\x7b\n  PG_RETURN_TBOX_P(now());\n\x7d\n"

/-- Both are loaded, and wrappers generated for them. -/
def generatedBench : Bench :=
  let style : Style := ⟨false, false⟩
  let b := ({} : Bench).loadDeclarations style [⟨"a.sql", .ok pairScript⟩]
  let b := b.loadNatives style [⟨"a.c", .ok firstSource⟩]
  b.generate {} style { declarations := b.declarations } b.natives

theorem steps_generatedBench : Relation.ReflTransGen (Step {} ⟨false, false⟩) {} generatedBench :=
  .tail (.tail (.single (.loadDeclarations _ _)) (.loadNatives _ _))
    (.generate ⟨List.Subset.refl _, List.Subset.refl _⟩)

/-- The theorem for a bench with declarations, a function and a note that points at a declaration,
before the script is loaded once more with another text. -/
theorem positioned_of_steps_of_bench : ∃ b,
    Relation.ReflTransGen (Step {} ⟨false, false⟩) {} generatedBench ∧
      Relation.ReflTransGen (Step {} ⟨false, false⟩) generatedBench b ∧
      generatedBench.declarations.map (fun d => (d.span, d.line)) =
        [(⟨some 0, 18, 78⟩, 2), (⟨some 0, 79, 139⟩, 3)] ∧
      generatedBench.natives.map (·.span) = [⟨some 1, 39, 95⟩] ∧
      generatedBench.session.diagnostics.filterMap (·.span?) = [⟨some 0, 79, 139⟩] ∧
      generatedBench.Positioned ∧ generatedBench.session.sources <+: b.session.sources := by
  have later : Relation.ReflTransGen (Step {} ⟨false, false⟩) generatedBench
      (generatedBench.loadDeclarations ⟨false, false⟩ [⟨"a.sql", .ok []⟩]) :=
    .single (.loadDeclarations _ _)
  exact ⟨_, steps_generatedBench, later, by decide +kernel, by decide +kernel, by decide +kernel,
    positioned_of_steps steps_generatedBench later⟩

end Bench

end VectorWrap
