import VectorWrap.Batch.Run
import VectorWrap.Proofs.Matching.Collisions
import VectorWrap.Proofs.Wrapper.Faults

/-!
# What becomes of the keys of a run

Generating brings every key of every matched declaration to one outcome, in order: what a step says
of one key (`settles_of_ofKey`) is carried along the list of keys (`step_settle`), and the numbers
and the diagnostics of the whole run are sums over the outcomes (`Accounts`).

A key whose wrapper cannot be made because a line of the body is cut inside a character stops the
run.  Generating ends with files exactly when there is no such key (`generate_accounts_iff`).

For a step that ends, `step` gives what it comes to and the session behind it; the lemmas on steps
at the head of the file rewrite a run into such equations.  An outcome settles its key (`Settles`),
which determines what is counted for it and what is reported of it.
-/

namespace VectorWrap

namespace Batch

/-! ### Steps -/

variable {α β : Type}

theorem step_pure (a : α) (s : Session) : (pure a : Batch α).step s = (.ok a, s) :=
  rfl

theorem step_get (s : Session) : (get : Batch Session).step s = (.ok s, s) :=
  rfl

theorem step_say (notices : List Notice) (s : Session) :
    (say notices).step s = (.ok (), { s with notices := s.notices ++ notices }) :=
  rfl

theorem step_report (ds : List Diagnostic) (s : Session) :
    (report ds).step s = (.ok (), { s with diagnostics := s.diagnostics ++ ds }) :=
  rfl

/-- Behind a step that succeeds the next one is made. -/
theorem step_bind_ok {b : Batch α} {f : α → Batch β} {s s' : Session} {a : α}
    (h : b.step s = (.ok a, s')) : (b >>= f).step s = (f a).step s' := by
  rw [step, ExceptT.run_bind, StateT.run_bind]
  rw [step] at h
  rw [h]
  rfl

/-- Behind a step that fails no other is made. -/
theorem step_bind_error {b : Batch α} {f : α → Batch β} {s s' : Session} {e : Failure}
    (h : b.step s = (.error e, s')) : (b >>= f).step s = (.error e, s') := by
  rw [step, ExceptT.run_bind, StateT.run_bind]
  rw [step] at h
  rw [h]
  rfl

end Batch

/-! ### One key -/

namespace Emitter

/-- Why a pair of a matched declaration and a key gets no wrapper. -/
def pairSkip? (x : Match × Text) : Option Skip :=
  skip? x.1.declaration x.2

/-- What is emitted for a pair. -/
def pairEmit (e : Emitter) (x : Match × Text) : Except EmitFailure (Option Wrapper) :=
  e.emit x.1.declaration x.1.implementation x.2

/-- A wrapper is emitted for a pair. -/
def succeeds (e : Emitter) (x : Match × Text) : Bool :=
  (pairSkip? x).isNone && (e.pairEmit x).isOk

/-- The emission of a wrapper for a pair fails. -/
def fails (e : Emitter) (x : Match × Text) : Bool :=
  (pairSkip? x).isNone && !(e.pairEmit x).isOk

/-- The wrapper is emitted for the pair, under its name and key. -/
structure Wraps (e : Emitter) (x : Match × Text) (w : Wrapper) : Prop where
  emit_eq : e.pairEmit x = .ok (some w)
  declName_eq : w.declName = x.1.declaration.name
  key_eq : w.key = x.2

/-- A wrapper is asked for, and a line of the body that is read as an assignment is cut inside a
character. -/
def Misread (e : Emitter) (x : Match × Text) : Prop :=
  pairSkip? x = none ∧
    Closure.Accepted e.types x.1.declaration x.1.implementation (kindOf x.2) ∧
    ∃ l ∈ Closure.reread x.1.implementation.shape,
      Assignment.CutsCharacter ((Closure.outputRenaming x.1.implementation).text l)

end Emitter

namespace Outcome
open Emitter

/-- An outcome says what is emitted for its pair. -/
inductive Settles (e : Emitter) (x : Match × Text) : Outcome → Prop
  | emitted {w : Wrapper} (free : pairSkip? x = none) (emit : e.pairEmit x = .ok (some w)) :
    Settles e x (.emitted w)
  | skipped {reason : Skip} (skip : pairSkip? x = some reason) : Settles e x (.skipped reason)
  | failed {cause : GenError} (free : pairSkip? x = none)
    (emit : e.pairEmit x = .error (.refused cause)) : Settles e x (.failed cause)

/-- What is emitted for a pair stands under its name and its key. -/
theorem wraps_of_pairEmit {e : Emitter} {x : Match × Text} {w : Wrapper}
    (h : e.pairEmit x = .ok (some w)) : e.Wraps x w := by
  obtain ⟨c, -, hc⟩ := bind_eq_ok.mp (wrapper_of_emit h)
  cases hc
  exact ⟨h, rfl, rfl⟩

/-- No wrapper is left out for a pair that is not skipped. -/
theorem pairEmit_ne_none {e : Emitter} {x : Match × Text} (h : pairSkip? x = none) :
    e.pairEmit x ≠ .ok none := by
  rw [pairSkip?] at h
  rw [pairEmit, emit, h]
  cases e.wrapper x.1.declaration x.1.implementation x.2 <;> simp [Except.map]

/-- The outcome of a key says what is emitted for it. -/
theorem settles_of_ofKey {e : Emitter} {x : Match × Text} {o : Outcome}
    (h : ofKey e x.1 x.2 = .ok o) : Settles e x o := by
  rw [ofKey] at h
  cases hs : skip? x.1.declaration x.2 with
  | some reason =>
    rw [hs] at h
    cases h
    exact .skipped hs
  | none =>
    rw [hs] at h
    cases hw : e.wrapper x.1.declaration x.1.implementation x.2 with
    | ok w =>
      rw [hw] at h
      cases h
      exact .emitted hs (by simp [pairEmit, emit, hs, hw, Except.map])
    | error f =>
      rw [hw] at h
      cases f <;> cases h
      exact .failed hs (by simp [pairEmit, emit, hs, hw, Except.map])

/-- The making of an outcome faults for the misread pairs. -/
theorem ofKey_fault_iff {e : Emitter} {x : Match × Text} :
    (∃ f, ofKey e x.1 x.2 = .error f) ↔ e.Misread x := by
  rw [ofKey]
  cases hs : skip? x.1.declaration x.2 with
  | some reason => simp [Misread, pairSkip?, hs]
  | none =>
    have made : (∃ f, e.wrapper x.1.declaration x.1.implementation x.2 = .error (.fault f)) ↔
        e.Misread x := by
      rw [Misread, pairSkip?, hs, ← @Closure.make_fault_iff e.types e.policy x.1.declaration
        x.1.implementation (Key.member x.2) (kindOf x.2), wrapper]
      cases Closure.make e.types e.policy x.1.declaration x.1.implementation (Key.member x.2)
        (kindOf x.2) <;> simp [bind, Except.bind, pure, Except.pure]
    rw [← made]
    cases hw : e.wrapper x.1.declaration x.1.implementation x.2 with
    | ok w => simp
    | error f => cases f <;> simp

/-- What is reported of a pair. -/
def reported (e : Emitter) (sources : List Source) (x : Match × Text) : List Diagnostic :=
  match pairSkip? x, e.pairEmit x with
  | none, .ok (some w) =>
      if w.placeholder then [placeholderWarning sources x.1.implementation] else []
  | none, .error (.refused cause) => [failureError sources x.1.declaration cause]
  | _, _ => []

/-- What is reported of an outcome is known from its pair. -/
theorem Settles.diagnostics_eq {e : Emitter} {x : Match × Text} {o : Outcome}
    (h : Settles e x o) (sources : List Source) :
    o.diagnostics sources x.1 = reported e sources x := by
  cases h with
  | emitted free emit => rw [reported, free, emit, diagnostics]
  | skipped skip => rw [reported, skip, diagnostics]
  | failed free emit => rw [reported, free, emit, diagnostics]

end Outcome

/-! ### All keys -/

namespace Batch
open Outcome

theorem step_orStop_ok {α : Type} {r : Except Fault α} {a : α} (h : r = .ok a) (s : Session) :
    (orStop r).step s = (.ok a, s) := by
  rw [h]
  rfl

/-- Keys that can all be settled are settled in order. -/
theorem step_settle (style : Style) {e : Emitter} {xs : List (Match × Text)}
    (h : ∀ x ∈ xs, ¬ e.Misread x) (s : Session) :
    ∃ os notices, List.Forall₂ (Settles e) xs os ∧ (settle style e xs).step s =
      (.ok os, { s with
        notices := notices
        diagnostics := s.diagnostics ++ xs.flatMap (reported e s.sources) }) := by
  induction xs generalizing s with
  | nil => exact ⟨[], s.notices, .nil, by simp [settle, step_pure]⟩
  | cons x xs ih =>
    obtain ⟨hx, hxs⟩ := List.forall_mem_cons.mp h
    obtain ⟨o, ho⟩ : ∃ o, ofKey e x.1 x.2 = .ok o := by
      cases ho : ofKey e x.1 x.2 with
      | ok o => exact ⟨o, rfl⟩
      | error f => exact absurd (ofKey_fault_iff.mp ⟨f, ho⟩) hx
    have settles := settles_of_ofKey ho
    obtain ⟨os, notices, hos, hrest⟩ := ih hxs { s with
      notices := s.notices ++ o.notices style x.1 x.2,
      diagnostics := s.diagnostics ++ o.diagnostics s.sources x.1 }
    refine ⟨o :: os, notices, .cons settles hos, ?_⟩
    rw [settle, step_bind_ok (step_orStop_ok ho s), step_bind_ok (step_say _ _),
      step_bind_ok (step_get _), step_bind_ok (step_report _ _), step_bind_ok hrest, step_pure]
    simp [settles.diagnostics_eq]

/-- A misread pair stops the run. -/
theorem step_settle_misread (style : Style) {e : Emitter} {xs : List (Match × Text)}
    {x : Match × Text} (hx : x ∈ xs) (h : e.Misread x) (s : Session) :
    ∃ f s', (settle style e xs).step s = (.error (.fault f), s') := by
  induction xs generalizing s with
  | nil => cases hx
  | cons y xs ih =>
    cases ho : ofKey e y.1 y.2 with
    | error f =>
      have stop : (orStop (ofKey e y.1 y.2)).step s = (.error (.fault f), s) := by
        rw [ho]
        rfl
      exact ⟨f, s, by rw [settle, step_bind_error stop]⟩
    | ok o =>
      rcases List.mem_cons.mp hx with rfl | hx
      · obtain ⟨f, hf⟩ := ofKey_fault_iff.mpr h
        cases ho.symm.trans hf
      · obtain ⟨f, s', hrest⟩ := ih hx { s with
          notices := s.notices ++ o.notices style y.1 y.2,
          diagnostics := s.diagnostics ++ o.diagnostics s.sources y.1 }
        refine ⟨f, s', ?_⟩
        rw [settle, step_bind_ok (step_orStop_ok ho s), step_bind_ok (step_say _ _),
          step_bind_ok (step_get _), step_bind_ok (step_report _ _), step_bind_error hrest]

/-! ### The account -/

section sums

variable {e : Emitter} {xs : List (Match × Text)} {os : List Outcome}

/-- What is counted of outcomes can be counted of pairs. -/
theorem countP_of_forall₂ {p : Match × Text → Bool} {q : Outcome → Bool}
    (hpq : ∀ {x o}, Settles e x o → q o = p x) (h : List.Forall₂ (Settles e) xs os) :
    os.countP q = xs.countP p := by
  induction h with
  | nil => rfl
  | cons hx _ ih => rw [List.countP_cons, List.countP_cons, ih, hpq hx]

/-- An outcome is a skip just if its pair is skipped. -/
theorem isSkipped_eq {x : Match × Text} {o : Outcome} (h : Settles e x o) :
    o.isSkipped = (Emitter.pairSkip? x).isSome := by
  cases h with
  | emitted free _ => rw [free]; rfl
  | skipped skip => rw [skip]; rfl
  | failed free _ => rw [free]; rfl

/-- An outcome is a failure just if the emission fails. -/
theorem isFailed_eq {x : Match × Text} {o : Outcome} (h : Settles e x o) :
    o.isFailed = e.fails x := by
  cases h with
  | emitted free emit => rw [Emitter.fails, free, emit]; rfl
  | skipped skip => rw [Emitter.fails, skip]; rfl
  | failed free emit => rw [Emitter.fails, free, emit]; rfl

/-- The wrappers among the outcomes of things with pairs are those of the things that get one, in
order. -/
theorem forall₂_emitted {α : Type} {pair : α → Match × Text} {xs : List α}
    (h : List.Forall₂ (fun x o => Settles e (pair x) o) xs os) :
    List.Forall₂ (fun x w => Settles e (pair x) (.emitted w))
      (xs.filter fun x => e.succeeds (pair x)) (os.filterMap Outcome.wrapper?) := by
  induction h with
  | nil => exact .nil
  | cons hx _ ih =>
    cases hx with
    | emitted free emit =>
      rw [List.filter_cons_of_pos (by rw [Emitter.succeeds, free, emit]; rfl)]
      exact .cons (.emitted free emit) ih
    | skipped skip =>
      rw [List.filter_cons_of_neg (by rw [Emitter.succeeds, skip]; exact Bool.false_ne_true)]
      exact ih
    | failed free emit =>
      rw [List.filter_cons_of_neg (by rw [Emitter.succeeds, free, emit]; exact Bool.false_ne_true)]
      exact ih

theorem Settles.wraps {x : Match × Text} {w : Wrapper} (h : Settles e x (.emitted w)) :
    e.Wraps x w := by
  cases h with
  | emitted _ emit => exact wraps_of_pairEmit emit

/-- The wrappers are those of the pairs that succeed, in order. -/
theorem forall₂_wraps (h : List.Forall₂ (Settles e) xs os) :
    List.Forall₂ e.Wraps (xs.filter e.succeeds) (os.filterMap Outcome.wrapper?) := by
  have settled : List.Forall₂ (fun x o => Settles e (id x) o) xs os := h
  exact (forall₂_emitted settled).imp fun _ _ => Settles.wraps

/-- Every outcome is of one of three kinds. -/
theorem length_outcomes (os : List Outcome) : (os.filterMap Outcome.wrapper?).length +
    os.countP Outcome.isSkipped + os.countP Outcome.isFailed = os.length := by
  induction os with
  | nil => rfl
  | cons o os ih =>
    cases o <;>
      simp only [List.filterMap_cons, List.countP_cons, Outcome.wrapper?, Outcome.isSkipped,
        Outcome.isFailed, List.length_cons, if_true, Bool.false_eq_true, if_false] <;>
      omega

/-- The diagnostics of the outcomes, by severity. -/
theorem count_reported (sources : List Source) (h : List.Forall₂ (Settles e) xs os) :
    Diagnostic.count .error (xs.flatMap (reported e sources)) = os.countP Outcome.isFailed ∧
    Diagnostic.count .warning (xs.flatMap (reported e sources)) =
      (os.filterMap Outcome.wrapper?).countP (·.placeholder) ∧
    Diagnostic.count .note (xs.flatMap (reported e sources)) = 0 := by
  induction h with
  | nil => exact ⟨rfl, rfl, rfl⟩
  | cons hx _ ih =>
    obtain ⟨he, hw, hn⟩ := ih
    simp only [Diagnostic.count] at he hw hn ⊢
    simp only [List.flatMap_cons, List.countP_append, he, hw, hn, ← hx.diagnostics_eq]
    cases hx with
    | emitted =>
      rename_i w _ _
      cases hp : w.placeholder <;>
        simp [diagnostics, Outcome.wrapper?, Outcome.isFailed, hp, placeholderWarning,
          Nat.add_comm]
    | skipped => simp [diagnostics, Outcome.wrapper?, Outcome.isFailed, List.filterMap_cons]
    | failed =>
      simp [diagnostics, Outcome.wrapper?, Outcome.isFailed, failureError, List.filterMap_cons,
        List.countP_cons, Nat.add_comm]

/-- Every warning that is reported has the code `W0104`, and there are no notes. -/
theorem code_of_mem_reported {sources : List Source} {x : Match × Text} {d : Diagnostic}
    (h : d ∈ reported e sources x) :
    d.severity ≠ .note ∧ (d.severity = .warning → d.code = "W0104") := by
  unfold reported at h
  split at h
  · split_ifs at h
    · rw [List.mem_singleton.mp h]
      exact ⟨by simp [placeholderWarning], fun _ => rfl⟩
    · cases h
  · rw [List.mem_singleton.mp h]
    exact ⟨by simp [failureError], fun hw => by cases hw⟩
  · cases h

end sums

/-- What generating with the emitter `e` makes of a matching: the files `g` and the diagnostics that
are added. -/
structure Accounts (e : Emitter) (sources : List Source) (script : Script)
    (natives : List Implementation) (m : Matching) (g : Generated)
    (added : List Diagnostic) : Prop where
  /-- The pairs stand in the order of the declarations. -/
  order : m.keyed.map (fun x => (x.1.declaration, x.2)) =
    Matching.entries script.declarations natives
  /-- The keys of the pairs are those that a dry run prints. -/
  printed : List.Forall₂ (fun u line => ("  keys=".toList ++ Text.joinWith "," u.keys) <:+ line)
    m.units (m.dryRun.take m.units.length)
  total : g.wrappers.length + g.skipped + g.failed = (m.units.map (·.keys.length)).sum
  emitted : List.Forall₂ e.Wraps (m.keyed.filter e.succeeds) g.wrappers
  skipped : g.skipped = m.keyed.countP fun x => (Emitter.pairSkip? x).isSome
  failed : g.failed = m.keyed.countP e.fails
  never_none : ∀ x ∈ m.keyed, Emitter.pairSkip? x = none → e.pairEmit x ≠ .ok none
  added_eq : added =
    m.unmatched.map (unmatchedNote sources) ++ m.keyed.flatMap (reported e sources)
  errors : Diagnostic.count .error added = g.failed
  warnings : Diagnostic.count .warning added = g.placeholders
  notes : Diagnostic.count .note added = m.unmatched.length
  warning_code : ∀ d ∈ added, d.severity = .warning → d.code = "W0104".toList
  note_code : ∀ d ∈ added, d.severity = .note → d.code = "N0002".toList

theorem length_keyed (m : Matching) : m.keyed.length = (m.units.map (·.keys.length)).sum := by
  simp [Matching.keyed, List.length_flatMap]

/-- The files for outcomes that settle the pairs of a matching account for them. -/
theorem accounts_of_settles {p : Project} {e : Emitter} {script : Script}
    {natives : List Implementation} {m : Matching} {os : List Outcome}
    (hm : Matching.make script.declarations natives = .ok m)
    (h : List.Forall₂ (Settles e) m.keyed os) (sources : List Source) :
    Accounts e sources script natives m (.ofOutcomes p os)
      (m.unmatched.map (unmatchedNote sources) ++ m.keyed.flatMap (reported e sources)) := by
  obtain ⟨he, hw, hn⟩ := count_reported sources h
  -- the unmatched declarations add notes, and nothing else
  have noted : ∀ s : Severity, Diagnostic.count s (m.unmatched.map (unmatchedNote sources)) =
      if s = .note then m.unmatched.length else 0 := by
    intro s
    cases s <;> simp [Diagnostic.count, unmatchedNote, List.countP_map, Function.comp_def]
  have sum : ∀ (s : Severity) (ds es : List Diagnostic), Diagnostic.count s (ds ++ es) =
      Diagnostic.count s ds + Diagnostic.count s es := fun s ds es => List.countP_append
  have complete := Matching.complete_of_make hm
  exact {
    order := by
      rw [← complete.entries, Matching.keyed, List.map_flatMap]
      simp [Function.comp_def]
    printed := by
      rw [Matching.dryRun, List.take_left' (by simp), List.forall₂_map_right_iff]
      exact List.forall₂_same.mpr fun u _ => ⟨_, (List.append_assoc _ _ _).symm⟩
    total := by
      rw [← length_keyed, h.length_eq, ← length_outcomes os]
      rfl
    emitted := forall₂_wraps h
    skipped := countP_of_forall₂ isSkipped_eq h
    failed := countP_of_forall₂ isFailed_eq h
    never_none := fun x _ hx => pairEmit_ne_none hx
    added_eq := rfl
    errors := by rw [sum, noted, he]; simp [Generated.ofOutcomes]
    warnings := by rw [sum, noted, hw]; simp [Generated.ofOutcomes, Generated.placeholders]
    notes := by rw [sum, noted, hn]; simp
    warning_code := by
      intro d hd hs
      rcases List.mem_append.mp hd with hd | hd
      · obtain ⟨u, -, rfl⟩ := List.mem_map.mp hd
        cases hs
      · obtain ⟨x, -, hx⟩ := List.mem_flatMap.mp hd
        exact (code_of_mem_reported hx).2 hs
    note_code := by
      intro d hd hs
      rcases List.mem_append.mp hd with hd | hd
      · obtain ⟨u, -, rfl⟩ := List.mem_map.mp hd
        rfl
      · obtain ⟨x, -, hx⟩ := List.mem_flatMap.mp hd
        exact absurd hs (code_of_mem_reported hx).1 }

section runs

variable {p : Project} {style : Style} {script : Script} {natives : List Implementation}
  {m : Matching}

/-- Matching reports what stays unmatched, and gives the units. -/
theorem step_matchUnits (hm : Matching.make script.declarations natives = .ok m) (s : Session) :
    (matchUnits script natives).step s =
      (.ok m, { s with
        diagnostics := s.diagnostics ++ m.unmatched.map (unmatchedNote s.sources) }) := by
  rw [matchUnits, hm]
  rfl

/-- Generating ends with the files for outcomes of the pairs when none is misread. -/
theorem step_generate (style : Style) (hm : Matching.make script.declarations natives = .ok m)
    (h : ∀ x ∈ m.keyed, ¬ (emitterFor p script).Misread x) (s : Session) :
    ∃ os notices, List.Forall₂ (Settles (emitterFor p script)) m.keyed os ∧
      (generate p style script natives).step s = (.ok (.ofOutcomes p os), { s with
        notices := notices
        diagnostics := s.diagnostics ++ (m.unmatched.map (unmatchedNote s.sources) ++
          m.keyed.flatMap (reported (emitterFor p script) s.sources)) }) := by
  obtain ⟨os, notices, hos, hsettle⟩ := step_settle style h { s with
    diagnostics := s.diagnostics ++ m.unmatched.map (unmatchedNote s.sources) }
  refine ⟨os, notices, hos, ?_⟩
  rw [generate, step_bind_ok (step_matchUnits hm s), step_bind_ok hsettle, step_pure,
    List.append_assoc]

/-- A key whose wrapper is cut inside a character stops generating. -/
theorem step_generate_misread (style : Style)
    (hm : Matching.make script.declarations natives = .ok m)
    {x : Match × Text} (hx : x ∈ m.keyed) (h : (emitterFor p script).Misread x) (s : Session) :
    ∃ f s', (generate p style script natives).step s = (.error (.fault f), s') := by
  obtain ⟨f, s', hsettle⟩ := step_settle_misread style hx h { s with
    diagnostics := s.diagnostics ++ m.unmatched.map (unmatchedNote s.sources) }
  exact ⟨f, s', by rw [generate, step_bind_ok (step_matchUnits hm s), step_bind_error hsettle]⟩

/-- When the declarations can be told apart, generating ends with files exactly when no pair is
misread, and then the files and the diagnostics account for every pair. -/
theorem generate_accounts_iff {p : Project} {style : Style} {script : Script}
    {natives : List Implementation} {m : Matching}
    (hm : Matching.make script.declarations natives = .ok m) (s : Session) :
    ((∃ g s', (generate p style script natives).step s = (.ok g, s')) ↔
      ∀ x ∈ m.keyed, ¬ (emitterFor p script).Misread x) ∧
    ∀ g s', (generate p style script natives).step s = (.ok g, s') →
      ∃ added, s'.diagnostics = s.diagnostics ++ added ∧
        Accounts (emitterFor p script) s.sources script natives m g added := by
  by_cases h : ∀ x ∈ m.keyed, ¬ (emitterFor p script).Misread x
  · obtain ⟨os, notices, hos, run⟩ := step_generate style hm h s
    refine ⟨iff_of_true ⟨_, _, run⟩ h, fun g s' hg => ?_⟩
    cases run.symm.trans hg
    exact ⟨_, rfl, accounts_of_settles hm hos s.sources⟩
  · have misread := h
    simp only [not_forall, not_not] at misread
    obtain ⟨x, hx, hmis⟩ := misread
    obtain ⟨f, s', run⟩ := step_generate_misread style hm hx hmis s
    refine ⟨iff_of_false ?_ h, fun g s'' hg => ?_⟩
    · rintro ⟨g, s'', hg⟩
      cases run.symm.trans hg
    · cases run.symm.trans hg

/-- The files of a run are those for outcomes of its pairs. -/
theorem exists_outcomes (hm : Matching.make script.declarations natives = .ok m) {s s' : Session}
    {g : Generated} (hg : (generate p style script natives).step s = (.ok g, s')) :
    ∃ os, List.Forall₂ (Settles (emitterFor p script)) m.keyed os ∧ g = .ofOutcomes p os := by
  by_cases h : ∀ x ∈ m.keyed, ¬ (emitterFor p script).Misread x
  · obtain ⟨os, notices, hos, run⟩ := step_generate style hm h s
    cases run.symm.trans hg
    exact ⟨os, hos, rfl⟩
  · simp only [not_forall, not_not] at h
    obtain ⟨x, hx, misread⟩ := h
    obtain ⟨f, s'', run⟩ := step_generate_misread style hm hx misread s
    cases run.symm.trans hg

end runs

/-! ### Fixed runs -/

/-- An implementation that fetches no argument. -/
def constant (symbol : Text) (shape : Shape) : Implementation :=
  { symbol, slots := [], needsTypeTag := false, delegated? := none, returnKind? := none
    nullable := false, body := [], shape, span := ⟨none, 0, 0⟩ }

/-- A declaration of one parameter for each symbol. -/
def scriptOf (declared : List (Text × Text)) : Script :=
  { declarations := declared.map fun (symbol, type) =>
      { Declaration.unary type "integer" with symbol } }

/-- A script with a key of every outcome: a wrapper, a skip, a failure, a placeholder and a
declaration without implementation. -/
def sampleScript : Script :=
  scriptOf [("f", "integer"), ("g_send", "integer"), ("h", "shape"), ("k", "integer"),
    ("l", "integer")]

/-- The implementations for that script. -/
def sampleNatives : List Implementation :=
  [constant "f" (.call "now()"), constant "g_send" (.call "now()"), constant "h" (.call "now()"),
    constant "k" (.unclassified [])]

/-- A run that ends with files which have a property. -/
def endsWith (script : Script) (natives : List Implementation) (p : Generated → Bool) : Bool :=
  satisfies ((generate {} ⟨false, false⟩ script natives).step {}).1 p

/-- A run that is seen to end well ends well. -/
theorem exists_of_endsWith {script : Script} {natives : List Implementation}
    {p : Generated → Bool} (h : endsWith script natives p = true) :
    ∃ g s', (generate {} ⟨false, false⟩ script natives).step {} = (.ok g, s') ∧ p g = true := by
  obtain ⟨g, hg, hp⟩ := exists_of_satisfies h
  exact ⟨g, _, Prod.ext hg rfl, hp⟩

/-- The theorem for a run in which every outcome occurs. -/
theorem generate_accounts_iff_of_sample : ∃ m g s' added,
    Matching.make sampleScript.declarations sampleNatives = .ok m ∧
      (generate {} ⟨false, false⟩ sampleScript sampleNatives).step {} = (.ok g, s') ∧
      (g.wrappers.length, g.skipped, g.failed, g.placeholders) = (2, 1, 1, 1) ∧
      (∀ x ∈ m.keyed, ¬ (emitterFor {} sampleScript).Misread x) ∧ s'.diagnostics = [] ++ added ∧
      Accounts (emitterFor {} sampleScript) [] sampleScript sampleNatives m g added := by
  obtain ⟨m, hm, -⟩ := exists_of_satisfies (p := fun _ => true)
    (x := Matching.make sampleScript.declarations sampleNatives) (by decide +kernel)
  obtain ⟨g, s', hg, hp⟩ := @exists_of_endsWith sampleScript sampleNatives
    (fun g => (g.wrappers.length, g.skipped, g.failed, g.placeholders) == (2, 1, 1, 1))
    (by decide +kernel)
  obtain ⟨ends, account⟩ :=
    @generate_accounts_iff {} ⟨false, false⟩ sampleScript sampleNatives m hm {}
  obtain ⟨added, hadded, accounts⟩ := account g s' hg
  exact ⟨m, g, s', added, hm, hg, by simpa using hp, ends.mp ⟨g, s', hg⟩, hadded, accounts⟩

/-- A variable whose name begins with a character of several bytes stops a run. -/
theorem cut_stops_generating : ∃ n m,
    Implementation.ofBody "f"
      "int32 n = PG_GETARG_INT32(0);\nint32 né = n;\ng(n);\nPG_RETURN_INT32(n);" ⟨none, 0, 0⟩ =
        .ok n ∧
      Matching.make (scriptOf [("f", "integer")]).declarations [n] = .ok m ∧
      ¬ ∃ g s', (generate {} ⟨false, false⟩ (scriptOf [("f", "integer")]) [n]).step {} =
        (.ok g, s') := by
  obtain ⟨n, hn, h⟩ := exists_of_satisfies (x := Implementation.ofBody "f"
      "int32 n = PG_GETARG_INT32(0);\nint32 né = n;\ng(n);\nPG_RETURN_INT32(n);" ⟨none, 0, 0⟩)
    (p := fun n =>
      satisfies (Matching.make (scriptOf [("f", "integer")]).declarations [n]) (fun _ => true) &&
        !endsWith (scriptOf [("f", "integer")]) [n] fun _ => true) (by decide +kernel)
  rw [Bool.and_eq_true, Bool.not_eq_true'] at h
  obtain ⟨m, hm, -⟩ := exists_of_satisfies h.1
  refine ⟨n, m, hn, hm, ?_⟩
  rintro ⟨g, s', hg⟩
  have ends : endsWith (scriptOf [("f", "integer")]) [n] (fun _ => true) = true := by
    rw [endsWith, hg]
    rfl
  rw [h.2] at ends
  cases ends

end Batch

end VectorWrap
