import VectorWrap.Proofs.Batch.Loads

/-!
# What a run comes to

Generating reads no source, and what it gives does not depend on what was read and said before
(`generated`).  What it reports of a declaration or of a function points at its range
(`step_generate_points`).

A report names the file of the range that it points at (`PointsAt`), as the sources of the session
have it at that moment; a report without a range points at nothing.
-/

namespace VectorWrap

namespace Batch

open Session (Adds)

variable {p : Project} {script : Script} {natives : List Implementation}

/-! ### Generating -/

/-- What becomes of the keys of matched declarations. -/
def outcomes (e : Emitter) (xs : List (Match × Text)) : Except Fault (List Outcome) :=
  xs.mapM fun x => Outcome.ofKey e x.1 x.2

/-- What generating gives. -/
def generated (p : Project) (script : Script) (natives : List Implementation) :
    Except Failure Generated :=
  match Matching.make script.declarations natives with
  | .error e => .error (.ambiguous e)
  | .ok m => ((outcomes (emitterFor p script) m.keyed).map (.ofOutcomes p)).mapError .fault

/-- Points at no range but one with a property, and names the file of that one. -/
def PointsAt (sources : List Source) (range : Span → Prop) (d : Diagnostic) : Prop :=
  ∀ span ∈ d.span?, range span ∧ d.file = fileName sources span.file

/-- A report on one range is a report on the ranges of a larger class. -/
theorem PointsAt.mono {sources : List Source} {range range' : Span → Prop} {d : Diagnostic}
    (h : PointsAt sources range d) (hr : ∀ span, range span → range' span) :
    PointsAt sources range' d :=
  fun span hs => (h span hs).imp_left (hr span)

/-- The range of a declaration or of its function. -/
def IsRangeOf (xs : List (Match × Text)) (span : Span) : Prop :=
  ∃ x ∈ xs, span = x.1.declaration.span ∨ span = x.1.implementation.span

theorem IsRangeOf.cons {xs : List (Match × Text)} {span : Span} (x : Match × Text)
    (h : IsRangeOf xs span) : IsRangeOf (x :: xs) span := by
  obtain ⟨y, hy, hs⟩ := h
  exact ⟨y, List.mem_cons_of_mem x hy, hs⟩

/-- What is reported of an outcome points at its pair. -/
theorem pointsAt_of_mem_diagnostics {sources : List Source} {u : Match} {o : Outcome}
    {d : Diagnostic} (h : d ∈ o.diagnostics sources u) :
    PointsAt sources (fun span => span = u.declaration.span ∨ span = u.implementation.span) d := by
  cases o with
  | emitted w =>
    rw [Outcome.diagnostics] at h
    split_ifs at h
    · rw [List.mem_singleton.mp h]
      rintro _ ⟨⟩
      exact ⟨.inr rfl, rfl⟩
    · cases h
  | skipped reason => cases h
  | failed cause =>
    rw [List.mem_singleton.mp h]
    rintro _ ⟨⟩
    exact ⟨.inl rfl, rfl⟩

/-- Settling reads nothing and reports on its pairs only. -/
theorem step_settle_points (style : Style) (e : Emitter) (xs : List (Match × Text)) (s : Session) :
    ∃ s', (settle style e xs).step s = ((outcomes e xs).mapError .fault, s') ∧
      Adds [] (PointsAt s.sources (IsRangeOf xs)) s s' := by
  induction xs generalizing s with
  | nil => exact ⟨s, rfl, .refl _ s⟩
  | cons x xs ih =>
    obtain ⟨u, key⟩ := x
    rw [settle, outcomes, List.mapM_cons]
    cases ho : Outcome.ofKey e u key with
    | error f => exact ⟨s, rfl, .refl _ s⟩
    | ok o =>
      have first : ∀ d ∈ o.diagnostics s.sources u,
          PointsAt s.sources (IsRangeOf ((u, key) :: xs)) d := fun d hd =>
        (pointsAt_of_mem_diagnostics hd).mono fun _ hs => ⟨_, List.mem_cons_self, hs⟩
      have told := ((Adds.refl _ s).say (o.notices style u key)).report first
      obtain ⟨s', others, adds⟩ := ih { s with
        notices := s.notices ++ o.notices style u key
        diagnostics := s.diagnostics ++ o.diagnostics s.sources u }
      have later := adds.mono fun d hd => hd.mono fun _ => IsRangeOf.cons (u, key)
      rw [step_bind_ok (step_orStop_ok rfl s), step_bind_ok (step_say _ _),
        step_bind_ok (step_get _), step_bind_ok (step_report _ _)]
      refine ⟨s', ?_, told.trans later⟩
      rw [outcomes] at others
      simp only [bind, Except.bind]
      cases hr : List.mapM (fun x => Outcome.ofKey e x.1 x.2) xs with
      | error f =>
        rw [hr] at others
        exact step_bind_error others
      | ok os =>
        rw [hr] at others
        exact step_bind_ok others

/-- A matched declaration is one of the declarations, its function one of the functions. -/
theorem mem_of_mem_units {declarations : List Declaration} {m : Matching} {u : Match}
    (hm : Matching.make declarations natives = .ok m) (hu : u ∈ m.units) :
    u.declaration ∈ declarations ∧ u.implementation ∈ natives := by
  rw [(Matching.complete_of_make hm).units] at hu
  obtain ⟨⟨d, i⟩, hd, hu⟩ := List.mem_filterMap.mp hu
  obtain ⟨n, hn, rfl⟩ := Option.map_eq_some_iff.mp hu
  exact ⟨List.mem_of_getElem? (List.mem_zipIdx_iff_getElem?.mp hd), List.mem_of_find?_eq_some hn⟩

/-- The range of one of the declarations or functions. -/
def IsRange (script : Script) (natives : List Implementation) (span : Span) : Prop :=
  (∃ d ∈ script.declarations, d.span = span) ∨ ∃ n ∈ natives, n.span = span

/-- Matching reads nothing and reports on what is matched only. -/
theorem step_matchUnits_points (script : Script) (natives : List Implementation) (s : Session) :
    ∃ s', (matchUnits script natives).step s =
        ((Matching.make script.declarations natives).mapError .ambiguous, s') ∧
      Adds [] (PointsAt s.sources (IsRange script natives)) s s' := by
  rw [matchUnits]
  cases hm : Matching.make script.declarations natives with
  | error e =>
    refine ⟨_, rfl, (Adds.refl _ s).report fun d hd => ?_⟩
    rw [List.mem_singleton.mp hd]
    rintro _ ⟨⟩
  | ok m =>
    refine ⟨_, rfl, (Adds.refl _ s).report fun d hd => ?_⟩
    obtain ⟨d, left, rfl⟩ := List.mem_map.mp hd
    rw [(Matching.complete_of_make hm).unmatched] at left
    rintro _ ⟨⟩
    exact ⟨.inl ⟨d, (List.mem_filter.mp left).1, rfl⟩, rfl⟩

/-- **Generating** gives what it gives in every session, and reads nothing. -/
theorem step_generate_points (p : Project) (style : Style) (script : Script)
    (natives : List Implementation) (s : Session) :
    ∃ s', (generate p style script natives).step s = (generated p script natives, s') ∧
      Adds [] (PointsAt s.sources (IsRange script natives)) s s' := by
  obtain ⟨s₁, first, adds⟩ := step_matchUnits_points script natives s
  rw [generate, generated]
  cases hm : Matching.make script.declarations natives with
  | error e =>
    rw [hm] at first
    exact ⟨s₁, step_bind_error first, adds⟩
  | ok m =>
    rw [hm] at first
    obtain ⟨s₂, others, adds'⟩ := step_settle_points style (emitterFor p script) m.keyed s₁
    have read : s₁.sources = s.sources := adds.sources.trans (List.append_nil _)
    have later : Adds [] (PointsAt s.sources (IsRange script natives)) s₁ s₂ := by
      refine adds'.mono fun d hd => (read ▸ hd).mono ?_
      rintro span ⟨x, hx, hs⟩
      obtain ⟨u, hu, hk⟩ := List.mem_flatMap.mp hx
      obtain ⟨key, -, rfl⟩ := List.mem_map.mp hk
      obtain ⟨hd, hn⟩ := mem_of_mem_units hm hu
      rcases hs with rfl | rfl
      · exact .inl ⟨_, hd, rfl⟩
      · exact .inr ⟨_, hn, rfl⟩
    refine ⟨s₂, ?_, adds.trans later⟩
    rw [step_bind_ok first]
    dsimp only
    cases hr : outcomes (emitterFor p script) m.keyed with
    | error f =>
      rw [hr] at others
      exact step_bind_error others
    | ok os =>
      rw [hr] at others
      exact step_bind_ok others

end Batch

end VectorWrap
