import VectorWrap.Proofs.Batch.Accounts

/-!
# Allowing and denying placeholders

The policy is read in one place, when everything else about a closure is settled.  Denying is
therefore allowing with one more refusal behind it (`make_deny`): no cause of failure is put in the
place of another, and what is made without a placeholder is made the same.

Along a run this holds key by key.  An outcome under the stricter policy is the outcome under the
other, with a failure for each placeholder (`settles_deny`), and so the two runs are compared
outcome by outcome (`generate_deny`).

For one closure the refusal is `deny`, a function on the result for the policy that allows; the
bodies of the two policies then differ in nothing else.  That no other refusal names an unclassified
body (`make_warn_ne_unclassified`) is what lets the reports of the two runs be told apart.
-/

namespace VectorWrap

/-! ### One closure -/

/-- What is left of a result when placeholders are denied: those of the symbol are refused. -/
def deny {α : Type} (symbol : Text) (isPlaceholder : α → Bool) :
    Except EmitFailure α → Except EmitFailure α
  | .ok a => if isPlaceholder a then .error (.refused (.unclassifiedBody symbol)) else .ok a
  | .error f => .error f

/-- A refusal behind a step is a refusal behind the whole. -/
theorem deny_bind {α β : Type} {symbol : Text} {isPlaceholder : α → Bool}
    (x : Except EmitFailure β) (f : β → Except EmitFailure α) :
    deny symbol isPlaceholder (x >>= f) = x >>= fun b => deny symbol isPlaceholder (f b) := by
  cases x <;> rfl

namespace Closure

variable {types : TypeTable} {d : Declaration} {n : Implementation} {function : Text}
  {kind : WrapperKind}

/-- The policy only decides what becomes of a placeholder. -/
theorem make_deny : make types .deny d n function kind =
    deny n.symbol (·.placeholder) (make types .warn d n function kind) := by
  simp only [make, deny_bind]
  refine bind_congr fun executor => bind_congr fun typeParams => bind_congr fun retType => ?_
  refine bind_congr fun args => bind_congr fun call? => ?_
  cases call? <;> rfl

section unclassified

variable {α β : Type} {symbol : Text}

theorem orRefuse_bind_ne_unclassified {x : Except GenError α} {f : α → Except EmitFailure β}
    (hx : x ≠ .error (.unclassifiedBody symbol))
    (hf : ∀ a, f a ≠ .error (.refused (.unclassifiedBody symbol))) :
    (orRefuse x >>= f) ≠ .error (.refused (.unclassifiedBody symbol)) := by
  cases x with
  | error e => simpa [orRefuse, Except.mapError, bind, Except.bind] using hx
  | ok a => exact hf a

theorem elementType_ne_unclassified (t : Text) :
    elementType types d t ≠ .error (.unclassifiedBody symbol) := by
  rw [elementType]
  split <;> simp

theorem argCode_ne_unclassified {typeParams : List Text} {of : Text} {renames : Renaming}
    (slot : ArgSlot) :
    argCode types d typeParams function of renames slot ≠ .error (.unclassifiedBody symbol) := by
  rw [argCode]
  split
  · simp
  · split <;> simp

/-- Where placeholders are allowed, no body is refused for having no shape. -/
theorem make_warn_ne_unclassified :
    make types .warn d n function kind ≠ .error (.refused (.unclassifiedBody symbol)) := by
  refine orRefuse_bind_ne_unclassified ?_ fun executor =>
    orRefuse_bind_ne_unclassified (mapM_ne_error elementType_ne_unclassified _) fun typeParams =>
    orRefuse_bind_ne_unclassified (elementType_ne_unclassified _) fun retType =>
    orRefuse_bind_ne_unclassified (mapM_ne_error argCode_ne_unclassified _) fun args => ?_
  · unfold executorFor
    dsimp only
    split <;> simp
  · dsimp only
    cases callCode n.shape (outputRenaming n).text (returnType types d n) retType
      (args.filterMap (·.buffer?)) with
    | error f => exact fun h => by cases h
    | ok c? => cases c? <;> exact fun h => by cases h

end unclassified

end Closure

/-! ### One key -/

namespace Emitter

/-- The emitter under another policy. -/
def under (e : Emitter) (policy : PlaceholderPolicy) : Emitter :=
  { e with policy }

variable {e : Emitter}

/-- A wrapper under the stricter policy is one that is no placeholder. -/
theorem wrapper_deny (e : Emitter) (d : Declaration) (n : Implementation) (key : Text) :
    (e.under .deny).wrapper d n key =
      deny n.symbol (·.placeholder) ((e.under .warn).wrapper d n key) := by
  simp only [wrapper, under, Closure.make_deny]
  cases Closure.make e.types .warn d n (Key.member key) (kindOf key) with
  | error f => rfl
  | ok c => cases hc : c.placeholder <;> simp [deny, hc, bind, Except.bind, pure, Except.pure]

/-- Of the keys that are not skipped, a placeholder is left to those whose wrapper is one where it
is allowed. -/
def leavesPlaceholder (e : Emitter) (x : Match × Text) : Bool :=
  satisfies ((e.under .warn).pairEmit x) fun w? => w?.any (·.placeholder)

theorem pairEmit_of_free {x : Match × Text} (h : pairSkip? x = none) :
    e.pairEmit x = (e.wrapper x.1.declaration x.1.implementation x.2).map some := by
  rw [pairSkip?] at h
  rw [pairEmit, emit, h]

theorem leavesPlaceholder_of_emit {x : Match × Text} {w : Wrapper}
    (h : (e.under .warn).pairEmit x = .ok (some w)) : e.leavesPlaceholder x = w.placeholder := by
  rw [leavesPlaceholder, h]
  rfl

/-- What is skipped leaves no placeholder. -/
theorem leavesPlaceholder_of_skip {x : Match × Text} {reason : Skip}
    (h : pairSkip? x = some reason) : e.leavesPlaceholder x = false := by
  rw [pairSkip?] at h
  rw [leavesPlaceholder, pairEmit, emit, h]
  rfl

theorem leavesPlaceholder_of_error {x : Match × Text} {f : EmitFailure}
    (h : (e.under .warn).pairEmit x = .error f) : e.leavesPlaceholder x = false := by
  rw [leavesPlaceholder, h]
  rfl

end Emitter

namespace Outcome
open Emitter

/-- What becomes of an outcome when placeholders of the symbol are denied. -/
def denied (symbol : Text) : Outcome → Outcome
  | .emitted w => if w.placeholder then .failed (.unclassifiedBody symbol) else .emitted w
  | .skipped reason => .skipped reason
  | .failed cause => .failed cause

@[simp]
theorem denied_emitted (symbol : Text) (w : Wrapper) : (emitted w).denied symbol =
    if w.placeholder then .failed (.unclassifiedBody symbol) else .emitted w :=
  rfl

@[simp]
theorem denied_skipped (symbol : Text) (reason : Skip) :
    (skipped reason).denied symbol = .skipped reason :=
  rfl

@[simp]
theorem denied_failed (symbol : Text) (cause : GenError) :
    (failed cause).denied symbol = .failed cause :=
  rfl

/-- An outcome is settled by its pair. -/
theorem Settles.unique {e : Emitter} {x : Match × Text} {o o' : Outcome} (h : Settles e x o)
    (h' : Settles e x o') : o = o' := by
  cases h with
  | emitted free emit =>
    cases h' with
    | emitted _ emit' => cases emit.symm.trans emit'; rfl
    | skipped skip => cases free.symm.trans skip
    | failed _ emit' => cases emit.symm.trans emit'
  | skipped skip =>
    cases h' with
    | emitted free _ => cases skip.symm.trans free
    | skipped skip' => cases skip.symm.trans skip'; rfl
    | failed free _ => cases skip.symm.trans free
  | failed free emit =>
    cases h' with
    | emitted _ emit' => cases emit.symm.trans emit'
    | skipped skip => cases free.symm.trans skip
    | failed _ emit' => cases emit.symm.trans emit'; rfl

/-- Denying turns the placeholder of a key into a failure, and changes nothing else. -/
theorem settles_deny {e : Emitter} {x : Match × Text} {o : Outcome}
    (h : Settles (e.under .warn) x o) :
    Settles (e.under .deny) x (o.denied x.1.implementation.symbol) := by
  cases h with
  | skipped skip => exact .skipped skip
  | failed free emit =>
    refine .failed free ?_
    rw [pairEmit_of_free free] at emit ⊢
    rw [wrapper_deny]
    cases hw : (e.under .warn).wrapper x.1.declaration x.1.implementation x.2 with
    | ok w => rw [hw] at emit; cases emit
    | error f => rw [hw] at emit; exact emit
  | emitted free emit =>
    rename_i w
    rw [pairEmit_of_free free] at emit
    cases hw : (e.under .warn).wrapper x.1.declaration x.1.implementation x.2 with
    | error f => rw [hw] at emit; cases emit
    | ok w' =>
      rw [hw] at emit
      cases emit
      rw [denied]
      split_ifs with hp
      · refine .failed free ?_
        rw [pairEmit_of_free free, wrapper_deny, hw, deny, if_pos hp]
        rfl
      · refine .emitted free ?_
        rw [pairEmit_of_free free, wrapper_deny, hw, deny, if_neg hp]
        rfl

/-- What is reported of a declaration whose placeholder is denied. -/
def denial (sources : List Source) (x : Match × Text) : Diagnostic :=
  failureError sources x.1.declaration (.unclassifiedBody x.1.implementation.symbol)

/-- The report of a pair is the same under both policies, but for a placeholder. -/
theorem reported_deny {e : Emitter} {x : Match × Text} {o : Outcome}
    (h : Settles (e.under .warn) x o) (sources : List Source) :
    reported (e.under .deny) sources x =
      if e.leavesPlaceholder x then [denial sources x]
      else reported (e.under .warn) sources x := by
  rw [← h.diagnostics_eq, ← (settles_deny h).diagnostics_eq]
  cases h with
  | emitted free emit =>
    rename_i w
    rw [leavesPlaceholder_of_emit emit]
    cases hp : w.placeholder <;> simp [diagnostics, denial, hp]
  | skipped skip => simp [leavesPlaceholder_of_skip skip]
  | failed free emit => simp [leavesPlaceholder_of_error emit]

/-- Where placeholders are allowed, nothing is reported under the code of their denial. -/
theorem code_of_mem_reported_warn {e : Emitter} {sources : List Source} {x : Match × Text}
    {d : Diagnostic} (h : d ∈ reported (e.under .warn) sources x) : d.code ≠ "E0104".toList := by
  unfold reported at h
  split at h
  · split_ifs at h
    · rw [List.mem_singleton.mp h]
      change "W0104".toList ≠ "E0104".toList
      decide
    · cases h
  · next cause free emit =>
    rw [List.mem_singleton.mp h]
    change cause.code ≠ "E0104".toList
    rw [pairEmit_of_free free] at emit
    cases cause with
    | unclassifiedBody symbol =>
      cases hw : (e.under .warn).wrapper x.1.declaration x.1.implementation x.2 with
      | ok w => rw [hw] at emit; cases emit
      | error f =>
        rw [hw] at emit
        cases emit
        simp only [wrapper, bind, Except.bind] at hw
        split at hw
        · next hmake =>
          cases hw
          exact absurd hmake Closure.make_warn_ne_unclassified
        · cases hw
    | _ => simp [GenError.code]
  · cases h

end Outcome

/-! ### Two runs -/

namespace Batch
open Outcome Emitter

section outcomes

variable {e : Emitter} {xs : List (Match × Text)} {os os' : List Outcome}

/-- The outcomes under the two policies stand side by side. -/
theorem forall₂_denied (h : List.Forall₂ (Settles (e.under .warn)) xs os)
    (h' : List.Forall₂ (Settles (e.under .deny)) xs os') :
    os' = List.zipWith (fun x o => o.denied x.1.implementation.symbol) xs os := by
  induction h generalizing os' with
  | nil => cases h'; rfl
  | cons hx _ ih =>
    cases h' with
    | cons hx' h' => rw [List.zipWith_cons_cons, ← ih h', (settles_deny hx).unique hx']

/-- The wrappers of the outcomes, when placeholders are denied. -/
theorem wrappers_denied (h : List.Forall₂ (Settles (e.under .warn)) xs os)
    (h' : List.Forall₂ (Settles (e.under .deny)) xs os') :
    os'.filterMap wrapper? = (os.filterMap wrapper?).filter (!·.placeholder) := by
  rw [forall₂_denied h h']
  clear h'
  induction h with
  | nil => rfl
  | @cons x o xs os _ _ ih =>
    rw [List.zipWith_cons_cons]
    cases o with
    | emitted w =>
      cases hp : w.placeholder <;> simp [hp, wrapper?, List.filterMap_cons, ih]
    | skipped reason => simp [wrapper?, List.filterMap_cons, ih]
    | failed cause => simp [wrapper?, List.filterMap_cons, ih]

theorem skipped_denied (h : List.Forall₂ (Settles (e.under .warn)) xs os)
    (h' : List.Forall₂ (Settles (e.under .deny)) xs os') :
    os'.countP isSkipped = os.countP isSkipped :=
  (countP_of_forall₂ isSkipped_eq h').trans (countP_of_forall₂ isSkipped_eq h).symm

/-- The failures are those that there were, and one for each placeholder. -/
theorem failed_denied (h : List.Forall₂ (Settles (e.under .warn)) xs os)
    (h' : List.Forall₂ (Settles (e.under .deny)) xs os') : os'.countP isFailed =
      os.countP isFailed + (os.filterMap wrapper?).countP (·.placeholder) := by
  rw [forall₂_denied h h']
  clear h'
  induction h with
  | nil => rfl
  | @cons x o xs os _ _ ih =>
    rw [List.zipWith_cons_cons]
    cases o with
    | emitted w =>
      cases hp : w.placeholder <;>
        simp [hp, wrapper?, isFailed, List.countP_cons, ih, Nat.add_assoc]
    | skipped reason => simp [wrapper?, isFailed, List.filterMap_cons, ih]
    | failed cause =>
      simp [wrapper?, isFailed, List.filterMap_cons, List.countP_cons, ih, Nat.add_right_comm]

/-- The placeholders are the wrappers of the pairs that leave one, in order. -/
theorem forall₂_placeholders (h : List.Forall₂ (Settles (e.under .warn)) xs os) :
    List.Forall₂ (e.under .warn).Wraps (xs.filter e.leavesPlaceholder)
      ((os.filterMap wrapper?).filter (·.placeholder)) := by
  induction h with
  | nil => exact .nil
  | cons hx _ ih =>
    cases hx with
    | emitted free emit =>
      rename_i w
      rw [List.filter_cons, leavesPlaceholder_of_emit emit]
      cases hp : w.placeholder with
      | false => simpa [wrapper?, List.filterMap_cons, hp] using ih
      | true =>
        simpa [wrapper?, List.filterMap_cons, hp] using ⟨wraps_of_pairEmit emit, ih⟩
    | skipped skip =>
      rw [List.filter_cons_of_neg (by simp [leavesPlaceholder_of_skip skip])]
      exact ih
    | failed free emit =>
      rw [List.filter_cons_of_neg (by simp [leavesPlaceholder_of_error emit])]
      exact ih

/-- The reports of the pairs, when placeholders are denied. -/
theorem flatMap_reported_deny (h : List.Forall₂ (Settles (e.under .warn)) xs os)
    (sources : List Source) : xs.flatMap (reported (e.under .deny) sources) =
      xs.flatMap fun x => if e.leavesPlaceholder x then [denial sources x]
        else reported (e.under .warn) sources x := by
  induction h with
  | nil => rfl
  | cons hx _ ih => rw [List.flatMap_cons, List.flatMap_cons, reported_deny hx, ih]

/-- The denials are the reports under their code. -/
theorem filter_denials (xs : List (Match × Text)) (sources : List Source) :
    (xs.flatMap fun x => if e.leavesPlaceholder x then [denial sources x]
      else reported (e.under .warn) sources x).filter (·.code == "E0104".toList) =
      (xs.filter e.leavesPlaceholder).map (denial sources) := by
  induction xs with
  | nil => rfl
  | cons x xs ih =>
    rw [List.flatMap_cons, List.filter_append, ih, List.filter_cons]
    cases e.leavesPlaceholder x with
    | true => rfl
    | false =>
      have none : (reported (e.under .warn) sources x).filter (·.code == "E0104".toList) = [] :=
        List.filter_eq_nil_iff.mpr fun d hd => by simpa using code_of_mem_reported_warn hd
      rw [if_neg Bool.false_ne_true, if_neg Bool.false_ne_true, none, List.nil_append]

end outcomes

/-- What denying placeholders makes of the files `W` and the added diagnostics of a run that allows
them. -/
structure Denies (e : Emitter) (sources : List Source) (m : Matching) (W D : Generated)
    (allowing denying : List Diagnostic) : Prop where
  /-- The other wrappers stay as they are, in their order. -/
  wrappers : D.wrappers = W.wrappers.filter (!·.placeholder)
  skipped : D.skipped = W.skipped
  failed : D.failed = W.failed + W.placeholders
  /-- The wrappers that go are those of the pairs that leave a placeholder. -/
  removed : List.Forall₂ (e.under .warn).Wraps (m.keyed.filter e.leavesPlaceholder)
    (W.wrappers.filter (·.placeholder))
  allowing_eq : allowing = m.unmatched.map (unmatchedNote sources) ++
    m.keyed.flatMap (reported (e.under .warn) sources)
  /-- In the place of the warning of a placeholder stands the error of its denial. -/
  denying_eq : denying = m.unmatched.map (unmatchedNote sources) ++
    m.keyed.flatMap fun x => if e.leavesPlaceholder x then [denial sources x]
      else reported (e.under .warn) sources x
  /-- Every removed wrapper is reported once, and nothing else is reported under that code. -/
  denials : denying.filter (·.code == "E0104".toList) =
    (m.keyed.filter e.leavesPlaceholder).map (denial sources)
  /-- The denials are errors about bodies without a shape. -/
  denial_eq : ∀ x, (denial sources x).severity = .error ∧ (denial sources x).code = "E0104".toList ∧
    (denial sources x).span? = some x.1.declaration.span ∧
    (denial sources x).message = (GenError.unclassifiedBody x.1.implementation.symbol).message

/-- **Denying placeholders removes them and nothing else.**  A run that denies them ends with files
exactly when the run that allows them does; its wrappers are the others, as they were; and each
placeholder has become a failure of its key, reported as a body without a shape. -/
theorem generate_deny {p : Project} {style : Style} {script : Script}
    {natives : List Implementation} {m : Matching}
    (hm : Matching.make script.declarations natives = .ok m) (s : Session) :
    ((∃ W sW, (generate { p with policy := .warn } style script natives).step s = (.ok W, sW)) ↔
      ∃ D sD, (generate { p with policy := .deny } style script natives).step s = (.ok D, sD)) ∧
    ∀ W sW D sD,
      (generate { p with policy := .warn } style script natives).step s = (.ok W, sW) →
      (generate { p with policy := .deny } style script natives).step s = (.ok D, sD) →
      ∃ allowing denying, sW.diagnostics = s.diagnostics ++ allowing ∧
        sD.diagnostics = s.diagnostics ++ denying ∧
        Denies (emitterFor p script) s.sources m W D allowing denying := by
  by_cases h : ∀ x ∈ m.keyed, ¬ (emitterFor p script).Misread x
  · -- whether a line is cut does not depend on the policy
    obtain ⟨os, noticesW, hos, runW⟩ := step_generate (p := { p with policy := .warn }) style hm h s
    obtain ⟨os', noticesD, hos', runD⟩ :=
      step_generate (p := { p with policy := .deny }) style hm h s
    refine ⟨iff_of_true ⟨_, _, runW⟩ ⟨_, _, runD⟩, fun W sW D sD hW hD => ?_⟩
    cases runW.symm.trans hW
    cases runD.symm.trans hD
    refine ⟨_, _, rfl, rfl, ?_⟩
    let e := emitterFor p script
    have placed := flatMap_reported_deny (e := e) hos s.sources
    exact {
      wrappers := wrappers_denied (e := e) hos hos'
      skipped := skipped_denied (e := e) hos hos'
      failed := failed_denied (e := e) hos hos'
      removed := forall₂_placeholders (e := e) hos
      allowing_eq := rfl
      denying_eq := congrArg _ placed
      denials := by
        -- the notes before the denials have a code of their own
        have notes :
            (m.unmatched.map (unmatchedNote s.sources)).filter (·.code == "E0104".toList) = [] := by
          rw [List.filter_eq_nil_iff]
          intro d hd
          obtain ⟨u, -, rfl⟩ := List.mem_map.mp hd
          simp [unmatchedNote]
        rw [List.filter_append, notes, List.nil_append]
        exact (congrArg _ placed).trans (filter_denials m.keyed s.sources)
      denial_eq := fun x => ⟨rfl, rfl, rfl, rfl⟩ }
  · -- a misread key stops the run under either policy
    have misread := h
    simp only [not_forall, not_not] at misread
    obtain ⟨x, hx, misread⟩ := misread
    have stops : ∀ policy, ¬ ∃ g s',
        (generate { p with policy } style script natives).step s = (.ok g, s') := by
      rintro policy ⟨g, s', hg⟩
      obtain ⟨f, s'', run⟩ :=
        step_generate_misread (p := { p with policy }) style hm hx misread s
      cases run.symm.trans hg
    refine ⟨iff_of_false (stops .warn) (stops .deny), fun W sW D sD hW _ => ?_⟩
    exact absurd ⟨W, sW, hW⟩ (stops .warn)

/-- The theorem for a run in which every outcome occurs, a placeholder among them. -/
theorem generate_deny_of_sample : ∃ m W sW D sD allowing denying,
    Matching.make sampleScript.declarations sampleNatives = .ok m ∧
      (generate { ({} : Project) with policy := .warn } ⟨false, false⟩ sampleScript
        sampleNatives).step {} = (.ok W, sW) ∧
      (generate { ({} : Project) with policy := .deny } ⟨false, false⟩ sampleScript
        sampleNatives).step {} = (.ok D, sD) ∧
      (W.wrappers.length, W.failed, W.placeholders) = (2, 1, 1) ∧
      Denies (emitterFor {} sampleScript) [] m W D allowing denying := by
  obtain ⟨m, hm, -⟩ := exists_of_satisfies (p := fun _ => true)
    (x := Matching.make sampleScript.declarations sampleNatives) (by decide +kernel)
  obtain ⟨W, sW, hW, hp⟩ := @exists_of_endsWith sampleScript sampleNatives
    (fun g => (g.wrappers.length, g.failed, g.placeholders) == (2, 1, 1)) (by decide +kernel)
  obtain ⟨ends, denies⟩ :=
    @generate_deny {} ⟨false, false⟩ sampleScript sampleNatives m hm {}
  obtain ⟨D, sD, hD⟩ := ends.mp ⟨W, sW, hW⟩
  obtain ⟨allowing, denying, -, -, h⟩ := denies W sW D sD hW hD
  exact ⟨m, W, sW, D, sD, allowing, denying, hm, hW, hD, by simpa using hp, h⟩

end Batch

end VectorWrap
