import VectorWrap.Proofs.Batch.Accounts

/-!
# What loading reads

Loading adds the inputs that can be read to the sources of the session, in order, and reads each
under the number that it gets there (`step_loadDeclarations`, `step_loadNatives`).  What is reported
on the way points at no range.  Declarations can always be loaded; loading C sources stops at the
first that cannot be read as one, with the sources up to it added.

What a step adds to a session (`Session.Adds`) is the sources that it has read and diagnostics of a
certain kind; notices are left out, as nothing is decided by them.  Additions of steps one behind
the other are put together by `Session.Adds.trans`.
-/

namespace VectorWrap

/-! ### What a step adds -/

/-- Sources and diagnostics are added behind those that are there. -/
structure Session.Adds (read : List Source) (p : Diagnostic → Prop) (s s' : Session) : Prop where
  sources : s'.sources = s.sources ++ read
  diagnostics : ∃ added, s'.diagnostics = s.diagnostics ++ added ∧ ∀ d ∈ added, p d

namespace Session.Adds

variable {s s' s'' : Session} {read read' : List Source} {p q : Diagnostic → Prop}

theorem refl (p : Diagnostic → Prop) (s : Session) : Adds [] p s s :=
  ⟨(List.append_nil _).symm, [], (List.append_nil _).symm, fun _ h => nomatch h⟩

/-- What two steps add stands one behind the other. -/
theorem trans (h : Adds read p s s') (h' : Adds read' p s' s'') :
    Adds (read ++ read') p s s'' := by
  obtain ⟨added, hd, hp⟩ := h.diagnostics
  obtain ⟨added', hd', hp'⟩ := h'.diagnostics
  refine ⟨by rw [h'.sources, h.sources, List.append_assoc], added ++ added', ?_, ?_⟩
  · rw [hd', hd, List.append_assoc]
  · exact List.forall_mem_append.mpr ⟨hp, hp'⟩

theorem mono (h : Adds read p s s') (hpq : ∀ d, p d → q d) : Adds read q s s' := by
  obtain ⟨added, hd, hp⟩ := h.diagnostics
  exact ⟨h.sources, added, hd, fun d hm => hpq d (hp d hm)⟩

theorem say (h : Adds read p s s') (notices : List Notice) :
    Adds read p s { s' with notices := s'.notices ++ notices } :=
  ⟨h.sources, h.diagnostics⟩

theorem report (h : Adds read p s s') {more : List Diagnostic} (hm : ∀ d ∈ more, p d) :
    Adds read p s { s' with diagnostics := s'.diagnostics ++ more } := by
  obtain ⟨added, hd, hp⟩ := h.diagnostics
  refine ⟨h.sources, added ++ more, ?_, List.forall_mem_append.mpr ⟨hp, hm⟩⟩
  exact (congrArg (· ++ more) hd).trans (List.append_assoc _ _ _)

end Session.Adds

/-- The source that an input becomes, if it can be read. -/
def Input.source? (i : Input) : Option Source :=
  match i.content with
  | .ok text => some ⟨i.path.text, text⟩
  | .error _ => none

/-- The sources that inputs become, as far as they can be read. -/
def Input.sources (inputs : List Input) : List Source :=
  inputs.filterMap Input.source?

theorem Input.sources_cons (i : Input) (inputs : List Input) :
    Input.sources (i :: inputs) = i.source?.toList ++ Input.sources inputs := by
  rw [Input.sources, List.filterMap_cons]
  cases i.source? <;> rfl

namespace Script

theorem nil_append (u : Script) : {} ++ u = u :=
  rfl

theorem append_nil (u : Script) : u ++ {} = u := by
  show append u {} = u
  simp [append]

theorem append_assoc (u v w : Script) : u ++ v ++ w = u ++ (v ++ w) := by
  show append (append u v) w = append u (append v w)
  simp [append]

end Script

namespace Batch

open Session (Adds)

/-- Points at no range. -/
def Spanless (d : Diagnostic) : Prop :=
  d.span? = none

/-- An input gets the next number. -/
theorem step_fetch (style : Style) (i : Input) (s : Session) :
    ∃ s', (fetch style i).step s =
        (.ok (i.source?.map fun x => (s.sources.length, x.text)), s') ∧
      Adds i.source?.toList Spanless s s' := by
  rw [fetch, Input.source?]
  cases i.content with
  | ok text =>
    exact ⟨_, rfl, rfl, [], (List.append_nil _).symm, fun _ h => nomatch h⟩
  | error e =>
    refine ⟨_, rfl, ((Adds.refl Spanless s).say _).report fun d hd => ?_⟩
    rw [List.mem_singleton.mp hd]
    rfl

/-! ### Declarations -/

/-- The script of sources that are numbered from `n`. -/
def scriptFrom (n : Nat) : List Source → Script
  | [] => {}
  | x :: xs => Script.parse (some n) x.text ++ scriptFrom (n + 1) xs

/-- The scripts of two lists of sources, numbered on. -/
theorem scriptFrom_append (n : Nat) (xs ys : List Source) :
    scriptFrom n (xs ++ ys) = scriptFrom n xs ++ scriptFrom (n + xs.length) ys := by
  induction xs generalizing n with
  | nil => exact (Script.nil_append _).symm
  | cons x xs ih =>
    rw [List.cons_append, scriptFrom, scriptFrom, ih, Script.append_assoc, List.length_cons,
      Nat.add_assoc, Nat.add_comm 1]

/-- The declarations of each source, under its number. -/
theorem mem_declarations_scriptFrom {n : Nat} {xs : List Source} {d : Declaration} :
    d ∈ (scriptFrom n xs).declarations ↔ ∃ i x, xs[i]? = some x ∧
      d ∈ (Script.parse (some (n + i)) x.text).declarations := by
  induction xs generalizing n with
  | nil => exact iff_of_false (fun h => nomatch h) fun ⟨_, _, h, _⟩ => nomatch h
  | cons x xs ih =>
    have split : d ∈ (scriptFrom n (x :: xs)).declarations ↔
        d ∈ (Script.parse (some n) x.text).declarations ∨
          d ∈ (scriptFrom (n + 1) xs).declarations := List.mem_append
    rw [split, ih]
    constructor
    · rintro (h | ⟨i, y, hy, h⟩)
      · exact ⟨0, x, rfl, h⟩
      · exact ⟨i + 1, y, hy, Nat.add_right_comm n 1 i ▸ h⟩
    · rintro ⟨_ | i, y, hy, h⟩
      · cases hy
        exact .inl h
      · exact .inr ⟨i, y, hy, Nat.add_right_comm n 1 i ▸ h⟩

/-- The casts are those of the single sources. -/
theorem mem_casts_scriptFrom {n : Nat} {xs : List Source} {c : Cast} :
    c ∈ (scriptFrom n xs).casts ↔ ∃ x ∈ xs, c ∈ (Script.parse none x.text).casts := by
  induction xs generalizing n with
  | nil => exact iff_of_false (fun h => nomatch h) fun ⟨_, h, _⟩ => nomatch h
  | cons x xs ih =>
    rw [List.exists_mem_cons_iff, ← ih (n := n + 1)]
    exact List.mem_append

/-- The operators are those of the single sources. -/
theorem mem_operators_scriptFrom {n : Nat} {xs : List Source} {op : Operator} :
    op ∈ (scriptFrom n xs).operators ↔ ∃ x ∈ xs, op ∈ (Script.parse none x.text).operators := by
  induction xs generalizing n with
  | nil => exact iff_of_false (fun h => nomatch h) fun ⟨_, h, _⟩ => nomatch h
  | cons x xs ih =>
    rw [List.exists_mem_cons_iff, ← ih (n := n + 1)]
    exact List.mem_append

/-- An input is read as a script, or leaves the session with a warning. -/
theorem step_loadScript (style : Style) (i : Input) (s : Session) :
    ∃ s', (loadScript style i).step s = (.ok (scriptFrom s.sources.length i.source?.toList), s') ∧
      Adds i.source?.toList Spanless s s' := by
  obtain ⟨s₁, fetched, adds⟩ := step_fetch style i s
  rw [loadScript, step_bind_ok fetched]
  cases hi : i.source? with
  | none => exact ⟨s₁, rfl, hi ▸ adds⟩
  | some x =>
    exact ⟨_, congrArg (fun u => (Except.ok u, _)) (Script.append_nil _).symm, (hi ▸ adds).say _⟩

/-- **Declarations can always be loaded.** -/
theorem step_loadDeclarations (style : Style) (inputs : List Input) (s : Session) :
    ∃ s', (loadDeclarations style inputs).step s =
        (.ok (scriptFrom s.sources.length (Input.sources inputs)), s') ∧
      Adds (Input.sources inputs) Spanless s s' := by
  induction inputs generalizing s with
  | nil => exact ⟨s, rfl, .refl Spanless s⟩
  | cons i rest ih =>
    obtain ⟨s₁, first, adds⟩ := step_loadScript style i s
    obtain ⟨s₂, others, adds'⟩ := ih s₁
    refine ⟨s₂, ?_, Input.sources_cons i rest ▸ adds.trans adds'⟩
    rw [loadDeclarations, step_bind_ok first, step_bind_ok others, step_pure, adds.sources,
      List.length_append, ← scriptFrom_append, Input.sources_cons]

/-! ### Implementations -/

/-- The functions of C sources that are numbered from `n`. -/
def functionsFrom (n : Nat) : List Source → Except Fault (List Implementation)
  | [] => .ok []
  | x :: xs => do
      let u ← NativeSource.parse (some n) x.text
      let others ← functionsFrom (n + 1) xs
      pure (u.functions ++ others)

/-- The functions of two lists of sources, numbered on. -/
theorem functionsFrom_append (n : Nat) (xs ys : List Source) :
    functionsFrom n (xs ++ ys) = (do
      let first ← functionsFrom n xs
      let others ← functionsFrom (n + xs.length) ys
      pure (first ++ others)) := by
  induction xs generalizing n with
  | nil => exact (bind_pure _).symm
  | cons x xs ih =>
    rw [List.cons_append, functionsFrom, functionsFrom, ih, List.length_cons, Nat.add_assoc,
      Nat.add_comm 1]
    simp only [bind_assoc, pure_bind, List.append_assoc]

/-- A C source is read, or nothing is loaded. -/
theorem step_loadSource (style : Style) (i : Input) (s : Session) :
    ∃ s', (loadSource style i).step s =
        ((functionsFrom s.sources.length i.source?.toList).mapError .fault, s') ∧
      Adds i.source?.toList Spanless s s' := by
  obtain ⟨s₁, fetched, adds⟩ := step_fetch style i s
  rw [loadSource, step_bind_ok fetched]
  cases hi : i.source? with
  | none => exact ⟨s₁, rfl, hi ▸ adds⟩
  | some x =>
    rw [hi] at adds
    have parsed : functionsFrom s.sources.length (some x).toList =
        (NativeSource.parse (some s.sources.length) x.text).map (·.functions) := by
      simp only [Option.toList_some, functionsFrom]
      cases NativeSource.parse (some s.sources.length) x.text with
      | error f => rfl
      | ok u => exact congrArg Except.ok (List.append_nil u.functions)
    rw [parsed]
    dsimp only [Option.map_some]
    cases NativeSource.parse (some s.sources.length) x.text with
    | error f => exact ⟨s₁, rfl, adds⟩
    | ok u =>
      have dropped : ∀ d ∈ u.dropped.map (droppedNote i.path), Spanless d := by
        intro d hd
        obtain ⟨symbol, -, rfl⟩ := List.mem_map.mp hd
        rfl
      exact ⟨_, rfl, (adds.say (Notice.parsed style i.path u.functions.length "functions")).report
        dropped⟩

/-- **C sources are loaded** up to one that cannot be read as one. -/
theorem step_loadNatives (style : Style) (inputs : List Input) (s : Session) :
    ∃ s' read, (loadNatives style inputs).step s =
        ((functionsFrom s.sources.length (Input.sources inputs)).mapError .fault, s') ∧
      Adds read Spanless s s' ∧ read <+: Input.sources inputs ∧
      ((∃ natives, functionsFrom s.sources.length (Input.sources inputs) = .ok natives) →
        read = Input.sources inputs) := by
  induction inputs generalizing s with
  | nil => exact ⟨s, [], rfl, .refl Spanless s, List.nil_prefix, fun _ => rfl⟩
  | cons i rest ih =>
    obtain ⟨s₁, first, adds⟩ := step_loadSource style i s
    rw [loadNatives, Input.sources_cons, functionsFrom_append]
    cases hf : functionsFrom s.sources.length i.source?.toList with
    | error f =>
      rw [hf] at first
      exact ⟨s₁, _, step_bind_error first, adds, List.prefix_append _ _, nofun⟩
    | ok functions =>
      rw [hf] at first
      obtain ⟨s₂, read, others, adds', front, all⟩ := ih s₁
      rw [adds.sources, List.length_append] at others all
      rw [step_bind_ok first]
      cases hr : functionsFrom (s.sources.length + i.source?.toList.length)
          (Input.sources rest) with
      | error f =>
        rw [hr] at others
        exact ⟨s₂, _, step_bind_error others, adds.trans adds',
          (List.prefix_append_right_inj _).mpr front, nofun⟩
      | ok natives =>
        rw [hr] at others
        exact ⟨s₂, _, (step_bind_ok others).trans rfl, adds.trans adds',
          (List.prefix_append_right_inj _).mpr front, fun _ => congrArg _ (all ⟨natives, hr⟩)⟩

end Batch

end VectorWrap
