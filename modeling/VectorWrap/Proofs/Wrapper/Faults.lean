import VectorWrap.Proofs.Wrapper.Assignments

/-!
# When the making of a closure faults

A line of a body that is copied is read as an assignment, for the result of `malloc` gets a cast in
it.  That reading faults where it cuts the line inside a character.  Nothing else in the making of a
closure can fault, so it does exactly when declaration and slots are accepted and one of these lines
is cut inside a character (`make_fault_iff`).  The setup of a null guard is read once more when the
cast has been put in, and that second reading never faults (`exists_ofLine_castAlloc`).

The steps before the call refuse or go on, and never fault (`orRefuse_bind_eq_fault`); whether they
go on is known from the declaration.  So what is left is the call, which reads the lines of the
shape.
-/

namespace VectorWrap

namespace Closure

/-- A line is copied unless its reading cuts a character. -/
theorem exists_castAlloc_iff {line : Text} :
    (∃ copy, castAlloc line = .ok copy) ↔ ¬ Assignment.CutsCharacter line := by
  rw [← Assignment.ofLine_eq_error_iff]
  cases h : Assignment.ofLine line with
  | error f => simp [castAlloc, h, bind, Except.bind]
  | ok a? =>
    have copied : ∃ copy, castAlloc line = .ok copy := by
      rcases castAlloc_cases h with same | ⟨_, _, _, -, -, -, put⟩
      · exact ⟨_, same⟩
      · exact ⟨_, put⟩
    simpa using copied

/-! ### The closure -/

/-- The lines of a body that are read as assignments. -/
def reread : Shape → List Text
  | .filled setup _ _ => [setup]
  | .guarded (some setup) .. => [setup]
  | .block lines _ => lines
  | _ => []

/-- The call of a body has code unless a line is cut inside a character. -/
theorem exists_callCode_iff {shape : Shape} {rename : Text → Text} {retCType retType : Text}
    {buffers : List Text} : (∃ c, callCode shape rename retCType retType buffers = .ok c) ↔
      ∀ l ∈ reread shape, ¬ Assignment.CutsCharacter (rename l) := by
  simp only [← exists_castAlloc_iff]
  cases shape with
  | filled setup call expr =>
    simp only [reread, List.mem_singleton, forall_eq]
    constructor
    · rintro ⟨c, h⟩
      obtain ⟨line, hl, -⟩ := bind_eq_ok.mp h
      exact ⟨line, hl⟩
    · rintro ⟨line, hl⟩
      exact ⟨_, by rw [callCode, hl]; rfl⟩
  | guarded setup? guard expr =>
    cases setup? with
    | none => exact ⟨fun _ => by simp [reread], fun _ => ⟨_, rfl⟩⟩
    | some setup =>
      simp only [reread, List.mem_singleton, forall_eq]
      constructor
      · rintro ⟨c, h⟩
        obtain ⟨lines, hg, -⟩ := bind_eq_ok.mp h
        obtain ⟨line, hl, -⟩ := bind_eq_ok.mp hg
        exact ⟨line, hl⟩
      · rintro ⟨line, hl⟩
        -- the line is read once more, for its buffer
        obtain ⟨a, ha⟩ := exists_ofLine_castAlloc hl
        obtain ⟨own, hown⟩ : ∃ own, allocates line result = .ok own := by
          rw [allocates, ha]
          cases a <;> exact ⟨_, rfl⟩
        exact ⟨_, by simp only [callCode, guardLines, hl, hown, bind, Except.bind]; rfl⟩
  | block lines expr =>
    rw [reread, ← exists_mapM_iff]
    constructor
    · rintro ⟨c, h⟩
      obtain ⟨copies, hl, -⟩ := bind_eq_ok.mp h
      exact ⟨copies, hl⟩
    · rintro ⟨copies, hl⟩
      exact ⟨_, by rw [callCode, hl]; rfl⟩
  | _ => exact ⟨fun _ => by simp [reread], fun _ => ⟨_, rfl⟩⟩

/-- What a wrapper is not refused for, as long as the body has a shape: the number of parameters,
the types of the declaration, and slots without parameter or default. -/
structure Accepted (types : TypeTable) (d : Declaration) (n : Implementation)
    (kind : WrapperKind) : Prop where
  arity : d.params.length = 1 ∨
    kind = .scalar ∧ (d.params.length = 2 ∨ d.params.length = 3)
  types : ∀ t ∈ d.returnType :: d.types, (types.executorType? t).isSome = true
  slots : ∀ slot ∈ n.slots, slot.index < d.params.length + d.defaults.length

/-- One parameter is accepted, and for a scalar wrapper two or three as well. -/
theorem exists_executorFor_iff {d : Declaration} {kind : WrapperKind} :
    (∃ x, executorFor d kind = .ok x) ↔
      d.params.length = 1 ∨ kind = .scalar ∧ (d.params.length = 2 ∨ d.params.length = 3) := by
  unfold executorFor
  dsimp only
  split <;> simp_all

theorem exists_elementType_iff {types : TypeTable} {d : Declaration} {type : Text} :
    (∃ t, elementType types d type = .ok t) ↔ (types.executorType? type).isSome = true := by
  rw [elementType]
  cases types.executorType? type <;> simp

/-- A slot is accepted if there is a parameter or a default of its number. -/
theorem exists_argCode_iff {types : TypeTable} {d : Declaration} {typeParams : List Text}
    {function symbol : Text} {renames : Renaming} {slot : ArgSlot} :
    (∃ a, argCode types d typeParams function symbol renames slot = .ok a) ↔
      slot.index < d.params.length + d.defaults.length := by
  rw [argCode]
  by_cases hp : slot.index < d.params.length
  · rw [List.getElem?_eq_getElem hp]
    simp only [Except.ok.injEq, exists_eq', true_iff]
    omega
  · rw [List.getElem?_eq_none (by omega)]
    by_cases hd : slot.index - d.params.length < d.defaults.length
    · rw [List.getElem?_eq_getElem hd]
      simp only [Except.ok.injEq, exists_eq', true_iff]
      omega
    · rw [List.getElem?_eq_none (by omega)]
      simp only [reduceCtorEq, exists_false, false_iff]
      omega

theorem orRefuse_bind_eq_fault {α β : Type} {x : Except GenError α} {f : α → Except EmitFailure β}
    {fault : Fault} : (orRefuse x >>= f) = .error (.fault fault) ↔
      ∃ a, x = .ok a ∧ f a = .error (.fault fault) := by
  cases x <;> simp [orRefuse, Except.mapError, bind, Except.bind]

/-- Where what follows never faults only the step itself can. -/
theorem orFault_bind_eq_fault {α β : Type} {x : Except Fault α} {f : α → Except EmitFailure β}
    (hf : ∀ a fault, f a ≠ .error (.fault fault)) {fault : Fault} :
    (orFault x >>= f) = .error (.fault fault) ↔ x = .error fault := by
  cases x <;> simp [orFault, Except.mapError, bind, Except.bind, hf]

/-- The making of a closure faults exactly when all is accepted and a line that is read as an
assignment is cut inside a character. -/
theorem make_fault_iff {types : TypeTable} {policy : PlaceholderPolicy} {d : Declaration}
    {n : Implementation} {function : Text} {kind : WrapperKind} :
    (∃ fault, make types policy d n function kind = .error (.fault fault)) ↔
      Accepted types d n kind ∧
        ∃ l ∈ reread n.shape, Assignment.CutsCharacter ((outputRenaming n).text l) := by
  constructor
  · rintro ⟨fault, h⟩
    obtain ⟨executor, hx, h⟩ := orRefuse_bind_eq_fault.mp h
    obtain ⟨typeParams, ht, h⟩ := orRefuse_bind_eq_fault.mp h
    obtain ⟨retType, hr, h⟩ := orRefuse_bind_eq_fault.mp h
    obtain ⟨args, ha, h⟩ := orRefuse_bind_eq_fault.mp h
    -- when the code of the call is there, the closure is refused at most
    have hcall :=
      (orFault_bind_eq_fault fun c? _ e => by cases c? <;> cases policy <;> cases e).mp h
    refine ⟨⟨exists_executorFor_iff.mp ⟨executor, hx⟩, List.forall_mem_cons.mpr ⟨?_, ?_⟩, ?_⟩, ?_⟩
    · exact exists_elementType_iff.mp ⟨retType, hr⟩
    · exact fun t hm => exists_elementType_iff.mp (exists_mapM_iff.mp ⟨typeParams, ht⟩ t hm)
    · exact fun slot hm => exists_argCode_iff.mp (exists_mapM_iff.mp ⟨args, ha⟩ slot hm)
    · by_contra hn
      obtain ⟨c, hc⟩ := exists_callCode_iff.mpr fun l hl hcut => hn ⟨l, hl, hcut⟩
      cases hcall.symm.trans hc
  · rintro ⟨accepted, l, hl, hcut⟩
    obtain ⟨hret, htypes⟩ := List.forall_mem_cons.mp accepted.types
    obtain ⟨executor, hx⟩ := exists_executorFor_iff.mpr accepted.arity
    obtain ⟨typeParams, ht⟩ :=
      exists_mapM_iff.mpr fun t hm => exists_elementType_iff.mpr (htypes t hm)
    obtain ⟨retType, hr⟩ := exists_elementType_iff.mpr hret
    have slots : ∀ slot ∈ n.slots, ∃ a, argCode types d typeParams function n.symbol
        (outputRenaming n) slot = .ok a := fun slot hm =>
      exists_argCode_iff.mpr (accepted.slots slot hm)
    obtain ⟨args, ha⟩ := exists_mapM_iff.mpr slots
    cases hc : callCode n.shape (outputRenaming n).text (returnType types d n) retType
        (args.filterMap (·.buffer?)) with
    | error fault =>
      refine ⟨fault, orRefuse_bind_eq_fault.mpr ⟨executor, hx, ?_⟩⟩
      refine orRefuse_bind_eq_fault.mpr ⟨typeParams, ht, ?_⟩
      refine orRefuse_bind_eq_fault.mpr ⟨retType, hr, ?_⟩
      refine orRefuse_bind_eq_fault.mpr ⟨args, ha, ?_⟩
      exact (orFault_bind_eq_fault fun c? _ e => by cases c? <;> cases policy <;> cases e).mpr hc
    | ok c => exact absurd hcut (exists_callCode_iff.mp ⟨c, hc⟩ l hl)

end Closure

end VectorWrap
