import VectorWrap.Proofs.Wrapper.Bound
import VectorWrap.Proofs.Wrapper.NullGuard

/-!
# What a key is answered

Four things can be wrong with a declaration and its body, and the making of the closure meets them
in a fixed order: the number of parameters, a type, a slot, a body without a shape.  `cause?` reads
the first of them off without making anything, and `Decides` says that a step of the making fails
just for its cause, so that the steps are put together by `Decides.bind`.  But for a line that is
cut inside a character nothing else can go wrong (`emit_answers_iff`).

The closure takes parameters and element types by their number.  `makeChecked` is the same making
with every number checked, and no check fails (`makeChecked_eq`).

With the numbers checked a making may have no result at all, neither a closure nor a refusal
(`Checked`).  That the two makings are equal says that this never happens, and so that no list is
asked for an element that it does not have.
-/

namespace VectorWrap

namespace Closure

variable {α β : Type} {types : TypeTable} {policy : PlaceholderPolicy} {d : Declaration}
  {n : Implementation} {function symbol : Text} {kind : WrapperKind} {typeParams : List Text}
  {renames : Renaming} {slot : ArgSlot}

/-! ### Checked numbers -/

/-- A making that has no result at all once a number is out of range. -/
abbrev Checked := ExceptT EmitFailure Option

/-- What is made without numbers. -/
def Checked.of (x : Except EmitFailure α) : Checked α :=
  ExceptT.mk (some x)

/-- The element of the given number. -/
def Checked.at (l : List α) (i : Nat) : Checked α :=
  ExceptT.lift l[i]?

/-- The code for an argument, every number checked. -/
def argCodeChecked (types : TypeTable) (d : Declaration) (typeParams : List Text)
    (function symbol : Text) (renames : Renaming) (slot : ArgSlot) : Checked ArgCode := do
  let var := renames.text slot.var
  if d.params.length ≤ slot.index then
    match d.defaults[slot.index - d.params.length]? with
    | some value => pure ⟨[Fragment.bind ((slotType? slot).getD "auto") var value], none⟩
    | none => throw (.refused (.missingSlotBinding symbol slot.var slot.index))
  else
    let p ← Checked.at d.params slot.index
    -- the one element type that `paramCode` takes
    let _ ← Checked.at typeParams slot.index
    pure (paramCode types typeParams function var p.type slot)

/-- The lines that ask for the type of an argument, the number checked. -/
def tagLinesChecked (d : Declaration) (typeParams : List Text) (n : Implementation) :
    Checked (List Text) :=
  match n.typeTagVar? with
  | none => pure []
  | some var => do
      let element ← Checked.at typeParams (tagIndex d n)
      pure (Fragment.typeTag var element (Layout.argName (tagIndex d n)))

/-- The closure of a wrapper, every number checked. -/
def makeChecked (types : TypeTable) (policy : PlaceholderPolicy) (d : Declaration)
    (n : Implementation) (function : Text) (kind : WrapperKind) : Checked Closure := do
  let executor ← .of (orRefuse (executorFor d kind))
  let typeParams ← .of (orRefuse (d.types.mapM (elementType types d)))
  let retType ← .of (orRefuse (elementType types d d.returnType))
  let renames := outputRenaming n
  let args ← n.slots.mapM (argCodeChecked types d typeParams function n.symbol renames)
  let tag ← tagLinesChecked d typeParams n
  let before := args.flatMap (·.lines) ++ tag
  let buffers := args.filterMap (·.buffer?)
  let call? ← .of (orFault (callCode n.shape renames.text (returnType types d n) retType buffers))
  let make (lines : List Text) (placeholder : Bool) : Closure :=
    { executor, typeParams, retType, placeholder, withNulls := n.nullable, body := before ++ lines }
  match call?, policy with
  | some c, _ => pure (make (c.lines ++ [] :: outputLines types d retType c.buffers) false)
  | none, .warn => pure (make ([] :: placeholderLines retType buffers) true)
  | none, .deny => throw (.refused (.unclassifiedBody n.symbol))

theorem Checked.at_of_lt {l : List α} {i : Nat} (h : i < l.length) (f : α → Checked β) :
    (Checked.at l i >>= f) = f l[i] := by
  rw [Checked.at, List.getElem?_eq_getElem h]
  rfl

/-- A step that succeeds goes on with what it gives. -/
theorem Checked.of_bind_of_ok {x : Except GenError α} {a : α} (h : x = .ok a)
    (f : α → Checked β) : (Checked.of (orRefuse x) >>= f) = f a := by
  rw [h]
  rfl

/-- A traversal whose steps pass their checks passes them all. -/
theorem Checked.mapM_eq {as : List α} {f : α → Checked β} {g : α → Except GenError β}
    (h : ∀ a ∈ as, f a = .of (orRefuse (g a))) :
    as.mapM f = .of (orRefuse (as.mapM g)) := by
  induction as with
  | nil => rfl
  | cons a as ih =>
    obtain ⟨ha, has⟩ := List.forall_mem_cons.mp h
    rw [List.mapM_cons, List.mapM_cons, ha, ih has]
    cases g a with
    | error x => rfl
    | ok b => cases as.mapM g <;> rfl

/-- A parameter has an element type, and the number of a default is counted from the last
parameter. -/
theorem argCodeChecked_eq (h : typeParams.length = d.params.length) (slot : ArgSlot) :
    argCodeChecked types d typeParams function symbol renames slot =
      .of (orRefuse (argCode types d typeParams function symbol renames slot)) := by
  rw [argCodeChecked, argCode]
  by_cases hp : d.params.length ≤ slot.index
  · rw [if_pos hp, List.getElem?_eq_none hp]
    dsimp only
    cases d.defaults[slot.index - d.params.length]? <;> rfl
  · rw [Nat.not_le] at hp
    rw [if_neg (by omega), Checked.at_of_lt hp, Checked.at_of_lt (h ▸ hp),
      List.getElem?_eq_getElem hp]
    rfl

/-- The type that a body asks for is that of a parameter, if there are parameters. -/
theorem tagIndex_lt (h : 0 < d.params.length) : tagIndex d n < d.params.length := by
  rw [tagIndex]
  cases hf : n.slots.find? fun s => s.kind == "DATUM".toList && s.index < d.params.length with
  | none => exact h
  | some s =>
    have := List.find?_some hf
    rw [Bool.and_eq_true, decide_eq_true_eq] at this
    exact this.2

/-- The type tag asks for an element that is there. -/
theorem tagLinesChecked_eq (h : typeParams.length = d.params.length)
    (positive : 0 < d.params.length) :
    tagLinesChecked d typeParams n = pure (tagLines d typeParams n) := by
  rw [tagLinesChecked, tagLines]
  cases n.typeTagVar? with
  | none => rfl
  | some var =>
    have inside : tagIndex d n < typeParams.length := h ▸ tagIndex_lt positive
    dsimp only
    rw [Checked.at_of_lt inside, List.getD_eq_getElem?_getD, List.getElem?_eq_getElem inside]
    rfl

/-- **No number is out of range.** -/
theorem makeChecked_eq (types : TypeTable) (policy : PlaceholderPolicy) (d : Declaration)
    (n : Implementation) (function : Text) (kind : WrapperKind) :
    makeChecked types policy d n function kind = .of (make types policy d n function kind) := by
  rw [makeChecked, make]
  cases hx : executorFor d kind with
  | error x => rfl
  | ok executor =>
    have arity := exists_executorFor_iff.mp ⟨executor, hx⟩
    cases ht : d.types.mapM (elementType types d) with
    | error x => rfl
    | ok typeParams =>
      have count : typeParams.length = d.params.length := by
        rw [← (mapM_eq_ok_iff.mp ht).length_eq, Declaration.types, List.length_map]
      have tag : tagLinesChecked d typeParams n = pure (tagLines d typeParams n) :=
        tagLinesChecked_eq count (by omega)
      have checked : n.slots.mapM
          (argCodeChecked types d typeParams function n.symbol (outputRenaming n)) =
            .of (orRefuse (n.slots.mapM
              (argCode types d typeParams function n.symbol (outputRenaming n)))) :=
        Checked.mapM_eq fun slot _ => argCodeChecked_eq count slot
      cases elementType types d d.returnType with
      | error x => rfl
      | ok retType =>
        rw [Checked.of_bind_of_ok rfl, Checked.of_bind_of_ok rfl, Checked.of_bind_of_ok rfl,
          orRefuse_bind_of_ok rfl, orRefuse_bind_of_ok rfl, orRefuse_bind_of_ok rfl]
        dsimp only
        rw [checked]
        cases n.slots.mapM (argCode types d typeParams function n.symbol (outputRenaming n)) with
        | error x => rfl
        | ok args =>
          rw [Checked.of_bind_of_ok rfl, orRefuse_bind_of_ok rfl, tag, pure_bind]
          cases callCode n.shape (outputRenaming n).text (returnType types d n) retType
              (args.filterMap (·.buffer?)) with
          | error fault => rfl
          | ok call? => cases call? <;> cases policy <;> rfl

/-! ### Causes -/

/-- Fails for the cause if there is one, and else does not fail. -/
def Decides (cause? : Option GenError) (x : Except EmitFailure α) : Prop :=
  match cause? with
  | some cause => x = .error (.refused cause)
  | none => ∃ a, x = .ok a

/-- Two steps fail for the first cause that there is. -/
theorem Decides.bind {first? second? : Option GenError} {x : Except EmitFailure α}
    {f : α → Except EmitFailure β} (hx : Decides first? x)
    (hf : ∀ a, x = .ok a → Decides second? (f a)) : Decides (first? <|> second?) (x >>= f) := by
  cases first? with
  | some cause =>
    rw [show x = _ from hx]
    exact rfl
  | none =>
    obtain ⟨a, ha⟩ : ∃ a, x = .ok a := hx
    rw [ha]
    exact hf a ha

/-- What cannot fail adds no cause. -/
theorem Decides.bind_ok {first? : Option GenError} {x : Except EmitFailure α}
    {f : α → Except EmitFailure β} (hx : Decides first? x) (hf : ∀ a, ∃ b, f a = .ok b) :
    Decides first? (x >>= f) := by
  have := @Decides.bind _ _ first? none x f hx fun a _ => hf a
  rwa [show (first? <|> none) = first? by cases first? <;> rfl] at this

/-- A traversal fails for the first of its causes. -/
theorem decides_mapM {cause? : α → Option GenError} {f : α → Except GenError β} {as : List α}
    (h : ∀ a ∈ as, Decides (cause? a) (orRefuse (f a))) :
    Decides (as.findSome? cause?) (orRefuse (as.mapM f)) := by
  induction as with
  | nil => exact ⟨[], rfl⟩
  | cons a as ih =>
    obtain ⟨ha, has⟩ := List.forall_mem_cons.mp h
    have split : orRefuse ((a :: as).mapM f) =
        (orRefuse (f a) >>= fun b => orRefuse (as.mapM f) >>= fun bs => .ok (b :: bs)) := by
      rw [List.mapM_cons]
      cases f a with
      | error x => rfl
      | ok b => cases as.mapM f <;> rfl
    have first : (a :: as).findSome? cause? = (cause? a <|> as.findSome? cause?) := by
      rw [List.findSome?_cons]
      cases cause? a <;> rfl
    rw [split, first]
    exact ha.bind fun b _ => (ih has).bind_ok fun bs => ⟨b :: bs, rfl⟩

/-- The number of parameters has no executor. -/
def arityCause? (d : Declaration) : WrapperKind → Option GenError
  | .cast =>
      if d.params.length = 1 then none
      else some (.unsupportedArity d.display d.params.length "1")
  | .scalar =>
      if d.params.length ∈ [1, 2, 3] then none
      else some (.unsupportedArity d.display d.params.length "1..=3")

/-- A type is in no table. -/
def typeCause? (types : TypeTable) (d : Declaration) (type : Text) : Option GenError :=
  if (types.executorType? type).isSome then none else some (.unsupportedType d.display type)

/-- A slot has neither parameter nor default. -/
def slotCause? (d : Declaration) (symbol : Text) (slot : ArgSlot) : Option GenError :=
  if slot.index < d.params.length + d.defaults.length then none
  else some (.missingSlotBinding symbol slot.var slot.index)

/-- A body has no shape, and placeholders are denied. -/
def shapeCause? (policy : PlaceholderPolicy) (n : Implementation) : Option GenError :=
  if n.shape.isClassified = false ∧ policy = .deny then some (.unclassifiedBody n.symbol) else none

/-- The first cause to refuse a closure. -/
def cause? (types : TypeTable) (policy : PlaceholderPolicy) (d : Declaration) (n : Implementation)
    (kind : WrapperKind) : Option GenError :=
  arityCause? d kind <|>
    (d.types ++ [d.returnType]).findSome? (typeCause? types d) <|>
      n.slots.findSome? (slotCause? d n.symbol) <|> shapeCause? policy n

/-- The executor is refused for the number of parameters only. -/
theorem decides_executorFor : Decides (arityCause? d kind) (orRefuse (executorFor d kind)) := by
  unfold executorFor
  rcases hl : d.params.length with _ | _ | _ | _ | k <;> cases kind <;>
    simp [arityCause?, hl, Decides, orRefuse, Except.mapError]

/-- An element type is refused for the type only. -/
theorem decides_elementType (type : Text) :
    Decides (typeCause? types d type) (orRefuse (elementType types d type)) := by
  rw [typeCause?, elementType]
  cases types.executorType? type with
  | none => exact rfl
  | some t => exact ⟨t, rfl⟩

/-- An argument is refused for a default that is missing only. -/
theorem decides_argCode (slot : ArgSlot) : Decides (slotCause? d symbol slot)
    (orRefuse (argCode types d typeParams function symbol renames slot)) := by
  rw [slotCause?]
  by_cases within : slot.index < d.params.length + d.defaults.length
  · obtain ⟨a, ha⟩ := exists_argCode_iff.mpr within
    rw [if_pos within, ha]
    exact ⟨a, rfl⟩
  · rw [if_neg within, argCode, List.getElem?_eq_none (by omega)]
    dsimp only
    rw [List.getElem?_eq_none (by omega)]
    exact rfl

/-- A call has no code exactly if the body has no shape. -/
theorem isNone_of_callCode {shape : Shape} {rename : Text → Text} {retCType retType : Text}
    {buffers : List Text} {call? : Option CallCode}
    (h : callCode shape rename retCType retType buffers = .ok call?) :
    call?.isNone = !shape.isClassified := by
  cases call? with
  | none => rw [isClassified_of_callCode h]; rfl
  | some call =>
    cases shape with
    | unclassified lines => cases h
    | _ => rfl

/-- **A closure is refused for the first cause**, as long as no line is cut inside a
character. -/
theorem decides_make (whole : Accepted types d n kind → ∀ l ∈ reread n.shape,
    ¬ Assignment.CutsCharacter ((outputRenaming n).text l)) :
    Decides (cause? types policy d n kind) (make types policy d n function kind) := by
  have alone : [d.returnType].findSome? (typeCause? types d) = typeCause? types d d.returnType := by
    rw [List.findSome?_cons]
    cases typeCause? types d d.returnType <;> rfl
  have order : cause? types policy d n kind = (arityCause? d kind <|>
      d.types.findSome? (typeCause? types d) <|> typeCause? types d d.returnType <|>
        n.slots.findSome? (slotCause? d n.symbol) <|> shapeCause? policy n) := by
    rw [cause?, List.findSome?_append, alone]
    cases d.types.findSome? (typeCause? types d) <;> rfl
  rw [order, make]
  refine decides_executorFor.bind fun executor hx => ?_
  refine (decides_mapM fun type _ => decides_elementType type).bind fun typeParams ht => ?_
  refine (decides_elementType d.returnType).bind fun retType hr => ?_
  refine (decides_mapM fun slot _ => decides_argCode slot).bind fun args ha => ?_
  rw [orRefuse, mapError_eq_ok] at hx ht hr ha
  have accepted : Accepted types d n kind := {
    arity := exists_executorFor_iff.mp ⟨executor, hx⟩
    types := List.forall_mem_cons.mpr ⟨exists_elementType_iff.mp ⟨retType, hr⟩,
      fun t hm => exists_elementType_iff.mp (exists_mapM_iff.mp ⟨typeParams, ht⟩ t hm)⟩
    slots := fun slot hm => exists_argCode_iff.mp (exists_mapM_iff.mp ⟨args, ha⟩ slot hm) }
  obtain ⟨call?, hc⟩ := exists_callCode_iff.mpr (whole accepted)
  dsimp only
  rw [hc]
  cases call? with
  | some call =>
    have classified : n.shape.isClassified = true := by simpa using isNone_of_callCode hc
    rw [shapeCause?, classified]
    exact ⟨_, rfl⟩
  | none =>
    rw [shapeCause?, isClassified_of_callCode hc]
    cases policy with
    | warn => exact ⟨_, rfl⟩
    | deny => exact rfl

end Closure

namespace Emitter
open Closure

variable {e : Emitter} {d : Declaration} {n : Implementation} {key : Text}

/-- What is due for a key that is not skipped: the refusal for the first cause, or else a wrapper,
with a placeholder for a body without a shape. -/
def Answers (e : Emitter) (d : Declaration) (n : Implementation) (key : Text) : Prop :=
  match cause? e.types e.policy d n (kindOf key) with
  | some cause => e.emit d n key = .error (.refused cause)
  | none => ∃ w, e.emit d n key = .ok (some w) ∧
      (w.placeholder = true ↔ n.shape.isClassified = false)

/-- A making that fails just for its cause answers as it should. -/
theorem answers_of_decides (unskipped : skip? d key = none)
    (h : Decides (cause? e.types e.policy d n (kindOf key))
      (make e.types e.policy d n (Key.member key) (kindOf key))) : e.Answers d n key := by
  rw [Answers]
  cases hc : cause? e.types e.policy d n (kindOf key) with
  | some cause =>
    rw [hc] at h
    exact emit_of_make_error unskipped h
  | none =>
    rw [hc] at h
    obtain ⟨c, hmake⟩ := h
    obtain ⟨w, hw, -⟩ := exists_emit_of_make unskipped hmake
    obtain ⟨c', hmake', hwrapper⟩ := bind_eq_ok.mp (wrapper_of_emit hw)
    cases hmake.symm.trans hmake'
    cases hwrapper
    obtain ⟨args, call?, made⟩ := made_of_make hmake
    refine ⟨_, hw, ?_⟩
    rw [made.placeholder_eq, isNone_of_callCode made.call_eq, Bool.not_eq_true']

/-- A fault is no answer. -/
theorem not_answers_of_fault {fault : Fault} (h : e.emit d n key = .error (.fault fault)) :
    ¬ e.Answers d n key := by
  rw [Answers]
  split
  · rw [h]
    rintro ⟨⟩
  · rintro ⟨w, hw, -⟩
    rw [h] at hw
    cases hw

/-- **Every key that is not skipped gets the answer that is due to it**, unless all that is looked
at before the body is accepted and a line of the body is cut inside a character; and no number of a
parameter, a type or a default is out of range. -/
theorem emit_answers_iff (unskipped : skip? d key = none) :
    (e.Answers d n key ↔ ¬ (Accepted e.types d n (kindOf key) ∧
      ∃ l ∈ reread n.shape, Assignment.CutsCharacter ((outputRenaming n).text l))) ∧
    makeChecked e.types e.policy d n (Key.member key) (kindOf key) =
      .of (make e.types e.policy d n (Key.member key) (kindOf key)) := by
  refine ⟨⟨?_, fun whole => answers_of_decides unskipped (decides_make fun accepted l hl hcut =>
    whole ⟨accepted, l, hl, hcut⟩)⟩, makeChecked_eq ..⟩
  rintro answers cut
  obtain ⟨fault, hfault⟩ := @make_fault_iff e.types e.policy d n (Key.member key) (kindOf key)
    |>.mpr cut
  exact not_answers_of_fault (emit_of_make_error unskipped hfault) answers

/-- A declaration of two parameters, the second of the given type, and a default. -/
def paired (type : Text) : Declaration :=
  { Declaration.unary "integer" "integer" with
    params := [⟨"integer", "a"⟩, ⟨type, "b"⟩], defaults := ["7".toList] }

/-- A wrapper that reads the default, and the refusals for an unknown type and as a cast. -/
theorem emit_answers_of_paired : ∃ n w,
    Implementation.ofBody "F" "int32 k = PG_GETARG_INT32(2);\nPG_RETURN_INT32(g(k));"
      ⟨none, 0, 0⟩ = .ok n ∧
    base.emit (paired "integer") n "f" = .ok (some w) ∧ w.placeholder = false ∧
    base.emit (paired "shape") n "f" =
      .error (.refused (.unsupportedType (paired "shape").display "shape")) ∧
    base.emit (paired "shape") n "f_cast" =
      .error (.refused (.unsupportedArity (paired "shape").display 2 "1")) := by
  obtain ⟨n, hn, computed⟩ := exists_of_satisfies
    (x := Implementation.ofBody "F"
      "int32 k = PG_GETARG_INT32(2);\nPG_RETURN_INT32(g(k));" ⟨none, 0, 0⟩)
    (p := fun n => n.shape.isClassified && (reread n.shape).isEmpty &&
      decide (cause? base.types base.policy (paired "integer") n (kindOf "f") = none ∧
        cause? base.types base.policy (paired "shape") n (kindOf "f") =
          some (.unsupportedType (paired "shape").display "shape") ∧
        cause? base.types base.policy (paired "shape") n (kindOf "f_cast") =
          some (.unsupportedArity (paired "shape").display 2 "1"))) (by decide +kernel)
  simp only [Bool.and_eq_true, List.isEmpty_iff, decide_eq_true_eq] at computed
  obtain ⟨⟨classified, single⟩, free, unknown, cast⟩ := computed
  -- the body is a single call, so no line of it is read again
  have whole (d : Declaration) (key : Text) : ¬ (Accepted base.types d n (kindOf key) ∧
      ∃ l ∈ reread n.shape, Assignment.CutsCharacter ((outputRenaming n).text l)) := by
    rintro ⟨-, l, hl, -⟩
    rw [single] at hl
    cases hl
  have wrapped := (@emit_answers_iff base (paired "integer") n "f" (by decide)).1.mpr (whole _ _)
  have unsupported := (@emit_answers_iff base (paired "shape") n "f" (by decide)).1.mpr (whole _ _)
  have uncast := (@emit_answers_iff base (paired "shape") n "f_cast" (by decide)).1.mpr (whole _ _)
  rw [Answers, free] at wrapped
  rw [Answers, unknown] at unsupported
  rw [Answers, cast] at uncast
  obtain ⟨w, hw, placed⟩ := wrapped
  exact ⟨n, w, hn, hw, by simpa [classified] using placed, unsupported, uncast⟩

/-- A variable whose name begins with a character of several bytes is not answered. -/
theorem accented_not_answered : ∃ n, Implementation.ofBody "f"
      "int32 n = PG_GETARG_INT32(0);\nint32 né = n;\ng(n);\nPG_RETURN_INT32(n);" ⟨none, 0, 0⟩ =
        .ok n ∧ n.slots.Pairwise (fun a b => a.index ≤ b.index) ∧
      skip? (Declaration.unary "integer" "integer") "f" = none ∧
      ¬ base.Answers (Declaration.unary "integer" "integer") n "f" := by
  obtain ⟨n, hn, cut⟩ := exists_of_satisfies (x := Implementation.ofBody "f"
      "int32 n = PG_GETARG_INT32(0);\nint32 né = n;\ng(n);\nPG_RETURN_INT32(n);" ⟨none, 0, 0⟩)
    (p := fun n => decide (base.emit (Declaration.unary "integer" "integer") n "f" =
      .error (.fault .insideCharacter))) (by decide +kernel)
  exact ⟨n, hn, Implementation.slots_ofBody hn ▸ ArgSlot.pairwise_ofBody _, by decide,
    not_answers_of_fault (of_decide_eq_true cut)⟩

end Emitter

end VectorWrap
