import VectorWrap.Proofs.Declaration.Defaults
import VectorWrap.Proofs.Implementation.Sorted
import VectorWrap.Proofs.Wrapper.Faults
import VectorWrap.Proofs.Wrapper.Structure

/-!
# Slots are bound to their own parameters

The slots of a body are listed by number, and the closure makes them in this order: a slot whose
number is that of a parameter out of the closure's parameter of this number, and a slot behind the
parameters out of the default in its place (`Materializes`).  A number behind the defaults refuses
the wrapper, the least one first (`make_missing`).  So for a declaration that is read from its
parameter list, slots and list are matched by position (`emit_binds`).

A block may declare its variable with the parameter in one of several ways, by its type (`Reads`);
what matters here is the parameter that it reads.
-/

namespace VectorWrap

namespace Closure

variable {types : TypeTable} {policy : PlaceholderPolicy} {d : Declaration} {n : Implementation}
  {function : Text} {kind : WrapperKind} {c : Closure}

/-! ### Blocks -/

/-- A block that declares a variable with what `src` holds. -/
inductive Reads (var src : Text) : List Text → Prop where
  | value (type : Text) : Reads var src [Fragment.bind type var src]
  | datum (element : Text) : Reads var src (Fragment.datumArg var element src)
  | bytes (type function : Text) : Reads var src (Fragment.bytesArg type var src function)
  | timestamp : Reads var src (Fragment.timestampArg var src)
  | interval : Reads var src (Fragment.intervalArg var src)
  | text (slot : Nat) (asText : Bool) : Reads var src (Fragment.textArg slot var src asText)

/-- A block that makes a slot: from the closure's parameter of its number, if there are more
parameters, or else from the default in its place. -/
inductive Materializes (arity : Nat) (defaults : List Text) (rename : Text → Text)
    (slot : ArgSlot) : List Text → Prop where
  | param {block : List Text} (h : slot.index < arity)
      (hr : Reads (rename slot.var) (Layout.argName slot.index) block) :
      Materializes arity defaults rename slot block
  | default {value : Text} (type : Text) (h : arity ≤ slot.index)
      (hv : defaults[slot.index - arity]? = some value) :
      Materializes arity defaults rename slot [Fragment.bind type (rename slot.var) value]

/-- The lines for a parameter read that parameter. -/
theorem reads_paramCode {typeParams : List Text} {var paramType : Text} {slot : ArgSlot} :
    Reads var (Layout.argName slot.index)
      (paramCode types typeParams function var paramType slot).lines := by
  rw [paramCode]
  dsimp only
  split
  · exact .datum _
  · split
    · exact .bytes _ _
    · exact .timestamp
    · exact .interval
    · exact .text _ _
    · exact .value _

/-- The lines for an argument make its slot. -/
theorem materializes_of_argCode {typeParams : List Text} {symbol : Text} {renames : Renaming}
    {slot : ArgSlot} {a : ArgCode}
    (h : argCode types d typeParams function symbol renames slot = .ok a) :
    Materializes d.params.length d.defaults renames.text slot a.lines := by
  rcases argCode_eq_ok h with ⟨p, hp, rfl⟩ | ⟨hp, value, hv, rfl⟩
  · exact .param (List.getElem?_eq_some_iff.mp hp).1 reads_paramCode
  · exact .default _ (List.getElem?_eq_none_iff.mp hp) hv

/-! ### Closures -/

/-- A closure takes one element of each type, makes the slots in their order, each by one block, and
goes on from there. -/
structure Binds (types : TypeTable) (params defaults : List Text) (n : Implementation)
    (c : Closure) : Prop where
  hosts : List.Forall₂ (fun type host => types.executorType? type = some host) params c.typeParams
  lambda : ∀ inputs count, Layout.lambdaParams (Emitter.call c inputs count) =
    c.typeParams.zipIdx.map (fun (host, i) => host ++ " " ++ Layout.argName i) ++
      if n.nullable then Layout.maskParams else []
  body : ∃ blocks rest, c.body = blocks.flatten ++ rest ∧
    List.Forall₂ (Materializes params.length defaults (outputRenaming n).text) n.slots blocks

/-- A closure that is made binds its slots. -/
theorem binds_of_make (h : make types policy d n function kind = .ok c) :
    c.Binds types d.types d.defaults n := by
  obtain ⟨args, call?, made⟩ := made_of_make h
  refine ⟨(mapM_eq_ok_iff.mp made.typeParams_eq).imp fun type host he => ?_,
    fun _ _ => by rw [← made.withNulls_eq]; rfl, args.map (·.lines),
    tagLines d c.typeParams n ++ lastLines types d n c.retType call?, ?_, ?_⟩
  · rw [elementType] at he
    split at he
    · next hs =>
      cases he
      exact hs
    · cases he
  · rw [made.body_eq, List.flatMap_def, List.append_assoc]
  · rw [List.forall₂_map_right_iff, Declaration.types, List.length_map]
    exact (mapM_eq_ok_iff.mp made.args_eq).imp fun _ _ hs => materializes_of_argCode hs

/-! ### Refusals -/

theorem orRefuse_bind_of_ok {α β : Type} {x : Except GenError α} {a : α} (h : x = .ok a)
    (f : α → Except EmitFailure β) : (orRefuse x >>= f) = f a := by
  rw [h]
  rfl

/-- What is accepted is refused only where placeholders are denied. -/
theorem make_of_accepted (ha : Accepted types d n kind) :
    (∃ c, make types policy d n function kind = .ok c) ∨
      (make types policy d n function kind = .error (.refused (.unclassifiedBody n.symbol)) ∧
        policy = .deny ∧ n.shape.isClassified = false) ∨
      ∃ fault, make types policy d n function kind = .error (.fault fault) := by
  obtain ⟨hret, htypes⟩ := List.forall_mem_cons.mp ha.types
  obtain ⟨executor, hx⟩ := exists_executorFor_iff.mpr ha.arity
  obtain ⟨typeParams, ht⟩ :=
    exists_mapM_iff.mpr fun t hm => exists_elementType_iff.mpr (htypes t hm)
  obtain ⟨retType, hr⟩ := exists_elementType_iff.mpr hret
  have slots : ∀ slot ∈ n.slots, ∃ a, argCode types d typeParams function n.symbol
      (outputRenaming n) slot = .ok a := fun slot hm =>
    exists_argCode_iff.mpr (ha.slots slot hm)
  obtain ⟨args, hargs⟩ := exists_mapM_iff.mpr slots
  rw [make, orRefuse_bind_of_ok hx, orRefuse_bind_of_ok ht, orRefuse_bind_of_ok hr,
    orRefuse_bind_of_ok hargs]
  dsimp only
  cases hc : callCode n.shape (outputRenaming n).text (returnType types d n) retType
      (args.filterMap (·.buffer?)) with
  | error fault => exact .inr (.inr ⟨fault, rfl⟩)
  | ok call? =>
    cases call? with
    | some call => exact .inl ⟨_, rfl⟩
    | none =>
      cases policy with
      | warn => exact .inl ⟨_, rfl⟩
      | deny => exact .inr (.inl ⟨rfl, rfl, isClassified_of_callCode hc⟩)

/-- The first slot without parameter or default refuses the closure. -/
theorem make_missing (harity : ∃ x, executorFor d kind = .ok x)
    (htypes : ∀ t ∈ d.returnType :: d.types, (types.executorType? t).isSome = true)
    {before after : List ArgSlot} {slot : ArgSlot} (hs : n.slots = before ++ slot :: after)
    (hb : ∀ s ∈ before, s.index < d.params.length + d.defaults.length)
    (hn : d.params.length + d.defaults.length ≤ slot.index) :
    make types policy d n function kind =
      .error (.refused (.missingSlotBinding n.symbol slot.var slot.index)) := by
  obtain ⟨hret, htypes⟩ := List.forall_mem_cons.mp htypes
  obtain ⟨executor, hx⟩ := harity
  obtain ⟨typeParams, ht⟩ :=
    exists_mapM_iff.mpr fun t hm => exists_elementType_iff.mpr (htypes t hm)
  obtain ⟨retType, hr⟩ := exists_elementType_iff.mpr hret
  have missing : argCode types d typeParams function n.symbol (outputRenaming n) slot =
      .error (.missingSlotBinding n.symbol slot.var slot.index) := by
    rw [argCode, List.getElem?_eq_none (by omega)]
    dsimp only
    rw [List.getElem?_eq_none (by omega)]
  have args : n.slots.mapM (argCode types d typeParams function n.symbol (outputRenaming n)) =
      .error (.missingSlotBinding n.symbol slot.var slot.index) := by
    rw [hs]
    exact mapM_eq_error (fun s hm => exists_argCode_iff.mpr (hb s hm)) missing
  rw [make, orRefuse_bind_of_ok hx, orRefuse_bind_of_ok ht, orRefuse_bind_of_ok hr]
  dsimp only
  rw [args]
  rfl

end Closure

/-- A function is declared with the parameters and the defaults of its list. -/
theorem Script.parts_of_declaration? {f : Found Statement} {name list returnType quoted : Text}
    (statement : f.value = .function name list returnType quoted)
    {file : Option Nat} {script : Text}
    {marks : List SectionMark} {casts : List Cast} {operators : List Operator} {d : Declaration}
    (declared : declaration? file script marks casts operators f = some d) :
    d.returnType = returnType ∧ d.params = (Param.parseList list).1 ∧
      d.defaults = (Param.parseList list).2 := by
  obtain ⟨_, _, _, _, e, rfl⟩ := exists_of_declaration? declared
  cases statement.symm.trans e
  exact ⟨rfl, rfl, rfl⟩

/-- The types and the defaults of a function are those that its list is written with. -/
theorem Script.types_of_declaration? {f : Found Statement} {name list returnType quoted : Text}
    (statement : f.value = .function name list returnType quoted) {types defaults : List Text}
    (written : Param.IsList list types defaults) {file : Option Nat} {script : Text}
    {marks : List SectionMark} {casts : List Cast} {operators : List Operator} {d : Declaration}
    (declared : declaration? file script marks casts operators f = some d) :
    d.returnType = returnType ∧ d.types = types ∧ d.defaults = defaults := by
  obtain ⟨hret, hparams, hdefaults⟩ := parts_of_declaration? statement declared
  obtain ⟨ps, read, htypes⟩ := Param.parseList_written written
  rw [read] at hparams hdefaults
  exact ⟨hret, by rw [Declaration.types, hparams, htypes], hdefaults⟩

namespace Emitter

variable {e : Emitter} {d : Declaration} {n : Implementation} {key : Text}

/-- A key that is not skipped gets the wrapper around its closure. -/
theorem exists_emit_of_make (hs : skip? d key = none) {c : Closure}
    (h : Closure.make e.types e.policy d n (Key.member key) (kindOf key) = .ok c) :
    ∃ w, e.emit d n key = .ok (some w) ∧
      w.source = source e.structName (Key.member key) (kindOf key) d.params.length c := by
  obtain ⟨w, hw, hsource⟩ : ∃ w, e.wrapper d n key = .ok w ∧
      w.source = source e.structName (Key.member key) (kindOf key) d.params.length c := by
    rw [wrapper, h]
    exact ⟨_, rfl, rfl⟩
  refine ⟨w, ?_, hsource⟩
  rw [emit, hs]
  dsimp only
  rw [hw]
  rfl

/-- A key that is not skipped gets no wrapper where its closure cannot be made. -/
theorem emit_of_make_error (hs : skip? d key = none) {x : EmitFailure}
    (h : Closure.make e.types e.policy d n (Key.member key) (kindOf key) = .error x) :
    e.emit d n key = .error x := by
  rw [emit, hs]
  dsimp only
  rw [wrapper, h]
  rfl

/-- The least number behind the parameters and the defaults stands behind numbers that have one. -/
theorem exists_first_missing {slots : List ArgSlot}
    (hp : slots.Pairwise fun a b => a.index ≤ b.index) {bound : Nat}
    (h : ∃ slot ∈ slots, bound ≤ slot.index) : ∃ before slot after,
      slots = before ++ slot :: after ∧ (∀ s ∈ before, s.index < bound) ∧ bound ≤ slot.index ∧
        ∀ s ∈ slots, bound ≤ s.index → slot.index ≤ s.index := by
  obtain ⟨missing, hm, hbound⟩ := h
  have found : (slots.find? fun s => decide (bound ≤ s.index)).isSome = true := by
    rw [List.find?_isSome]
    exact ⟨missing, hm, by simpa using hbound⟩
  obtain ⟨slot, hslot⟩ := Option.isSome_iff_exists.mp found
  obtain ⟨hs, before, after, rfl, hb⟩ := List.find?_eq_some_iff_append.mp hslot
  have below : ∀ s ∈ before, s.index < bound := fun s hm => by simpa using hb s hm
  refine ⟨before, slot, after, rfl, below, by simpa using hs, fun s hm hle => ?_⟩
  rcases List.mem_append.mp hm with hm | hm
  · exact absurd (below s hm) (by omega)
  · rcases List.mem_cons.mp hm with rfl | hm
    · exact le_rfl
    · exact (List.pairwise_cons.mp (List.pairwise_append.mp hp).2.1).1 s hm

/-- A plain key that is accepted gets the wrapper of a closure that binds its slots, unless its
placeholder is denied or a line of the body is cut inside a character. -/
theorem emit_of_accepted (plain : Key.isCast key = false) (unskipped : skip? d key = none)
    (accepted : Closure.Accepted e.types d n (kindOf key)) :
    (∃ w c, e.emit d n key = .ok (some w) ∧ c.Binds e.types d.types d.defaults n ∧
      w.source = source e.structName (Key.member key) .scalar d.types.length c) ∨
    (e.emit d n key = .error (.refused (.unclassifiedBody n.symbol)) ∧ e.policy = .deny ∧
      n.shape.isClassified = false) ∨
    ∃ fault, e.emit d n key = .error (.fault fault) ∧ ∃ l ∈ Closure.reread n.shape,
      Assignment.CutsCharacter ((Closure.outputRenaming n).text l) := by
  rcases @Closure.make_of_accepted e.types e.policy d n (Key.member key) (kindOf key) accepted with
    ⟨c, hc⟩ | ⟨hc, hpolicy, hshape⟩ | ⟨fault, hc⟩
  · obtain ⟨w, hw, hsource⟩ := exists_emit_of_make unskipped hc
    have kind : kindOf key = .scalar := by rw [kindOf, plain]; rfl
    rw [kind] at hsource
    refine .inl ⟨w, c, hw, Closure.binds_of_make hc, ?_⟩
    rw [hsource, Declaration.types, List.length_map]
  · exact .inr (.inl ⟨emit_of_make_error unskipped hc, hpolicy, hshape⟩)
  · exact .inr (.inr ⟨fault, emit_of_make_error unskipped hc,
      (Closure.make_fault_iff.mp ⟨fault, hc⟩).2⟩)

/-- Of slots without parameter or default the one with the least number is named. -/
theorem emit_of_missing (unskipped : skip? d key = none)
    (arity : ∃ x, Closure.executorFor d (kindOf key) = .ok x)
    (knows : ∀ t ∈ d.returnType :: d.types, (e.types.executorType? t).isSome = true)
    (sorted : n.slots.Pairwise fun a b => a.index ≤ b.index)
    (missing : ∃ slot ∈ n.slots, d.types.length + d.defaults.length ≤ slot.index) :
    ∃ slot ∈ n.slots, d.types.length + d.defaults.length ≤ slot.index ∧
      (∀ s ∈ n.slots, d.types.length + d.defaults.length ≤ s.index → slot.index ≤ s.index) ∧
      e.emit d n key = .error (.refused (.missingSlotBinding n.symbol slot.var slot.index)) := by
  have count : d.types.length = d.params.length := List.length_map _
  obtain ⟨before, slot, after, split, below, bound, least⟩ := exists_first_missing sorted missing
  refine ⟨slot, split ▸ by simp, bound, least, emit_of_make_error unskipped ?_⟩
  rw [count] at below bound
  exact Closure.make_missing arity knows split below bound

/-- **Slots are bound to their own parameters.** -/
theorem emit_binds {f : Found Statement} {name list returnType quoted : Text}
    (statement : f.value = .function name list returnType quoted) {types defaults : List Text}
    (written : Param.IsList list types defaults) (arity : 1 ≤ types.length ∧ types.length ≤ 3)
    {file : Option Nat} {script : Text} {marks : List SectionMark} {casts : List Cast}
    {operators : List Operator}
    (declared : Script.declaration? file script marks casts operators f = some d)
    (known : ∀ t ∈ returnType :: types, (e.types.executorType? t).isSome = true)
    {symbol text : Text} {span : Span}
    (implemented : Implementation.ofBody symbol text span = .ok n)
    (plain : Key.isCast key = false) (unskipped : skip? d key = none) :
    n.slots.Perm (ArgSlot.found text) ∧ n.slots.Pairwise (fun a b => a.index ≤ b.index) ∧
    ((∀ slot ∈ n.slots, slot.index < types.length + defaults.length) →
      (∃ w c, e.emit d n key = .ok (some w) ∧ c.Binds e.types types defaults n ∧
        w.source = source e.structName (Key.member key) .scalar types.length c) ∨
      (e.emit d n key = .error (.refused (.unclassifiedBody n.symbol)) ∧ e.policy = .deny ∧
        n.shape.isClassified = false) ∨
      ∃ fault, e.emit d n key = .error (.fault fault) ∧ ∃ l ∈ Closure.reread n.shape,
        Assignment.CutsCharacter ((Closure.outputRenaming n).text l)) ∧
    ((∃ slot ∈ n.slots, types.length + defaults.length ≤ slot.index) →
      ∃ slot ∈ n.slots, types.length + defaults.length ≤ slot.index ∧
        (∀ s ∈ n.slots, types.length + defaults.length ≤ s.index → slot.index ≤ s.index) ∧
        e.emit d n key = .error (.refused (.missingSlotBinding n.symbol slot.var slot.index))) := by
  obtain ⟨rfl, rfl, rfl⟩ := Script.types_of_declaration? statement written declared
  have count : d.types.length = d.params.length := List.length_map _
  have accepts : d.params.length = 1 ∨
      kindOf key = .scalar ∧ (d.params.length = 2 ∨ d.params.length = 3) := by
    have kind : kindOf key = .scalar := by rw [kindOf, plain]; rfl
    rw [kind, ← count]
    simp only [true_and]
    omega
  have slots := Implementation.slots_ofBody implemented
  have sorted : n.slots.Pairwise fun a b => a.index ≤ b.index :=
    slots ▸ ArgSlot.pairwise_ofBody text
  refine ⟨slots ▸ ArgSlot.perm_ofBody text, sorted, fun within => ?_, fun missing => ?_⟩
  · exact emit_of_accepted plain unskipped ⟨accepts, known, fun slot hm => count ▸ within slot hm⟩
  · exact emit_of_missing unskipped (Closure.exists_executorFor_iff.mpr accepts) known sorted
      missing

/-- Parameters with and without names, and a default behind the word and one behind the sign. -/
def paddedList : Text :=
  "integer, text  unit , integer Default 7, bigint k= (1)"

/-- A list of parameters with blanks around its parts. -/
theorem isList_paddedList : Param.IsList paddedList ["integer".toList, "text".toList]
    ["7".toList, "(1)".toList] := by
  have space : ∀ c ∈ [' '], Text.isBlank c = true := List.all_eq_true.mp (by decide)
  have none : ∀ c ∈ ([] : Text), Text.isBlank c = true := by simp
  have seven : Param.IsLiteral "7" :=
    ⟨by decide, fun c hc => by simpa using List.any_eq_false.mp (by decide) c hc, by decide⟩
  have one : Param.IsLiteral "(1)" :=
    ⟨by decide, fun c hc => by simpa using List.any_eq_false.mp (by decide) c hc, by decide⟩
  have first : Param.Plain "integer" "integer" :=
    ⟨⟨by decide, by decide, by decide⟩, by decide⟩
  have second : Param.Plain " text  unit " "text" :=
    ⟨⟨by decide, by decide, by decide⟩, by decide⟩
  have third : Param.Defaulted " integer Default 7" "7" :=
    @Param.Defaulted.word " integer ".toList "Default".toList [' '] _ []
      ⟨by decide, by decide, by decide⟩ (fun c hc => by cases hc; decide) (by decide) space
      (by simp) seven none
  have fourth : Param.Defaulted " bigint k= (1)" "(1)" :=
    @Param.Defaulted.sign " bigint k".toList [' '] _ [] (by decide) (by decide) space one none
  exact ⟨["integer", " text  unit "], [" integer Default 7", " bigint k= (1)"], by decide,
    .cons first (.cons second .nil), .cons third (.cons fourth .nil)⟩

/-- The script of a function with that list. -/
def paddedScript : Text :=
  "CREATE FUNCTION f(" ++ paddedList ++ ") RETURNS integer AS 'M', 'F' LANGUAGE C;"

/-- A body that fetches the first of the defaults before a parameter. -/
def paddedBody : Text :=
  "int32 k = PG_GETARG_INT32(2);\ntext *t = PG_GETARG_TEXT_P(1);\nPG_RETURN_INT32(g(t, k));"

/-- A body that fetches one argument too many. -/
def greedyBody : Text :=
  "int32 k = PG_GETARG_INT32(4);\nPG_RETURN_INT32(g(k));"

/-- Both outcomes for that function. -/
theorem emit_binds_of_paddedList : ∃ f d n m w c slot,
    f ∈ Script.statements paddedScript ∧ f.value = .function "f" paddedList "integer" "F" ∧
    Script.declaration? none paddedScript [] [] [] f = some d ∧
    Implementation.ofBody "F" paddedBody ⟨none, 0, 0⟩ = .ok n ∧ n.slots.map (·.index) = [1, 2] ∧
    base.emit d n "f" = .ok (some w) ∧
    c.Binds base.types ["integer".toList, "text".toList] ["7".toList, "(1)".toList] n ∧
    w.source = source base.structName (Key.member "f") .scalar 2 c ∧
    Implementation.ofBody "F" greedyBody ⟨none, 0, 0⟩ = .ok m ∧ slot ∈ m.slots ∧ 4 ≤ slot.index ∧
    base.emit d m "f" = .error (.refused (.missingSlotBinding m.symbol slot.var slot.index)) := by
  have computed : ((Script.statements paddedScript).any fun f =>
      decide (f.value = .function "f" paddedList "integer" "F") &&
        (Script.declaration? none paddedScript [] [] [] f).any fun d =>
          decide (skip? d "f" = none)) = true := by
    decide +kernel
  obtain ⟨f, hf, h⟩ := List.any_eq_true.mp computed
  obtain ⟨value, h⟩ := (Bool.and_eq_true ..).mp h
  obtain ⟨d, hd, unskipped⟩ := (Option.any_eq_true ..).mp h
  have known : ∀ t ∈ ["integer".toList, "integer".toList, "text".toList],
      (base.types.executorType? t).isSome = true := List.all_eq_true.mp (by decide)
  -- the first body is a single call, so no line of it is read again
  obtain ⟨n, hn, single⟩ := exists_of_satisfies
    (x := Implementation.ofBody "F" paddedBody ⟨none, 0, 0⟩)
    (p := fun n => (Closure.reread n.shape).isEmpty) (by decide +kernel)
  obtain ⟨perm, sorted, bound, -⟩ := emit_binds (of_decide_eq_true value) isList_paddedList
    (by decide) hd known hn (by decide) (of_decide_eq_true unskipped)
  have numbers : (n.slots.map (·.index)).Perm [1, 2] :=
    (perm.map (·.index)).trans (by decide +kernel)
  have within : ∀ s ∈ n.slots, s.index < 4 := fun s hs => by
    have := numbers.subset (List.mem_map_of_mem hs)
    simp at this
    omega
  obtain ⟨m, hm, missing⟩ := exists_of_satisfies
    (x := Implementation.ofBody "F" greedyBody ⟨none, 0, 0⟩)
    (p := fun m => m.slots.any fun s => decide (4 ≤ s.index)) (by decide +kernel)
  obtain ⟨s, hs, hle⟩ := List.any_eq_true.mp missing
  obtain ⟨-, -, -, refused⟩ := emit_binds (of_decide_eq_true value) isList_paddedList (by decide) hd
    known hm (by decide) (of_decide_eq_true unskipped)
  obtain ⟨slot, hslot, hindex, -, he⟩ := refused ⟨s, hs, by simpa using hle⟩
  rcases bound within with ⟨w, c, hw, binds, hsource⟩ | ⟨-, hpolicy, -⟩ | ⟨fault, -, l, hl, -⟩
  · refine ⟨f, d, n, m, w, c, slot, hf, of_decide_eq_true value, hd, hn, ?_, hw, binds, hsource, hm,
      hslot, hindex, he⟩
    exact numbers.eq_of_pairwise (fun a b _ _ => Nat.le_antisymm)
      (List.pairwise_map.mpr sorted) (by decide)
  · cases hpolicy
  · rw [List.isEmpty_iff.mp single] at hl
    cases hl

end Emitter

end VectorWrap
