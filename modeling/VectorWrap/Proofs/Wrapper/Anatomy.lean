import VectorWrap.Proofs.Implementation.Shapes
import VectorWrap.Proofs.Scan.Sweep
import VectorWrap.Wrapper.Emit

/-!
# The parts of a closure

A closure with a call consists of the lines of the arguments, the type tag, the copied lines of the
body, the null guard, the line that binds the result, an empty line and the lines that give the
result back (`parts_of_make`).  `copied`, `bound?` and `kept` say shape by shape what is copied,
what the result is bound to, and which buffers are released by their own names after the call.

The variables of the arguments are names, before renaming and after it (`isName_renamed`).

The parts are given by definitions of their own instead of by the lines that the making puts
together step by step.  What is said of a closure further on is then said part by part, with no look
at how it was made.
-/

namespace VectorWrap

/-! ### The names of arguments -/

namespace ArgSlot
open Scan

/-- The variable of an assignment is a name. -/
theorem isName_of_assignment {s r : Text} {b : Binding} (h : assignment s = some (b, r)) :
    Text.isName b.var = true := by
  obtain ⟨_, _, _, named, -⟩ := exists_of_assignment h
  exact (parts_of_ident named).2

/-- The variable of a declaration is a name. -/
theorem isName_of_declaration {s r : Text} {b : Binding} (h : declaration s = some (b, r)) :
    Text.isName b.var = true := by
  obtain ⟨_, _, -, h⟩ := bind_eq_some.mp h
  obtain ⟨_, _, h₁, h⟩ := bind_eq_some.mp h
  obtain ⟨rfl, -⟩ := pure_eq_some.mp h
  have := isName_of_assignment h₁
  exact this

/-- A pass over the bindings gives names. -/
theorem isName_of_mem_pass {form : Scan Binding} {body : Text} {p : ArgSlot × Span}
    (hf : ∀ {s r b}, form s = some (b, r) → Text.isName b.var = true) (hp : p ∈ pass form body) :
    Text.isName p.1.var = true := by
  obtain ⟨f, hm, h⟩ := List.mem_filterMap.mp hp
  obtain ⟨slot, hs, rfl⟩ := Option.map_eq_some_iff.mp h
  simp only [ofBinding?, Option.ite_none_right_eq_some, Option.some.injEq] at hs
  obtain ⟨-, rfl⟩ := hs
  exact hf (item_of_mem_sweep hm)

/-- The variable of a slot is a name. -/
theorem isName_of_mem {body : Text} {slot : ArgSlot} (h : slot ∈ ofBody body) :
    Text.isName slot.var = true := by
  rw [ofBody, List.mem_mergeSort] at h
  obtain ⟨p, hp, rfl⟩ := List.mem_map.mp h
  rcases List.mem_append.mp hp with hp | hp
  · exact isName_of_mem_pass isName_of_declaration hp
  · exact isName_of_mem_pass isName_of_assignment (List.mem_filter.mp hp).1

end ArgSlot

namespace Implementation

/-- The slots of what is read from a body. -/
theorem slots_ofBody {symbol body : Text} {span : Span} {n : Implementation}
    (h : ofBody symbol body span = .ok n) : n.slots = ArgSlot.ofBody body := by
  obtain ⟨_, -, rfl⟩ := exists_of_ofBody h
  rfl

end Implementation

namespace Renaming

/-- A name is one token. -/
theorem tokens_of_isName {v : Text} (h : Text.isName v = true) :
    Text.tokens v = [.identifier v] := by
  cases v with
  | nil => cases h
  | cons c v =>
    simp only [Text.isName, Bool.and_eq_true, List.all_eq_true] at h
    have hf : Token.first c v = (.identifier (c :: v), []) := by
      rw [Token.first, if_pos h.1, List.takeWhile_eq_self_iff.mpr h.2,
        List.dropWhile_eq_nil_iff.mpr h.2]
    rw [Text.tokens, hf, Text.tokens]

/-- A name is renamed as a whole. -/
theorem text_of_isName (m : Renaming) {v : Text} (h : Text.isName v = true) :
    m.text v = m.apply v := by
  rw [text, tokens_of_isName h]
  simp [token, Token.concat, Token.text]

/-- A renaming to names keeps names. -/
theorem isName_apply {m : Renaming} (hm : ∀ p ∈ m, Text.isName p.2 = true) {v : Text}
    (h : Text.isName v = true) : Text.isName (m.apply v) = true := by
  cases e : m.lookup v with
  | none => rwa [apply, e]
  | some w =>
    rw [apply, e]
    obtain ⟨l₁, l₂, rfl, -⟩ := List.lookup_eq_some_iff.mp e
    exact hm (v, w) (by simp)

end Renaming

namespace Closure

theorem isName_result : Text.isName result = true := by
  decide

/-- The new names of a renaming are names. -/
theorem isName_outputRenaming (n : Implementation) :
    ∀ p ∈ outputRenaming n, Text.isName p.2 = true := by
  have fixed : ∀ p ∈ ([("result".toList, result), ("palloc".toList, "malloc".toList),
      ("pfree".toList, "free".toList)] : Renaming), Text.isName p.2 = true := by
    decide
  intro p hp
  simp only [outputRenaming] at hp
  split at hp
  · split at hp
    · exact fixed p hp
    · rcases List.mem_cons.mp hp with rfl | hp
      · exact isName_result
      · exact fixed p hp
  · exact fixed p hp

/-- A renamed name is a name. -/
theorem isName_renamed (n : Implementation) {v : Text} (h : Text.isName v = true) :
    Text.isName ((outputRenaming n).text v) = true := by
  rw [Renaming.text_of_isName _ h]
  exact Renaming.isName_apply (isName_outputRenaming n) h

/-! ### The call -/

/-- The lines of the body that are copied, renamed and with the casts that C++ wants. -/
def copied (shape : Shape) (rename : Text → Text) : Except Fault (List Text) :=
  match shape with
  | .call _ | .assigned .. | .guarded none .. | .unclassified _ => pure []
  | .filled setup call _ => do
      let line ← castAlloc (rename setup)
      pure [line, rename call]
  | .guarded (some setup) .. => do
      let line ← castAlloc (rename setup)
      pure [line]
  | .block lines _ => lines.mapM fun l => castAlloc (rename l)

/-- The type and the value of the line that binds the result, if there is one. -/
def bound? (shape : Shape) (rename : Text → Text) (retCType : Text) : Option (Text × Text) :=
  match shape with
  | .call expr => some (retCType, rename expr)
  | .assigned type _ call => some (type, rename call)
  | .filled _ _ expr | .guarded _ _ expr | .block _ expr =>
      if rename expr = result then none else some (retCType, rename expr)
  | .unclassified _ => none

/-- The line that binds the result. -/
def boundLines (shape : Shape) (rename : Text → Text) (retCType : Text) : List Text :=
  (bound? shape rename retCType).toList.map fun (type, value) => Fragment.bind type result value

/-- The buffers that are released by their own names after the call. -/
def kept (shape : Shape) (rename : Text → Text) (buffers : List Text) : List Text :=
  match shape with
  | .call _ | .assigned .. | .unclassified _ => buffers
  | .filled _ _ expr | .guarded _ _ expr | .block _ expr =>
      if rename expr = result then buffers else buffers.filter (· ≠ rename expr)

/-- No guard, or one of some condition. -/
def IsGuard (retType : Text) (guard : List Text) : Prop :=
  guard = [] ∨ ∃ condition frees, guard = Fragment.nullGuard condition frees retType

theorem bindResult_eq (shape : Shape) (rename : Text → Text) (retCType expr : Text)
    (buffers : List Text) (hb : bound? shape rename retCType =
      if rename expr = result then none else some (retCType, rename expr))
    (hk : kept shape rename buffers =
      if rename expr = result then buffers else buffers.filter (· ≠ rename expr)) :
    bindResult retCType (rename expr) buffers =
      ⟨boundLines shape rename retCType, kept shape rename buffers⟩ := by
  rw [bindResult, boundLines, hb, hk]
  split <;> simp

/-- The lines of a call are copied lines, a guard and the line that binds the result. -/
theorem callCode_parts {shape : Shape} {rename : Text → Text} {retCType retType : Text}
    {buffers : List Text} {c : CallCode}
    (h : callCode shape rename retCType retType buffers = .ok (some c)) :
    ∃ lines guard, copied shape rename = .ok lines ∧ IsGuard retType guard ∧
      (shape.isGuarded = true ↔ guard ≠ []) ∧
      c.lines = lines ++ guard ++ boundLines shape rename retCType ∧
      c.buffers = kept shape rename buffers := by
  cases shape with
  -- a call is bound as it stands: no buffer is taken off the list
  | call expr =>
    cases h
    exact ⟨[], [], rfl, .inl rfl, by simp [Shape.isGuarded], rfl, rfl⟩
  | assigned type var call =>
    cases h
    exact ⟨[], [], rfl, .inl rfl, by simp [Shape.isGuarded], rfl, rfl⟩
  | filled setup call expr =>
    obtain ⟨line, hl, h⟩ := bind_eq_ok.mp h
    cases h
    rw [bindResult_eq (.filled setup call expr) rename retCType expr buffers rfl rfl]
    exact ⟨[line, rename call], [], by rw [copied, hl]; rfl, .inl rfl, by simp [Shape.isGuarded],
      by simp [CallCode.after], rfl⟩
  | guarded setup? guard expr =>
    obtain ⟨lines, hl, h⟩ := bind_eq_ok.mp h
    cases h
    rw [bindResult_eq (.guarded setup? guard expr) rename retCType expr buffers rfl rfl]
    cases setup? with
    | none =>
      cases hl
      exact ⟨[], _, rfl, .inr ⟨_, _, rfl⟩, by simp [Shape.isGuarded, Fragment.nullGuard], rfl, rfl⟩
    | some setup =>
      obtain ⟨line, hs, hl⟩ := bind_eq_ok.mp hl
      obtain ⟨own, -, hl⟩ := bind_eq_ok.mp hl
      cases hl
      refine ⟨[line], Fragment.nullGuard (rename guard) (buffers ++ if own then [result] else [])
        retType, by rw [copied, hs]; rfl, .inr ⟨_, _, rfl⟩,
        by simp [Shape.isGuarded, Fragment.nullGuard], by simp [CallCode.after], rfl⟩
  | block lines expr =>
    obtain ⟨copies, hl, h⟩ := bind_eq_ok.mp h
    cases h
    rw [bindResult_eq (.block lines expr) rename retCType expr buffers rfl rfl]
    exact ⟨copies, [], hl, .inl rfl, by simp [Shape.isGuarded], by simp [CallCode.after], rfl⟩
  | unclassified lines => cases h

/-! ### The buffers -/

/-- The buffer that is allocated for an argument, if one is. -/
def argBuffer? (types : TypeTable) (d : Declaration) (renames : Renaming) (slot : ArgSlot) :
    Option Text :=
  match d.params[slot.index]? with
  | some p =>
      if slot.kind = "DATUM".toList then none
      else
        match types.argForm p.type with
        | .bytes | .interval => some (renames.text slot.var)
        | .text => if slot.kind = "TEXT_P".toList then some (renames.text slot.var) else none
        | .timestamp | .scalar => none
  | none => none

/-- An argument comes from a parameter or from a default. -/
theorem argCode_eq_ok {types : TypeTable} {d : Declaration} {typeParams : List Text}
    {function symbol : Text} {renames : Renaming} {slot : ArgSlot} {a : ArgCode}
    (h : argCode types d typeParams function symbol renames slot = .ok a) :
    (∃ p, d.params[slot.index]? = some p ∧
      a = paramCode types typeParams function (renames.text slot.var) p.type slot) ∨
    d.params[slot.index]? = none ∧ ∃ value, d.defaults[slot.index - d.params.length]? = some value ∧
      a = ⟨[Fragment.bind ((slotType? slot).getD "auto") (renames.text slot.var) value], none⟩ := by
  unfold argCode at h
  cases hp : d.params[slot.index]? with
  | some p =>
    rw [hp] at h
    cases h
    exact .inl ⟨p, rfl, rfl⟩
  | none =>
    rw [hp] at h
    cases hd : d.defaults[slot.index - d.params.length]? with
    | some value =>
      rw [hd] at h
      cases h
      exact .inr ⟨rfl, value, rfl, rfl⟩
    | none =>
      rw [hd] at h
      cases h

/-- The buffer of an argument is known without its lines. -/
theorem buffer?_argCode {types : TypeTable} {d : Declaration} {typeParams : List Text}
    {function symbol : Text} {renames : Renaming} {slot : ArgSlot} {a : ArgCode}
    (h : argCode types d typeParams function symbol renames slot = .ok a) :
    a.buffer? = argBuffer? types d renames slot := by
  rw [argBuffer?]
  rcases argCode_eq_ok h with ⟨p, hp, rfl⟩ | ⟨hp, _, -, rfl⟩
  · rw [hp, paramCode]
    by_cases hk : slot.kind = "DATUM".toList
    · simp only [if_pos hk]
    · simp only [if_neg hk]
      cases types.argForm p.type with
      | text => simp only [beq_iff_eq]
      | _ => rfl
  · rw [hp]

/-- The buffers of a closure. -/
def buffers (types : TypeTable) (d : Declaration) (n : Implementation) : List Text :=
  n.slots.filterMap (argBuffer? types d (outputRenaming n))

/-- The lines of a closure after the empty one. -/
def outputSection (types : TypeTable) (d : Declaration) (n : Implementation) (retType : Text) :
    List Text :=
  outputLines types d retType (kept n.shape (outputRenaming n).text (buffers types d n))

/-! ### The closure -/

/-- A body without a call is not classified. -/
theorem isClassified_of_callCode {shape : Shape} {rename : Text → Text} {retCType retType : Text}
    {buffers : List Text} (h : callCode shape rename retCType retType buffers = .ok none) :
    shape.isClassified = false := by
  cases shape with
  | unclassified => rfl
  | call | assigned => cases h
  | filled | guarded | block =>
    obtain ⟨_, -, h⟩ := bind_eq_ok.mp h
    cases h

/-- The lines of a closure behind its arguments: those of the call and of what it gives back, or
those that stand in for them. -/
def lastLines (types : TypeTable) (d : Declaration) (n : Implementation) (retType : Text) :
    Option CallCode → List Text
  | some call => call.lines ++ [] :: outputLines types d retType call.buffers
  | none => [] :: placeholderLines retType (buffers types d n)

/-- What a closure is made of. -/
structure Made (types : TypeTable) (d : Declaration) (n : Implementation) (function : Text)
    (c : Closure) (args : List ArgCode) (call? : Option CallCode) : Prop where
  typeParams_eq : d.types.mapM (elementType types d) = .ok c.typeParams
  args_eq : n.slots.mapM (argCode types d c.typeParams function n.symbol (outputRenaming n)) =
    .ok args
  buffers_eq : args.filterMap (·.buffer?) = buffers types d n
  call_eq : callCode n.shape (outputRenaming n).text (returnType types d n) c.retType
    (buffers types d n) = .ok call?
  withNulls_eq : c.withNulls = n.nullable
  placeholder_eq : c.placeholder = call?.isNone
  body_eq : c.body = args.flatMap (·.lines) ++ tagLines d c.typeParams n ++
    lastLines types d n c.retType call?

/-- A closure that is made is made of these parts. -/
theorem made_of_make {types : TypeTable} {policy : PlaceholderPolicy} {d : Declaration}
    {n : Implementation} {function : Text} {kind : WrapperKind} {c : Closure}
    (h : make types policy d n function kind = .ok c) :
    ∃ args call?, Made types d n function c args call? := by
  obtain ⟨executor, -, h⟩ := bind_eq_ok.mp h
  obtain ⟨typeParams, ht, h⟩ := bind_eq_ok.mp h
  obtain ⟨retType, -, h⟩ := bind_eq_ok.mp h
  obtain ⟨args, ha, h⟩ := bind_eq_ok.mp h
  obtain ⟨call?, hc, h⟩ := bind_eq_ok.mp h
  rw [orRefuse, mapError_eq_ok] at ht ha
  rw [orFault, mapError_eq_ok] at hc
  have hb : args.filterMap (·.buffer?) = buffers types d n := by
    rw [buffers, List.filterMap_eq_flatMap_toList, List.filterMap_eq_flatMap_toList]
    exact flatMap_of_mapM (fun _ _ _ h => by rw [buffer?_argCode h]) ha
  rw [hb] at hc
  refine ⟨args, call?, ?_⟩
  cases call? with
  | some call =>
    cases h
    exact ⟨ht, ha, hb, hc, rfl, rfl, rfl⟩
  | none =>
    cases policy with
    | warn =>
      cases h
      exact ⟨ht, ha, hb, hc, rfl, rfl, by rw [lastLines, ← hb]⟩
    | deny => cases h

/-- The parts of a closure that makes a call. -/
structure Parts (types : TypeTable) (d : Declaration) (n : Implementation) (function : Text)
    (c : Closure) (args : List ArgCode) (lines guard : List Text) : Prop where
  args_eq : n.slots.mapM (argCode types d c.typeParams function n.symbol (outputRenaming n)) =
    .ok args
  copied_eq : copied n.shape (outputRenaming n).text = .ok lines
  guard_eq : IsGuard c.retType guard
  guarded_iff : n.shape.isGuarded = true ↔ guard ≠ []
  withNulls_eq : c.withNulls = n.nullable
  body_eq : c.body = args.flatMap (·.lines) ++ tagLines d c.typeParams n ++
    (lines ++ guard ++ boundLines n.shape (outputRenaming n).text (returnType types d n)) ++
    [] :: outputSection types d n c.retType

/-- One that is no placeholder has a call. -/
theorem parts_of_make {types : TypeTable} {policy : PlaceholderPolicy} {d : Declaration}
    {n : Implementation} {function : Text} {kind : WrapperKind} {c : Closure}
    (h : make types policy d n function kind = .ok c) (hp : c.placeholder = false) :
    ∃ args lines guard, Parts types d n function c args lines guard := by
  obtain ⟨args, call?, made⟩ := made_of_make h
  cases call? with
  | none => cases hp.symm.trans made.placeholder_eq
  | some call =>
    obtain ⟨lines, guard, hl, hg, hguarded, hlines, hbuffers⟩ := callCode_parts made.call_eq
    refine ⟨args, lines, guard, made.args_eq, hl, hg, hguarded, made.withNulls_eq, ?_⟩
    simp only [made.body_eq, lastLines, hlines, hbuffers, outputSection, List.append_assoc]

end Closure

namespace Emitter

/-- What is emitted is the wrapper. -/
theorem wrapper_of_emit {e : Emitter} {d : Declaration} {n : Implementation} {key : Text}
    {w : Wrapper} (h : e.emit d n key = .ok (some w)) : e.wrapper d n key = .ok w := by
  rw [emit] at h
  split at h
  · cases h
  · cases hw : e.wrapper d n key with
    | error x =>
      rw [hw] at h
      cases h
    | ok w' =>
      rw [hw] at h
      cases h
      rfl

/-- A wrapper that is not a placeholder is written around a closure that makes a call. -/
theorem closure_of_emit {e : Emitter} {d : Declaration} {n : Implementation} {key : Text}
    {w : Wrapper} (h : e.emit d n key = .ok (some w)) : ∃ c,
      Closure.make e.types e.policy d n (Key.member key) (kindOf key) = .ok c ∧
      w.source = source e.structName (Key.member key) (kindOf key) d.params.length c ∧
      w.placeholder = c.placeholder := by
  obtain ⟨c, hc, hw⟩ := bind_eq_ok.mp (wrapper_of_emit h)
  cases hw
  exact ⟨c, hc, rfl, rfl⟩

end Emitter

/-! ### Fixed declarations -/

/-- The declaration of a function `f` of one parameter. -/
def Declaration.unary (type returnType : Text) : Declaration :=
  { name := "f", returnType, params := [⟨type, "a"⟩], defaults := [], symbol := "f"
    definition := [], category := Category.unknown, isOperator := false, isAggregate := false
    isCast := false, operator? := none, line := 1, span := ⟨none, 0, 0⟩ }

/-- The emitter without additions to the table of types. -/
def Emitter.base : Emitter :=
  ⟨TypeTable.base, "S", .warn⟩

/-- A result that has a property which can be computed. -/
def satisfies {ε α : Type} (x : Except ε α) (p : α → Bool) : Bool :=
  match x with
  | .ok a => p a
  | .error _ => false

/-- What is seen to hold of a result holds of one. -/
theorem exists_of_satisfies {ε α : Type} {x : Except ε α} {p : α → Bool}
    (h : satisfies x p = true) : ∃ a, x = .ok a ∧ p a = true := by
  cases x with
  | error e => cases h
  | ok a => exact ⟨a, rfl, h⟩

/-- A wrapper that is not a placeholder is emitted for the key `f`. -/
def Emitter.emits (d : Declaration) (n : Implementation) : Bool :=
  satisfies (Emitter.base.emit d n "f") fun w => w.any (!·.placeholder)

theorem Emitter.exists_of_emits {d : Declaration} {n : Implementation} (h : emits d n = true) :
    ∃ w, Emitter.base.emit d n "f" = .ok (some w) ∧ w.placeholder = false := by
  obtain ⟨o, ho, hp⟩ := exists_of_satisfies h
  cases o with
  | none => cases hp
  | some w => exact ⟨w, ho, by simpa using hp⟩

end VectorWrap
