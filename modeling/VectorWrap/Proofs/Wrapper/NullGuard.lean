import VectorWrap.Proofs.Wrapper.Anatomy
import VectorWrap.Proofs.Wrapper.Declared

/-!
# Null guards and the validity mask

A closure marks its row as having no value by the line `invalidLine` of a null guard, and for that
it needs the validity mask.  Whether it gets the mask is decided by the scan of the body
(`maskParams_subset_iff`); whether it has a guard is decided by the shape (`guardsNull_iff`), for
none of the other lines of a closure is `invalidLine`: what a wrapper writes itself has an equals
sign or begins otherwise, and the lines copied from the body begin without a blank, also when they
have been renamed.

The line `invalidLine` is indented, which is the only thing that tells it from a line of a body that
has the same text; that copied lines are flush is therefore carried through the reading, the
renaming and the cast.
-/

namespace VectorWrap

/-! ### Lines that begin without a blank -/

namespace Text

/-- Does not begin with a blank. -/
def Flush (s : Text) : Prop :=
  ∀ c, s.head? = some c → isBlank c = false

/-- A trimmed text begins without a blank. -/
theorem flush_trim (s : Text) : Flush (trim s) := by
  intro c hc
  have outer : trim s <+: s.dropWhile isBlank := by
    rw [trim, trimBy, ← List.reverse_suffix, List.reverse_reverse]
    exact List.dropWhile_suffix isBlank
  obtain ⟨r, hr⟩ := outer
  have hd : (s.dropWhile isBlank).head? = some c := by
    rw [← hr, List.head?_append, hc]
    rfl
  have := List.head?_dropWhile_not isBlank s
  rw [hd] at this
  simpa using this

/-- With more text behind it a text begins as before. -/
theorem Flush.append {s : Text} (h : Flush s) (hs : s ≠ []) (t : Text) : Flush (s ++ t) := by
  intro c hc
  cases s with
  | nil => exact absurd rfl hs
  | cons d s => exact h c hc

end Text

/-- No processing line begins with a blank. -/
theorem Line.flush_of_mem {body l : Text} (h : l ∈ Line.ofBody body) : Text.Flush l := by
  obtain ⟨line, -, hl⟩ := List.mem_flatMap.mp h
  unfold Line.working at hl
  dsimp only at hl
  split at hl
  · cases hl
  · split at hl
    · next head statement hs =>
      obtain ⟨rest, -, hs⟩ := Option.bind_eq_some_iff.mp hs
      obtain ⟨-, -, hs⟩ := Option.bind_eq_some_iff.mp hs
      obtain ⟨⟨group, tail⟩, -, hs⟩ := Option.bind_eq_some_iff.mp hs
      obtain ⟨-, -, hs⟩ := Option.bind_eq_some_iff.mp hs
      cases hs
      rcases List.mem_pair.mp hl with rfl | rfl
      · intro c hc
        cases hc
        decide
      · exact Text.flush_trim _
    · rw [List.mem_singleton] at hl
      rw [hl]
      exact Text.flush_trim _

namespace Renaming

/-- A renamed line begins without a blank if the line does and the new names are names. -/
theorem flush_text {m : Renaming} (hm : ∀ p ∈ m, Text.isName p.2 = true) {s : Text}
    (h : Text.Flush s) : Text.Flush (m.text s) := by
  cases s with
  | nil => simpa [text, Text.tokens, Token.concat] using h
  | cons c r =>
    have hc := h c rfl
    rw [text, Text.tokens, List.map_cons, Token.concat, List.flatMap_cons]
    have flush_cons : ∀ t u : Text, Text.Flush (c :: t ++ u) := fun t u d hd => by
      cases hd
      exact hc
    unfold Token.first
    split
    · next hn =>
      have name : Text.isName (c :: r.takeWhile Text.inName) = true := by
        simp only [Text.isName, hn, Bool.true_and, List.all_eq_true]
        exact fun d hd => List.mem_takeWhile_imp hd
      have renamed := isName_apply hm name
      refine Text.Flush.append (fun d hd => ?_) (Text.ne_nil_of_isName renamed) _
      exact Text.isBlank_of_inName
        (Text.all_inName_of_isName renamed d (List.mem_of_head? hd))
    · split
      · exact flush_cons _ _
      · split
        · exact flush_cons _ _
        · exact flush_cons [] _

end Renaming

namespace Closure

/-! ### The line that marks the row -/

/-- The line of a null guard that marks the row as having no value. -/
def invalidLine : Text :=
  Layout.step ++ "mask.SetInvalid(idx);"

/-- A null guard stands in the body of the closure. -/
def GuardsNull (c : Closure) : Prop :=
  ∃ condition frees, Fragment.nullGuard condition frees c.retType <:+: c.body

theorem invalidLine_mem_nullGuard (condition : Text) (frees : List Text) (retType : Text) :
    invalidLine ∈ Fragment.nullGuard condition frees retType := by
  simp [Fragment.nullGuard, invalidLine]

theorem ne_invalidLine_of_equals {line : Text} (h : '=' ∈ line) : line ≠ invalidLine := by
  rintro rfl
  revert h
  decide

theorem ne_invalidLine_of_flush {line : Text} (h : Text.Flush line) : line ≠ invalidLine := by
  rintro rfl
  exact absurd (h ' ' rfl) (by decide)

theorem not_mem_of_equals {line : Text} (h : '=' ∈ line) : invalidLine ∉ [line] := by
  rw [List.mem_singleton]
  exact (ne_invalidLine_of_equals h).symm

theorem equals_mem_bind (type var value : Text) : '=' ∈ Fragment.bind type var value := by
  simp [Fragment.bind]

theorem ne_invalidLine_bind (type var value : Text) :
    invalidLine ≠ Fragment.bind type var value :=
  (ne_invalidLine_of_equals (equals_mem_bind type var value)).symm

theorem not_mem_bytesArg (type var src function : Text) :
    invalidLine ∉ Fragment.bytesArg type var src function := by
  have assigned : ∀ value : Text, invalidLine ≠ Layout.step ++ var ++ " = (" ++ value :=
    fun value => (ne_invalidLine_of_equals (by simp)).symm
  have h := assigned (type ++ ")malloc(" ++ src ++ ".GetSize());")
  simp only [List.append_assoc] at h
  simp only [Fragment.bytesArg, List.mem_cons, ne_invalidLine_bind, List.append_assoc, h,
    List.not_mem_nil, or_false, false_or, not_or]
  simp [invalidLine, Layout.step]

/-- The lines of a parameter do not mark the row. -/
theorem not_mem_paramCode (types : TypeTable) (typeParams : List Text)
    (function var paramType : Text) (slot : ArgSlot) :
    invalidLine ∉ (paramCode types typeParams function var paramType slot).lines := by
  unfold paramCode
  dsimp only
  split
  · exact not_mem_of_equals (by simp)
  · split
    · exact not_mem_bytesArg _ _ _ _
    · exact not_mem_of_equals (by simp)
    · exact not_mem_of_equals (by simp)
    · rw [Fragment.textArg, List.mem_pair, not_or]
      refine ⟨(ne_invalidLine_of_flush fun c hc => ?_).symm, (ne_invalidLine_of_equals ?_).symm⟩
      · cases hc
        decide
      · split <;> simp
    · exact not_mem_of_equals (equals_mem_bind _ _ _)

/-- The lines of an argument do not mark the row. -/
theorem not_mem_argCode {types : TypeTable} {d : Declaration} {typeParams : List Text}
    {function symbol : Text} {renames : Renaming} {slot : ArgSlot} {a : ArgCode}
    (h : argCode types d typeParams function symbol renames slot = .ok a) :
    invalidLine ∉ a.lines := by
  rcases argCode_eq_ok h with ⟨p, -, rfl⟩ | ⟨-, value, -, rfl⟩
  · exact not_mem_paramCode _ _ _ _ _ _
  · exact not_mem_of_equals (equals_mem_bind _ _ _)

/-- The lines of a type tag do not mark the row. -/
theorem not_mem_tagLines (d : Declaration) (typeParams : List Text) (n : Implementation) :
    invalidLine ∉ tagLines d typeParams n := by
  unfold tagLines
  split
  · exact List.not_mem_nil
  · exact not_mem_of_equals (by simp)

/-- The line that binds the result does not mark the row. -/
theorem not_mem_boundLines (shape : Shape) (rename : Text → Text) (retCType : Text) :
    invalidLine ∉ boundLines shape rename retCType := by
  intro h
  obtain ⟨⟨type, value⟩, -, h⟩ := List.mem_map.mp h
  exact ne_invalidLine_bind _ _ _ h.symm

theorem flush_free (v : Text) : Text.Flush (Fragment.free v) := by
  intro c hc
  cases hc
  decide

/-- The lines that give the result back do not mark the row. -/
theorem not_mem_outputLines (types : TypeTable) (d : Declaration) (retType : Text)
    (buffers : List Text) : invalidLine ∉ outputLines types d retType buffers := by
  have parts : ∀ convert release : List Text, (∀ line ∈ convert, '=' ∈ line) →
      (∀ line ∈ release, Text.Flush line) →
      invalidLine ∉ convert ++ buffers.map Fragment.free ++ release ++ ["return out;".toList] := by
    intro convert release hc hr h
    simp only [List.mem_append, List.mem_map, List.mem_singleton] at h
    rcases h with ((h | ⟨v, -, h⟩) | h) | h
    · exact ne_invalidLine_of_equals (hc _ h) rfl
    · exact ne_invalidLine_of_flush (flush_free v) h
    · exact ne_invalidLine_of_flush (hr _ h) rfl
    · revert h
      decide
  have released : ∀ line ∈ [Fragment.free result], Text.Flush line := by
    intro line hl
    rw [List.mem_singleton.mp hl]
    exact flush_free _
  unfold outputLines
  cases types.resultForm d.returnType with
  | blob => exact parts _ _ (by simp) released
  | timestamp => exact parts _ _ (by decide) (by simp)
  | cstring => exact parts _ _ (by decide) released
  | text =>
    refine parts _ _ (by decide) fun line hl => ?_
    rcases List.mem_pair.mp hl with rfl | rfl <;> exact flush_free _
  | scalar => exact parts _ _ (by simp) (by simp)

/-! ### Copied lines -/

/-- What the cast is put into, and what the line is then. -/
theorem castAlloc_cases {line : Text} {a? : Option Assignment}
    (h : Assignment.ofLine line = .ok a?) : castAlloc line = .ok line ∨
      ∃ type var value, a? = some ⟨some type, var, value⟩ ∧ type.getLast? = some '*' ∧
        "malloc(".toList <+: value ∧
        castAlloc line = .ok (Fragment.bind type var ("(" ++ type ++ ")" ++ value)) := by
  rcases a? with _ | ⟨_ | type, var, value⟩
  · exact .inl (by rw [castAlloc, h]; rfl)
  · exact .inl (by rw [castAlloc, h]; rfl)
  · have whole : castAlloc line =
        if type.getLast? = some '*' ∧ "malloc(".toList.isPrefixOf value then
          .ok (Fragment.bind type var ("(" ++ type ++ ")" ++ value))
        else .ok line := by
      rw [castAlloc, h]
      rfl
    rw [whole]
    split_ifs with hc
    · exact .inr ⟨type, var, value, rfl, hc.1, List.isPrefixOf_iff_prefix.mp hc.2, rfl⟩
    · exact .inl rfl

/-- A copied line is the line itself or a binding. -/
theorem castAlloc_eq_ok {line copy : Text} (h : castAlloc line = .ok copy) :
    copy = line ∨ ∃ type var value, copy = Fragment.bind type var value := by
  obtain ⟨a?, ha, -⟩ := bind_eq_ok.mp h
  rcases castAlloc_cases ha with same | ⟨_, _, _, -, -, -, put⟩
  · exact .inl (Except.ok.inj (h.symm.trans same))
  · exact .inr ⟨_, _, _, Except.ok.inj (h.symm.trans put)⟩

/-- The lines of a body that a shape copies. -/
def source : Shape → List Text
  | .filled setup call _ => [setup, call]
  | .guarded (some setup) .. => [setup]
  | .block lines _ => lines
  | _ => []

/-- Each copied line comes from a line of the shape. -/
theorem exists_of_mem_copied {shape : Shape} {rename : Text → Text} {lines : List Text}
    (h : copied shape rename = .ok lines) {line : Text} (hl : line ∈ lines) :
    ∃ l ∈ source shape, line = rename l ∨ castAlloc (rename l) = .ok line := by
  cases shape with
  | filled setup call expr =>
    obtain ⟨copy, hc, h⟩ := bind_eq_ok.mp h
    cases h
    rcases List.mem_pair.mp hl with rfl | rfl
    · exact ⟨setup, by simp [source], .inr hc⟩
    · exact ⟨call, by simp [source], .inl rfl⟩
  | guarded setup? guard expr =>
    cases setup? with
    | none =>
      cases h
      cases hl
    | some setup =>
      obtain ⟨copy, hc, h⟩ := bind_eq_ok.mp h
      cases h
      rw [List.mem_singleton] at hl
      exact ⟨setup, by simp [source], .inr (hl ▸ hc)⟩
  | block sources expr =>
    obtain ⟨l, hm, hc⟩ := exists_of_mem_mapM h hl
    exact ⟨l, hm, .inr hc⟩
  | _ =>
    cases h
    cases hl

/-- What a shape copies are lines of the body before the last. -/
theorem source_subset {result : Text} {before : List Text} {nullable : Bool} {shape : Shape}
    (h : Shape.Built result before nullable shape) : source shape ⊆ before := by
  cases h <;> simp [source]

/-- No line that is copied from a body marks the row, for in the body it begins without a blank. -/
theorem not_mem_copied {symbol body : Text} {span : Span} {n : Implementation}
    (hn : Implementation.ofBody symbol body span = .ok n) {lines : List Text}
    (h : copied n.shape (outputRenaming n).text = .ok lines) : invalidLine ∉ lines := by
  intro hm
  obtain ⟨l, hl, hcopy⟩ := exists_of_mem_copied h hm
  have hs : n.shape.isClassified = true := by
    cases he : n.shape with
    | unclassified => rw [he] at hl; cases hl
    | _ => rfl
  obtain ⟨before, last, _, _, hlines, -, -, -, built⟩ :=
    Shape.exists_of_classify (Implementation.parts_ofBody hn).2.2 hs
  have line : l ∈ Line.ofBody body := by
    rw [hlines]
    exact List.mem_append_left _ (source_subset built hl)
  have flush : Text.Flush ((outputRenaming n).text l) :=
    Renaming.flush_text (isName_outputRenaming n) (Line.flush_of_mem line)
  rcases hcopy with hcopy | hcopy
  · exact ne_invalidLine_of_flush flush hcopy.symm
  · rcases castAlloc_eq_ok hcopy with hcopy | ⟨_, _, _, hcopy⟩
    · exact ne_invalidLine_of_flush flush hcopy.symm
    · exact ne_invalidLine_bind _ _ _ hcopy

/-! ### The guard and the mask -/

/-- A closure has a null guard exactly if the shape of the body has one. -/
theorem guardsNull_iff {types : TypeTable} {d : Declaration} {n : Implementation}
    {function symbol body : Text} {span : Span} {c : Closure} {args : List ArgCode}
    {lines guard : List Text} (hn : Implementation.ofBody symbol body span = .ok n)
    (h : Parts types d n function c args lines guard) :
    GuardsNull c ↔ n.shape.isGuarded = true := by
  rw [h.guarded_iff]
  constructor
  · rintro ⟨condition, frees, hinfix⟩ rfl
    have hm := hinfix.subset (invalidLine_mem_nullGuard condition frees c.retType)
    have hargs : invalidLine ∉ args.flatMap (·.lines) := fun ha => by
      obtain ⟨a, ha, hl⟩ := List.mem_flatMap.mp ha
      obtain ⟨slot, -, hslot⟩ := exists_of_mem_mapM h.args_eq ha
      exact not_mem_argCode hslot hl
    rw [h.body_eq] at hm
    simp only [List.mem_append, List.mem_cons, hargs, not_mem_tagLines,
      not_mem_copied hn h.copied_eq,
      not_mem_boundLines, outputSection, not_mem_outputLines, List.not_mem_nil, or_false,
      false_or] at hm
    cases hm
  · intro hg
    obtain ⟨condition, frees, hg⟩ := h.guard_eq.resolve_left hg
    refine ⟨condition, frees, args.flatMap (·.lines) ++ tagLines d c.typeParams n ++ lines,
      boundLines n.shape (outputRenaming n).text (returnType types d n) ++
        [] :: outputSection types d n c.retType, ?_⟩
    rw [h.body_eq, hg]
    simp

/-- A closure that makes a call is no placeholder. -/
theorem placeholder_of_make {types : TypeTable} {policy : PlaceholderPolicy} {d : Declaration}
    {n : Implementation} {function : Text} {kind : WrapperKind} {c : Closure}
    (h : make types policy d n function kind = .ok c) (hs : n.shape.isClassified = true) :
    c.placeholder = false := by
  obtain ⟨args, call?, made⟩ := made_of_make h
  cases call? with
  | some call => exact made.placeholder_eq
  | none => cases hs.symm.trans (isClassified_of_callCode made.call_eq)

end Closure

namespace Layout

/-- The closure takes the validity mask and the number of the row exactly if it may mark its row. -/
theorem maskParams_subset_iff (c : ExecutorCall) :
    maskParams ⊆ lambdaParams c ↔ c.withNulls = true := by
  unfold lambdaParams
  constructor
  · intro h
    by_contra hc
    rw [Bool.not_eq_true] at hc
    have hm := h (a := "idx_t idx") (by decide)
    rw [hc, if_neg Bool.false_ne_true, List.append_nil] at hm
    obtain ⟨⟨t, i⟩, -, hp⟩ := List.mem_map.mp hm
    -- the name of a vector's parameter has a letter that the others have not
    have : 'r' ∈ "idx_t idx".toList := by
      rw [← hp]
      simp [argName]
    revert this
    decide
  · intro hc
    rw [hc]
    exact List.subset_append_right _ _

/-- It is run with nulls exactly if it may. -/
theorem executeName_iff (c : ExecutorCall) :
    executeName c = c.executor ++ "::ExecuteWithNulls" ↔ c.withNulls = true := by
  rw [executeName, List.append_cancel_left_eq]
  cases c.withNulls <;> decide

end Layout

namespace Implementation

/-- **When a null return gets its mask.**  The last line of a body with a shape returns a value.
Its kind is the wrapper's exactly if the scan finds the same value first (`SameValue`).  The closure
has a null guard if the shape has one; it takes the mask, and is run with nulls, exactly when the
guard is there if the scan finds the null returns that the lines are (`SameNull`), and only then. -/
theorem returns_agree_iff {symbol body : Text} {span : Span} {n : Implementation}
    (hn : ofBody symbol body span = .ok n) (hs : n.shape.isClassified = true) :
    ∃ before last kind result, Line.ofBody body = before ++ [last]
      ∧ Return.ofLine? last = some (kind, result)
      ∧ (n.returnKind? = some kind ↔ SameValue body)
      ∧ ((n.nullable = true ↔ n.shape.isGuarded = true) ↔ SameNull body)
      ∧ ∀ (e : Emitter) (d : Declaration) (key : Text) (w : Wrapper),
        e.emit d n key = .ok (some w) → ∃ c,
          Closure.make e.types e.policy d n (Key.member key) (Emitter.kindOf key) = .ok c
          ∧ w.source = Emitter.source e.structName (Key.member key) (Emitter.kindOf key)
            d.params.length c
          ∧ ∀ inputs count,
            (Layout.executeName (Emitter.call c inputs count) = c.executor ++ "::ExecuteWithNulls"
              ↔ Layout.maskParams ⊆ Layout.lambdaParams (Emitter.call c inputs count))
            ∧ ((Layout.maskParams ⊆ Layout.lambdaParams (Emitter.call c inputs count)
              ↔ Closure.GuardsNull c) ↔ SameNull body) := by
  obtain ⟨before, last, kind, result, hl, hr, hvalue, hnull⟩ := agrees_iff hn hs
  refine ⟨before, last, kind, result, hl, hr, hvalue, hnull, fun e d key w hw => ?_⟩
  obtain ⟨c, hc, hsource, -⟩ := Emitter.closure_of_emit hw
  obtain ⟨args, lines, guard, h⟩ := Closure.parts_of_make hc (Closure.placeholder_of_make hc hs)
  refine ⟨c, hc, hsource, fun inputs count => ?_⟩
  have mask : (Emitter.call c inputs count).withNulls = n.nullable := h.withNulls_eq
  rw [Layout.maskParams_subset_iff, mask, Closure.guardsNull_iff hn h]
  refine ⟨?_, hnull⟩
  rw [← mask, ← Layout.executeName_iff]
  rfl

/-- A body that fetches a box, with a note behind that line, and returns a bound of it unless the
box is bad. -/
def boxBody (note : Text) : Text :=
  "TBox *box = PG_GETARG_TBOX_P(0);" ++ note ++
    "\nif (! tbox_ok(box))\n  PG_RETURN_NULL();\nPG_RETURN_FLOAT8(tbox_xmin(box));"

/-- The theorem for that body without a note: its wrapper takes the mask and has the guard. -/
theorem returns_agree_iff_of_guarded :
    ∃ n w c, ofBody "f" (boxBody []) ⟨none, 0, 0⟩ = .ok n
      ∧ n.shape.isClassified = true
      ∧ Emitter.base.emit (.unary "tbox" "float") n "f" = .ok (some w)
      ∧ Closure.make Emitter.base.types Emitter.base.policy (.unary "tbox" "float") n
        (Key.member "f") (Emitter.kindOf "f") = .ok c
      ∧ ∀ inputs count, Layout.maskParams ⊆ Layout.lambdaParams (Emitter.call c inputs count)
        ↔ Closure.GuardsNull c := by
  obtain ⟨n, hn, h⟩ := exists_of_satisfies (x := ofBody "f" (boxBody []) ⟨none, 0, 0⟩)
    (p := fun n => Emitter.emits (.unary "tbox" "float") n && n.shape.isClassified
      && n.shape.isGuarded && n.nullable) (by decide +kernel)
  simp only [Bool.and_eq_true] at h
  obtain ⟨⟨⟨he, hs⟩, hguarded⟩, hnull⟩ := h
  obtain ⟨w, hw, -⟩ := Emitter.exists_of_emits he
  obtain ⟨_, _, _, _, -, -, -, same, emitted⟩ := returns_agree_iff hn hs
  obtain ⟨c, hc, -, mask⟩ := emitted _ _ _ _ hw
  have agree : SameNull (boxBody []) := same.mp (iff_of_true hnull hguarded)
  exact ⟨n, w, c, hn, hs, hw, hc, fun inputs count => (mask inputs count).2.mpr agree⟩

/-- A line comment as the note hides both returns from the scan: the guarded body counts as one that
always returns a value, and of no kind. -/
theorem comment_hides_returns :
    ∃ n last result, ofBody "f" (boxBody " // the box") ⟨none, 0, 0⟩ = .ok n
      ∧ n.shape.isClassified = true
      ∧ (Line.ofBody (boxBody " // the box")).getLast? = some last
      ∧ Return.ofLine? last = some ("FLOAT8".toList, result)
      ∧ n.returnKind? ≠ some "FLOAT8".toList
      ∧ ¬ (n.nullable = true ↔ n.shape.isGuarded = true) := by
  obtain ⟨n, hn, h⟩ := exists_of_satisfies (x := ofBody "f" (boxBody " // the box") ⟨none, 0, 0⟩)
    (p := fun n => n.shape.isClassified && n.shape.isGuarded && !n.nullable
      && n.returnKind?.isNone) (by decide +kernel)
  simp only [Bool.and_eq_true, Bool.not_eq_true', Option.isNone_iff_eq_none] at h
  obtain ⟨⟨⟨hs, hguarded⟩, hnull⟩, hkind⟩ := h
  refine ⟨n, "PG_RETURN_FLOAT8(tbox_xmin(box));", "tbox_xmin(box)", hn, hs, by decide +kernel,
    by decide +kernel, by simp [hkind], by simp [hguarded, hnull]⟩

end Implementation

end VectorWrap
