import VectorWrap.Proofs.Wrapper.Anatomy
import VectorWrap.Proofs.Wrapper.Declared

/-!
# What a closure declares

The variables that a closure declares come from five places: the arguments, the type tag, the copied
lines of the body, the line that binds the result, and the lines that give the result back.
`filterMap_front` and `filterMap_outputLines` collect them, and `declares_properly_iff` says when
`ret` is among them once and no other variable twice.

Each fragment that declares is collected by itself, in the order in which the closure has them.  The
names are known before anything is made: those of the slots as they are renamed, `ret`, and those of
the lines behind the empty one.
-/

namespace VectorWrap.Closure

/-! ### Fragments -/

/-- An argument that is copied out of a blob declares one variable. -/
theorem filterMap_bytesArg {v : Text} (hv : Text.isName v = true) (cType src function : Text) :
    (Fragment.bytesArg cType v src function).filterMap declared? =
      (declared? (Fragment.bind cType v "nullptr")).toList := by
  have h₁ : declared? ("if (" ++ src ++ ".GetSize() > 0) \x7b" : Text) = none :=
    declared?_of_suffix (q := ".GetSize() > 0) \x7b".toList) ⟨_, rfl⟩ (by decide) (by decide)
  have h₂ : declared? (Layout.step ++ v ++ " = (" ++ cType ++ ")malloc(" ++ src ++ ".GetSize());") =
      none := by
    have := declared?_of_left (l := Layout.step ++ v ++ [' ']) (c := '=')
      (r := " (" ++ cType ++ ")malloc(" ++ src ++ ".GetSize());") ?_ (by decide)
      (declarator?_of_isName (List.all_eq_true.mp (by decide)) hv (List.all_eq_true.mp (by decide)))
    · simpa using this
    · intro c hc
      simp only [List.mem_append] at hc
      rcases hc with (hc | hc) | hc
      · exact startsInit_of_all (by decide) hc
      · exact startsInit_of_inName (Text.all_inName_of_isName hv c hc)
      · exact startsInit_of_all (by decide) hc
  have h₃ : declared? (Layout.step ++ "memcpy(" ++ v ++ ", " ++ src ++ ".GetDataUnsafe(), " ++
      src ++ ".GetSize());") = none :=
    declared?_of_prefix (p := "    memcpy(") ⟨_, rfl⟩ (by decide)
  have h₄ : declared? ("if (!" ++ v ++ ") \x7b" : Text) = none :=
    declared?_of_suffix (q := ") \x7b".toList) ⟨_, rfl⟩ (by decide) (by decide)
  have h₅ : declared? (Layout.step ++ "throw InternalException(\"Failure in " ++ function ++
      ": unable to cast binary to " ++ cType ++ "\");") = none :=
    declared?_of_prefix (p := "    throw InternalException(") ⟨_, rfl⟩ (by decide)
  have h₆ : declared? "\x7d" = none :=
    declared?_of_suffix List.suffix_rfl (by decide) (by decide)
  simp only [Fragment.bytesArg, List.filterMap_cons, h₁, h₂, h₃, h₄, h₅, h₆, List.filterMap_nil]
  cases declared? (Fragment.bind cType v "nullptr") <;> rfl

/-- A line that is a binding declares its variable. -/
theorem declared?_of_bind {line t v e : Text} (h : line = Fragment.bind t v e)
    (ht : isType t = true) (hw : ¬ t.takeWhile Text.inName ∈ statementWords)
    (hv : Text.isName v = true) (he : e.any (!Text.isBlank ·) = true) :
    declared? line = some v :=
  h ▸ declared?_bind ht hw hv he

/-- A fragment that is one binding declares its variable. -/
theorem filterMap_of_bind {lines : List Text} {t v e : Text} (h : lines = [Fragment.bind t v e])
    (ht : isType t = true) (hw : ¬ t.takeWhile Text.inName ∈ statementWords)
    (hv : Text.isName v = true) (he : e.any (!Text.isBlank ·) = true) :
    lines.filterMap declared? = [v] := by
  rw [h, List.filterMap_cons, declared?_of_bind rfl ht hw hv he, List.filterMap_nil]

/-- An argument that is a timestamp declares one variable. -/
theorem filterMap_timestampArg {v : Text} (hv : Text.isName v = true) (src : Text) :
    (Fragment.timestampArg v src).filterMap declared? = [v] :=
  filterMap_of_bind (t := "TimestampTz") (e := "(TimestampTz) DuckDBToMeosTimestamp(" ++ src ++ ")")
    (by simp [Fragment.timestampArg, Fragment.bind, Fragment.gap]) (by decide) (by decide) hv
    (by rfl)

/-- An argument that is an interval declares one variable. -/
theorem filterMap_intervalArg {v : Text} (hv : Text.isName v = true) (src : Text) :
    (Fragment.intervalArg v src).filterMap declared? = [v] :=
  filterMap_of_bind (t := "MeosInterval *") (e := "IntervaltToInterval(" ++ src ++ ")")
    (by simp [Fragment.intervalArg, Fragment.bind, Fragment.gap]) (by decide) (by decide) hv
    (by rfl)

/-- An argument of any type declares one variable. -/
theorem filterMap_datumArg {v : Text} (hv : Text.isName v = true) (elementType src : Text) :
    (Fragment.datumArg v elementType src).filterMap declared? = [v] :=
  filterMap_of_bind (t := "Datum")
    (e := "DataHelpers::getDatum<" ++ elementType ++ ">(" ++ src ++ ")")
    (by simp [Fragment.datumArg, Fragment.bind, Fragment.gap]) (by decide) (by decide) hv (by rfl)

/-- The lines of a type tag declare one variable. -/
theorem filterMap_typeTag {v : Text} (hv : Text.isName v = true) (elementType src : Text) :
    (Fragment.typeTag v elementType src).filterMap declared? = [v] :=
  filterMap_of_bind (t := "meosType")
    (e := "DataHelpers::getMeosType<" ++ elementType ++ ">(" ++ src ++ ")")
    (by simp [Fragment.typeTag, Fragment.bind, Fragment.gap]) (by decide) (by decide) hv (by rfl)

/-- The variable that holds the characters of a text argument. -/
def inputName (slot : Nat) : Text :=
  "input_" ++ Text.decimal slot

theorem isName_inputName (slot : Nat) : Text.isName (inputName slot) = true := by
  have hd : ∀ c ∈ Text.decimal slot, Text.inName c = true := fun c hc => by
    have := Nat.isDigit_of_mem_toDigits (by decide) (by decide) hc
    simp [Text.inName, Char.isAlphanum, this]
  have h : inputName slot = 'i' :: ("nput_".toList ++ Text.decimal slot) := rfl
  rw [h, Text.isName, List.all_append, List.all_eq_true.mpr hd]
  decide

/-- The characters of a text argument are a variable of their own. -/
theorem filterMap_textArg {v : Text} (hv : Text.isName v = true) (slot : Nat) (src : Text)
    (asText : Bool) :
    (Fragment.textArg slot v src asText).filterMap declared? = [inputName slot, v] := by
  have h₁ : declared? ("std::string " ++ inputName slot ++ "(" ++ src ++ ".GetDataUnsafe(), " ++
      src ++ ".GetSize());") = some (inputName slot) := by
    have := declared?_of_isType (t := "std::string") (b := []) (c := '(')
      (r := src ++ ".GetDataUnsafe(), " ++ src ++ ".GetSize())") (by decide) (by decide)
      (isName_inputName slot) (by simp) (by decide) (by rfl)
    simpa [Fragment.gap] using this
  have h₂ : [if asText then "text *" ++ v ++ " = cstring2text(" ++ inputName slot ++ ".c_str());"
      else "const char *" ++ v ++ " = " ++ inputName slot ++ ".c_str();"].filterMap declared? =
      [v] := by
    cases asText with
    | true =>
      exact filterMap_of_bind (t := "text *")
        (e := "cstring2text(" ++ inputName slot ++ ".c_str())")
        (by simp [Fragment.bind, Fragment.gap]) (by decide) (by decide) hv (by rfl)
    | false =>
      exact filterMap_of_bind (t := "const char *") (e := inputName slot ++ ".c_str()")
        (by simp [Fragment.bind, Fragment.gap]) (by decide) (by decide) hv (by rfl)
  have e : Fragment.textArg slot v src asText = ("std::string " ++ inputName slot ++ "(" ++ src ++
      ".GetDataUnsafe(), " ++ src ++ ".GetSize());") ::
      [if asText then "text *" ++ v ++ " = cstring2text(" ++ inputName slot ++ ".c_str());"
        else "const char *" ++ v ++ " = " ++ inputName slot ++ ".c_str();"] := rfl
  rw [e, List.filterMap_cons, h₁, h₂]

theorem declared?_free (v : Text) : declared? (Fragment.free v) = none :=
  declared?_of_prefix (p := "free(") ⟨_, rfl⟩ (by decide)

/-- A null guard declares nothing. -/
theorem filterMap_nullGuard (condition : Text) (frees : List Text) (retType : Text) :
    (Fragment.nullGuard condition frees retType).filterMap declared? = [] := by
  have h₁ : declared? ("if (" ++ condition ++ ") \x7b" : Text) = none :=
    declared?_of_suffix (q := ") \x7b".toList) ⟨_, rfl⟩ (by decide) (by decide)
  have h₂ : (frees.map fun v => Layout.step ++ Fragment.free v).filterMap declared? = [] := by
    rw [List.filterMap_map, List.filterMap_eq_nil_iff]
    exact fun v _ => declared?_of_prefix (p := "    free(") ⟨_, rfl⟩ (by decide)
  have h₃ : declared? (Layout.step ++ "mask.SetInvalid(idx);") = none :=
    declared?_of_prefix (p := "    mask.SetInvalid(") ⟨_, rfl⟩ (by decide)
  have h₄ : declared? (Layout.step ++ "return " ++ retType ++ "();") = none := by
    have := declared?_of_word (p := Layout.step) (w := "return") (r := retType ++ "();")
      (List.all_eq_true.mp (by decide)) (by decide)
    simpa using this
  have h₅ : declared? "\x7d" = none :=
    declared?_of_suffix List.suffix_rfl (by decide) (by decide)
  simp only [Fragment.nullGuard, List.filterMap_append, h₂, List.filterMap_cons, h₁, h₃, h₄, h₅,
    List.filterMap_nil, List.append_nil]

/-- A guard declares nothing. -/
theorem filterMap_guard {retType : Text} {guard : List Text} (h : IsGuard retType guard) :
    guard.filterMap declared? = [] := by
  rcases h with rfl | ⟨condition, frees, rfl⟩
  · rfl
  · exact filterMap_nullGuard _ _ _

/-! ### The parts of a closure -/

/-- The variables that the lines of an argument declare. -/
def argDeclared (types : TypeTable) (d : Declaration) (typeParams : List Text) (renames : Renaming)
    (slot : ArgSlot) : List Text :=
  let var := renames.text slot.var
  let bindVars (type value : Text) := (declared? (Fragment.bind type var value)).toList
  match d.params[slot.index]? with
  | some p =>
      if slot.kind = "DATUM".toList then [var]
      else
        match types.argForm p.type with
        | .bytes =>
            let written := slotType? slot <|> (types.blob? p.type).map (·.cType)
            bindVars (written.getD "void *") "nullptr"
        | .timestamp | .interval => [var]
        | .text => [inputName slot.index, var]
        | .scalar =>
            bindVars ((slotType? slot).getD (typeParams.getD slot.index []))
              (Layout.argName slot.index)
  | none =>
      match d.defaults[slot.index - d.params.length]? with
      | some value => bindVars ((slotType? slot).getD "auto") value
      | none => []

/-- The lines of an argument declare what is said of them. -/
theorem filterMap_argCode {types : TypeTable} {d : Declaration} {typeParams : List Text}
    {function symbol : Text} {renames : Renaming} {slot : ArgSlot} {a : ArgCode}
    (hv : Text.isName (renames.text slot.var) = true)
    (h : argCode types d typeParams function symbol renames slot = .ok a) :
    a.lines.filterMap declared? = argDeclared types d typeParams renames slot := by
  rw [argDeclared]
  rcases argCode_eq_ok h with ⟨p, hp, rfl⟩ | ⟨hp, value, hd, rfl⟩
  · simp only [hp, paramCode]
    by_cases hk : slot.kind = "DATUM".toList
    · simp only [if_pos hk]
      exact filterMap_datumArg hv _ _
    · simp only [if_neg hk]
      cases types.argForm p.type with
      | bytes => exact filterMap_bytesArg hv _ _ _
      | timestamp => exact filterMap_timestampArg hv _
      | interval => exact filterMap_intervalArg hv _
      | text => exact filterMap_textArg hv _ _ _
      | scalar =>
        rw [List.filterMap_cons]
        split <;> rename_i e <;> simp only [e] <;> rfl
  · simp only [hp, hd, List.filterMap_cons]
    split <;> rename_i e <;> simp only [e] <;> rfl

/-- The type tag declares its variable. -/
theorem filterMap_tagLines (d : Declaration) (typeParams : List Text) (n : Implementation) :
    (tagLines d typeParams n).filterMap declared? = n.typeTagVar?.toList := by
  unfold tagLines Implementation.typeTagVar?
  split <;> rename_i h <;> split at h <;> rename_i hn
  · cases h
  · simp [hn]
  · cases h
    simp only [hn, if_true]
    exact filterMap_typeTag (by decide) _ _
  · cases h

/-- The variables that a closure declares before it gives the result back; `lines` are the copied
lines of the body. -/
def frontDeclared (types : TypeTable) (d : Declaration) (n : Implementation)
    (typeParams lines : List Text) : List Text :=
  n.slots.flatMap (argDeclared types d typeParams (outputRenaming n)) ++ n.typeTagVar?.toList ++
    lines.filterMap declared? ++
    (boundLines n.shape (outputRenaming n).text (returnType types d n)).filterMap declared?

/-- The variables that are declared where the result is given back. -/
def outputDeclared (types : TypeTable) (d : Declaration) (retType : Text) : List Text :=
  match types.resultForm d.returnType with
  | .text => ["ret_str", "out"]
  | .scalar => (declared? (retType ++ " out = ret;")).toList
  | .blob | .timestamp | .cstring => ["out"]

/-- The lines that give the result back declare what is said of them. -/
theorem filterMap_outputLines (types : TypeTable) (d : Declaration) (retType : Text)
    (buffers : List Text) :
    (outputLines types d retType buffers).filterMap declared? =
      outputDeclared types d retType := by
  have hf : (buffers.map Fragment.free).filterMap declared? = [] := by
    rw [List.filterMap_map, List.filterMap_eq_nil_iff]
    exact fun v _ => declared?_free v
  have hr : declared? "return out;" = none :=
    declared?_of_word (p := []) (w := "return") (r := "out;") (by simp) (by decide)
  -- three of the forms give the result back as a string
  have string {line e : Text} (h : line = Fragment.bind "string_t" "out" e)
      (he : e.any (!Text.isBlank ·) = true) : declared? line = some "out".toList :=
    declared?_of_bind h (by decide) (by decide) (by decide) he
  unfold outputLines outputDeclared
  cases types.resultForm d.returnType with
  | blob =>
    have hb (size : Text) : declared?
        ("string_t out = StringVector::AddStringOrBlob(result, (const char *)ret, " ++ size ++
          ");") = some "out".toList :=
      string (e := "StringVector::AddStringOrBlob(result, (const char *)ret, " ++ size ++ ")")
        (by simp [Fragment.bind, Fragment.gap]) (by rfl)
    simp only [List.filterMap_append, hf, List.filterMap_cons, hr, declared?_free, hb]
    rfl
  | timestamp =>
    have ht : declared? "timestamp_tz_t out = MeosToDuckDBTimestamp((timestamp_tz_t)ret);" =
        some "out".toList :=
      declared?_of_bind (t := "timestamp_tz_t") (e := "MeosToDuckDBTimestamp((timestamp_tz_t)ret)")
        (by simp [Fragment.bind, Fragment.gap]) (by decide) (by decide) (by decide) (by rfl)
    simp only [List.filterMap_append, hf, List.filterMap_cons, hr, ht]
    rfl
  | cstring =>
    have hc : declared? "string_t out = StringVector::AddString(result, ret);" =
        some "out".toList :=
      string (e := "StringVector::AddString(result, ret)") (by simp [Fragment.bind, Fragment.gap])
        (by rfl)
    simp only [List.filterMap_append, hf, List.filterMap_cons, hr, declared?_free, hc]
    rfl
  | text =>
    have hs : declared? "char *ret_str = text2cstring(ret);" = some "ret_str".toList :=
      declared?_of_bind (t := "char *") (e := "text2cstring(ret)")
        (by simp [Fragment.bind, Fragment.gap]) (by decide) (by decide) (by decide) (by rfl)
    have ho : declared? "string_t out = StringVector::AddString(result, ret_str);" =
        some "out".toList :=
      string (e := "StringVector::AddString(result, ret_str)")
        (by simp [Fragment.bind, Fragment.gap]) (by rfl)
    simp only [List.filterMap_append, hf, List.filterMap_cons, hr, declared?_free, hs, ho]
    rfl
  | scalar =>
    simp only [List.filterMap_append, hf, List.filterMap_cons, hr, List.filterMap_nil,
      List.append_nil]
    cases declared? (retType ++ " out = ret;") <;> rfl

/-! ### Proper declarations -/

/-- Before the result is given back `ret` is declared once and afterwards not again, and no other
variable is declared twice. -/
structure DeclaresProperly (front output : List Text) : Prop where
  result_once : (front.filterMap declared?).count result = 1
  result_before : (output.filterMap declared?).count result = 0
  others_once : ∀ v, v ≠ result → ((front ++ [] :: output).filterMap declared?).count v ≤ 1

/-- What is declared up to the empty line, in order. -/
theorem filterMap_front {types : TypeTable} {d : Declaration} {n : Implementation}
    {function symbol body : Text} {span : Span} {c : Closure} {args : List ArgCode}
    {lines guard : List Text} (hn : Implementation.ofBody symbol body span = .ok n)
    (h : Parts types d n function c args lines guard) :
    (args.flatMap (·.lines) ++ tagLines d c.typeParams n ++ (lines ++ guard ++
      boundLines n.shape (outputRenaming n).text (returnType types d n))).filterMap declared? =
      frontDeclared types d n c.typeParams lines := by
  have ha : (args.flatMap (·.lines)).filterMap declared? =
      n.slots.flatMap (argDeclared types d c.typeParams (outputRenaming n)) := by
    rw [List.filterMap_flatMap]
    refine flatMap_of_mapM (fun slot hs a ha => ?_) h.args_eq
    rw [Implementation.slots_ofBody hn] at hs
    exact filterMap_argCode (isName_renamed n (ArgSlot.isName_of_mem hs)) ha
  have hg := filterMap_guard h.guard_eq
  simp only [List.filterMap_append, ha, hg, filterMap_tagLines, frontDeclared, List.nil_append,
    List.append_assoc]

/-- **When a closure declares its variables properly.**  Its lines before the empty one declare the
variables of the arguments, of the type tag, of the copied lines and of the line that binds the
result, and the lines after it those that give the result back.  `ret` has to be once among the
former and not among the latter, and no other variable twice among all. -/
theorem declares_properly_iff {e : Emitter} {d : Declaration} {n : Implementation}
    {key symbol body : Text} {span : Span} {w : Wrapper}
    (hn : Implementation.ofBody symbol body span = .ok n)
    (hw : e.emit d n key = .ok (some w)) (hp : w.placeholder = false) :
    ∃ c front lines,
      Closure.make e.types e.policy d n (Key.member key) (Emitter.kindOf key) = .ok c ∧
      w.source = Emitter.source e.structName (Key.member key) (Emitter.kindOf key)
        d.params.length c ∧
      c.body = front ++ [] :: outputSection e.types d n c.retType ∧
      copied n.shape (outputRenaming n).text = .ok lines ∧
      (DeclaresProperly front (outputSection e.types d n c.retType) ↔
        (frontDeclared e.types d n c.typeParams lines).count result = 1 ∧
        (outputDeclared e.types d c.retType).count result = 0 ∧
        ∀ v, v ≠ result → (frontDeclared e.types d n c.typeParams lines).count v +
          (outputDeclared e.types d c.retType).count v ≤ 1) := by
  obtain ⟨c, hc, hsource, hplace⟩ := Emitter.closure_of_emit hw
  obtain ⟨args, lines, guard, h⟩ := parts_of_make hc (hplace.symm.trans hp)
  refine ⟨c, _, lines, hc, hsource, h.body_eq, h.copied_eq, ?_⟩
  have hf := filterMap_front hn h
  have ho : (outputSection e.types d n c.retType).filterMap declared? =
      outputDeclared e.types d c.retType := filterMap_outputLines _ _ _ _
  have hall : ∀ front output : List Text, (front ++ [] :: output).filterMap declared? =
      front.filterMap declared? ++ output.filterMap declared? := fun front output => by
    rw [List.filterMap_append, List.filterMap_cons]
    rfl
  constructor
  -- the empty line between the parts declares nothing
  · rintro ⟨h₁, h₂, h₃⟩
    rw [hf] at h₁
    rw [ho] at h₂
    refine ⟨h₁, h₂, fun v hv => ?_⟩
    have := h₃ v hv
    rwa [hall, hf, ho, List.count_append] at this
  · rintro ⟨h₁, h₂, h₃⟩
    refine ⟨by rw [hf, h₁], by rw [ho, h₂], fun v hv => ?_⟩
    rw [hall, hf, ho, List.count_append]
    exact h₃ v hv

/-- The theorem for a call with one number as its argument. -/
theorem declares_properly_iff_of_number :
    ∃ n w, Implementation.ofBody "f" "int32 x = PG_GETARG_INT32(0);\nPG_RETURN_INT32(g(x));"
        ⟨none, 0, 0⟩ = .ok n ∧
      Emitter.base.emit (.unary "integer" "integer") n "f" = .ok (some w) ∧
      w.placeholder = false ∧ ∃ c front lines,
      Closure.make Emitter.base.types Emitter.base.policy (.unary "integer" "integer") n
        (Key.member "f") (Emitter.kindOf "f") = .ok c ∧
      w.source = Emitter.source Emitter.base.structName (Key.member "f") (Emitter.kindOf "f") 1 c ∧
      c.body =
        front ++ [] :: outputSection TypeTable.base (.unary "integer" "integer") n c.retType ∧
      copied n.shape (outputRenaming n).text = .ok lines ∧
      (DeclaresProperly front
          (outputSection TypeTable.base (.unary "integer" "integer") n c.retType) ↔
        (frontDeclared TypeTable.base (.unary "integer" "integer") n c.typeParams lines).count
          result = 1 ∧
        (outputDeclared TypeTable.base (.unary "integer" "integer") c.retType).count result = 0 ∧
        ∀ v, v ≠ result →
          (frontDeclared TypeTable.base (.unary "integer" "integer") n c.typeParams lines).count v +
          (outputDeclared TypeTable.base (.unary "integer" "integer") c.retType).count v ≤ 1) := by
  obtain ⟨n, hn, he⟩ := exists_of_satisfies (p := Emitter.emits (.unary "integer" "integer"))
    (x := Implementation.ofBody "f" "int32 x = PG_GETARG_INT32(0);\nPG_RETURN_INT32(g(x));"
      ⟨none, 0, 0⟩) (by decide +kernel)
  obtain ⟨w, hw, hp⟩ := Emitter.exists_of_emits he
  exact ⟨n, w, hn, hw, hp, declares_properly_iff hn hw hp⟩

/-- An argument called `result` is declared as `ret`, and so is the result, although the body
declares each of its variables once. -/
theorem result_argument_declared_twice :
    ((Line.logical "int32 result = PG_GETARG_INT32(0);\nPG_RETURN_INT32(g(result));").filterMap
        declared?).Nodup ∧
      ∃ n w c, Implementation.ofBody "f"
          "int32 result = PG_GETARG_INT32(0);\nPG_RETURN_INT32(g(result));" ⟨none, 0, 0⟩ = .ok n ∧
        Emitter.base.emit (.unary "integer" "integer") n "f" = .ok (some w) ∧
        w.placeholder = false ∧
        Closure.make Emitter.base.types Emitter.base.policy (.unary "integer" "integer") n
          (Key.member "f") (Emitter.kindOf "f") = .ok c ∧
        ∀ front, c.body =
            front ++ [] :: outputSection TypeTable.base (.unary "integer" "integer") n c.retType →
          ¬ DeclaresProperly front
            (outputSection TypeTable.base (.unary "integer" "integer") n c.retType) := by
  refine ⟨by decide +kernel, ?_⟩
  obtain ⟨n, hn, h⟩ := exists_of_satisfies (x := Implementation.ofBody "f"
      "int32 result = PG_GETARG_INT32(0);\nPG_RETURN_INT32(g(result));" ⟨none, 0, 0⟩)
    (p := fun n => Emitter.emits (.unary "integer" "integer") n &&
      satisfies (Closure.make Emitter.base.types Emitter.base.policy (.unary "integer" "integer") n
        (Key.member "f") (Emitter.kindOf "f")) fun c =>
          (c.body.filterMap declared?).count result == 2) (by decide +kernel)
  rw [Bool.and_eq_true] at h
  obtain ⟨w, hw, hp⟩ := Emitter.exists_of_emits h.1
  obtain ⟨c, hc, hcount⟩ := exists_of_satisfies h.2
  -- one declaration before the empty line and none after it are not two
  refine ⟨n, w, c, hn, hw, hp, hc, fun front hf hd => ?_⟩
  have := hd.result_once
  have := hd.result_before
  have he : declared? [] = none := by rfl
  rw [hf, List.filterMap_append, List.filterMap_cons, List.count_append, beq_iff_eq] at hcount
  simp only [he] at hcount
  omega

end VectorWrap.Closure
