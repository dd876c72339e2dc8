import VectorWrap.Proofs.Code.Tokens
import VectorWrap.Proofs.Implementation.Lines
import VectorWrap.Proofs.Wrapper.NullGuard

/-!
# Macros in generated code

A native body fetches its arguments, frees their copies and returns by macros.  In a wrapper these
have no meaning.  `Text.macros` lists the macros that stand in the lines of a text outside its
literals.

A wrapper is written around the lines of its closure, so it is free of macros exactly when each of
its parts is (`macro_free_iff`).  No fetch gets into it from the body, for a line with a fetch is
dropped as a whole; a macro of another kind does when it stands inside a processing line that is
copied (`Leaks`), such as a return behind the head of a loop.

The macros of a text are found line by line, since a macro is a word and no word goes over the end
of a line; this is why the layout of a wrapper adds none, and why they can be counted part by part.
-/

namespace VectorWrap

namespace Text

/-! ### The macros of a text -/

/-- What the names of the macros begin with. -/
def macroMarks : List Text :=
  ["PG_RETURN_".toList, Line.fetchMark, "PG_FREE_IF_COPY".toList]

/-- Is the name of a macro. -/
def isMacro (name : Text) : Bool :=
  macroMarks.any (·.isPrefixOf name)

/-- The name of the macro that a token is, if it is one. -/
def macro? : Token → Option Text
  | .identifier name => if isMacro name then some name else none
  | _ => none

/-- The macros in the lines of a text, outside literals. -/
def macros (s : Text) : List Text :=
  (splitBy (· == '\n') s).flatMap fun line => (tokens line).filterMap macro?

@[simp]
theorem macros_nil : macros [] = [] := by
  simp [macros, splitBy, tokens]

theorem macros_line_append (s t : Text) : macros (Layout.line s ++ t) = macros s ++ macros t := by
  have sep : Layout.line s ++ t = s ++ '\n' :: t := by simp [Layout.line]
  rw [sep, macros, splitBy_append_sep (by decide), List.flatMap_append]
  rfl

theorem macros_space (s : Text) : macros (' ' :: s) = macros s := by
  obtain ⟨x, xs, h, hcons⟩ := splitBy_cons_of_neg (· == '\n') s
  have mark : tokens (' ' :: x) = .mark ' ' :: tokens x := by
    rw [tokens]
    rfl
  rw [macros, macros, hcons ' ' (by decide), h, List.flatMap_cons, List.flatMap_cons, mark]
  rfl

/-- Indentation holds no macro. -/
theorem macros_pad {pad : Text} (hp : ∀ c ∈ pad, c = ' ') (s : Text) :
    macros (pad ++ s) = macros s := by
  induction pad with
  | nil => rfl
  | cons c pad ih =>
    obtain ⟨hc, hpad⟩ := List.forall_mem_cons.mp hp
    rw [List.cons_append, hc, macros_space, ih hpad]

/-- A macro is a name that occurs in the text. -/
theorem word_of_mem_macros {s m : Text} (h : m ∈ macros s) :
    isMacro m = true ∧ IsNameRun m ∧ m <:+: s := by
  obtain ⟨line, hl, h⟩ := List.mem_flatMap.mp h
  obtain ⟨token, ht, h⟩ := List.mem_filterMap.mp h
  cases token with
  | identifier name =>
    rw [macro?] at h
    split_ifs at h with hm
    cases h
    obtain ⟨hn, hi⟩ := isName_of_mem_tokens ht
    exact ⟨hm, isNameRun_of_isName hn, hi.trans (infix_of_mem_splitBy hl)⟩
  | _ => cases h

/-- No macro occurs in a text without the letter that all begin with. -/
theorem not_infix_of_isMacro {m s : Text} (h : isMacro m = true) (hs : 'P' ∉ s) : ¬ m <:+: s := by
  obtain ⟨mark, hm, hp⟩ := List.any_eq_true.mp h
  have begins : ∀ mark ∈ macroMarks, 'P' ∈ mark := by decide
  exact fun hi => hs (hi.subset ((List.isPrefixOf_iff_prefix.mp hp).subset (begins mark hm)))

end Text

/-! ### The lines of a wrapper -/

namespace Layout
open Text

theorem eq_space_of_mem_indent {n : Nat} : ∀ c ∈ indent n, c = ' ' := by
  induction n with
  | zero => simp [indent]
  | succ n ih =>
    intro c hc
    rcases List.mem_append.mp hc with hc | hc
    · have spaces : step = List.replicate 4 ' ' := rfl
      rw [spaces] at hc
      exact List.eq_of_mem_replicate hc
    · exact ih c hc

/-- The macros of lines are those of each of them. -/
theorem macros_lines_append (ss : List Text) (t : Text) :
    macros (lines ss ++ t) = ss.flatMap macros ++ macros t := by
  induction ss with
  | nil => rfl
  | cons s ss ih =>
    rw [lines, List.flatMap_cons, List.append_assoc, macros_line_append, ← lines, ih,
      List.flatMap_cons, List.append_assoc]

/-- Indentation brings no macro about. -/
theorem macros_bodyLines_append (n : Nat) (ss : List Text) (t : Text) :
    macros (ss.flatMap (bodyLine (indent n)) ++ t) = ss.flatMap macros ++ macros t := by
  induction ss with
  | nil => rfl
  | cons s ss ih =>
    have one : ∀ u, macros (bodyLine (indent n) s ++ u) = macros s ++ macros u := by
      intro u
      rw [bodyLine]
      split_ifs with hs
      · rw [macros_line_append, List.isEmpty_iff.mp hs]
      · rw [macros_line_append, macros_pad eq_space_of_mem_indent]
    rw [List.flatMap_cons, List.append_assoc, one, ih, List.flatMap_cons, List.append_assoc]

theorem lines_append (ss ts : List Text) : lines (ss ++ ts) = lines ss ++ lines ts :=
  List.flatMap_append

/-- An executor call has fixed lines before and behind those of the closure. -/
theorem exists_lines_executorCall (c : ExecutorCall) (depth : Nat) :
    ∃ before behind, ∀ body, executorCall { c with body } depth =
      lines before ++ body.flatMap (bodyLine (indent (depth + 2))) ++ lines behind := by
  refine ⟨[indent depth ++ executeName c ++ "<" ++ Text.joinWith ", " c.typeParams ++ ", " ++
      c.retType ++ ">(",
    indent (depth + 1) ++ Text.joinWith ", " c.inputs ++ ", result, " ++ c.count ++ ",",
    indent (depth + 1) ++ "[&](" ++ Text.joinWith ", " (lambdaParams c) ++ ") \x7b"],
    [indent (depth + 1) ++ "\x7d", indent depth ++ ");"], fun body => ?_⟩
  simp only [executorCall, lines, List.flatMap_cons, List.flatMap_nil, List.append_nil,
    List.append_assoc]
  rfl

end Layout

namespace Emitter
open Text

/-- A wrapper has fixed lines before and behind those of its closure. -/
theorem exists_lines_source (structName function : Text) (kind : WrapperKind) (arity : Nat)
    (c : Closure) : ∃ before behind n, ∀ body,
      source structName function kind arity { c with body } =
        Layout.lines before ++ body.flatMap (Layout.bodyLine (Layout.indent n)) ++
          Layout.lines behind := by
  cases kind with
  | scalar =>
    obtain ⟨before, behind, h⟩ :=
      Layout.exists_lines_executorCall (call c (scalarInputs arity) "args.size()") 1
    obtain ⟨head, tail, hs⟩ : ∃ head tail, ∀ x, Layout.scalarFunction structName function x =
        Layout.line head ++ Layout.executorCall x 1 ++ Layout.lines tail := ⟨_, _, fun _ => rfl⟩
    refine ⟨head :: before, behind ++ tail, 1 + 2, fun body => ?_⟩
    have inner : Layout.executorCall (call { c with body } (scalarInputs arity) "args.size()") 1 =
      _ := h body
    rw [source, hs, inner, Layout.lines_append]
    simp only [Layout.lines, List.flatMap_cons, List.append_assoc]
  | cast =>
    obtain ⟨before, behind, h⟩ := Layout.exists_lines_executorCall (call c ["source"] "count") 2
    obtain ⟨head, init, tail, hs⟩ : ∃ head init tail, ∀ x,
        Layout.castFunction structName function x =
          Layout.line head ++ Layout.lines init ++ Layout.executorCall x 2 ++ Layout.lines tail :=
      ⟨_, _, _, fun _ => rfl⟩
    refine ⟨head :: init ++ before, behind ++ tail, 2 + 2, fun body => ?_⟩
    have inner : Layout.executorCall (call { c with body } ["source"] "count") 2 = _ := h body
    rw [source, hs, inner, Layout.lines_append, Layout.lines_append]
    simp only [Layout.lines, List.flatMap_cons, List.append_assoc]

/-- A wrapper is free of macros if the wrapper around an empty closure is and the lines of its
closure are. -/
theorem macros_source_iff (structName function : Text) (kind : WrapperKind) (arity : Nat)
    (c : Closure) : macros (source structName function kind arity c) = [] ↔
      macros (source structName function kind arity { c with body := [] }) = [] ∧
        ∀ l ∈ c.body, macros l = [] := by
  obtain ⟨before, behind, n, h⟩ := exists_lines_source structName function kind arity c
  have parts : ∀ body, macros (source structName function kind arity { c with body }) =
      before.flatMap macros ++ (body.flatMap macros ++ behind.flatMap macros) := by
    intro body
    have tail := Layout.macros_lines_append behind []
    rw [List.append_nil, macros_nil, List.append_nil] at tail
    rw [h, List.append_assoc, Layout.macros_lines_append, Layout.macros_bodyLines_append, tail]
  rw [parts [], parts c.body]
  simp only [List.append_eq_nil_iff, List.flatMap_eq_nil_iff, List.flatMap_nil, true_and]
  tauto

end Emitter

/-! ### Macros that come from the body -/

namespace Closure
open Text

/-- Putting in a cast brings no word about. -/
theorem infix_of_castAlloc {line copy w : Text} (hw : IsNameRun w) (h : castAlloc line = .ok copy)
    (hi : w <:+: copy) : w <:+: line := by
  obtain ⟨a?, ha, -⟩ := bind_eq_ok.mp h
  rcases castAlloc_cases ha with same | ⟨type, var, value, rfl, asterisk, -, put⟩
  · rwa [Except.ok.inj (h.symm.trans same)] at hi
  · obtain ⟨var_isInfix, value_isInfix, type_isInfix⟩ := Assignment.infix_of_ofLine ha
    obtain ⟨s, hs, hts⟩ := type_isInfix type rfl
    have in_type : w <:+: type → w <:+: line := fun h =>
      (hw.infix_of_squeeze (hts ▸ h)).trans hs
    have no : ∀ c, Text.inName c = false → c ∉ w := fun c => hw.not_mem
    have gap : Fragment.gap type = [] := by rw [Fragment.gap, if_pos asterisk]
    have form : Fragment.bind type var ("(" ++ type ++ ")" ++ value) =
        type ++ (var ++ ' ' :: ('=' :: ' ' :: '(' :: (type ++ ')' :: (value ++ [';'])))) := by
      simp [Fragment.bind, gap]
    rw [Except.ok.inj (h.symm.trans put), form] at hi
    -- the pieces are set apart by marks
    have ends : ∀ c, type.getLast? = some c → Text.inName c = false := fun c hc => by
      rw [asterisk] at hc
      cases hc
      decide
    rcases hw.infix_append_of_last ends hi with hi | hi
    · exact in_type hi
    rcases infix_of_not_mem (no ' ' (by decide)) hi with hi | hi
    · exact hi.trans var_isInfix
    rcases infix_of_not_mem (a := ['=', ' ']) (no '(' (by decide)) hi with hi | hi
    · refine absurd hi (hw.not_isInfix fun c hc => ?_)
      rcases List.mem_pair.mp hc with rfl | rfl <;> decide
    rcases infix_of_not_mem (no ')' (by decide)) hi with hi | hi
    · exact in_type hi
    rcases infix_of_not_mem (no ';' (by decide)) hi with hi | hi
    · exact hi.trans value_isInfix
    · exact absurd hi (hw.not_isInfix (by simp))

/-- No new name is a part of the name of a macro. -/
theorem not_mem_outputRenaming (n : Implementation) : ∀ p ∈ outputRenaming n, 'P' ∉ p.2 := by
  have fixed : ∀ p ∈ ([("result".toList, result), ("palloc".toList, "malloc".toList),
      ("pfree".toList, "free".toList)] : Renaming), 'P' ∉ p.2 := by
    intro p hp
    simp only [List.mem_cons, List.not_mem_nil, or_false] at hp
    rcases hp with rfl | rfl | rfl <;> decide
  intro p hp
  simp only [outputRenaming] at hp
  split at hp
  · split at hp
    · exact fixed p hp
    · rcases List.mem_cons.mp hp with rfl | hp
      · exact fixed ("result".toList, result) (by simp)
      · exact fixed p hp
  · exact fixed p hp

/-- A macro of a renamed text occurs in the text. -/
theorem infix_of_renamed {n : Implementation} {m s : Text} (hm : isMacro m = true)
    (hw : IsNameRun m) (h : m <:+: (outputRenaming n).text s) : m <:+: s := by
  rcases Renaming.infix_of_text hw h with h | ⟨p, hp, h⟩
  · exact h
  · exact absurd h (not_infix_of_isMacro hm (not_mem_outputRenaming n p hp))

/-- A processing line that is copied and may hold a macro.  It has no fetch and returns no value; it
is a null return only in a block, and begins with the freeing of a copy only behind the head of an
`if`. -/
structure Leaks (body : Text) (shape : Shape) (p : Text) : Prop where
  mem : p ∈ Line.ofBody body
  no_fetch : ¬ Line.fetchMark <:+: p
  no_value : Shape.returnsValue p = false
  null : Return.isNull p = true → ∃ lines result, shape = .block lines result
  freed : "PG_FREE_IF_COPY".toList <+: p →
    ∃ line ∈ Line.logical body, ∃ head, Line.splitIf? (Line.unbrace line) = some (head, p)

/-- A processing line begins with the freeing of a copy only behind the head of an `if`. -/
theorem splitIf?_of_freed {body p : Text} (hp : p ∈ Line.ofBody body)
    (h : "PG_FREE_IF_COPY".toList <+: p) :
    ∃ line ∈ Line.logical body, ∃ head, Line.splitIf? (Line.unbrace line) = some (head, p) := by
  obtain ⟨line, hline, hw⟩ := List.mem_flatMap.mp hp
  obtain ⟨idle, ⟨-, rfl⟩ | ⟨head, statement, hs, ht⟩⟩ := Line.working_cases hw
  · simp only [Line.isIdle, Bool.or_eq_false_iff] at idle
    rw [List.isPrefixOf_iff_prefix.mpr h] at idle
    cases idle.2
  · rcases ht with rfl | rfl
    · obtain ⟨rest, hr⟩ := Line.head_of_splitIf? hs
      rw [hr] at h
      obtain ⟨t, ht⟩ := h
      cases ht
    · exact ⟨line, hline, head, hs⟩

/-- What a shape copies is no null return, except in a block. -/
theorem exists_block_of_isNull {result : Text} {before : List Text} {nullable : Bool}
    {shape : Shape} (h : Shape.Built result before nullable shape) {p : Text}
    (hp : p ∈ source shape) (hn : Return.isNull p = true) :
    ∃ lines result, shape = .block lines result := by
  have plain : ∀ {l : Text}, Shape.isPlain l = true → Return.isNull l = true → False := by
    intro l hl hn
    rw [Shape.isPlain, hn, Bool.not_true, Bool.and_false] at hl
    cases hl
  cases h with
  | filled setup call =>
    rcases List.mem_pair.mp hp with rfl | rfl
    · exact (plain setup hn).elim
    · exact (plain call hn).elim
  | guardedAfter setup =>
    rw [source, List.mem_singleton] at hp
    exact (plain setup (hp ▸ hn)).elim
  | block => exact ⟨_, _, rfl⟩
  | _ => cases hp

/-- A macro that occurs in a processing line is no fetch. -/
theorem not_fetch_of_isInfix {body p m : Text} (hp : p ∈ Line.ofBody body) (hm : m <:+: p) :
    ¬ Line.fetchMark <+: m :=
  fun h => Line.no_fetch hp (h.isInfix.trans hm)

/-- **A wrapper is free of macros exactly when its parts are.**  A macro in a copied line comes from
a processing line that leaks, and the other texts that are kept of the body have no fetch. -/
theorem macro_free_iff {e : Emitter} {d : Declaration} {symbol body key : Text} {span : Span}
    {n : Implementation} {w : Wrapper} (hn : Implementation.ofBody symbol body span = .ok n)
    (hw : e.emit d n key = .ok (some w)) (hp : w.placeholder = false) :
    ∃ c args lines guard,
      make e.types e.policy d n (Key.member key) (Emitter.kindOf key) = .ok c ∧
      w.source = Emitter.source e.structName (Key.member key) (Emitter.kindOf key)
        d.params.length c ∧
      Parts e.types d n (Key.member key) c args lines guard ∧
      (macros w.source = [] ↔
        macros (Emitter.source e.structName (Key.member key) (Emitter.kindOf key)
          d.params.length { c with body := [] }) = [] ∧
        (∀ l ∈ args.flatMap (·.lines) ++ tagLines d c.typeParams n, macros l = []) ∧
        (∀ l ∈ lines ++ guard ++
          boundLines n.shape (outputRenaming n).text (returnType e.types d n), macros l = []) ∧
        ∀ l ∈ outputSection e.types d n c.retType, macros l = []) ∧
      (∀ l ∈ lines, ∀ m ∈ macros l, ∃ p, Leaks body n.shape p ∧ m <:+: p) ∧
      ∀ t ∈ n.shape.texts, ∀ m ∈ macros ((outputRenaming n).text t), ¬ Line.fetchMark <+: m ∧
        ∃ p ∈ Line.ofBody body, m <:+: p := by
  obtain ⟨c, hc, hsource, hplace⟩ := Emitter.closure_of_emit hw
  obtain ⟨args, lines, guard, parts⟩ := parts_of_make hc (hplace.symm.trans hp)
  have hshape := (Implementation.parts_ofBody hn).2.2
  refine ⟨c, args, lines, guard, hc, hsource, parts, ?_, ?_, ?_⟩
  · rw [hsource, Emitter.macros_source_iff, parts.body_eq]
    simp only [List.forall_mem_append, List.forall_mem_cons, macros_nil, true_and]
    tauto
  · -- what is copied is from the lines before the return, renamed or with a cast in front
    intro l hl m hm
    obtain ⟨hname, hword, hi⟩ := word_of_mem_macros hm
    obtain ⟨p, hps, hcopy⟩ := exists_of_mem_copied parts.copied_eq hl
    have hs : n.shape.isClassified = true := by
      cases he : n.shape with
      | unclassified => rw [he] at hps; cases hps
      | _ => rfl
    obtain ⟨before, last, _, _, hlines, -, -, values, built⟩ := Shape.exists_of_classify hshape hs
    have before_mem : p ∈ before := source_subset built hps
    have line : p ∈ Line.ofBody body := by
      rw [hlines]
      exact List.mem_append_left _ before_mem
    have occurs : m <:+: p := by
      rcases hcopy with rfl | hcopy
      · exact infix_of_renamed hname hword hi
      · exact infix_of_renamed hname hword (infix_of_castAlloc hword hcopy hi)
    exact ⟨p, ⟨line, Line.no_fetch line, values p before_mem, exists_block_of_isNull built hps,
      splitIf?_of_freed line⟩, occurs⟩
  · -- what the shape keeps was in a line, which has no fetch
    intro t ht m hm
    obtain ⟨hname, hword, hi⟩ := word_of_mem_macros hm
    have auto : ¬ m <:+: "auto".toList := not_infix_of_isMacro hname (by decide)
    obtain ⟨p, line, occurs⟩ :=
      Shape.infix_of_mem_texts hshape hword auto ht (infix_of_renamed hname hword hi)
    exact ⟨not_fetch_of_isInfix line occurs, p, line, occurs⟩

/-- A body whose macros are all dropped. -/
def fetchedBody : Text :=
  "int32 n = PG_GETARG_INT32(0);\nint32 r = g(n);\nPG_FREE_IF_COPY(n, 0);\nPG_RETURN_INT32(r);"

/-- The theorem for that body. -/
theorem macro_free_iff_of_fetched : ∃ n w,
    Implementation.ofBody "f" fetchedBody ⟨none, 0, 0⟩ = .ok n ∧
    Emitter.base.emit (.unary "integer" "integer") n "f" = .ok (some w) ∧ w.placeholder = false ∧
    macros w.source = [] ∧
    ∃ c args lines guard,
      Parts TypeTable.base (.unary "integer" "integer") n "F" c args lines guard ∧
      (∀ l ∈ lines ++ guard ++ boundLines n.shape (outputRenaming n).text
        (returnType TypeTable.base (.unary "integer" "integer") n), macros l = []) := by
  obtain ⟨n, hn, h⟩ := exists_of_satisfies (x := Implementation.ofBody "f" fetchedBody ⟨none, 0, 0⟩)
    (p := fun n => satisfies (Emitter.base.emit (.unary "integer" "integer") n "f") fun w =>
      w.any fun w => !w.placeholder && (macros w.source).isEmpty) (by decide +kernel)
  obtain ⟨o, ho, h⟩ := exists_of_satisfies h
  cases o with
  | none => cases h
  | some w =>
    simp only [Option.any_some, Bool.and_eq_true, Bool.not_eq_true', List.isEmpty_iff] at h
    obtain ⟨c, args, lines, guard, -, -, parts, free, -⟩ := macro_free_iff hn ho h.1
    exact ⟨n, w, hn, ho, h.1, h.2, c, args, lines, guard, parts, (free.mp h.2).2.2.1⟩

/-- A body with a return behind the head of a loop. -/
def loopingBody : Text :=
  "int32 n = PG_GETARG_INT32(0);\nint32 r = 0;\nwhile (r < n) PG_RETURN_FLOAT8(next(r));\n" ++
    "PG_RETURN_INT32(r);"

/-- A return of a value behind the head of a loop survives. -/
theorem return_survives : ∃ n w,
    Implementation.ofBody "f" loopingBody ⟨none, 0, 0⟩ = .ok n ∧
    Emitter.base.emit (.unary "integer" "integer") n "f" = .ok (some w) ∧ w.placeholder = false ∧
    "PG_RETURN_FLOAT8".toList ∈ macros w.source := by
  obtain ⟨n, hn, h⟩ := exists_of_satisfies (x := Implementation.ofBody "f" loopingBody ⟨none, 0, 0⟩)
    (p := fun n => satisfies (Emitter.base.emit (.unary "integer" "integer") n "f") fun w =>
      w.any fun w => !w.placeholder && (macros w.source).contains "PG_RETURN_FLOAT8".toList)
    (by decide +kernel)
  obtain ⟨o, ho, h⟩ := exists_of_satisfies h
  cases o with
  | none => cases h
  | some w =>
    simp only [Option.any_some, Bool.and_eq_true, Bool.not_eq_true', List.contains_iff_mem] at h
    exact ⟨n, w, hn, ho, h.1, h.2⟩

end Closure

end VectorWrap
