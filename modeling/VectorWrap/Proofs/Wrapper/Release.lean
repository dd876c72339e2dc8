import VectorWrap.Proofs.Wrapper.Declarations

/-!
# What a closure releases

Buffers are released by lines `free(v);`.  Before the empty line of a closure such lines are only
among those copied from the body (`released_argCode`, `released_boundLines`); after it they release
the buffers that `kept` leaves, and the result if its form wants that (`released_output`).

A buffer to which the result has been bound has two names, and has to be released by one of them
after the line that binds it; any other buffer by its own.  `released_once_iff` says when this is
so.

The statement goes over the lines of a closure one after the other: which buffer a line binds the
result to decides how the lines behind it are counted.  That part is put together by
`releasedOnce_append_iff`, for any list of lines and without a look at what they are.
-/

namespace VectorWrap.Closure

/-! ### Lines that release -/

/-- The variable that a line releases. -/
def released? (line : Text) : Option Text := do
  let rest ← Text.after? "free(" line
  let v ← Text.before? ");" rest
  guard (Text.isName v)
  pure v

theorem free_eq (v : Text) : Fragment.free v = "free(" ++ v ++ ");" := rfl

/-- A line releases a variable just if it is the line for it. -/
theorem released?_eq_some {line v : Text} :
    released? line = some v ↔ Text.isName v = true ∧ line = Fragment.free v := by
  have hg : ∀ {b : Bool} {u : Unit}, (guard (b = true) : Option Unit) = some u ↔ b = true := by
    intro b u
    cases b <;> simp [guard]
  simp only [released?, bind, Option.bind_eq_some_iff, Text.after?_eq_some, Text.before?_eq_some,
    hg, exists_const, pure, Option.some.injEq, free_eq, List.append_assoc]
  constructor
  · rintro ⟨_, h, x, rfl, hx, rfl⟩
    exact ⟨hx, h⟩
  · rintro ⟨hv, h⟩
    exact ⟨_, h, v, rfl, hv, rfl⟩

theorem released?_free {v : Text} (hv : Text.isName v = true) :
    released? (Fragment.free v) = some v :=
  released?_eq_some.mpr ⟨hv, rfl⟩

/-- A line that begins otherwise releases nothing. -/
theorem released?_of_head {line : Text} (h : line.head? ≠ some 'f') : released? line = none := by
  rw [Option.eq_none_iff_forall_ne_some]
  intro v hv
  obtain ⟨-, rfl⟩ := released?_eq_some.mp hv
  exact h rfl

/-- No variable that is released contains an equals sign. -/
theorem released?_of_mem {line : Text} (h : '=' ∈ line) : released? line = none := by
  rw [Option.eq_none_iff_forall_ne_some]
  intro v hv
  obtain ⟨hn, rfl⟩ := released?_eq_some.mp hv
  simp only [free_eq, List.mem_append] at h
  rcases h with (h | h) | h
  · revert h
    decide
  · have := Text.all_inName_of_isName hn _ h
    revert this
    decide
  · revert h
    decide

theorem released?_bind (cType v e : Text) : released? (Fragment.bind cType v e) = none :=
  released?_of_mem (by simp [Fragment.bind])

/-! ### Fragments -/

/-- An argument is released nowhere among the lines that make it. -/
theorem released_argCode {types : TypeTable} {d : Declaration} {typeParams : List Text}
    {function symbol : Text} {renames : Renaming} {slot : ArgSlot} {a : ArgCode}
    (h : argCode types d typeParams function symbol renames slot = .ok a) :
    a.lines.filterMap released? = [] := by
  rw [List.filterMap_eq_nil_iff]
  rcases argCode_eq_ok h with ⟨p, -, rfl⟩ | ⟨-, value, -, rfl⟩
  · unfold paramCode
    split
    · simp only [Fragment.datumArg, List.forall_mem_cons]
      exact ⟨released?_of_head (by simp), by simp⟩
    · cases types.argForm _ with
      | bytes =>
        simp only [Fragment.bytesArg, List.forall_mem_cons]
        refine ⟨released?_bind _ _ _, ?_, ?_, ?_, ?_, ?_, ?_, ?_, by simp⟩ <;>
          exact released?_of_head (by simp [Layout.step])
      | timestamp =>
        simp only [Fragment.timestampArg, List.forall_mem_cons]
        exact ⟨released?_of_head (by simp), by simp⟩
      | interval =>
        simp only [Fragment.intervalArg, List.forall_mem_cons]
        exact ⟨released?_of_head (by simp), by simp⟩
      | text =>
        simp only [Fragment.textArg, List.forall_mem_cons]
        refine ⟨released?_of_head (by simp), ?_, by simp⟩
        split <;> exact released?_of_head (by simp)
      | scalar =>
        simp only [List.forall_mem_cons]
        exact ⟨released?_bind _ _ _, by simp⟩
  · simp only [List.forall_mem_cons]
    exact ⟨released?_bind _ _ _, by simp⟩

/-- The type tag releases nothing. -/
theorem released_tagLines (d : Declaration) (typeParams : List Text) (n : Implementation) :
    (tagLines d typeParams n).filterMap released? = [] := by
  rw [List.filterMap_eq_nil_iff]
  unfold tagLines
  split
  · simp
  · simp only [Fragment.typeTag, List.forall_mem_cons]
    exact ⟨released?_of_head (by simp), by simp⟩

/-- A guard releases on the way out only. -/
theorem released_guard {retType : Text} {guard : List Text} (h : IsGuard retType guard) :
    guard.filterMap released? = [] := by
  rw [List.filterMap_eq_nil_iff]
  rcases h with rfl | ⟨condition, frees, rfl⟩
  · simp
  · intro line hl
    simp only [Fragment.nullGuard, List.mem_append, List.mem_cons, List.mem_map,
      List.not_mem_nil, or_false] at hl
    obtain (rfl | ⟨v, -, rfl⟩) | rfl | rfl | rfl := hl <;>
      exact released?_of_head (by simp [Layout.step])

/-- The line that binds the result releases nothing. -/
theorem released_boundLines (shape : Shape) (rename : Text → Text) (retCType : Text) :
    (boundLines shape rename retCType).filterMap released? = [] := by
  rw [List.filterMap_eq_nil_iff]
  intro line hl
  obtain ⟨p, -, rfl⟩ := List.mem_map.mp hl
  exact released?_bind _ _ _

/-! ### The parts of a closure -/

/-- What is released with the result. -/
def resultReleased (types : TypeTable) (d : Declaration) : List Text :=
  match types.resultForm d.returnType with
  | .blob | .cstring => [result]
  | .text => ["ret_str", result]
  | .timestamp | .scalar => []

/-- What is released after the empty line. -/
def outputReleased (types : TypeTable) (d : Declaration) (n : Implementation) : List Text :=
  kept n.shape (outputRenaming n).text (buffers types d n) ++ resultReleased types d

/-- The lines that release names release these. -/
theorem released_frees {vs : List Text} (h : ∀ v ∈ vs, Text.isName v = true) :
    (vs.map Fragment.free).filterMap released? = vs := by
  induction vs with
  | nil => rfl
  | cons v vs ih =>
    rw [List.map_cons, List.filterMap_cons, released?_free (h v List.mem_cons_self),
      ih fun w hw => h w (List.mem_cons_of_mem v hw)]

/-- What is kept for after the call is a buffer. -/
theorem mem_of_mem_kept {shape : Shape} {rename : Text → Text} {buffers : List Text} {v : Text}
    (h : v ∈ kept shape rename buffers) : v ∈ buffers := by
  unfold kept at h
  split at h
  all_goals first | exact h | skip
  all_goals
    split at h
    · exact h
    · exact (List.mem_filter.mp h).1

/-- Buffers have names. -/
theorem isName_of_mem_buffers {types : TypeTable} {d : Declaration} {n : Implementation}
    {symbol body : Text} {span : Span} (hn : Implementation.ofBody symbol body span = .ok n)
    {v : Text} (hv : v ∈ buffers types d n) : Text.isName v = true := by
  obtain ⟨slot, hs, h⟩ := List.mem_filterMap.mp hv
  rw [Implementation.slots_ofBody hn] at hs
  have hr : v = (outputRenaming n).text slot.var := by
    unfold argBuffer? at h
    split at h
    · split at h
      · cases h
      · split at h
        · exact (Option.some.inj h).symm
        · exact (Option.some.inj h).symm
        · exact (Option.some.inj (Option.ite_none_right_eq_some.mp h).2).symm
        all_goals cases h
    · cases h
  exact hr ▸ isName_renamed n (ArgSlot.isName_of_mem hs)

/-- What is released behind the empty line. -/
theorem released_output {types : TypeTable} {d : Declaration} {n : Implementation}
    {symbol body : Text} {span : Span} (hn : Implementation.ofBody symbol body span = .ok n)
    (retType : Text) :
    (outputSection types d n retType).filterMap released? = outputReleased types d n := by
  have hb : ∀ v ∈ buffers types d n, Text.isName v = true := fun _ hv => isName_of_mem_buffers hn hv
  have hk := released_frees fun v
    (hv : v ∈ kept n.shape (outputRenaming n).text (buffers types d n)) => hb v (mem_of_mem_kept hv)
  have hr : released? (Fragment.free result) = some result := released?_free isName_result
  have hs : released? (Fragment.free "ret_str") = some "ret_str".toList :=
    released?_free (by decide)
  have ho : released? "return out;" = none := released?_of_head (by decide)
  unfold outputSection outputLines outputReleased resultReleased
  cases types.resultForm d.returnType with
  | blob =>
    have hc (size : Text) : released?
        ("string_t out = StringVector::AddStringOrBlob(result, (const char *)ret, " ++ size ++
          ");") = none := released?_of_head (by simp)
    simp only [List.filterMap_append, hk, List.filterMap_cons, hr, ho, hc, List.filterMap_nil,
      List.nil_append, List.append_nil]
  | timestamp =>
    have hc : released? "timestamp_tz_t out = MeosToDuckDBTimestamp((timestamp_tz_t)ret);" = none :=
      released?_of_head (by decide)
    simp only [List.filterMap_append, hk, List.filterMap_cons, ho, hc, List.filterMap_nil,
      List.nil_append, List.append_nil]
  | cstring =>
    have hc : released? "string_t out = StringVector::AddString(result, ret);" = none :=
      released?_of_head (by decide)
    simp only [List.filterMap_append, hk, List.filterMap_cons, hr, ho, hc, List.filterMap_nil,
      List.nil_append, List.append_nil]
  | text =>
    have hc : released? "char *ret_str = text2cstring(ret);" = none :=
      released?_of_head (by decide)
    have hc' : released? "string_t out = StringVector::AddString(result, ret_str);" = none :=
      released?_of_head (by decide)
    simp only [List.filterMap_append, hk, List.filterMap_cons, hr, hs, ho, hc, hc',
      List.filterMap_nil, List.nil_append, List.append_nil]
  | scalar =>
    have hc : released? (retType ++ " out = ret;") = none := released?_of_mem (by simp)
    simp only [List.filterMap_append, hk, List.filterMap_cons, ho, hc, List.filterMap_nil,
      List.nil_append, List.append_nil]

/-! ### Lines that bind the result -/

/-- The value that a line gives to the result where it declares it. -/
def boundTo? (line : Text) : Option Text := do
  let text ← Text.before? [';'] line
  let v ← declared? line
  guard (v = result)
  match text.dropWhile (!startsInit ·) with
  | '=' :: value => some (Text.trim value)
  | _ => none

/-- A line that binds the result declares it. -/
theorem declared?_of_boundTo? {line v : Text} (h : boundTo? line = some v) :
    declared? line = some result := by
  simp only [boundTo?, bind, Option.bind_eq_some_iff] at h
  obtain ⟨_, -, x, hx, _, hg, -⟩ := h
  by_cases he : x = result
  · rw [hx, he]
  · simp [guard, he] at hg

/-- The name that the result is bound to is the trimmed value. -/
theorem boundTo?_eq_some {line v : Text} (h : boundTo? line = some v) :
    ∃ t value, line = t ++ [';'] ∧ t.dropWhile (!startsInit ·) = '=' :: value ∧
      Text.trim value = v := by
  simp only [boundTo?, bind, Option.bind_eq_some_iff, Text.before?_eq_some] at h
  obtain ⟨t, rfl, _, -, _, -, h⟩ := h
  split at h
  · next value hv =>
    exact ⟨t, value, rfl, hv, Option.some.inj h⟩
  · cases h

/-- A line that does not declare the result binds nothing to it. -/
theorem boundTo?_of_declared? {line : Text} (h : declared? line ≠ some result) :
    boundTo? line = none := by
  rw [Option.eq_none_iff_forall_ne_some]
  exact fun v hv => h (declared?_of_boundTo? hv)

/-- Lines that do not declare the result bind nothing to it. -/
theorem boundTo?_of_mem {lines names : List Text} (h : lines.filterMap declared? = names)
    (hn : ¬ result ∈ names) : ∀ line ∈ lines, boundTo? line = none := by
  intro line hl
  refine boundTo?_of_declared? fun hd => hn ?_
  rw [← h]
  exact List.mem_filterMap.mpr ⟨line, hl, hd⟩

/-- What is not a blank stays in a trim. -/
theorem mem_trim {c : Char} {s : Text} (hc : Text.isBlank c = false) (h : c ∈ s) :
    c ∈ Text.trim s := by
  have drop : ∀ {s : Text}, c ∈ s → c ∈ s.dropWhile Text.isBlank := by
    intro s hs
    rw [← List.takeWhile_append_dropWhile (p := Text.isBlank) (l := s), List.mem_append] at hs
    rcases hs with hs | hs
    · rw [List.mem_takeWhile_imp hs] at hc
      cases hc
    · exact hs
  rw [Text.trim, Text.trimBy, List.mem_reverse]
  exact drop (List.mem_reverse.mpr (drop h))

/-- The variable before the last equals sign of the line that gives a scalar back is `out`. -/
theorem declarator?_out {x v : Text} (h : declarator? (x ++ " out ") = some v) :
    v = "out".toList := by
  have hout : Text.isName "out" = true := by decide
  obtain ⟨y, ht, hy⟩ : ∃ y, Text.trim (x ++ " out ") = y ++ "out" ∧
      ∀ c, y.getLast? = some c → Text.inName c = false := by
    obtain ⟨a, z, hx, ha, hz⟩ : ∃ a z, x = a ++ z ∧ (∀ c ∈ a, Text.isBlank c = true) ∧
        ∀ c, z.head? = some c → Text.isBlank c = false := by
      refine ⟨_, _, (List.takeWhile_append_dropWhile (p := Text.isBlank)).symm,
        fun c hc => List.mem_takeWhile_imp hc, fun c hc => ?_⟩
      have := List.head?_dropWhile_not Text.isBlank x
      simpa [hc] using this
    subst hx
    cases z with
    | nil =>
      -- nothing but blanks stands before `out`
      refine ⟨[], ?_, by simp⟩
      have := Text.trim_append (a := a ++ [' ']) (t := "out") (b := [' ']) (by
        intro c hc
        rcases List.mem_append.mp hc with hc | hc
        · exact ha c hc
        · rw [List.mem_singleton.mp hc]
          decide) (List.all_eq_true.mp (by decide))
        (Text.trimmed_of_not_blank (Text.isBlank_of_isName hout))
      simpa using this
    | cons c z =>
      refine ⟨c :: z ++ [' '], ?_, fun d hd => ?_⟩
      · have := Text.trim_append (a := a) (t := c :: z ++ " out") (b := [' ']) ha
          (List.all_eq_true.mp (by decide))
          ⟨fun d hd => hz d (by simpa using hd), fun d hd => by
            rw [List.getLast?_append_of_ne_nil _ (by decide)] at hd
            cases hd
            decide⟩
        simpa using this
      · rw [List.getLast?_append_cons] at hd
        cases hd
        decide
  obtain ⟨h₁, -⟩ := takeWhile_reverse (Text.all_inName_of_isName hout) hy
  simp only [declarator?, ht, h₁, Option.ite_none_right_eq_some, Option.some.injEq] at h
  exact h.2.symm

/-- The line that gives a scalar back binds the result to no name. -/
theorem boundTo?_scalar {retType v : Text} (hv : Text.isName v = true) :
    boundTo? (retType ++ " out = ret;") ≠ some v := by
  intro h
  have hd := declared?_of_boundTo? h
  have e : retType ++ " out = ret;".toList = retType ++ " out = ret".toList ++ [';'] := by simp
  by_cases hr : ∀ c ∈ retType, startsInit c = false
  · -- the first equals sign is the one after `out`
    have hl : ∀ c ∈ retType ++ " out ", startsInit c = false := by
      intro c hc
      rcases List.mem_append.mp hc with hc | hc
      · exact hr c hc
      · exact startsInit_of_all (s := " out ") (by decide) hc
    obtain ⟨t, ht, -, hd⟩ := declared?_eq_some.mp hd
    obtain rfl := List.append_cancel_right (e.symm.trans ht)
    have e' : retType ++ " out = ret".toList =
        retType ++ " out ".toList ++ '=' :: " ret".toList := by simp
    rw [e', takeWhile_left hl (by decide)] at hd
    exact absurd (declarator?_out hd) (by decide)
  · -- what follows an earlier one contains that one
    obtain ⟨t, value, ht, hvalue, rfl⟩ := boundTo?_eq_some h
    obtain rfl := List.append_cancel_right (e.symm.trans ht)
    have hne : retType.dropWhile (!startsInit ·) ≠ [] := fun h₀ => hr fun c hc => by
      simpa using List.dropWhile_eq_nil_iff.mp h₀ c hc
    rw [Text.dropWhile_append_of_ne_nil _ hne] at hvalue
    obtain ⟨c, r, hcr⟩ := List.exists_cons_of_ne_nil hne
    rw [hcr, List.cons_append] at hvalue
    obtain ⟨-, rfl⟩ := List.cons_eq_cons.mp hvalue
    have hmem : '=' ∈ Text.trim (r ++ " out = ret") := mem_trim (by decide) (by simp)
    have := Text.all_inName_of_isName hv _ hmem
    revert this
    decide

/-! ### Released once -/

/-- How often a buffer is released under its own name or under that of the result. -/
def releases (v : Text) (names : List Text) : Nat :=
  names.countP fun x => x == v || x == result

/-- A buffer that the result is bound to is released once after that, under one of its two names;
any other is released once under its own. -/
structure ReleasedOnce (body : List Text) (v : Text) : Prop where
  shared : ∀ pre line post, body = pre ++ line :: post → boundTo? line = some v →
    releases v (post.filterMap released?) = 1
  own : (∀ line ∈ body, boundTo? line ≠ some v) → (body.filterMap released?).count v = 1

/-- The same read off the parts of a closure: the lines of the arguments, the copied lines, the line
that binds the result, and the names that are released after the empty line. -/
structure Balanced (args lines bound : List Text) (out : List Text) (v : Text) : Prop where
  argument : (∃ line ∈ args, boundTo? line = some v) →
    releases v (lines.filterMap released?) + releases v out = 1
  copy : ∀ pre line post, lines = pre ++ line :: post → boundTo? line = some v →
    releases v (post.filterMap released?) + releases v out = 1
  returned : (∃ line ∈ bound, boundTo? line = some v) → releases v out = 1
  own : (∀ line ∈ args ++ lines ++ bound, boundTo? line ≠ some v) →
    (lines.filterMap released?).count v + out.count v = 1

/-! ### Lines before and after one of them -/

section Split

variable {P : Text → Prop} {Q : List Text → Prop} {xs ys : List Text}

/-- A property of the lines behind another, for two parts. -/
theorem split_append : (∀ pre x post, xs ++ ys = pre ++ x :: post → P x → Q post) ↔
    (∀ pre x post, xs = pre ++ x :: post → P x → Q (post ++ ys)) ∧
      ∀ pre x post, ys = pre ++ x :: post → P x → Q post := by
  constructor
  · intro h
    refine ⟨fun pre x post e => h pre x (post ++ ys) ?_,
      fun pre x post e => h (xs ++ pre) x post ?_⟩
    · simp [e]
    · simp [e]
  · rintro ⟨h₁, h₂⟩ pre x post e
    rcases List.append_eq_append_iff.mp e with ⟨z, rfl, hz⟩ | ⟨z, rfl, hz⟩
    · exact h₂ z x post hz
    · cases z with
      | nil => exact h₂ [] x post hz.symm
      | cons y z =>
        obtain ⟨rfl, rfl⟩ := List.cons_eq_cons.mp hz
        exact h₁ pre x z rfl

/-- Where no line is meant there is nothing to say. -/
theorem split_of_forall_not (h : ∀ x ∈ xs, ¬ P x) :
    ∀ pre x post, xs = pre ++ x :: post → P x → Q post :=
  fun _ x _ e hx => absurd hx (h x (e ▸ by simp))

/-- Where all that follows counts the same only the existence of the line matters. -/
theorem split_of_forall {R : Prop} (h : ∀ pre x post, xs = pre ++ x :: post → (Q post ↔ R)) :
    (∀ pre x post, xs = pre ++ x :: post → P x → Q post) ↔ ((∃ x ∈ xs, P x) → R) := by
  constructor
  · rintro h' ⟨x, hx, hp⟩
    obtain ⟨pre, post, e⟩ := List.append_of_mem hx
    exact (h pre x post e).mp (h' pre x post e hp)
  · intro h' pre x post e hp
    exact (h pre x post e).mpr (h' ⟨x, e ▸ by simp, hp⟩)

end Split

theorem releases_append (v : Text) (xs ys : List Text) :
    releases v (xs ++ ys) = releases v xs + releases v ys :=
  List.countP_append

/-- Nothing is released in a part of lines that release nothing. -/
theorem filterMap_of_append {pre post xs : List Text} {x : Text} (e : xs = pre ++ x :: post)
    (h : xs.filterMap released? = []) : post.filterMap released? = [] := by
  rw [List.filterMap_eq_nil_iff] at h ⊢
  exact fun y hy => h y (e ▸ by simp [hy])

/-- Behind every line that binds the result to `v` one of the two names is released. -/
def Shared (v : Text) (body : List Text) : Prop :=
  ∀ pre line post, body = pre ++ line :: post → boundTo? line = some v →
    releases v (post.filterMap released?) = 1

section Shared

variable {v : Text} {xs ys : List Text}

theorem shared_of_unbound (h : ∀ line ∈ xs, boundTo? line ≠ some v) : Shared v xs :=
  split_of_forall_not h

/-- What is shared in two parts. -/
theorem shared_append : Shared v (xs ++ ys) ↔
    (∀ pre line post, xs = pre ++ line :: post → boundTo? line = some v →
      releases v (post.filterMap released?) + releases v (ys.filterMap released?) = 1) ∧
    Shared v ys := by
  refine split_append.trans (and_congr ?_ Iff.rfl)
  simp only [List.filterMap_append, releases_append]

theorem shared_append_of_unbound (h : ∀ line ∈ xs, boundTo? line ≠ some v) :
    Shared v (xs ++ ys) ↔ Shared v ys :=
  shared_append.trans (and_iff_right (split_of_forall_not h))

/-- Where nothing is released in the first part only the existence of the line matters. -/
theorem shared_append_of_silent (h : xs.filterMap released? = []) :
    Shared v (xs ++ ys) ↔
      ((∃ line ∈ xs, boundTo? line = some v) → releases v (ys.filterMap released?) = 1) ∧
      Shared v ys := by
  refine shared_append.trans (and_congr (split_of_forall fun pre line post e => ?_) Iff.rfl)
  rw [filterMap_of_append e h]
  simp [releases]

end Shared

/-- Lines of which only those of `args`, `lines` and `bound` bind the result to `v`, and only those
of `lines` and `output` release. -/
theorem releasedOnce_append_iff {args tag lines guard bound output out : List Text} {v : Text}
    (ha : args.filterMap released? = []) (ht : tag.filterMap released? = [])
    (hg : guard.filterMap released? = []) (hb : bound.filterMap released? = [])
    (ho : output.filterMap released? = out) (ht' : ∀ line ∈ tag, boundTo? line ≠ some v)
    (hg' : ∀ line ∈ guard, boundTo? line ≠ some v)
    (ho' : ∀ line ∈ output, boundTo? line ≠ some v) :
    ReleasedOnce (args ++ (tag ++ (lines ++ (guard ++ (bound ++ output))))) v ↔
      Balanced args lines bound out v := by
  have r₂ : (guard ++ (bound ++ output)).filterMap released? = out := by
    rw [List.filterMap_append, hg, List.filterMap_append, hb, ho, List.nil_append, List.nil_append]
  have r₃ : (tag ++ (lines ++ (guard ++ (bound ++ output)))).filterMap released? =
      lines.filterMap released? ++ out := by
    rw [List.filterMap_append, ht, List.filterMap_append, r₂, List.nil_append]
  -- of the five parts only three can bind the result to `v`
  have hshared : Shared v (args ++ (tag ++ (lines ++ (guard ++ (bound ++ output))))) ↔
      ((∃ line ∈ args, boundTo? line = some v) →
        releases v (lines.filterMap released?) + releases v out = 1) ∧
      (∀ pre line post, lines = pre ++ line :: post → boundTo? line = some v →
        releases v (post.filterMap released?) + releases v out = 1) ∧
      ((∃ line ∈ bound, boundTo? line = some v) → releases v out = 1) := by
    rw [shared_append_of_silent ha, r₃, releases_append, shared_append_of_unbound ht',
      shared_append, r₂, shared_append_of_unbound hg', shared_append_of_silent hb, ho,
      and_iff_left (shared_of_unbound ho')]
  have hcount : ((args ++ (tag ++ (lines ++ (guard ++ (bound ++ output))))).filterMap
      released?).count v = (lines.filterMap released?).count v + out.count v := by
    rw [List.filterMap_append, ha, List.nil_append, r₃, List.count_append]
  constructor
  · rintro ⟨hs, hown⟩
    obtain ⟨h₁, h₂, h₃⟩ := hshared.mp hs
    refine ⟨h₁, h₂, h₃, fun h => hcount ▸ hown fun line hl => ?_⟩
    simp only [List.mem_append] at hl h
    grind
  · rintro ⟨h₁, h₂, h₃, hown⟩
    refine ⟨hshared.mpr ⟨h₁, h₂, h₃⟩, fun h => ?_⟩
    rw [hcount]
    refine hown fun line hl => h line ?_
    simp only [List.mem_append] at hl ⊢
    grind

/-- The type tag does not bind the result. -/
theorem boundTo?_tagLines (d : Declaration) (typeParams : List Text) (n : Implementation) :
    ∀ line ∈ tagLines d typeParams n, boundTo? line = none := by
  refine boundTo?_of_mem (filterMap_tagLines d typeParams n) ?_
  unfold Implementation.typeTagVar?
  split <;> decide

/-- The lines that give the result back do not bind it. -/
theorem boundTo?_output (types : TypeTable) (d : Declaration) (retType : Text)
    (buffers : List Text) {v : Text} (hv : Text.isName v = true) :
    ∀ line ∈ outputLines types d retType buffers, boundTo? line ≠ some v := by
  have h := filterMap_outputLines types d retType buffers
  cases hf : types.resultForm d.returnType with
  | scalar =>
    intro line hl
    simp only [outputLines, hf, List.mem_append, List.mem_singleton, List.mem_map,
      List.not_mem_nil, or_false] at hl
    rcases hl with (rfl | ⟨w, -, rfl⟩) | rfl
    · exact boundTo?_scalar hv
    · rw [boundTo?_of_declared? (by rw [declared?_free]; simp)]
      simp
    · rw [boundTo?_of_declared? (by decide +kernel)]
      simp
  | _ =>
    intro line hl
    simp only [outputDeclared, hf] at h
    rw [boundTo?_of_mem h (by decide) line hl]
    simp

/-- Release can be read off the parts of a closure. -/
theorem releasedOnce_iff_balanced {types : TypeTable} {d : Declaration} {n : Implementation}
    {function symbol body v : Text} {span : Span} {c : Closure} {args : List ArgCode}
    {lines guard : List Text} (hn : Implementation.ofBody symbol body span = .ok n)
    (h : Parts types d n function c args lines guard) (hv : Text.isName v = true) :
    ReleasedOnce c.body v ↔ Balanced (args.flatMap (·.lines)) lines
      (boundLines n.shape (outputRenaming n).text (returnType types d n))
      (outputReleased types d n) v := by
  have ha : (args.flatMap (·.lines)).filterMap released? = [] := by
    rw [List.filterMap_flatMap, flatMap_of_mapM (h := fun _ => []) (fun _ _ _ ha =>
      released_argCode ha) h.args_eq]
    simp
  have ho : ([] :: outputSection types d n c.retType).filterMap released? =
      outputReleased types d n := by
    rw [List.filterMap_cons, released?_of_head (by simp), released_output hn]
  have hg : ∀ line ∈ guard, boundTo? line ≠ some v := fun line hl => by
    simp [boundTo?_of_mem (filterMap_guard h.guard_eq) (by simp) line hl]
  have ho' : ∀ line ∈ [] :: outputSection types d n c.retType, boundTo? line ≠ some v := by
    intro line hl
    rcases List.mem_cons.mp hl with rfl | hl
    · rw [boundTo?_of_declared? (by decide)]
      simp
    · exact boundTo?_output types d c.retType _ hv line hl
  rw [← releasedOnce_append_iff ha (released_tagLines d c.typeParams n) (released_guard h.guard_eq)
    (released_boundLines n.shape (outputRenaming n).text (returnType types d n)) ho
    (fun line hl => by simp [boundTo?_tagLines d c.typeParams n line hl]) hg ho', h.body_eq]
  simp only [List.append_assoc]

/-- **When each buffer of a closure is released once.**  The result may come to share a buffer by
the value of an argument, by a copied line or by the line that binds it.  From then on one of the
two names has to be released, among the copied lines that follow and the names that are released
after the empty line; of a buffer that is not shared its own name. -/
theorem released_once_iff {e : Emitter} {d : Declaration} {n : Implementation}
    {key symbol body : Text} {span : Span} {w : Wrapper}
    (hn : Implementation.ofBody symbol body span = .ok n)
    (hw : e.emit d n key = .ok (some w)) (hp : w.placeholder = false) :
    ∃ c args lines,
      Closure.make e.types e.policy d n (Key.member key) (Emitter.kindOf key) = .ok c ∧
      w.source = Emitter.source e.structName (Key.member key) (Emitter.kindOf key)
        d.params.length c ∧
      n.slots.mapM (argCode e.types d c.typeParams (Key.member key) n.symbol (outputRenaming n)) =
        .ok args ∧
      copied n.shape (outputRenaming n).text = .ok lines ∧
      ((∀ v ∈ buffers e.types d n, ReleasedOnce c.body v) ↔
        ∀ v ∈ buffers e.types d n, Balanced (args.flatMap (·.lines)) lines
          (boundLines n.shape (outputRenaming n).text (returnType e.types d n))
          (outputReleased e.types d n) v) := by
  obtain ⟨c, hc, hsource, hplace⟩ := Emitter.closure_of_emit hw
  obtain ⟨args, lines, guard, h⟩ := parts_of_make hc (hplace.symm.trans hp)
  refine ⟨c, args, lines, hc, hsource, h.args_eq, h.copied_eq, ?_⟩
  exact forall₂_congr fun v hv => releasedOnce_iff_balanced hn h (isName_of_mem_buffers hn hv)

/-- The theorem for a copy of a box. -/
theorem released_once_iff_of_copy :
    ∃ n w, Implementation.ofBody "f"
        "TBox *box = PG_GETARG_TBOX_P(0);\nPG_RETURN_TBOX_P(tbox_copy(box));" ⟨none, 0, 0⟩ = .ok n ∧
      Emitter.base.emit (.unary "tbox" "tbox") n "f" = .ok (some w) ∧ w.placeholder = false ∧
      ∃ c args lines,
        Closure.make Emitter.base.types Emitter.base.policy (.unary "tbox" "tbox") n
          (Key.member "f") (Emitter.kindOf "f") = .ok c ∧
        w.source =
          Emitter.source Emitter.base.structName (Key.member "f") (Emitter.kindOf "f") 1 c ∧
        n.slots.mapM (argCode TypeTable.base (.unary "tbox" "tbox") c.typeParams (Key.member "f")
          n.symbol (outputRenaming n)) = .ok args ∧
        copied n.shape (outputRenaming n).text = .ok lines ∧
        ((∀ v ∈ buffers TypeTable.base (.unary "tbox" "tbox") n, ReleasedOnce c.body v) ↔
          ∀ v ∈ buffers TypeTable.base (.unary "tbox" "tbox") n,
            Balanced (args.flatMap (·.lines)) lines
              (boundLines n.shape (outputRenaming n).text
                (returnType TypeTable.base (.unary "tbox" "tbox") n))
              (outputReleased TypeTable.base (.unary "tbox" "tbox") n) v) := by
  obtain ⟨n, hn, he⟩ := exists_of_satisfies (p := Emitter.emits (.unary "tbox" "tbox"))
    (x := Implementation.ofBody "f"
      "TBox *box = PG_GETARG_TBOX_P(0);\nPG_RETURN_TBOX_P(tbox_copy(box));" ⟨none, 0, 0⟩)
    (by decide +kernel)
  obtain ⟨w, hw, hp⟩ := Emitter.exists_of_emits he
  exact ⟨n, w, hn, hw, hp, released_once_iff hn hw hp⟩

/-- A box that is returned as it came in is released under both of its names. -/
theorem returned_box_released_twice :
    ∃ n w c, Implementation.ofBody "f" "TBox *box = PG_GETARG_TBOX_P(0);\nPG_RETURN_TBOX_P(box);"
        ⟨none, 0, 0⟩ = .ok n ∧
      n.slotVars.Nodup ∧
      Emitter.base.emit (.unary "tbox" "tbox") n "f" = .ok (some w) ∧ w.placeholder = false ∧
      Closure.make Emitter.base.types Emitter.base.policy (.unary "tbox" "tbox") n
        (Key.member "f") (Emitter.kindOf "f") = .ok c ∧
      "box".toList ∈ buffers TypeTable.base (.unary "tbox" "tbox") n ∧
      ¬ ReleasedOnce c.body "box" := by
  obtain ⟨n, hn, h⟩ := exists_of_satisfies (x := Implementation.ofBody "f"
      "TBox *box = PG_GETARG_TBOX_P(0);\nPG_RETURN_TBOX_P(box);" ⟨none, 0, 0⟩)
    (p := fun n => Emitter.emits (.unary "tbox" "tbox") n && decide n.slotVars.Nodup &&
      (buffers TypeTable.base (.unary "tbox" "tbox") n).contains "box".toList &&
      satisfies (Closure.make Emitter.base.types Emitter.base.policy (.unary "tbox" "tbox") n
        (Key.member "f") (Emitter.kindOf "f")) fun c =>
          c.body == c.body.take 8 ++ "TBox *ret = box;".toList :: c.body.drop 9 &&
          releases "box" ((c.body.drop 9).filterMap released?) == 2) (by decide +kernel)
  simp only [Bool.and_eq_true, decide_eq_true_eq, List.contains_iff_mem] at h
  obtain ⟨⟨⟨he, hnodup⟩, hbox⟩, hm⟩ := h
  obtain ⟨w, hw, hp⟩ := Emitter.exists_of_emits he
  obtain ⟨c, hc, hbody⟩ := exists_of_satisfies hm
  simp only [Bool.and_eq_true, beq_iff_eq] at hbody
  refine ⟨n, w, c, hn, hnodup, hw, hp, hc, hbox, fun hr => ?_⟩
  have := hr.shared _ _ _ hbody.1 (by decide +kernel)
  rw [hbody.2] at this
  cases this

end VectorWrap.Closure
