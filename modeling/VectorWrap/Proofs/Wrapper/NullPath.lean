import VectorWrap.Proofs.Wrapper.Allocations

/-!
# What a null guard releases

On its null path a closure releases the buffers of its arguments, and after them the result if the
line of setup is noted as an allocation of it (`guardLines_eq_ok`).  Nothing is noted of any other
variable.

So the null path releases just what has been allocated before it when the names of the buffers are
distinct and what the setup allocates is a buffer's name or the result, noted as such
(`releases_allocated_iff`).  The usual line is noted (`isNoted_of_setup`); memory for a variable
that is not returned is lost on the null path (`null_path_leaks`).

The two sides are about names: `Accounted` speaks of what the body allocates, `ReleasesAllocated` of
the names that the guard releases.  They are compared first for any lists of names, and only then
for the guard that a closure has.
-/

namespace VectorWrap.Closure

/-! ### What is allocated -/

/-- The line of setup, if there is one, assigns what `palloc` gives to the variable. -/
def AllocatesInto (setup? : Option Text) (v : Text) : Prop :=
  ∃ setup ∈ setup?, Assignment.Calls palloc setup v

/-- The line of setup, if there is one, is noted under its new names. -/
def NotesSetup (rename : Text → Text) (setup? : Option Text) : Prop :=
  ∃ setup ∈ setup?, IsNoted (rename setup)

/-- The names are those of what has been allocated, each of them once: the buffers of the arguments
and what the setup allocates. -/
structure ReleasesAllocated (rename : Text → Text) (buffers : List Text) (setup? : Option Text)
    (frees : List Text) : Prop where
  argument : ∀ v ∈ buffers, frees.count v = 1
  output : ∀ v, AllocatesInto setup? v → frees.count (rename v) = 1
  only : ∀ x ∈ frees, x ∈ buffers ∨ ∃ v, AllocatesInto setup? v ∧ rename v = x

/-- All that is allocated can be told by its name and is noted. -/
structure Accounted (rename : Text → Text) (buffers : List Text) (setup? : Option Text) :
    Prop where
  distinct : buffers.Nodup
  found : ∀ v, AllocatesInto setup? v →
    rename v ∈ buffers ∨ rename v = result ∧ NotesSetup rename setup?
  noted : NotesSetup rename setup? →
    result ∉ buffers ∧ ∃ v, AllocatesInto setup? v ∧ rename v = result

/-- The lines of a guard: the line of setup, and the guard with the names that it releases. -/
theorem guardLines_eq_ok {rename : Text → Text} {retType : Text} {buffers : List Text}
    {setup? : Option Text} {guard : Text} {lines : List Text}
    (h : guardLines rename retType buffers setup? guard = .ok lines) :
    ∃ copies own, lines =
        copies ++ Fragment.nullGuard (rename guard) (buffers ++ own) retType ∧
      (own = [] ∨ own = [result]) ∧ (result ∈ own ↔ NotesSetup rename setup?) ∧
      ∀ setup ∈ setup?, ∃ a?, Assignment.ofLine (rename setup) = .ok a? := by
  cases setup? with
  | none =>
    cases h
    exact ⟨[], [], by simp, .inl rfl, by simp [NotesSetup], by simp⟩
  | some setup =>
    obtain ⟨line, hl, h⟩ := bind_eq_ok.mp h
    obtain ⟨own, hown, h⟩ := bind_eq_ok.mp h
    cases h
    obtain ⟨a?, ha, -⟩ := bind_eq_ok.mp hl
    have noted : own = true ↔ NotesSetup rename (some setup) := by
      rw [NotesSetup]
      simp only [Option.mem_some_iff, exists_eq_left']
      rw [← allocates_eq_true, ← allocates_castAlloc hl, hown, Except.ok.injEq]
    refine ⟨[line], if own then [result] else [], rfl, ?_, ?_, ?_⟩
    · cases own <;> simp
    · rw [← noted]
      cases own <;> simp
    · intro s hs
      cases hs
      exact ⟨a?, ha⟩

/-! ### What is released -/

section released

variable {rename : Text → Text} {buffers own : List Text} {setup? : Option Text}

/-- Of its own the guard releases the result and nothing else. -/
theorem eq_result_of_mem_own (hown : own = [] ∨ own = [result]) {x : Text} (hx : x ∈ own) :
    x = result := by
  rcases hown with rfl | rfl
  · cases hx
  · exact List.mem_singleton.mp hx

/-- Where what is allocated is released, it is accounted for. -/
theorem ReleasesAllocated.accounted (hown : own = [] ∨ own = [result])
    (hnoted : result ∈ own ↔ NotesSetup rename setup?)
    (h : ReleasesAllocated rename buffers setup? (buffers ++ own)) :
    Accounted rename buffers setup? where
  distinct := by
    refine List.nodup_iff_count_le_one.mpr fun v => ?_
    by_cases hv : v ∈ buffers
    · have := h.argument v hv
      rw [List.count_append] at this
      omega
    · rw [List.count_eq_zero_of_not_mem hv]
      exact Nat.zero_le 1
  found v hv := by
    have count := h.output v hv
    have mem : rename v ∈ buffers ++ own := List.count_pos_iff.mp (by omega)
    rcases List.mem_append.mp mem with hb | ho
    · exact .inl hb
    · have := eq_result_of_mem_own hown ho
      exact .inr ⟨this, hnoted.mp (this ▸ ho)⟩
  noted hn := by
    have ho := hnoted.mpr hn
    -- a buffer of that name would be released twice
    have absent : result ∉ buffers := by
      intro hb
      have count := h.argument result hb
      have one := List.count_pos_iff.mpr hb
      have two := List.count_pos_iff.mpr ho
      rw [List.count_append] at count
      omega
    exact ⟨absent, (h.only result (List.mem_append_right _ ho)).resolve_left absent⟩

/-- What is accounted for is released once. -/
theorem Accounted.releasesAllocated (hown : own = [] ∨ own = [result])
    (hnoted : result ∈ own ↔ NotesSetup rename setup?) (h : Accounted rename buffers setup?) :
    ReleasesAllocated rename buffers setup? (buffers ++ own) := by
  have once : ∀ v ∈ buffers, (buffers ++ own).count v = 1 := by
    intro v hv
    have absent : v ∉ own := by
      intro ho
      obtain rfl := eq_result_of_mem_own hown ho
      exact (h.noted (hnoted.mp ho)).1 hv
    rw [List.count_append, List.count_eq_one_of_mem h.distinct hv,
      List.count_eq_zero_of_not_mem absent]
  refine ⟨once, fun v hv => ?_, fun x hx => ?_⟩
  · rcases h.found v hv with hb | ⟨hr, hn⟩
    · exact once _ hb
    · have ho := hnoted.mpr hn
      rcases hown with rfl | rfl
      · cases ho
      · rw [hr, List.count_append, List.count_eq_zero_of_not_mem (h.noted hn).1]
        simp
  · rcases List.mem_append.mp hx with hb | ho
    · exact .inl hb
    · obtain rfl := eq_result_of_mem_own hown ho
      exact .inr (h.noted (hnoted.mp ho)).2

/-- The names released on the null path are those of what has been allocated exactly when all of it
is accounted for. -/
theorem releasesAllocated_iff (hown : own = [] ∨ own = [result])
    (hnoted : result ∈ own ↔ NotesSetup rename setup?) :
    ReleasesAllocated rename buffers setup? (buffers ++ own) ↔
      Accounted rename buffers setup? :=
  ⟨ReleasesAllocated.accounted hown hnoted, Accounted.releasesAllocated hown hnoted⟩

end released

/-- The usual line of setup is noted: the parenthesis stands right behind `palloc`, and the variable
becomes the result. -/
theorem isNoted_of_setup {n : Implementation} {setup v : Text} (hp : palloc ∉ outputs n)
    (h : Assignment.Calls palloc setup v)
    (tight : [.identifier palloc, .mark '('] <:+: Text.tokens setup)
    (hv : (outputRenaming n).text v = result) {a? : Option Assignment}
    (hr : Assignment.ofLine ((outputRenaming n).text setup) = .ok a?) :
    IsNoted ((outputRenaming n).text setup) := by
  have names := isName_outputRenaming n
  have standsFor : (outputRenaming n).apply palloc = malloc := by
    rw [apply_outputRenaming, if_neg hp]
    rfl
  have name : Text.isName v = true := by
    obtain ⟨type, cast, rest, code, -⟩ := h
    have hm : Token.identifier v ∈ Text.code setup := by
      rw [code]
      simp
    exact (Text.isName_of_mem_tokens (List.mem_filter.mp hm).1).1
  have calls := h.text names
  rw [standsFor, ← Renaming.text_of_isName _ name, hv] at calls
  refine isNoted_of_calls calls ?_ hr
  have renamed := tight.map (outputRenaming n).token
  rw [← Renaming.tokens_text names] at renamed
  have pair : [Token.identifier palloc, .mark '('].map (outputRenaming n).token =
      [.identifier malloc, .mark '('] := by
    simp only [List.map_cons, List.map_nil, Renaming.token, standsFor]
  rwa [pair] at renamed

/-! ### The closure -/

/-- A closure with a guard: what stands before it, and what it releases. -/
theorem guarded_of_make {types : TypeTable} {policy : PlaceholderPolicy} {d : Declaration}
    {n : Implementation} {function : Text} {kind : WrapperKind} {c : Closure}
    {setup? : Option Text} {guard expr : Text} (hs : n.shape = .guarded setup? guard expr)
    (h : make types policy d n function kind = .ok c) :
    ∃ args copies own after,
      n.slots.mapM (argCode types d c.typeParams function n.symbol (outputRenaming n)) = .ok args ∧
      args.filterMap (·.buffer?) = buffers types d n ∧
      c.body = args.flatMap (·.lines) ++ tagLines d c.typeParams n ++ copies ++
        Fragment.nullGuard ((outputRenaming n).text guard) (buffers types d n ++ own) c.retType ++
          after ∧
      (own = [] ∨ own = [result]) ∧
      (result ∈ own ↔ NotesSetup (outputRenaming n).text setup?) ∧
      ∀ setup ∈ setup?, ∃ a?, Assignment.ofLine ((outputRenaming n).text setup) = .ok a? := by
  obtain ⟨args, call?, made⟩ := made_of_make h
  have hc := made.call_eq
  rw [hs] at hc
  obtain ⟨lines, hlines, hc⟩ := bind_eq_ok.mp hc
  cases hc
  obtain ⟨copies, own, rfl, hown, hnoted, hread⟩ := guardLines_eq_ok hlines
  refine ⟨args, copies, own, ?_, made.args_eq, made.buffers_eq, ?_, hown, hnoted, hread⟩
  rotate_left
  · simp only [made.body_eq, lastLines, CallCode.after, List.append_assoc]
    rfl

/-- **What the null path releases.**  Where a wrapper has a null guard, what is released there is
what has been allocated before it, each buffer once and nothing else, exactly when the buffers have
distinct names and what the setup allocates goes by the name of one of them or is noted as the
result.  The usual line of setup for the result is noted. -/
theorem releases_allocated_iff {e : Emitter} {d : Declaration} {n : Implementation} {key : Text}
    {w : Wrapper} {setup? : Option Text} {guard expr : Text}
    (hs : n.shape = .guarded setup? guard expr) (hw : e.emit d n key = .ok (some w)) :
    ∃ c args copies frees after,
      Closure.make e.types e.policy d n (Key.member key) (Emitter.kindOf key) = .ok c ∧
      w.source = Emitter.source e.structName (Key.member key) (Emitter.kindOf key)
        d.params.length c ∧
      n.slots.mapM (argCode e.types d c.typeParams (Key.member key) n.symbol (outputRenaming n)) =
        .ok args ∧
      args.filterMap (·.buffer?) = buffers e.types d n ∧
      c.body = args.flatMap (·.lines) ++ tagLines d c.typeParams n ++ copies ++
        Fragment.nullGuard ((outputRenaming n).text guard) frees c.retType ++ after ∧
      (ReleasesAllocated (outputRenaming n).text (buffers e.types d n) setup? frees ↔
        Accounted (outputRenaming n).text (buffers e.types d n) setup?) ∧
      ∀ setup ∈ setup?, ∀ v, palloc ∉ outputs n → Assignment.Calls palloc setup v →
        [.identifier palloc, .mark '('] <:+: Text.tokens setup →
        (outputRenaming n).text v = result → NotesSetup (outputRenaming n).text setup? := by
  obtain ⟨c, hc, hsource, -⟩ := Emitter.closure_of_emit hw
  obtain ⟨args, copies, own, after, ha, hb, hbody, hown, hnoted, hread⟩ := guarded_of_make hs hc
  refine ⟨c, args, copies, _, after, hc, hsource, ha, hb, hbody, releasesAllocated_iff hown hnoted,
    fun setup hsetup v hp calls tight hv => ?_⟩
  obtain ⟨a?, hr⟩ := hread setup hsetup
  exact ⟨setup, hsetup, isNoted_of_setup hp calls tight hv hr⟩

/-! ### Fixed bodies -/

/-- A body that allocates a box for its variable, and returns what it computes. -/
def boxBody (var result : Text) : Text :=
  "Span *s = PG_GETARG_SPAN_P(0);\nTBox *" ++ var ++ " = palloc(sizeof(TBox));\n" ++
    "if (! numspan_set_tbox(s, " ++ var ++ "))\n  PG_RETURN_NULL();\n" ++ result

/-- The theorem for a box that is returned. -/
theorem releases_allocated_iff_of_box : ∃ n w,
    Implementation.ofBody "f" (boxBody "result" "PG_RETURN_TBOX_P(result);") ⟨none, 0, 0⟩ = .ok n ∧
      n.shape = .guarded (some "TBox *result = palloc(sizeof(TBox));".toList)
        "! numspan_set_tbox(s, result)" "result" ∧
      Emitter.base.emit (.unary "intspan" "tbox") n "f" = .ok (some w) ∧
      ∃ c args copies frees after,
        Closure.make TypeTable.base Emitter.base.policy (.unary "intspan" "tbox") n
          (Key.member "f") (Emitter.kindOf "f") = .ok c ∧
        w.source =
          Emitter.source Emitter.base.structName (Key.member "f") (Emitter.kindOf "f") 1 c ∧
        n.slots.mapM (argCode TypeTable.base (.unary "intspan" "tbox") c.typeParams
          (Key.member "f") n.symbol (outputRenaming n)) = .ok args ∧
        args.filterMap (·.buffer?) = buffers TypeTable.base (.unary "intspan" "tbox") n ∧
        c.body = args.flatMap (·.lines) ++ tagLines (.unary "intspan" "tbox") c.typeParams n ++
          copies ++ Fragment.nullGuard ((outputRenaming n).text "! numspan_set_tbox(s, result)")
            frees c.retType ++ after ∧
        (ReleasesAllocated (outputRenaming n).text
            (buffers TypeTable.base (.unary "intspan" "tbox") n)
            (some "TBox *result = palloc(sizeof(TBox));".toList) frees ↔
          Accounted (outputRenaming n).text
            (buffers TypeTable.base (.unary "intspan" "tbox") n)
            (some "TBox *result = palloc(sizeof(TBox));".toList)) ∧
        ∀ setup ∈ some "TBox *result = palloc(sizeof(TBox));".toList, ∀ v, palloc ∉ outputs n →
          Assignment.Calls palloc setup v →
          [.identifier palloc, .mark '('] <:+: Text.tokens setup →
          (outputRenaming n).text v = result → NotesSetup (outputRenaming n).text
            (some "TBox *result = palloc(sizeof(TBox));".toList) := by
  obtain ⟨n, hn, h⟩ := exists_of_satisfies
    (x := Implementation.ofBody "f" (boxBody "result" "PG_RETURN_TBOX_P(result);") ⟨none, 0, 0⟩)
    (p := fun n => Emitter.emits (.unary "intspan" "tbox") n &&
      n.shape == .guarded (some "TBox *result = palloc(sizeof(TBox));".toList)
        "! numspan_set_tbox(s, result)" "result") (by decide +kernel)
  rw [Bool.and_eq_true, beq_iff_eq] at h
  obtain ⟨w, hw, -⟩ := Emitter.exists_of_emits h.1
  exact ⟨n, w, hn, h.2, hw, releases_allocated_iff h.2 hw⟩

/-- A box that is not returned is lost on the null path. -/
theorem null_path_leaks : ∃ n w c before after,
    Implementation.ofBody "f" (boxBody "box" "PG_RETURN_FLOAT8(tbox_xmax(box));") ⟨none, 0, 0⟩ =
        .ok n ∧
      n.shape = .guarded (some "TBox *box = palloc(sizeof(TBox));".toList)
        "! numspan_set_tbox(s, box)" "tbox_xmax(box)" ∧
      Emitter.base.emit (.unary "intspan" "float") n "f" = .ok (some w) ∧
      Closure.make TypeTable.base Emitter.base.policy (.unary "intspan" "float") n
        (Key.member "f") (Emitter.kindOf "f") = .ok c ∧
      buffers TypeTable.base (.unary "intspan" "float") n = ["s".toList] ∧
      c.body =
        before ++ Fragment.nullGuard "! numspan_set_tbox(s, box)" ["s"] c.retType ++ after ∧
      AllocatesInto (some "TBox *box = palloc(sizeof(TBox));".toList) "box" ∧
      (outputRenaming n).text "box" = "box".toList ∧
      ¬ ReleasesAllocated (outputRenaming n).text ["s".toList]
        (some "TBox *box = palloc(sizeof(TBox));".toList) ["s"] := by
  obtain ⟨n, hn, h⟩ := exists_of_satisfies
    (x := Implementation.ofBody "f" (boxBody "box" "PG_RETURN_FLOAT8(tbox_xmax(box));")
      ⟨none, 0, 0⟩)
    (p := fun n => Emitter.emits (.unary "intspan" "float") n &&
      n.shape == .guarded (some "TBox *box = palloc(sizeof(TBox));".toList)
        "! numspan_set_tbox(s, box)" "tbox_xmax(box)" &&
      buffers TypeTable.base (.unary "intspan" "float") n == ["s".toList] &&
      (outputRenaming n).text "box" == "box".toList &&
      satisfies (Closure.make TypeTable.base Emitter.base.policy (.unary "intspan" "float") n
        (Key.member "f") (Emitter.kindOf "f")) fun c =>
          c.body == c.body.take 9 ++ Fragment.nullGuard "! numspan_set_tbox(s, box)" ["s"] c.retType
            ++ c.body.drop 14) (by decide +kernel)
  simp only [Bool.and_eq_true, beq_iff_eq] at h
  obtain ⟨⟨⟨⟨he, hs⟩, hb⟩, hv⟩, hm⟩ := h
  obtain ⟨w, hw, -⟩ := Emitter.exists_of_emits he
  obtain ⟨c, hc, hbody⟩ := exists_of_satisfies hm
  have allocates : AllocatesInto (some "TBox *box = palloc(sizeof(TBox));".toList) "box" := by
    refine ⟨_, rfl, [.identifier "TBox", .mark '*'], [], [.identifier "sizeof", .mark '(',
      .identifier "TBox", .mark ')', .mark ')', .mark ';'], ?_, ⟨by decide, by decide⟩, .inl rfl⟩
    decide +kernel
  refine ⟨n, w, c, _, _, hn, hs, hw, hc, hb, beq_iff_eq.mp hbody, allocates, hv, fun hr => ?_⟩
  have := hr.output "box" allocates
  rw [hv] at this
  revert this
  decide

end VectorWrap.Closure
