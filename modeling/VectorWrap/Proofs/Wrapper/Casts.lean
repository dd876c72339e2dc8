import VectorWrap.Proofs.Wrapper.Assignments

/-!
# Lines with a cast

A line that allocates is written once more, with a cast in front of `malloc(`.  The value it is
written with no longer begins with `malloc(`, so one cast is all there ever is, and what is read of
the line stays as it was (`cast_round_trip`).  Of the value a semicolon may be lost: the reading
strips the semicolons at the end of a line only where no blank stands between them, and those it
leaves stand next to the one that is written behind them (`recasts_iff`).

Writing the line is an identity on what is read but for the end of the value, since a written line
has one blank on each side of its sign; reading it once more gives the same again, so that casting
twice is casting once.
-/

namespace VectorWrap

namespace Assignment

variable {value : Text}

/-- A value is read back as it is unless it ends with a semicolon itself. -/
theorem body_value_iff (ht : Text.Trimmed value) (hn : value ≠ []) :
    body (value ++ [';']) = value ↔ value.getLast? ≠ some ';' := by
  obtain ⟨x, c, rfl⟩ := List.eq_nil_or_concat' value |>.resolve_left hn
  have closed : Text.Trimmed (x ++ [c] ++ [';']) := by
    refine ⟨Text.Flush.append ht.head hn _, fun d hd => ?_⟩
    rw [List.getLast?_append_cons] at hd
    cases hd
    decide
  have dropped : Text.trimEndBy (· == ';') (x ++ [c] ++ [';']) =
      Text.trimEndBy (· == ';') (x ++ [c]) := by
    simp [Text.trimEndBy]
  rw [body, Text.trim_of_trimmed closed, dropped, List.getLast?_append_cons,
    List.getLast?_singleton, Ne, Option.some.injEq]
  constructor
  · rintro same rfl
    have shorter : (Text.trim (Text.trimEndBy (· == ';') (x ++ [';']))).length ≤ x.length := by
      have whole : Text.trimEndBy (· == ';') (x ++ [';']) = Text.trimEndBy (· == ';') x := by
        simp [Text.trimEndBy]
      rw [whole]
      exact (Text.trim_isInfix _).length_le.trans (Text.trimEndBy_prefix _ x).length_le
    rw [same, List.length_append, List.length_singleton] at shorter
    omega
  · intro other
    have kept : Text.trimEndBy (· == ';') (x ++ [c]) = x ++ [c] := by
      simp [Text.trimEndBy, other]
    rw [kept, Text.trim_of_trimmed ht]

end Assignment

namespace Closure
open Assignment

/-! ### The line with its cast -/

/-- The second reading gives the first one, or the value with a cast to its type in front. -/
def Recasts (a? b? : Option Assignment) : Prop :=
  b? = a? ∨ ∃ type var value, a? = some ⟨some type, var, value⟩ ∧ "malloc(".toList <+: value ∧
    b? = some ⟨some type, var, "(" ++ type ++ ")" ++ value⟩

/-- A value that does not allocate gets no cast. -/
theorem castAlloc_of_value {line type var value : Text}
    (h : ofLine line = .ok (some ⟨some type, var, value⟩)) (hm : ¬ "malloc(".toList <+: value) :
    castAlloc line = .ok line := by
  rcases castAlloc_cases h with same | ⟨_, _, _, e, -, hm', -⟩
  · exact same
  · cases e
    exact absurd hm' hm

theorem not_malloc_cast (type value : Text) :
    ¬ "malloc(".toList <+: "(" ++ type ++ ")" ++ value := by
  simp

/-- The cast is all that is put in unless semicolons are lost from the value. -/
theorem recasts_iff {type var value : Text} (hm : "malloc(".toList <+: value)
    (ht : Text.Trimmed value) :
    Recasts (some ⟨some type, var, value⟩)
        (some ⟨some type, var, "(" ++ type ++ ")" ++ Assignment.body (value ++ [';'])⟩) ↔
      value.getLast? ≠ some ';' := by
  have ne_nil : value ≠ [] := by
    rintro rfl
    simp at hm
  rw [← body_value_iff ht ne_nil]
  constructor
  · rintro (same | ⟨_, _, _, first, -, second⟩) <;>
      simp only [Option.some.injEq, Assignment.mk.injEq, true_and] at *
    · rw [← same] at hm
      exact absurd hm (not_malloc_cast _ _)
    · obtain ⟨rfl, rfl, rfl⟩ := first
      exact List.append_cancel_left second.2.2
  · intro kept
    rw [kept]
    exact .inr ⟨_, _, _, rfl, hm, rfl⟩

/-- **Assignments are read back as they are written, and a cast changes nothing else.**

A type of words parted by single spaces, without an equals sign or a bracket, a name and a trimmed
value that does not end with a semicolon are read from the line they are written to.  Of every line
that can be read, the copy with the cast can be read too; it gets no second cast, allocates what the
line allocates and assigns to the same variable, of the same type.  The value is that of the line,
or has the cast in front, exactly if the line is copied as it is or its value does not end with a
semicolon. -/
theorem cast_round_trip (ws : List Text) (var value line : Text) (a? : Option Assignment) :
    (ws ≠ [] → (∀ w ∈ ws, w ≠ [] ∧ ∀ c ∈ w, Text.isBlank c = false) →
      '=' ∉ Text.joinWith " " ws → '(' ∉ Text.joinWith " " ws → Text.isName var = true →
      Text.trim value = value → value ≠ [] → value.getLast? ≠ some ';' →
        ofLine (Fragment.bind (Text.joinWith " " ws) var value) =
          .ok (some ⟨some (Text.joinWith " " ws), var, value⟩)) ∧
    (ofLine line = .ok a? →
      ∃ copy b?, castAlloc line = .ok copy ∧ ofLine copy = .ok b? ∧
        castAlloc copy = .ok copy ∧
        (∀ x, allocates copy x = allocates line x) ∧
        b?.map (fun b => (b.type?, b.var)) = a?.map (fun a => (a.type?, a.var)) ∧
        (Recasts a? b? ↔ copy = line ∨ ∀ a, a? = some a → a.value.getLast? ≠ some ';')) := by
  constructor
  · intro hn hw he hp hv ht hne hl
    have trimmed : Text.Trimmed value := ht ▸ Text.trimmed_trim value
    have type := typeText_joinWith hn hw he hp
    have read := (body_value_iff trimmed hne).mpr hl
    have back := ofLine_bind type hv trimmed.head (by rw [read]; exact hne)
    rwa [read] at back
  · intro h
    rcases castAlloc_cases h with same | ⟨type, var, value, rfl, -, hm, put⟩
    · exact ⟨line, a?, same, h, same, fun _ => rfl, rfl, iff_of_true (.inl rfl) (.inl rfl)⟩
    · have again := ofLine_cast hm h
      have settled := castAlloc_of_value again (not_malloc_cast type _)
      have trimmed := trimmed_of_ofLine h
      refine ⟨_, _, put, again, settled, allocates_castAlloc put, rfl, fun recasts => ?_, ?_⟩
      · refine .inr fun a e => ?_
        cases e
        exact (recasts_iff hm trimmed).mp recasts
      · rintro (same | plain)
        · rw [same, h] at again
          exact .inl (Except.ok.inj again).symm
        · exact (recasts_iff hm trimmed).mpr (plain _ rfl)

/-- The theorem for a type of two words, with a comparison and an assignment in the value, and for
a line that gets the cast. -/
theorem cast_round_trip_of_pointer :
    ofLine "const Span *s = a == b ? c = d : e;" =
      .ok (some ⟨some "const Span *", "s", "a == b ? c = d : e"⟩) ∧
    ∃ copy b?, castAlloc "Span *s = malloc(8);" = .ok copy ∧ ofLine copy = .ok b? ∧
      Recasts (some ⟨some "Span *", "s", "malloc(8)"⟩) b? := by
  obtain ⟨written, cast⟩ := cast_round_trip ["const".toList, "Span".toList, "*".toList] "s"
    "a == b ? c = d : e" "Span *s = malloc(8);" (some ⟨some "Span *", "s", "malloc(8)"⟩)
  constructor
  · have words : ∀ w ∈ ["const".toList, "Span".toList, "*".toList],
        w ≠ [] ∧ ∀ c ∈ w, Text.isBlank c = false := by
      simp [Text.isBlank, Text.blankRanges]
    exact written (by decide) words (by decide +kernel) (by decide +kernel) (by decide +kernel)
      (by decide +kernel) (by decide +kernel) (by decide +kernel)
  · obtain ⟨copy, b?, put, again, -, -, -, recasts⟩ := cast (by decide +kernel)
    refine ⟨copy, b?, put, again, recasts.mpr (.inr fun a e => ?_)⟩
    cases e
    decide +kernel

/-- A semicolon that a blank parts from the last one is left in the value, and lost from it when the
cast has been put in. -/
theorem cast_loses_semicolon :
    ∃ a copy b, ofLine "Span *s = malloc(8); ;" = .ok (some a) ∧
      castAlloc "Span *s = malloc(8); ;" = .ok copy ∧ ofLine copy = .ok (some b) ∧
      a.value = "malloc(8);".toList ∧ b.value = "(Span *)malloc(8)".toList ∧
      ¬ Recasts (some a) (some b) := by
  refine ⟨⟨some "Span *", "s", "malloc(8);"⟩, "Span *s = (Span *)malloc(8);;",
    ⟨some "Span *", "s", "(Span *)malloc(8)"⟩, by decide +kernel, by decide +kernel,
    by decide +kernel, rfl, rfl, ?_⟩
  rintro (same | ⟨_, _, _, first, -, second⟩)
  · simp at same
  · cases first
    simp at second

end Closure

end VectorWrap
