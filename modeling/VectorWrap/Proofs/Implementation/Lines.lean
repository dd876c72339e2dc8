import VectorWrap.Proofs.Implementation.ReturnForm
import VectorWrap.Proofs.Text.Infix
import VectorWrap.Proofs.Wrapper.Anatomy
import VectorWrap.Proofs.Wrapper.Declared

/-!
# Processing lines

A logical line is dropped as idle, kept without the braces at its ends, or split into the head and
the statement of an `if`.  What is kept stands in the logical line (`infix_of_mem_working`), so no
processing line has a fetch (`no_fetch`).

A line of a guard or of an assignment is likewise put together from the texts of its parts
(`exists_parts`), so that each text that is written out again stands in the line that was read.
-/

namespace VectorWrap

namespace Line

/-- What is left without the braces at the ends is a part of the line. -/
theorem unbrace_isInfix (s : Text) : unbrace s <:+: s :=
  (Text.trim_isInfix _).trans (Text.trimBy_isInfix isBrace s)

/-- A group and what follows it are the text. -/
theorem append_of_afterGroup? {depth : Int} {s a b : Text} (h : afterGroup? depth s = some (a, b)) :
    s = a ++ b := by
  induction s generalizing depth a with
  | nil => cases h
  | cons c s ih =>
    rw [afterGroup?] at h
    split at h
    · cases h
      rfl
    · obtain ⟨⟨a', b'⟩, h, e⟩ := Option.map_eq_some_iff.mp h
      cases e
      rw [ih h, List.cons_append]

/-- An `if` is split behind its parenthesis. -/
theorem parts_of_splitIf? {line head statement : Text}
    (h : splitIf? line = some (head, statement)) :
    ∃ tail, line = head ++ tail ∧ statement = unbrace (Text.trim tail) ∧ statement ≠ [] := by
  obtain ⟨rest, hr, h⟩ := Option.bind_eq_some_iff.mp h
  obtain ⟨-, -, h⟩ := Option.bind_eq_some_iff.mp h
  obtain ⟨⟨group, tail⟩, hg, h⟩ := Option.bind_eq_some_iff.mp h
  obtain ⟨_, hs, h⟩ := Option.bind_eq_some_iff.mp h
  cases h
  have hne : unbrace (Text.trim tail) ≠ [] := by
    rintro e
    rw [e] at hs
    cases hs
  have hif : line = "if".toList ++ rest := Text.after?_eq_some.mp hr
  have hgroup := append_of_afterGroup? hg
  refine ⟨tail, ?_, rfl, hne⟩
  rw [hif, List.append_assoc, List.append_assoc, ← hgroup, List.takeWhile_append_dropWhile]

/-- The head of an `if` begins with the word. -/
theorem head_of_splitIf? {line head statement : Text}
    (h : splitIf? line = some (head, statement)) : ∃ rest, head = "if".toList ++ rest := by
  obtain ⟨rest, -, h⟩ := Option.bind_eq_some_iff.mp h
  obtain ⟨-, -, h⟩ := Option.bind_eq_some_iff.mp h
  obtain ⟨⟨group, tail⟩, -, h⟩ := Option.bind_eq_some_iff.mp h
  obtain ⟨-, -, h⟩ := Option.bind_eq_some_iff.mp h
  cases h
  exact ⟨_, List.append_assoc _ _ _⟩

/-- A processing line of a logical line: the line without the braces at its ends, or the head or the
statement of the `if` that it is. -/
theorem working_cases {line t : Text} (h : t ∈ working line) :
    isIdle (unbrace line) = false ∧
      (splitIf? (unbrace line) = none ∧ t = unbrace line ∨
        ∃ head statement, splitIf? (unbrace line) = some (head, statement) ∧
          (t = head ∨ t = statement)) := by
  unfold working at h
  dsimp only at h
  split at h
  · cases h
  · next hi =>
    refine ⟨by simpa using hi, ?_⟩
    split at h
    · next head statement hs => exact .inr ⟨head, statement, hs, List.mem_pair.mp h⟩
    · next hs => exact .inl ⟨hs, List.mem_singleton.mp h⟩

/-- A processing line stands in the logical line without its braces. -/
theorem infix_of_mem_working {line t : Text} (h : t ∈ working line) : t <:+: unbrace line := by
  obtain ⟨-, ⟨-, rfl⟩ | ⟨head, statement, hs, ht⟩⟩ := working_cases h
  · exact List.infix_rfl
  · obtain ⟨tail, hline, hst, -⟩ := parts_of_splitIf? hs
    rw [hline]
    rcases ht with rfl | rfl
    · exact (List.prefix_append _ _).isInfix
    · rw [hst]
      exact ((unbrace_isInfix _).trans (Text.trim_isInfix _)).trans (List.suffix_append _ _).isInfix

/-- What the name of a fetching macro begins with. -/
def fetchMark : Text := "PG_GETARG_"

/-- No processing line has a fetch. -/
theorem no_fetch {body t : Text} (h : t ∈ ofBody body) : ¬ fetchMark <:+: t := by
  obtain ⟨line, -, ht⟩ := List.mem_flatMap.mp h
  have hi := (working_cases ht).1
  intro hf
  have hc := Text.contains_iff.mpr (hf.trans (infix_of_mem_working ht))
  simp only [isIdle, Bool.or_eq_false_iff] at hi
  have hn : Text.contains fetchMark (unbrace line) = false := hi.1.1.2
  rw [hn] at hc
  cases hc

end Line

/-! ### What the parts of a shape are read from -/

namespace Return
open Scan

/-- The returned expression stands in the line. -/
theorem infix_of_ofLine? {line kind value : Text} (h : ofLine? line = some (kind, value)) :
    value <:+: line := by
  obtain ⟨-, f, e, rfl, rfl⟩ := exists_frame h
  exact (Text.trim_isInfix e).trans
    ⟨f.left ++ "PG_RETURN_" ++ kind ++ f.between ++ "(", ")" ++ f.ending, by simp [Frame.line]⟩

end Return

namespace Assignment

theorem body_isInfix (line : Text) : body line <:+: line :=
  (Text.trim_isInfix _).trans ((Text.trimEndBy_prefix _ _).isInfix.trans (Text.trim_isInfix _))

/-- What holds neither a blank nor a semicolon and occurs in a line occurs in its body. -/
theorem infix_body {line w : Text} (hb : ∀ c ∈ w, Text.isBlank c = false ∧ (c == ';') = false)
    (hw : w <:+: line) : w <:+: body line := by
  have blank : ∀ c ∈ w, Text.isBlank c = false := fun c hc => (hb c hc).1
  exact Text.infix_trim blank
    (Text.infix_trimEndBy (fun c hc => (hb c hc).2) (Text.infix_trim blank hw))

/-- A left side is what stands before the variable, and the variable. -/
theorem append_of_target {left before v : Text} (h : target left = .ok (before, v)) :
    left = before ++ v := by
  have parts := congrArg List.reverse
    (List.takeWhile_append_dropWhile (p := Text.inName) (l := left.reverse))
  rw [List.reverse_append, List.reverse_reverse] at parts
  rw [target] at h
  split at h
  · next hn =>
    cases h
    rw [List.getLast?_eq_none_iff.mp hn] at parts
    exact parts.symm
  · split_ifs at h
    cases h
    exact parts.symm

/-- The parts of what a line assigns. -/
theorem exists_parts {line : Text} {a : Assignment} (h : ofLine line = .ok (some a)) :
    ∃ l r before, atEquals? ' ' (body line) = some (l, r) ∧ a.value = Text.trim r ∧
      a.value ≠ [] ∧ '(' ∉ Text.trim l ∧ target (Text.trim l) = .ok (before, a.var) ∧
      Text.isName a.var = true ∧ a.type? =
        if (Text.trim before).isEmpty then none else some (Text.squeeze (Text.trim before)) := by
  rw [ofLine] at h
  cases hs : atEquals? ' ' (body line) with
  | none =>
    rw [hs] at h
    cases h
  | some p =>
    obtain ⟨l, r⟩ := p
    rw [hs] at h
    dsimp only at h
    split_ifs at h with hc
    · cases h
    obtain ⟨value, paren⟩ := not_or.mp hc
    obtain ⟨⟨before, name⟩, ht, h⟩ := bind_eq_ok.mp h
    dsimp only at h
    by_cases hv : Text.isName name = true
    · rw [if_pos hv] at h
      cases h
      exact ⟨l, r, before, rfl, rfl, by simpa using value, paren, ht, hv, rfl⟩
    · rw [if_neg hv] at h
      cases h

/-- What a line assigns, taken apart: the texts stand in the line, the type squeezed. -/
theorem infix_of_ofLine {line : Text} {a : Assignment} (h : ofLine line = .ok (some a)) :
    a.var <:+: line ∧ a.value <:+: line ∧
      ∀ t, a.type? = some t → ∃ s, s <:+: line ∧ t = Text.squeeze s := by
  obtain ⟨l, r, before, hs, value, -, -, ht, -, type⟩ := exists_parts h
  have whole : l ++ '=' :: r <:+: line := atEquals?_eq_some hs ▸ body_isInfix line
  have left : before ++ a.var <:+: line := by
    rw [← append_of_target ht]
    exact (Text.trim_isInfix l).trans ((List.prefix_append l _).isInfix.trans whole)
  refine ⟨(List.suffix_append before a.var).isInfix.trans left, ?_, fun t e => ?_⟩
  · rw [value]
    exact (Text.trim_isInfix r).trans (List.IsInfix.trans ⟨l ++ ['='], [], by simp⟩ whole)
  · rw [type] at e
    split_ifs at e
    cases e
    exact ⟨_, (Text.trim_isInfix before).trans
      ((List.prefix_append before a.var).isInfix.trans left), rfl⟩

end Assignment

namespace Shape

/-- The texts of a body that a shape keeps. -/
def texts : Shape → List Text
  | .call result => [result]
  | .assigned type _ value => [type, value]
  | .filled setup filling result => [setup, filling, result]
  | .guarded setup? guard result => setup?.toList ++ [guard, result]
  | .block lines result => lines ++ [result]
  | .unclassified _ => []

/-- The condition of a guard stands in the line. -/
theorem infix_of_guardCondition? {line condition : Text}
    (h : guardCondition? line = some condition) :
    condition <:+: line := by
  obtain ⟨rest, hr, h⟩ := Option.bind_eq_some_iff.mp h
  obtain ⟨inner, hi, h⟩ := Option.bind_eq_some_iff.mp h
  obtain ⟨t, ht, h⟩ := Option.bind_eq_some_iff.mp h
  cases h
  have outer : Text.trim rest <:+: line := by
    rw [Text.after?_eq_some.mp hr]
    exact (Text.trim_isInfix rest).trans (List.suffix_append _ _).isInfix
  have inside : t <:+: Text.trim rest := by
    rw [Text.after?_eq_some.mp hi, Text.before?_eq_some.mp ht]
    exact (List.prefix_append _ _).isInfix.trans (List.suffix_append _ _).isInfix
  exact (Text.trim_isInfix t).trans (inside.trans outer)

/-- A variable is assigned on a line that the shape is made of. -/
theorem exists_of_assigned {lines : List Text} {nullable : Bool} {type var value : Text}
    (h : classify lines nullable = .ok (.assigned type var value)) :
    ∃ l ∈ lines, ∃ a, Assignment.ofLine l = .ok (some a) ∧ type = a.type?.getD "auto" ∧
      value = a.value := by
  rcases classify_cases h with e | ⟨before, last, _, _, rfl, -, -, -, read⟩
  · cases e
  · rcases ofLines?_cases read with ⟨-, e⟩ | ⟨l, a, rfl, ha, -, e⟩ | ⟨_, _, -, -, -, e⟩ |
      ⟨_, _, _, -, -, -, e⟩ | ⟨_, _, _, _, -, -, -, -, -, e⟩ | ⟨_, _, _, -, -, e⟩ <;> cases e
    exact ⟨l, List.mem_cons_self, a, ha, rfl, rfl⟩

/-- A word of what a shape keeps occurs in a processing line, unless it stands for a type that is
not written. -/
theorem infix_of_mem_texts {lines : List Text} {nullable : Bool} {s : Shape} {w t : Text}
    (h : classify lines nullable = .ok s) (hw : Text.IsNameRun w) (hauto : ¬ w <:+: "auto".toList)
    (ht : t ∈ texts s) (hi : w <:+: t) : ∃ l ∈ lines, w <:+: l := by
  have hs : s.isClassified = true := by
    cases s with
    | unclassified => cases ht
    | _ => rfl
  obtain ⟨before, last, kind, result, rfl, hr, -, -, built⟩ := exists_of_classify h hs
  have returned : result <:+: last := Return.infix_of_ofLine? hr
  have line : ∀ {l u : Text}, l ∈ before → u <:+: l → w <:+: u → ∃ l ∈ before ++ [last], w <:+: l :=
    fun {l u} hl hu hw => ⟨l, List.mem_append_left _ hl, hw.trans hu⟩
  have ending : w <:+: result → ∃ l ∈ before ++ [last], w <:+: l := fun hw =>
    ⟨last, by simp, hw.trans returned⟩
  -- each text of a shape is a line, a part of one, or what the last line returns
  cases built with
  | call =>
    rw [texts, List.mem_singleton] at ht
    exact ending (ht ▸ hi)
  | assigned assigns =>
    obtain ⟨l, hl, a, ha, rfl, hvalue⟩ := exists_of_assigned h
    obtain ⟨-, value_isInfix, type_isInfix⟩ := Assignment.infix_of_ofLine ha
    rcases List.mem_pair.mp ht with rfl | rfl
    · cases e : a.type? with
      | none =>
        rw [e] at hi
        exact absurd hi hauto
      | some type =>
        rw [e] at hi
        obtain ⟨u, hu, rfl⟩ := type_isInfix type e
        exact ⟨l, hl, (hw.infix_of_squeeze hi).trans hu⟩
    · exact ⟨l, hl, hi.trans (hvalue ▸ value_isInfix)⟩
  | filled =>
    simp only [texts, List.mem_cons, List.not_mem_nil, or_false] at ht
    rcases ht with rfl | rfl | rfl
    · exact line (by simp) List.infix_rfl hi
    · exact line (by simp) List.infix_rfl hi
    · exact ending hi
  | guarded head =>
    rcases List.mem_pair.mp ht with rfl | rfl
    · exact line (by simp) (infix_of_guardCondition? head) hi
    · exact ending hi
  | guardedAfter _ head =>
    simp only [texts, Option.toList_some, List.singleton_append, List.mem_cons, List.not_mem_nil,
      or_false] at ht
    rcases ht with rfl | rfl | rfl
    · exact line (by simp) List.infix_rfl hi
    · exact line (by simp) (infix_of_guardCondition? head) hi
    · exact ending hi
  | block =>
    rcases List.mem_append.mp ht with ht | ht
    · exact line ht List.infix_rfl hi
    · exact ending (List.mem_singleton.mp ht ▸ hi)

end Shape

end VectorWrap
