import VectorWrap.Proofs.Implementation.Cuts
import VectorWrap.Proofs.Text.Words

/-!
# The lines of a shape

A shape keeps its body: `Recovers` says how each form is written out in lines again, the last of
which returns a value and no other does.  The reading finds the form that has the lines before that
one, if there is one (`ofLines?_eq_some_iff`), so it leaves a body unclassified, with all of its
lines, exactly when no form has these lines (`recovers_unless_cut`).

What the reading cannot do is to look at a line that it cuts inside a character.

`Writes` is the part of it that leaves out how the value is returned: the lines before that
one.  Two forms of one length differ in what a line is, a guard and a null return or a plain line,
and with three lines before the return in whether the body may return no value.
-/

namespace VectorWrap

namespace Call
open Scan

/-- A call has parentheses, which an identifier has not. -/
theorem form_of_isName {e : Text} (h : Text.isName e = true) : form e = none := by
  rw [Option.eq_none_iff_forall_ne_some]
  rintro ⟨call, rest⟩ hform
  obtain ⟨f, s₁, hf, hform⟩ := bind_eq_some.mp hform
  obtain ⟨args, s₂, hargs, -⟩ := bind_eq_some.mp hform
  obtain ⟨_, s₃, hopen, -⟩ := bind_eq_some.mp hargs
  have suffix : s₁ <:+ e := local_ident.suffix hf
  have opened : s₁.dropWhile Text.isLayout = "(".toList ++ s₃ := symbol_eq_some.mp hopen
  have paren : '(' ∈ e := by
    refine suffix.subset ((List.dropWhile_suffix Text.isLayout).subset ?_)
    rw [opened]
    exact List.mem_cons_self
  exact absurd (Text.all_inName_of_isName h _ paren) (by decide)

/-- A term is an identifier exactly if it is written as one. -/
theorem bareName?_parse {e v : Text} :
    (parse e).bareName? = some v ↔ Text.trim e = v ∧ Text.isName v = true := by
  unfold parse
  dsimp only
  cases hform : form (Text.trim e) with
  | none =>
    by_cases hn : Text.isName (Text.trim e) = true
    · simp only [bareName?, bare, hn, if_true, Option.some.injEq]
      exact ⟨fun h => ⟨h, h ▸ hn⟩, fun h => h.1⟩
    · simp only [bareName?, bare, hn, Bool.false_eq_true, if_false, reduceCtorEq, false_iff]
      rintro ⟨rfl, hv⟩
      exact hn hv
  | some x =>
    obtain ⟨call, rest⟩ := x
    have named : call.name?.isSome = true := by
      obtain ⟨f, _, -, h⟩ := bind_eq_some.mp hform
      obtain ⟨args, _, -, h⟩ := bind_eq_some.mp h
      obtain ⟨_, _, -, h⟩ := bind_eq_some.mp h
      obtain ⟨_, _, -, h⟩ := bind_eq_some.mp h
      obtain ⟨rfl, -⟩ := pure_eq_some.mp h
      rfl
    obtain ⟨f, hf⟩ := Option.isSome_iff_exists.mp named
    simp only [bareName?, hf, reduceCtorEq, false_iff]
    rintro ⟨rfl, hv⟩
    rw [form_of_isName hv] at hform
    cases hform

end Call

/-- What is assigned to is an identifier. -/
theorem Assignment.isName_of_ofLine {line : Text} {a : Assignment}
    (h : ofLine line = .ok (some a)) : Text.isName a.var = true := by
  obtain ⟨-, -, -, -, -, -, -, -, name, -⟩ := exists_parts h
  exact name

/-- What a line returns has no blanks at its ends. -/
theorem Return.trim_of_ofLine? {line kind value : Text} (h : ofLine? line = some (kind, value)) :
    Text.trim value = value := by
  obtain ⟨-, -, e, -, rfl⟩ := exists_frame h
  exact Text.trim_of_trimmed (Text.trimmed_trim e)

namespace Shape

/-! ### The lines before the return -/

/-- The lines before the return of `result` in a body of the given shape, in order; `nullable` says
that the body may return no value. -/
inductive Writes (result : Text) (nullable : Bool) : Shape → List Text → Prop where
  | call : Writes result nullable (.call result) []
  | assigned {line type value : Text} {type? : Option Text}
      (reads : Assignment.ofLine line = .ok (some ⟨type?, result, value⟩))
      (typed : type? = some type ∨ type? = none ∧ type = "auto") :
      Writes result nullable (.assigned type result value) [line]
  | filled {setup call : Text} (setup_plain : isPlain setup = true)
      (call_plain : isPlain call = true) :
      Writes result nullable (.filled setup call result) [setup, call]
  | guarded {head null guard : Text} (guards : guardCondition? head = some guard)
      (returns : Return.isNull null = true) :
      Writes result nullable (.guarded none guard result) [head, null]
  | guardedAfter {setup head null guard : Text} (may : nullable = true)
      (setup_plain : isPlain setup = true) (guards : guardCondition? head = some guard)
      (returns : Return.isNull null = true) :
      Writes result nullable (.guarded (some setup) guard result) [setup, head, null]
  | block {l m n : Text} (never : nullable = false) :
      Writes result nullable (.block [l, m, n] result) [l, m, n]

variable {result : Text} {nullable : Bool} {before lines : List Text} {s t : Shape}

/-- No form but the last has more than three lines before the return. -/
theorem Writes.length_le (h : Writes result nullable s before) : before.length ≤ 3 := by
  cases h <;> simp

/-- A form that the reading finds has the lines. -/
theorem writes_of_ofLines? (hr : Text.trim result = result)
    (h : ofLines? before nullable result = .ok (some s)) : Writes result nullable s before := by
  rcases ofLines?_cases h with ⟨rfl, rfl⟩ | ⟨l, ⟨type?, var, value⟩, rfl, ha, bare, rfl⟩ |
    ⟨l, m, rfl, hl, hm, rfl⟩ | ⟨l, m, _, rfl, guards, null, rfl⟩ |
    ⟨l, m, k, _, rfl, may, hl, guards, null, rfl⟩ | ⟨l, m, k, rfl, never, rfl⟩
  · exact .call
  · obtain rfl : result = var := hr ▸ (Call.bareName?_parse.mp bare).1
    refine .assigned ha ?_
    cases type? <;> simp
  · exact .filled hl hm
  · exact .guarded guards null
  · exact .guardedAfter may hl guards null
  · exact .block never

/-- The reading finds a form that has the lines. -/
theorem Writes.ofLines?_eq (hr : Text.trim result = result)
    (h : Writes result nullable s before) : ofLines? before nullable result = .ok (some s) := by
  cases h with
  | call => rfl
  | @assigned line type value type? reads typed =>
    have named : (Call.parse result).bareName? = some result :=
      Call.bareName?_parse.mpr ⟨hr, Assignment.isName_of_ofLine reads⟩
    have written : type?.getD "auto" = type := by
      rcases typed with rfl | ⟨rfl, rfl⟩ <;> rfl
    simp only [ofLines?, reads, bind, Except.bind, named, if_true, written]
    rfl
  | @filled setup call setup_plain call_plain =>
    -- the second of two plain lines is no null return, so they are no guard with its return
    have other : Return.isNull call = false := by
      simp only [isPlain, Bool.and_eq_true, Bool.not_eq_true'] at call_plain
      exact call_plain.2
    simp [ofLines?, other, setup_plain, call_plain]
  | guarded guards returns => simp [ofLines?, guards, returns]
  | guardedAfter may setup_plain guards returns =>
    simp [ofLines?, may, setup_plain, guards, returns]
  | block never => simp [ofLines?, never]

/-- **The reading finds the form that has the lines.** -/
theorem ofLines?_eq_some_iff (hr : Text.trim result = result) :
    ofLines? before nullable result = .ok (some s) ↔ Writes result nullable s before :=
  ⟨writes_of_ofLines? hr, Writes.ofLines?_eq hr⟩

/-! ### All lines -/

/-- The lines of a body of the given shape, in order: the last returns a value and no other
does. -/
def Recovers (nullable : Bool) (s : Shape) (lines : List Text) : Prop :=
  ∃ before last kind result, lines = before ++ [last] ∧
    Return.ofLine? last = some (kind, result) ∧ kind ≠ Return.nullKind ∧
    (∀ l ∈ before, returnsValue l = false) ∧ Writes result nullable s before

/-- A shape stands for one to four lines. -/
theorem Recovers.length_mem (h : Recovers nullable s lines) :
    1 ≤ lines.length ∧ lines.length ≤ 4 := by
  obtain ⟨before, last, kind, result, rfl, -, -, -, writes⟩ := h
  have := writes.length_le
  rw [List.length_append, List.length_singleton]
  omega

/-- A shape with its lines recovered is read from these lines. -/
theorem Recovers.classify_eq (h : Recovers nullable s lines) : classify lines nullable = .ok s := by
  obtain ⟨before, last, kind, result, rfl, hlast, hkind, hbefore, writes⟩ := h
  have early : before.any returnsValue = false := by
    rw [List.any_eq_false]
    exact fun l hl => by simp [hbefore l hl]
  have read := (ofLines?_eq_some_iff (Return.trim_of_ofLine? hlast)).mpr writes
  simp [classify, hlast, hkind, early, read, Except.map]

/-- A shape that is read recovers its lines, or keeps them as they are. -/
theorem recovers_of_classify (h : classify lines nullable = .ok s) :
    Recovers nullable s lines ∨ s = .unclassified lines := by
  rcases classify_cases h with rfl | ⟨before, last, kind, result, hl, hr, hk, hv, read⟩
  · exact .inr rfl
  · exact .inl ⟨before, last, kind, result, hl, hr, hk, hv,
      writes_of_ofLines? (Return.trim_of_ofLine? hr) read⟩

/-- **A shape loses nothing of its lines.**  Unless a line is cut inside a character, the lines are
recovered from the shape, or are kept unchanged where no form has them; so it is with every list
that is empty or has more than four lines. -/
theorem recovers_unless_cut (lines : List Text) (nullable : Bool) :
    ((∃ s, classify lines nullable = .ok s ∧
        (Recovers nullable s lines ∨
          s = .unclassified lines ∧ ∀ t, ¬ Recovers nullable t lines)) ↔ ¬ Cut lines) ∧
      (lines.length = 0 ∨ 4 < lines.length →
        classify lines nullable = .ok (.unclassified lines)) := by
  have account {s : Shape} (h : classify lines nullable = .ok s) :
      Recovers nullable s lines ∨ s = .unclassified lines ∧ ∀ t, ¬ Recovers nullable t lines := by
    rcases recovers_of_classify h with hs | rfl
    · exact .inl hs
    · by_cases ht : ∃ t, Recovers nullable t lines
      · obtain ⟨t, ht⟩ := ht
        obtain rfl : t = .unclassified lines := by
          have := ht.classify_eq
          rw [h] at this
          cases this
          rfl
        exact .inl ht
      · exact .inr ⟨rfl, fun t h => ht ⟨t, h⟩⟩
  refine ⟨?_, fun hlength => ?_⟩
  · rw [← exists_classify_iff nullable]
    constructor
    · rintro ⟨s, hs, -⟩
      exact ⟨s, hs⟩
    · rintro ⟨s, hs⟩
      exact ⟨s, hs, account hs⟩
  · have whole : ¬ Cut lines := by
      rintro ⟨line, last, rfl, -⟩
      simp at hlength
    obtain ⟨s, hs⟩ := (exists_classify_iff nullable).mpr whole
    rcases account hs with recovers | ⟨rfl, -⟩
    · have := recovers.length_mem
      omega
    · exact hs

/-- An assignment to a variable with an accent, and the return of another. -/
def accentedLines : List Text :=
  ["int32 né = g(1);", "PG_RETURN_INT32(n);"]

/-- They neither have a shape nor are they kept. -/
theorem accentedLines_lost : ¬ ∃ s, classify accentedLines false = .ok s ∧
    (Recovers false s accentedLines ∨ s = .unclassified accentedLines) := by
  have fault : Assignment.ofLine "int32 né = g(1);" = .error .insideCharacter := by cbv
  have cut : Cut accentedLines :=
    ⟨_, _, rfl, by cbv, by cbv, Assignment.ofLine_eq_error_iff.mp ⟨_, fault⟩⟩
  rintro ⟨s, hs, -⟩
  exact (exists_classify_iff false).mp ⟨s, hs⟩ cut

end Shape

end VectorWrap
