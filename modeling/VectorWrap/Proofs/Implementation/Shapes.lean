import VectorWrap.Implementation.Basic
import VectorWrap.Proofs.Implementation.Bindings
import VectorWrap.Proofs.Results
import VectorWrap.Proofs.Scan.Written

/-!
# What a shape says of the returns

Two readings look for the returns of a body.  The scan reads the macros wherever they stand in the
text; the shape knows only the processing lines that are one return statement each (`statements`).
`Built` lists what a body of each shape is made of.  Its last line returns the one value that a line
returns, and but for a body of four lines it is guarded exactly when a line returns no value.  In a
body of four lines the shape asks the scan (`isGuarded_iff`).

So the two readings agree on the value exactly when they find the same first kind of one, and on the
null return exactly when there are four lines, or both find one, or neither does (`agrees_iff`).
-/

namespace VectorWrap

/-! ### Return lines -/

namespace Return
open Scan

/-- The kinds of the lines that are one return statement. -/
def statements (lines : List Text) : List Text :=
  (lines.filterMap ofLine?).map Prod.fst

/-- The first kind of a value among kinds of returns. -/
def firstValue (kinds : List Text) : Option Text :=
  kinds.find? (· != nullKind)

/-- A return line has its first parenthesis before any equals sign. -/
theorem exists_of_ofLine? {line kind value : Text} (h : ofLine? line = some (kind, value)) :
    ∃ a r, line = a ++ '(' :: r ∧ '=' ∉ a := by
  obtain ⟨x, hx, -⟩ := Option.map_eq_some_iff.mp h
  obtain ⟨u, s₁, hl, hx⟩ := bind_eq_some.mp hx
  obtain ⟨k, s₂, hm, -⟩ := bind_eq_some.mp hx
  obtain ⟨_, s₃, h₁, hm⟩ := bind_eq_some.mp hm
  obtain ⟨_, s₄, h₂, hm⟩ := bind_eq_some.mp hm
  obtain ⟨_, s₅, h₃, -⟩ := bind_eq_some.mp hm
  obtain ⟨rfl, _, r, h₄⟩ := ahead_eq_some.mp h₃
  have e₁ := exactly_eq_some.mp h₁
  obtain ⟨-, rfl, rfl⟩ := run1_eq_some.mp h₂
  have e₂ := symbol_eq_some.mp h₄
  have e₃ := layout_eq_some.mp hl
  refine ⟨line.takeWhile Text.isLayout ++ ("PG_RETURN_" ++ s₃.takeWhile ArgSlot.inKind
    ++ (s₃.dropWhile ArgSlot.inKind).takeWhile Text.isLayout), r, ?_, ?_⟩
  · calc line = line.takeWhile Text.isLayout ++ line.dropWhile Text.isLayout :=
          List.takeWhile_append_dropWhile.symm
      _ = line.takeWhile Text.isLayout ++ ("PG_RETURN_" ++ s₃) := by rw [e₃, e₁]
      _ = _ := by
        conv_lhs => rw [← List.takeWhile_append_dropWhile (p := ArgSlot.inKind) (l := s₃),
          ← List.takeWhile_append_dropWhile (p := Text.isLayout)
            (l := s₃.dropWhile ArgSlot.inKind), e₂]
        simp
  · have layout_free : ∀ t : Text, '=' ∉ t.takeWhile Text.isLayout := fun t hm => by
      have := List.mem_takeWhile_imp hm
      revert this
      decide
    have kind_free : ∀ t : Text, '=' ∉ t.takeWhile ArgSlot.inKind := fun t hm => by
      have := List.mem_takeWhile_imp hm
      revert this
      decide
    simp [layout_free, kind_free]

/-- A null return is a return of its own kind. -/
theorem isNull_iff {line : Text} :
    isNull line = true ↔ ∃ value, ofLine? line = some (nullKind, value) := by
  unfold isNull
  cases ofLine? line with
  | none => simp
  | some x =>
    obtain ⟨kind, value⟩ := x
    simp

/-- A kind among the statements is that of a line. -/
theorem mem_statements_iff {lines : List Text} :
    nullKind ∈ statements lines ↔ ∃ l ∈ lines, isNull l = true := by
  simp only [statements, isNull_iff, List.mem_map, List.mem_filterMap, Prod.exists]
  constructor
  · rintro ⟨kind, value, ⟨l, hl, h⟩, rfl⟩
    exact ⟨l, hl, value, h⟩
  · rintro ⟨l, hl, value, h⟩
    exact ⟨nullKind, value, ⟨l, hl, h⟩, rfl⟩

/-- The one value that a line returns is the first. -/
theorem firstValue_append {before : List Text} {last kind value : Text}
    (hb : ∀ l ∈ before, Shape.returnsValue l = false) (hl : ofLine? last = some (kind, value))
    (hk : kind ≠ nullKind) : firstValue (statements (before ++ [last])) = some kind := by
  have none_before : (statements before).find? (· != nullKind) = none := by
    rw [List.find?_eq_none]
    intro k hm
    obtain ⟨⟨k', v⟩, hx, rfl⟩ := List.mem_map.mp hm
    obtain ⟨l, hmem, h⟩ := List.mem_filterMap.mp hx
    have := hb l hmem
    rw [Shape.returnsValue, h] at this
    simpa using this
  have split : statements (before ++ [last]) = statements before ++ [kind] := by
    simp [statements, hl]
  rw [firstValue, split, List.find?_append, none_before, Option.none_or]
  exact List.find?_cons_of_pos (by simpa using hk)

end Return

/-! ### Assignments are no returns -/

namespace Assignment

/-- An assignment is cut at its equals sign. -/
theorem atEquals?_eq_some {before : Char} {s l r : Text} (h : atEquals? before s = some (l, r)) :
    s = l ++ '=' :: r := by
  induction s generalizing before l with
  | nil => cases h
  | cons c s ih =>
    rw [atEquals?] at h
    split at h
    · next hc =>
      cases h
      rw [hc.1]
      rfl
    · obtain ⟨⟨l', r'⟩, h, e⟩ := Option.map_eq_some_iff.mp h
      cases e
      rw [ih h, List.cons_append]

/-- Nothing but blanks is before what a line assigns. -/
theorem exists_body (line : Text) : ∃ a b : Text, line = a ++ body line ++ b
    ∧ ∀ c ∈ a, Text.isBlank c = true := by
  obtain ⟨a₁, b₁, h₁, ha₁, -⟩ := Text.exists_trim line
  obtain ⟨b₂, h₂⟩ : Text.trimEndBy (· == ';') (Text.trim line) <+: Text.trim line := by
    rw [Text.trimEndBy, ← List.reverse_suffix, List.reverse_reverse]
    exact List.dropWhile_suffix _
  obtain ⟨a₃, b₃, h₃, ha₃, -⟩ := Text.exists_trim (Text.trimEndBy (· == ';') (Text.trim line))
  refine ⟨a₁ ++ a₃, b₃ ++ b₂ ++ b₁, ?_, fun c hc => (List.mem_append.mp hc).elim (ha₁ c) (ha₃ c)⟩
  conv_lhs => rw [h₁, ← h₂, h₃]
  simp [body]

/-- An assignment has an equals sign before any parenthesis. -/
theorem exists_of_ofLine {line : Text} {a : Assignment} (h : ofLine line = .ok (some a)) :
    ∃ l r, line = l ++ '=' :: r ∧ '(' ∉ l := by
  unfold ofLine at h
  split at h
  · cases h
  · next l r hs =>
    dsimp only at h
    split at h
    · cases h
    · next hc =>
      have hl : '(' ∉ Text.trim l := fun hm => hc (Or.inr hm)
      obtain ⟨x, y, hx, hxb, hyb⟩ := Text.exists_trim l
      obtain ⟨u, v, hu, hub⟩ := exists_body line
      have blank_free : ∀ t : Text, (∀ c ∈ t, Text.isBlank c = true) → '(' ∉ t :=
        fun t ht hm => absurd (ht _ hm) (by decide)
      refine ⟨u ++ l, r ++ v, ?_, ?_⟩
      · conv_lhs => rw [hu, atEquals?_eq_some hs]
        simp
      · rw [hx]
        simp [hl, blank_free u hub, blank_free x hxb, blank_free y hyb]

/-- No assignment is a return statement. -/
theorem ofLine?_of_ofLine {line : Text} {a : Assignment} (h : ofLine line = .ok (some a)) :
    Return.ofLine? line = none := by
  rw [Option.eq_none_iff_forall_ne_some]
  rintro ⟨kind, value⟩ hr
  obtain ⟨l, r, hl, hp⟩ := exists_of_ofLine h
  obtain ⟨l', r', hl', he⟩ := Return.exists_of_ofLine? hr
  -- of `l` and `l'`, the shorter one ends where the other has the mark that it must not have
  rcases List.append_eq_append_iff.mp (hl.symm.trans hl') with ⟨x, rfl, hx⟩ | ⟨x, rfl, hx⟩
  · cases x with
    | nil => cases hx
    | cons c x =>
      cases hx
      exact he (by simp)
  · cases x with
    | nil => cases hx
    | cons c x =>
      cases hx
      exact hp (by simp)

end Assignment

/-! ### What a shape is made of -/

namespace Shape

/-- A null guard stands before the return. -/
def isGuarded : Shape → Bool
  | .guarded .. => true
  | _ => false

/-- The body has a form. -/
def isClassified : Shape → Bool
  | .unclassified _ => false
  | _ => true

/-- **What the lines before a return are** for each shape that is read of them. -/
theorem ofLines?_cases {before : List Text} {nullable : Bool} {result : Text} {s : Shape}
    (h : ofLines? before nullable result = .ok (some s)) :
    (before = [] ∧ s = .call result) ∨
    (∃ l a, before = [l] ∧ Assignment.ofLine l = .ok (some a) ∧
      (Call.parse result).bareName? = some a.var ∧
      s = .assigned (a.type?.getD "auto") a.var a.value) ∨
    (∃ l m, before = [l, m] ∧ isPlain l = true ∧ isPlain m = true ∧ s = .filled l m result) ∨
    (∃ l m condition, before = [l, m] ∧ guardCondition? l = some condition ∧
      Return.isNull m = true ∧ s = .guarded none condition result) ∨
    (∃ l m k condition, before = [l, m, k] ∧ nullable = true ∧ isPlain l = true ∧
      guardCondition? m = some condition ∧ Return.isNull k = true ∧
      s = .guarded (some l) condition result) ∨
    ∃ l m k, before = [l, m, k] ∧ nullable = false ∧ s = .block [l, m, k] result := by
  -- one case for each number of lines, as the reading has them
  unfold ofLines? at h
  split at h
  · cases h
    exact .inl ⟨rfl, rfl⟩
  · next l =>
    obtain ⟨a?, ha, h⟩ := bind_eq_ok.mp h
    cases a? with
    | none => cases h
    | some a =>
      dsimp only at h
      split_ifs at h with bare
      · cases h
        exact .inr (.inl ⟨l, a, rfl, ha, bare, rfl⟩)
      · cases h
  · split at h
    · next guards null =>
      cases h
      exact .inr (.inr (.inr (.inl ⟨_, _, _, rfl, guards, null, rfl⟩)))
    · split_ifs at h with plain
      · cases h
        rw [Bool.and_eq_true] at plain
        exact .inr (.inr (.inl ⟨_, _, rfl, plain.1, plain.2, rfl⟩))
      · cases h
  · split at h
    · next guards =>
      split_ifs at h with plain
      · cases h
        rw [Bool.and_eq_true] at plain
        exact .inr (.inr (.inr (.inr (.inl
          ⟨_, _, _, _, rfl, rfl, plain.1, guards, plain.2, rfl⟩))))
      · cases h
    · cases h
  · cases h
    exact .inr (.inr (.inr (.inr (.inr ⟨_, _, _, rfl, rfl, rfl⟩))))
  · cases h

/-- **Lines are kept as they are, or are read before the one return of a value.** -/
theorem classify_cases {lines : List Text} {nullable : Bool} {s : Shape}
    (h : classify lines nullable = .ok s) :
    s = .unclassified lines ∨ ∃ before last kind result, lines = before ++ [last] ∧
      Return.ofLine? last = some (kind, result) ∧ kind ≠ Return.nullKind ∧
      (∀ l ∈ before, returnsValue l = false) ∧
      ofLines? before nullable result = .ok (some s) := by
  unfold classify at h
  split at h
  · cases h
    exact .inl rfl
  · next kind result hlast =>
    obtain ⟨last, hl, hr⟩ := Option.bind_eq_some_iff.mp hlast
    split at h
    · cases h
      exact .inl rfl
    · next alone =>
      rw [not_or, Bool.not_eq_true, List.any_eq_false] at alone
      obtain ⟨s?, hs, h⟩ := map_eq_ok.mp h
      cases s? with
      | none => exact .inl h.symm
      | some s' =>
        obtain rfl : s' = s := h
        exact .inr ⟨lines.dropLast, last, kind, result,
          (List.dropLast_append_getLast? last hl).symm, hr, alone.1,
          fun l hm => by simpa using alone.2 l hm, hs⟩

/-- The lines before the return of `result`, and whether the body may return no value, for each
shape that a body can have. -/
inductive Built (result : Text) : List Text → Bool → Shape → Prop where
  | call {nullable : Bool} : Built result [] nullable (.call result)
  | assigned {l type : Text} {a : Assignment} {nullable : Bool}
      (assigns : Assignment.ofLine l = .ok (some a)) :
      Built result [l] nullable (.assigned type a.var a.value)
  | filled {l m : Text} {nullable : Bool} (setup : isPlain l = true) (call : isPlain m = true) :
      Built result [l, m] nullable (.filled l m result)
  | guarded {l m condition : Text} {nullable : Bool} (head : guardCondition? l = some condition)
      (null : Return.isNull m = true) :
      Built result [l, m] nullable (.guarded none condition result)
  | guardedAfter {l m n condition : Text} (setup : isPlain l = true)
      (head : guardCondition? m = some condition) (null : Return.isNull n = true) :
      Built result [l, m, n] true (.guarded (some l) condition result)
  | block {l m n : Text} : Built result [l, m, n] false (.block [l, m, n] result)

/-- Each form that is found is built of its lines. -/
theorem built_of_ofLines? {before : List Text} {nullable : Bool} {result : Text} {s : Shape}
    (h : ofLines? before nullable result = .ok (some s)) : Built result before nullable s := by
  rcases ofLines?_cases h with ⟨rfl, rfl⟩ | ⟨l, a, rfl, ha, -, rfl⟩ | ⟨l, m, rfl, hl, hm, rfl⟩ |
    ⟨l, m, _, rfl, guards, null, rfl⟩ | ⟨l, m, k, _, rfl, rfl, hl, guards, null, rfl⟩ |
    ⟨l, m, k, rfl, rfl, rfl⟩
  · exact .call
  · exact .assigned ha
  · exact .filled hl hm
  · exact .guarded guards null
  · exact .guardedAfter hl guards null
  · exact .block

/-- **A shape is made of lines before one return of a value.** -/
theorem exists_of_classify {lines : List Text} {nullable : Bool} {s : Shape}
    (h : classify lines nullable = .ok s) (hs : s.isClassified = true) :
    ∃ before last kind result, lines = before ++ [last]
      ∧ Return.ofLine? last = some (kind, result) ∧ kind ≠ Return.nullKind
      ∧ (∀ l ∈ before, returnsValue l = false) ∧ Built result before nullable s := by
  rcases classify_cases h with rfl | ⟨before, last, kind, result, hl, hr, hk, hv, read⟩
  · cases hs
  · exact ⟨before, last, kind, result, hl, hr, hk, hv, built_of_ofLines? read⟩

/-- In a body of four lines the guard is there exactly if the body may return no value; in any
other, exactly if a line before the return is a null return. -/
theorem Built.isGuarded_iff {result : Text} {before : List Text} {nullable : Bool} {s : Shape}
    (h : Built result before nullable s) : s.isGuarded = true ↔
      if before.length = 3 then nullable = true else ∃ l ∈ before, Return.isNull l = true := by
  cases h with
  | call => simp [isGuarded]
  | @assigned l type a nullable assigns =>
    have : Return.isNull l = false := by
      rw [Return.isNull, Assignment.ofLine?_of_ofLine assigns]
    simp [isGuarded, this]
  | @filled l m nullable setup call =>
    simp only [isPlain, Bool.and_eq_true, Bool.not_eq_true'] at setup call
    simp [isGuarded, setup.2, call.2]
  | @guarded l m condition nullable head null => simp [isGuarded, null]
  | guardedAfter => simp [isGuarded]
  | block => simp [isGuarded]

end Shape

/-! ### The two readings -/

namespace Implementation

/-- The first value that the scan finds in a body is of the kind of the first line that returns a
value. -/
def SameValue (body : Text) : Prop :=
  Return.firstValue (Return.kinds body) = Return.firstValue (Return.statements (Line.ofBody body))

/-- The body has four processing lines, or the scan finds a null return in it exactly if a line is
a null return. -/
def SameNull (body : Text) : Prop :=
  (Line.ofBody body).length = 4 ∨
    (Return.nullKind ∈ Return.kinds body ↔ Return.nullKind ∈ Return.statements (Line.ofBody body))

/-- **What is read from a body** is the shape of its lines, and beside that what is found in its
text. -/
theorem exists_of_ofBody {symbol body : Text} {span : Span} {n : Implementation}
    (h : ofBody symbol body span = .ok n) :
    ∃ shape, Shape.classify (Line.ofBody body) (Return.summary body).2 = .ok shape ∧
      n = { symbol, body, shape, span
            returnKind? := (Return.summary body).1
            nullable := (Return.summary body).2
            slots := ArgSlot.ofBody body
            needsTypeTag := Text.contains Line.typeTagMark body
            delegated? := delegatedCall? (Line.ofBody body) } := by
  obtain ⟨shape, hs, h⟩ := bind_eq_ok.mp h
  cases h
  exact ⟨shape, hs, rfl⟩

/-- Where a body is read, its parts are those of the two readings. -/
theorem parts_ofBody {symbol body : Text} {span : Span} {n : Implementation}
    (h : ofBody symbol body span = .ok n) :
    n.returnKind? = Return.firstValue (Return.kinds body)
      ∧ (n.nullable = true ↔ Return.nullKind ∈ Return.kinds body)
      ∧ Shape.classify (Line.ofBody body) n.nullable = .ok n.shape := by
  obtain ⟨shape, hs, rfl⟩ := exists_of_ofBody h
  exact ⟨rfl, by simp [Return.summary], hs⟩

/-- **When the scan and the shape agree.**  The last line of a body with a shape returns a value.
The scan gives its kind exactly under `SameValue`, and finds a null return exactly for a guarded
body under `SameNull`. -/
theorem agrees_iff {symbol body : Text} {span : Span} {n : Implementation}
    (h : ofBody symbol body span = .ok n) (hs : n.shape.isClassified = true) :
    ∃ before last kind result, Line.ofBody body = before ++ [last]
      ∧ Return.ofLine? last = some (kind, result)
      ∧ (n.returnKind? = some kind ↔ SameValue body)
      ∧ ((n.nullable = true ↔ n.shape.isGuarded = true) ↔ SameNull body) := by
  obtain ⟨hk, hn, hc⟩ := parts_ofBody h
  obtain ⟨before, last, kind, result, hl, hr, hv, hb, built⟩ := Shape.exists_of_classify hc hs
  have hfirst : Return.firstValue (Return.statements (Line.ofBody body)) = some kind := by
    rw [hl]
    exact Return.firstValue_append hb hr hv
  have hnull : Return.nullKind ∈ Return.statements (Line.ofBody body) ↔
      ∃ l ∈ before, Return.isNull l = true := by
    have hlast : Return.isNull last = false := by
      simpa [Return.isNull, hr] using hv
    rw [Return.mem_statements_iff, hl]
    simp [hlast, or_and_right, exists_or]
  have hlen : (Line.ofBody body).length = 4 ↔ before.length = 3 := by
    rw [hl]
    simp
  refine ⟨before, last, kind, result, hl, hr, by rw [SameValue, hfirst, hk], ?_⟩
  rw [SameNull, hnull, hlen, ← hn, built.isGuarded_iff]
  by_cases four : before.length = 3
  · simp [four]
  · simp [four]

end Implementation

end VectorWrap
