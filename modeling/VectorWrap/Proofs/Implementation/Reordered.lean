import VectorWrap.Proofs.Implementation.FetchOrder
import VectorWrap.Proofs.Implementation.Joined
import VectorWrap.Proofs.Implementation.Lines
import VectorWrap.Proofs.Implementation.Sorted
import VectorWrap.Wrapper.Emit

/-!
# Fetches in another order

A body may begin with its fetches in any order (`ofBody_reordered`): it has the same slots, shape
and returns, and every wrapper made for it is the same.  The line of a fetch is no processing line,
returns nothing and opens no literal or comment, so all that is read of a body apart from its slots
is read of what follows the fetches.  Only one fetch has each number, so their order is lost when
the slots are sorted (`slots_reordered`).

Each reading of the body is followed on its own: a sweep over the declarations, the assignments and
the return macros, the logical lines, and the search for a type tag.  For each there is one lemma
that takes a list of fetches off the front of a body.
-/

namespace VectorWrap

open Scan ArgSlot

namespace ArgSlot.Fetch

/-- Fetches, each behind its indentation, and what follows them. -/
def body (ls : List (Text × Fetch)) (rest : Text) : Text :=
  ls.foldr (fun l t => l.1 ++ (l.2.line ++ t)) rest

/-- The fetches are proper, and the indentations are layout within a line. -/
structure Written (ls : List (Text × Fetch)) : Prop where
  proper : ∀ l ∈ ls, l.2.Proper
  indent : ∀ l ∈ ls, ∀ c ∈ l.1, Text.isLayout c = true ∧ c ≠ '\n'

theorem Written.head {l : Text × Fetch} {ls : List (Text × Fetch)} (h : Written (l :: ls)) :
    l.2.Proper ∧ ∀ c ∈ l.1, Text.isLayout c = true :=
  ⟨h.proper l List.mem_cons_self, fun c hc => (h.indent l List.mem_cons_self c hc).1⟩

theorem Written.tail {l : Text × Fetch} {ls : List (Text × Fetch)} (h : Written (l :: ls)) :
    Written ls where
  proper m hm := h.proper m (List.mem_cons_of_mem l hm)
  indent m hm := h.indent m (List.mem_cons_of_mem l hm)

variable {ls : List (Text × Fetch)} {f : Fetch}

/-! ### Slots -/

/-- Layout holds no assignment. -/
theorem assignedSlots_blanks {a : Text} (ha : ∀ c ∈ a, Text.isLayout c = true) (s : Text) :
    assignedSlots (a ++ s) = assignedSlots s := by
  have same : kept (a ++ s) = kept s := by
    funext x
    rw [kept, kept, sweep_blanks ha]
  rw [assignedSlots, sweep_blanks ha, same, assignedSlots]

/-- The slots with types are those of the fetches, and what follows. -/
theorem declaredSlots_body (h : Written ls) (rest : Text) :
    declaredSlots (body ls rest) = (ls.map Prod.snd).flatMap typed ++ declaredSlots rest := by
  induction ls with
  | nil => rfl
  | cons l ls ih =>
    obtain ⟨proper, blanks⟩ := h.head
    have skip : declaredSlots (body (l :: ls) rest) = declaredSlots (l.2.line ++ body ls rest) := by
      rw [declaredSlots, declaredSlots]
      exact congrArg (List.filterMap _) (sweep_blanks blanks _)
    rw [skip, declaredSlots_line proper, ih h.tail, List.map_cons, List.flatMap_cons,
      List.append_assoc]

/-- The slots without types are those of the fetches, and what follows. -/
theorem assignedSlots_body (h : Written ls) (rest : Text) :
    assignedSlots (body ls rest) = (ls.map Prod.snd).flatMap untyped ++ assignedSlots rest := by
  induction ls with
  | nil => rfl
  | cons l ls ih =>
    obtain ⟨proper, blanks⟩ := h.head
    have skip : assignedSlots (body (l :: ls) rest) = assignedSlots (l.2.line ++ body ls rest) :=
      assignedSlots_blanks blanks _
    rw [skip, assignedSlots_line proper, ih h.tail, List.map_cons, List.flatMap_cons,
      List.append_assoc]

/-- The slot of a fetch has its number. -/
theorem index_of_mem_slots {slot : ArgSlot} (h : slot ∈ f.slots) :
    slot.index = number f.digits := by
  rw [slots, Option.mem_toList, ofBinding?] at h
  split at h
  · cases h
    rfl
  · cases h

/-- A typed slot of a fetch has its number. -/
theorem index_of_mem_typed {slot : ArgSlot} (h : slot ∈ f.typed) :
    slot.index = number f.digits := by
  rw [typed] at h
  split at h
  · cases h
  · exact index_of_mem_slots h

/-- An untyped slot of a fetch has its number. -/
theorem index_of_mem_untyped {slot : ArgSlot} (h : slot ∈ f.untyped) :
    slot.index = number f.digits := by
  rw [untyped] at h
  split at h
  · exact index_of_mem_slots h
  · cases h

/-- The slots do not depend on the order of the fetches. -/
theorem slots_reordered {ls' : List (Text × Fetch)} (h : Written ls) (h' : Written ls')
    (hp : (ls.map Prod.snd).Perm (ls'.map Prod.snd))
    (hn : (ls.map fun l => number l.2.digits).Nodup) (rest : Text) :
    ArgSlot.ofBody (body ls' rest) = ArgSlot.ofBody (body ls rest) := by
  have numbers : ((ls.map Prod.snd).map fun f => number f.digits).Nodup := by
    rwa [List.map_map]
  refine mergeSort_congr fun k => ?_
  simp only [found_eq_slots, declaredSlots_body h, declaredSlots_body h', assignedSlots_body h,
    assignedSlots_body h', List.filter_append]
  rw [filter_flatMap_perm (fun _ _ => index_of_mem_typed) hp numbers,
    filter_flatMap_perm (fun _ _ => index_of_mem_untyped) hp numbers]

/-! ### Returns -/

/-- Fetches return nothing. -/
theorem sweep_macro_body (h : Written ls) (rest : Text) :
    sweep Return.macroForm codeGap (body ls rest) = sweep Return.macroForm codeGap rest := by
  induction ls with
  | nil => rfl
  | cons l ls ih =>
    obtain ⟨proper, blanks⟩ := h.head
    have skip : sweep Return.macroForm codeGap (body (l :: ls) rest) =
        sweep Return.macroForm codeGap (l.2.line ++ body ls rest) := sweep_blanks blanks _
    rw [skip, sweep_macro_line proper, ih h.tail]

theorem summary_body (h : Written ls) (rest : Text) :
    Return.summary (body ls rest) = Return.summary rest := by
  rw [Return.summary, Return.summary, Return.kinds_eq, Return.kinds_eq, sweep_macro_body h]

/-! ### The statement in its line -/

/-- The statement without its line feed. -/
def statement (f : Fetch) : Text :=
  f.left ++ (f.var ++ (" = " ++ (f.right ++ ";")))

theorem line_eq (f : Fetch) (t : Text) : f.line ++ t = f.statement ++ '\n' :: t := by
  rw [line_append]
  simp [statement]

/-- May stand in a statement. -/
def inStatement (c : Char) : Bool :=
  inWords c || c == '=' || c == '(' || c == ')' || c == ';'

theorem inStatement_of_inWords {c : Char} (h : inWords c = true) : inStatement c = true := by
  simp [inStatement, h]

theorem inStatement_of_inName {c : Char} (h : Text.inName c = true) : inStatement c = true :=
  inStatement_of_inWords (by simp [inWords, h])

theorem inStatement_of_mem_call (hf : f.Proper) : ∀ c ∈ f.call, inStatement c = true := by
  intro c hc
  have whole : f.call = ("PG_GETARG_" ++ f.kind) ++ ("(" ++ (f.digits ++ ")")) := by
    unfold call
    simp only [List.append_assoc]
  rw [whole] at hc
  rcases List.mem_append.mp hc with hc | hc
  · exact inStatement_of_inName (Text.all_inName_of_isName (isName_call hf) c hc)
  rcases List.mem_append.mp hc with hc | hc
  · exact List.all_eq_true.mp (by decide) c hc
  rcases List.mem_append.mp hc with hc | hc
  · exact inStatement_of_inName (inName_of_isDigit (hf.digits.2 c hc))
  · exact List.all_eq_true.mp (by decide) c hc

theorem inStatement_of_mem_right (hf : f.Proper) : ∀ c ∈ f.right, inStatement c = true := by
  cases e : f.cast? with
  | none =>
    rw [right, e]
    exact inStatement_of_mem_call hf
  | some type =>
    simp only [right, e, List.forall_mem_append]
    exact ⟨List.all_eq_true.mp (by decide),
      fun c hc => inStatement_of_inWords ((hf.cast type e).1 c hc),
      List.all_eq_true.mp (by decide), inStatement_of_mem_call hf⟩

/-- The characters of a statement. -/
theorem inStatement_of_mem (hf : f.Proper) : ∀ c ∈ f.statement, inStatement c = true := by
  simp only [statement, List.forall_mem_append]
  exact ⟨fun c hc => inStatement_of_inWords (hf.left c hc),
    fun c hc => inStatement_of_inName (Text.all_inName_of_isName hf.var c hc),
    List.all_eq_true.mp (by decide), inStatement_of_mem_right hf, List.all_eq_true.mp (by decide)⟩

/-- A statement begins no literal and no comment and ends no line. -/
theorem plain_of_inStatement {c : Char} (h : inStatement c = true) :
    isQuote c = false ∧ c ≠ '/' ∧ c ≠ '\n' := by
  refine ⟨isQuote_of_class inStatement rfl rfl h, ?_, ?_⟩
  · rintro rfl
    cases h
  · rintro rfl
    cases h

/-- A character of a name is trimmed neither as a blank nor as a brace. -/
theorem not_edge_of_inName {c : Char} (h : Text.inName c = true) :
    Text.isBlank c = false ∧ Line.isBrace c = false := by
  constructor
  · exact Text.isBlank_of_inName h
  · rw [Bool.eq_false_iff]
    intro hb
    rw [Line.inName_of_edge (Or.inl hb)] at h
    cases h

/-- Blanks and braces stand neither before nor behind a statement. -/
theorem not_edge_of_head (hf : f.Proper) {c : Char} (hc : f.statement.head? = some c) :
    Text.isBlank c = false ∧ Line.isBrace c = false := by
  by_cases hl : f.left = []
  · obtain ⟨d, v, hv⟩ := List.exists_cons_of_ne_nil (Text.ne_nil_of_isName hf.var)
    rw [statement, hl, hv] at hc
    cases hc
    have first : c ∈ f.var := by rw [hv]; exact List.mem_cons_self
    exact not_edge_of_inName (Text.all_inName_of_isName hf.var c first)
  · obtain ⟨d, y, hy⟩ := List.exists_cons_of_ne_nil hl
    have head := hf.left_head
    have words := hf.left d (by rw [hy]; exact List.mem_cons_self)
    rw [statement, hy] at hc
    rw [hy] at head
    cases hc
    simp only [inWords, Bool.or_eq_true, beq_iff_eq] at words
    rcases words with (h | rfl) | rfl
    · exact not_edge_of_inName h
    · decide
    · exact absurd rfl head

theorem getLast?_statement (f : Fetch) : f.statement.getLast? = some ';' := by
  have whole : f.statement = (f.left ++ (f.var ++ (" = " ++ f.right))) ++ [';'] := by
    simp [statement]
  rw [whole, List.getLast?_concat]

/-- A statement has no blank at its ends. -/
theorem trimmed_statement (hf : f.Proper) : Text.Trimmed f.statement where
  head c hc := (not_edge_of_head hf hc).1
  last c hc := by
    rw [getLast?_statement] at hc
    cases hc
    decide

/-- A statement has no brace at its ends. -/
theorem unbrace_statement (hf : f.Proper) : Line.unbrace f.statement = f.statement := by
  have bare : Text.trimBy Line.isBrace f.statement = f.statement := by
    have none : ∀ c ∈ ([] : Text), Line.isBrace c = true := by simp
    have := Text.trimBy_append (p := Line.isBrace) (t := f.statement) none none
      (fun c hc => (not_edge_of_head hf hc).2) fun c hc => by
        rw [getLast?_statement] at hc
        cases hc
        decide
    simpa using this
  rw [Line.unbrace, bare, Text.trim_of_trimmed (trimmed_statement hf)]

/-- The line of a fetch is no processing line. -/
theorem working_statement (hf : f.Proper) : Line.working f.statement = [] := by
  have fetched : Text.contains "PG_GETARG_" f.statement = true := by
    have inCall : "PG_GETARG_".toList <:+: f.call := (List.prefix_append _ _).isInfix
    have inRight : f.call <:+: f.right := by
      rw [right]
      split
      · next type _ => exact ⟨"(" ++ (type ++ ") "), [], by simp⟩
      · exact List.infix_rfl
    refine Text.contains_iff.mpr (inCall.trans (inRight.trans ?_))
    exact ⟨f.left ++ (f.var ++ " = "), ";", by simp [statement]⟩
  have idle : Line.isIdle f.statement = true := by
    rw [Line.isIdle, fetched, Bool.or_true, Bool.true_or, Bool.true_or]
  rw [Line.working, unbrace_statement hf]
  exact if_pos idle

end ArgSlot.Fetch

namespace Line

/-! ### Lines -/

/-- A beginning without quotes and slashes is kept. -/
theorem stripComments_append {p : Text} (hp : ∀ c ∈ p, isQuote c = false ∧ c ≠ '/') (s : Text) :
    stripComments (p ++ s) = p ++ stripComments s := by
  induction p with
  | nil => rfl
  | cons c p ih =>
    obtain ⟨⟨hq, hs⟩, hp⟩ := List.forall_mem_cons.mp hp
    have code : afterCode c = .code := if_neg (by simpa [isQuote] using hq)
    have step : stripComments (c :: (p ++ s)) = c :: stripFrom (afterCode c) (p ++ s) :=
      stripFrom_code (Scan.not_opensComment_of_ne hs _)
    rw [List.cons_append, step, code, List.cons_append, ← ih hp, stripComments]

/-- Outside literals the parentheses of a text are counted. -/
theorem foldl_parenStep {u : Text} (hu : ∀ c ∈ u, isQuote c = false) (d : Int) :
    u.foldl parenStep (d, .code) = (d + u.count '(' - u.count ')', .code) := by
  induction u generalizing d with
  | nil => simp
  | cons c u ih =>
    obtain ⟨hq, rest⟩ := List.forall_mem_cons.mp hu
    have code : ¬ (c = '"' ∨ c = '\'') := by simpa [isQuote] using hq
    rw [List.foldl_cons, parenStep, if_neg code]
    · split
      · next h =>
        subst h
        rw [ih rest, List.count_cons_self, List.count_cons_of_ne (by decide)]
        simp only [Nat.cast_add, Nat.cast_one, Prod.mk.injEq, and_true]
        omega
      · next ho =>
        split
        · next h =>
          subst h
          rw [ih rest, List.count_cons_self, List.count_cons_of_ne (by decide)]
          simp only [Nat.cast_add, Nat.cast_one, Prod.mk.injEq, and_true]
          omega
        · next hc => rw [ih rest, List.count_cons_of_ne ho, List.count_cons_of_ne hc]
    · intro q escaped e
      cases e

/-- A line that opens no more parentheses than it closes is joined to nothing. -/
theorem logical_append {a p : Text} (ha : ∀ c ∈ a, Text.isLayout c = true ∧ c ≠ '\n')
    (hp : ∀ c ∈ p, isQuote c = false ∧ c ≠ '/' ∧ c ≠ '\n') (ht : Text.Trimmed p) (hne : p ≠ [])
    (hb : parenBalance p ≤ 0) (s : Text) :
    logical (a ++ (p ++ '\n' :: s)) = p :: logical s := by
  have plain : ∀ c ∈ a ++ p ++ ['\n'], isQuote c = false ∧ c ≠ '/' := by
    simp only [List.forall_mem_append, List.forall_mem_singleton]
    refine ⟨⟨fun c hc => ⟨isQuote_of_isLayout (ha c hc).1, ?_⟩,
      fun c hc => ⟨(hp c hc).1, (hp c hc).2.1⟩⟩, by decide⟩
    rintro rfl
    cases (ha _ hc).1
  have strip : stripComments (a ++ (p ++ '\n' :: s)) = (a ++ p) ++ '\n' :: stripComments s := by
    have := stripComments_append plain s
    simpa using this
  have feedless : ∀ c ∈ a ++ p, (c == '\n') = false := by
    simp only [List.forall_mem_append]
    exact ⟨fun c hc => beq_false_of_ne (ha c hc).2, fun c hc => beq_false_of_ne (hp c hc).2.2⟩
  have trim : Text.trim (a ++ p) = p := by
    have := Text.trim_append (a := a) (t := p) (b := [])
      (fun c hc => Text.isBlank_of_isLayout (ha c hc).1) (by simp) ht
    simpa using this
  have physical : physical (stripComments (a ++ (p ++ '\n' :: s))) =
      p :: physical (stripComments s) := by
    rw [strip, physical_append feedless, physical_line feedless, trim, if_neg (by simpa using hne)]
    rfl
  have line : ∀ t, logical t = joinFrom [] 0 (Line.physical (stripComments t)) := fun _ => rfl
  rw [line, line, physical, joinFrom]
  simp [hb]

end Line

namespace ArgSlot.Fetch

variable {ls : List (Text × Fetch)} {f : Fetch}

/-- Words hold no parenthesis. -/
theorem count_of_inWords {y : Text} (hy : ∀ c ∈ y, inWords c = true) :
    y.count '(' = 0 ∧ y.count ')' = 0 := by
  constructor <;>
  · refine List.count_eq_zero.mpr fun h => ?_
    exact absurd (hy _ h) (by decide)

/-- A statement closes the parentheses that it opens. -/
theorem count_statement (hf : f.Proper) : f.statement.count '(' = f.statement.count ')' := by
  have word : ∀ {v : Text}, Text.isName v = true → v.count '(' = 0 ∧ v.count ')' = 0 := fun hv =>
    count_of_inWords fun c hc => by simp [inWords, Text.all_inName_of_isName hv c hc]
  have digits : f.digits.count '(' = 0 ∧ f.digits.count ')' = 0 :=
    count_of_inWords fun c hc => by simp [inWords, inName_of_isDigit (hf.digits.2 c hc)]
  have call : f.call.count '(' = f.call.count ')' := by
    have name := word (isName_call hf)
    rw [List.count_append, List.count_append] at name
    have parens : ("(".toList.count '(' = 1 ∧ "(".toList.count ')' = 0) ∧
        (")".toList.count '(' = 0 ∧ ")".toList.count ')' = 1) := by decide
    unfold Fetch.call
    simp only [List.count_append, parens, digits]
    omega
  have right : f.right.count '(' = f.right.count ')' := by
    cases e : f.cast? with
    | none =>
      rw [Fetch.right, e]
      exact call
    | some type =>
      have type := count_of_inWords (hf.cast type e).1
      have parens : ("(".toList.count '(' = 1 ∧ "(".toList.count ')' = 0) ∧
        (") ".toList.count '(' = 0 ∧ ") ".toList.count ')' = 1) := by decide
      simp only [Fetch.right, e, List.count_append, parens, type, call]
      omega
  have marks : (" = ".toList.count '(' = 0 ∧ " = ".toList.count ')' = 0) ∧
    (";".toList.count '(' = 0 ∧ ";".toList.count ')' = 0) := by decide
  unfold statement
  simp only [List.count_append, count_of_inWords hf.left, word hf.var, marks, right]

/-- The processing lines are those of what follows the fetches. -/
theorem lines_body (h : Written ls) (rest : Text) :
    Line.ofBody (body ls rest) = Line.ofBody rest := by
  induction ls with
  | nil => rfl
  | cons l ls ih =>
    obtain ⟨proper, -⟩ := h.head
    have plain : ∀ c ∈ l.2.statement, isQuote c = false ∧ c ≠ '/' ∧ c ≠ '\n' := fun c hc =>
      plain_of_inStatement (inStatement_of_mem proper c hc)
    have nonempty : l.2.statement ≠ [] := by
      intro e
      have last := getLast?_statement l.2
      rw [e] at last
      cases last
    have balance : Line.parenBalance l.2.statement ≤ 0 := by
      rw [Line.parenBalance, Line.foldl_parenStep fun c hc => (plain c hc).1,
        count_statement proper]
      simp
    have written : body (l :: ls) rest = l.1 ++ (l.2.statement ++ '\n' :: body ls rest) :=
      congrArg (l.1 ++ ·) (line_eq l.2 _)
    rw [Line.ofBody, written, Line.logical_append (h.indent l List.mem_cons_self) plain
      (trimmed_statement proper) nonempty balance, List.flatMap_cons, working_statement proper,
      List.nil_append, ← Line.ofBody, ih h.tail]

/-! ### The type tag -/

/-- Layout is no part of the mark of a type tag. -/
theorem contains_tag_blanks {a : Text} (ha : ∀ c ∈ a, Text.isLayout c = true) (s : Text) :
    Text.contains Line.typeTagMark (a ++ s) = Text.contains Line.typeTagMark s := by
  induction a with
  | nil => rfl
  | cons c a ih =>
    obtain ⟨hc, ha⟩ := List.forall_mem_cons.mp ha
    have other : Line.typeTagMark.isPrefixOf (c :: (a ++ s)) = false := by
      have ne : 'm' ≠ c := by
        rintro rfl
        cases hc
      have first : Line.typeTagMark = 'm' :: "eosType basetype =".toList := by decide
      rw [first, List.isPrefixOf_cons_cons, beq_false_of_ne ne, Bool.false_and]
    rw [List.cons_append, Text.contains, other, Bool.false_or, ih ha]

/-- A body asks for a type where a fetch looks like it, or in what follows. -/
theorem contains_tag_body (h : Written ls) (rest : Text) :
    Text.contains Line.typeTagMark (body ls rest) =
      (((ls.map Prod.snd).any fun f => Text.contains Line.typeTagMark f.statement) ||
        Text.contains Line.typeTagMark rest) := by
  induction ls with
  | nil => rfl
  | cons l ls ih =>
    obtain ⟨-, blanks⟩ := h.head
    have written : body (l :: ls) rest = l.1 ++ (l.2.statement ++ '\n' :: body ls rest) :=
      congrArg (l.1 ++ ·) (line_eq l.2 _)
    have parts : Text.contains Line.typeTagMark (l.2.statement ++ '\n' :: body ls rest) =
        (Text.contains Line.typeTagMark l.2.statement ||
          Text.contains Line.typeTagMark (body ls rest)) := by
      rw [Bool.eq_iff_iff, Bool.or_eq_true, Text.contains_iff, Text.contains_iff, Text.contains_iff]
      refine ⟨Text.infix_of_not_mem (by decide), ?_⟩
      rintro (h | h)
      · exact h.trans (List.prefix_append _ _).isInfix
      · exact h.trans ((List.suffix_cons _ _).trans (List.suffix_append _ _)).isInfix
    rw [written, contains_tag_blanks blanks, parts, ih h.tail, List.map_cons, List.any_cons,
      Bool.or_assoc]

end ArgSlot.Fetch

/-! ### Bodies -/

namespace Implementation

/-- What is read of a body besides its text. -/
theorem ofBody_congr {symbol b c : Text} {span : Span} (slots : ArgSlot.ofBody c = ArgSlot.ofBody b)
    (lines : Line.ofBody c = Line.ofBody b) (summary : Return.summary c = Return.summary b)
    (tag : Text.contains Line.typeTagMark c = Text.contains Line.typeTagMark b) :
    ofBody symbol c span = (ofBody symbol b span).map fun n => { n with body := c } := by
  rw [ofBody, ofBody, slots, lines, summary, tag]
  obtain ⟨kind?, nullable⟩ := Return.summary b
  dsimp only
  cases Shape.classify (Line.ofBody b) nullable <;> rfl

/-- What a native function is read for: its arguments, its shape, its returns, and the wrappers that
are made for it. -/
structure Behaviour where
  slots : List ArgSlot
  shape : Shape
  returnKind? : Option Text
  nullable : Bool
  emit : Emitter → Declaration → Text → Except EmitFailure (Option Wrapper)

/-- What a native function is read for. -/
def behaviour (n : Implementation) : Behaviour where
  slots := n.slots
  shape := n.shape
  returnKind? := n.returnKind?
  nullable := n.nullable
  emit e d key := e.emit d n key

/-- The body that an implementation keeps is not asked for by its wrapper. -/
theorem behaviour_body (n : Implementation) (b : Text) :
    behaviour { n with body := b } = behaviour n :=
  rfl

/-- **The order in which a body fetches its arguments does not matter.** -/
theorem ofBody_reordered {ls ls' : List (Text × Fetch)} (h : Fetch.Written ls)
    (h' : Fetch.Written ls') (hp : (ls.map Prod.snd).Perm (ls'.map Prod.snd))
    (hn : (ls.map fun l => ArgSlot.number l.2.digits).Nodup) (rest symbol : Text) (span : Span) :
    (ofBody symbol (Fetch.body ls' rest) span).map behaviour =
      (ofBody symbol (Fetch.body ls rest) span).map behaviour := by
  have lines : Line.ofBody (Fetch.body ls' rest) = Line.ofBody (Fetch.body ls rest) := by
    rw [Fetch.lines_body h, Fetch.lines_body h']
  have summary : Return.summary (Fetch.body ls' rest) = Return.summary (Fetch.body ls rest) := by
    rw [Fetch.summary_body h, Fetch.summary_body h']
  have tag : Text.contains Line.typeTagMark (Fetch.body ls' rest) =
      Text.contains Line.typeTagMark (Fetch.body ls rest) := by
    rw [Fetch.contains_tag_body h, Fetch.contains_tag_body h', hp.any_eq]
  rw [ofBody_congr (Fetch.slots_reordered h h' hp hn rest) lines summary tag]
  cases ofBody symbol (Fetch.body ls rest) span with
  | error e => rfl
  | ok n => exact congrArg Except.ok (behaviour_body n _)

/-- A fetch with a type and one with a cast, in both orders. -/
theorem ofBody_reordered_pair :
    (ofBody "f" ("\tnum = (int) PG_GETARG_INT32(1);\nTemporal *temp = PG_GETARG_TEMPORAL_P(0);\n" ++
      "PG_RETURN_INT32(g(temp, num));\n") ⟨none, 0, 0⟩).map behaviour =
    (ofBody "f" ("  Temporal *temp = PG_GETARG_TEMPORAL_P(0);\n" ++
      "  num = (int) PG_GETARG_INT32(1);\n" ++
      "PG_RETURN_INT32(g(temp, num));\n") ⟨none, 0, 0⟩).map behaviour := by
  let temp : Fetch := ⟨"Temporal *", "temp", none, "TEMPORAL_P", "0"⟩
  let num : Fetch := ⟨[], "num", some "int", "INT32", "1"⟩
  have tempProper : temp.Proper :=
    { left := List.all_eq_true.mp (by decide)
      left_head := by decide
      left_last := fun c hc => by
        cases hc
        rfl
      var := by decide
      cast := fun _ hc => by cases hc
      kind := ⟨by decide, List.all_eq_true.mp (by decide)⟩
      digits := ⟨by decide, List.all_eq_true.mp (by decide)⟩ }
  have numProper : num.Proper :=
    { left := List.all_eq_true.mp (by decide)
      left_head := by decide
      left_last := fun _ hc => by cases hc
      var := by decide
      cast := fun _ hc => by
        cases hc
        exact ⟨List.all_eq_true.mp (by decide), 'i', "nt", rfl, by decide⟩
      kind := ⟨by decide, List.all_eq_true.mp (by decide)⟩
      digits := ⟨by decide, List.all_eq_true.mp (by decide)⟩ }
  have first : Fetch.Written [("  ", temp), ("  ", num)] :=
    { proper := by simp [tempProper, numProper]
      indent := by simp [Text.isLayout] }
  have second : Fetch.Written [("\t", num), ([], temp)] :=
    { proper := by simp [tempProper, numProper]
      indent := by simp [Text.isLayout] }
  exact ofBody_reordered first second (List.Perm.swap num temp []) (by decide)
    "PG_RETURN_INT32(g(temp, num));\n" "f" ⟨none, 0, 0⟩

end Implementation

end VectorWrap
