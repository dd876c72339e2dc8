import VectorWrap.Proofs.Implementation.LineBreaks
import VectorWrap.Proofs.Implementation.Lines
import VectorWrap.Proofs.Text.Level

/-!
# An `if` with its statement on one line

Such a line is divided behind the first parenthesis that closes the one behind `if`
(`splitIf?_eq_some_iff`), and parentheses count inside literals as well.  So the condition is the
head and what follows it the statement exactly if all parentheses of the condition are matched, the
ones in its literals among them (`ofBody_inlineIf_iff`); in particular if its literals have none
(`ofBody_inlineIf`).

Nothing is asked of the parentheses of the statement: the count stops at the end of the
condition.  What `InlineIf` asks of the line is that it is one logical line, with no comment and no
line feed, and that it is none of the lines that are dropped.
-/

namespace VectorWrap

namespace Line
open Scan Text

/-! ### Groups -/

/-- One parenthesis more is open behind a character if one more was open before it. -/
theorem open_eq (depth : Int) (c : Char) :
    (if c = '(' then depth + 1 + 1 else if c = ')' then depth + 1 - 1 else depth + 1) =
      depth + nesting c + 1 := by
  unfold nesting
  split_ifs <;> omega

/-- A group ends with the first parenthesis that is closed where one is open. -/
theorem afterGroup?_eq_some_iff {depth : Int} {s a r : Text} :
    afterGroup? (depth + 1) s = some (a, r) ↔
      ∃ u, s = u ++ ')' :: r ∧ a = u ++ [')'] ∧ Enclosed ')' depth u ∧ depth + level u = 0 := by
  induction s generalizing depth a with
  | nil => simp [afterGroup?]
  | cons c s ih =>
    have ends : (c = ')' ∧ depth + 1 = 1) ↔ (c = ')' ∧ depth = 0) := by
      rw [add_eq_right]
    rw [afterGroup?, open_eq]
    by_cases hc : c = ')' ∧ depth = 0
    · rw [if_pos (ends.mpr hc)]
      obtain ⟨rfl, rfl⟩ := hc
      constructor
      · rintro ⟨⟩
        exact ⟨[], rfl, rfl, trivial, by simp⟩
      · rintro ⟨u, hs, rfl, enclosed, -⟩
        cases u with
        | nil =>
          cases hs
          rfl
        | cons d u =>
          obtain ⟨rfl, -⟩ := List.cons_eq_cons.mp hs
          exact absurd ⟨rfl, rfl⟩ enclosed.1
    · rw [if_neg (mt ends.mp hc), Option.map_eq_some_iff]
      constructor
      · rintro ⟨⟨b, t⟩, h, e⟩
        cases e
        obtain ⟨u, rfl, rfl, enclosed, hl⟩ := ih.mp h
        exact ⟨c :: u, rfl, rfl, ⟨hc, enclosed⟩, by rw [level_cons, ← add_assoc, hl]⟩
      · rintro ⟨u, hs, rfl, enclosed, hl⟩
        cases u with
        | nil =>
          obtain ⟨rfl, -⟩ := List.cons_eq_cons.mp hs
          exact absurd ⟨rfl, by simpa using hl⟩ hc
        | cons d u =>
          obtain ⟨rfl, rfl⟩ := List.cons_eq_cons.mp hs
          rw [level_cons, ← add_assoc] at hl
          exact ⟨(u ++ [')'], r), ih.mpr ⟨u, rfl, rfl, enclosed.2, hl⟩, rfl⟩

/-- The head of an `if` with the given condition. -/
def ifHead (condition : Text) : Text :=
  "if (" ++ (condition ++ [')'])

/-- The line with an `if` and its statement. -/
def inlineIf (condition statement : Text) : Text :=
  ifHead condition ++ ' ' :: statement

/-- The head of an `if` ends with the parenthesis that closes the first, and the statement is what
follows without blanks and braces at its ends. -/
theorem splitIf?_eq_some_iff {r head statement : Text} :
    splitIf? ("if (" ++ r) = some (head, statement) ↔
      ∃ u tail, r = u ++ ')' :: tail ∧ Matched u ∧ head = ifHead u ∧
        statement = unbrace (trim tail) ∧ statement ≠ [] := by
  have rest : after? "if" ("if (" ++ r) = some (' ' :: '(' :: r) := rfl
  have before : (' ' :: '(' :: r).takeWhile (· != '(') = [' '] := by simp
  have behind : (' ' :: '(' :: r).dropWhile (· != '(') = '(' :: r := by simp
  have word : ((' ' :: '(' :: r).head?.map inName).getD false = false := rfl
  have opened : afterGroup? 0 ('(' :: r) = (afterGroup? 1 r).map fun p => ('(' :: p.1, p.2) := by
    simp [afterGroup?]
  have group (a t : Text) : afterGroup? 1 r = some (a, t) ↔
      ∃ u, r = u ++ ')' :: t ∧ a = u ++ [')'] ∧ Matched u := by
    simpa [Matched] using @afterGroup?_eq_some_iff 0 r a t
  rw [splitIf?, rest]
  simp only [Option.bind_eq_bind, Option.bind_some, word, before, behind, opened]
  constructor
  · intro h
    obtain ⟨-, -, h⟩ := Option.bind_eq_some_iff.mp h
    obtain ⟨⟨a, t⟩, ha, h⟩ := Option.bind_eq_some_iff.mp h
    obtain ⟨_, hs, h⟩ := Option.bind_eq_some_iff.mp h
    obtain ⟨⟨a, t⟩, hg, e⟩ := Option.map_eq_some_iff.mp ha
    cases e
    obtain ⟨u, rfl, rfl, matched⟩ := (group a t).mp hg
    cases h
    refine ⟨u, t, rfl, matched, by simp [ifHead], rfl, fun e => ?_⟩
    simp [e] at hs
  · rintro ⟨u, t, rfl, matched, rfl, rfl, hne⟩
    rw [(group (u ++ [')']) t).mpr ⟨u, rfl, rfl, matched⟩]
    simp [hne, ifHead]

/-! ### Single lines -/

variable {a b c s t : Text}

/-- No comment comes about where a text is followed by a character that opens none. -/
theorem Uncommented.append {g : Region} {d : Char} (ha : Uncommented g a)
    (hg : a.foldl Region.behind g = .code) (hb : Uncommented .code (d :: b))
    (hd : d ≠ '/' ∧ d ≠ '*') : Uncommented g (a ++ d :: b) := by
  induction a generalizing g with
  | nil =>
    obtain rfl : g = .code := hg
    exact hb
  | cons x a ih =>
    obtain ⟨hx, plain, rest⟩ := uncommented_cons.mp ha
    refine uncommented_cons.mpr ⟨hx, ?_, ih rest hg⟩
    rintro ⟨rfl, rfl, ho⟩
    cases a with
    | nil => simp [hd] at ho
    | cons y a => exact plain ⟨rfl, rfl, ho⟩

/-- A character that begins neither a comment nor a literal leaves the rest uncommented. -/
theorem uncommented_code_cons {d : Char} (hd : isQuote d = false ∧ d ≠ '/') :
    Uncommented .code (d :: s) ↔ Uncommented .code s := by
  rw [uncommented_cons, behind_of_not_quote hd.1]
  simp [Region.isComment, opensComment, hd.2]

/-- A line by itself is kept as it is, but for blanks at its ends. -/
theorem logical_line (hb : Uncommented .code t) (hn : '\n' ∉ t) (ht : Trimmed t) (hne : t ≠ []) :
    logical t = [t] := by
  have line : ∀ c ∈ t, (c == '\n') = false := fun c hc => by
    rw [beq_eq_false_iff_ne]
    rintro rfl
    exact hn hc
  have whole : physical (stripComments t) = [t] := by
    rw [stripComments, stripFrom_of_uncommented hb, physical_line line, trim_of_trimmed ht,
      if_neg (by simpa using hne)]
  rw [logical, ← physical, whole, joinFrom_singleton hne]
  rfl

/-- There is nothing to take off a trimmed line without braces at its ends. -/
theorem unbrace_of_trimmed (ht : Trimmed t) (hh : t.head?.any isBrace = false)
    (hl : t.getLast?.any isBrace = false) : unbrace t = t := by
  rw [Option.any_eq_false] at hh hl
  have kept : trimBy isBrace t = t := by
    simpa using trimBy_append (a := []) (b := []) (by simp) (by simp) hh hl
  rw [unbrace, kept, trim_of_trimmed ht]

/-- What an `if` with its statement on one line is made of: the parts have neither line breaks nor
comments nor what makes a line idle, the literals of the condition are closed, and the statement
has no blanks or braces at its ends. -/
structure InlineIf (c s : Text) : Prop where
  one_line : '\n' ∉ c ∧ '\n' ∉ s
  bare : Uncommented .code c ∧ Uncommented .code s
  closed : EndsLiterals c
  unmarked : ∀ w ∈ [fetchMark, typeTagMark], ¬ w <:+: c ∧ ¬ w <:+: s
  ne_nil : s ≠ []
  trimmed : Trimmed s
  unbraced : s.head?.any isBrace = false ∧ s.getLast?.any isBrace = false

instance decidableTrimmed : DecidablePred Trimmed := fun t =>
  decidable_of_iff (t.head?.any isBlank = false ∧ t.getLast?.any isBlank = false) <| by
    rw [Option.any_eq_false, Option.any_eq_false]
    exact ⟨fun h => ⟨h.1, h.2⟩, fun h => ⟨h.head, h.last⟩⟩

namespace InlineIf

instance : Decidable (InlineIf c s) :=
  decidable_of_iff (('\n' ∉ c ∧ '\n' ∉ s) ∧ (Uncommented .code c ∧ Uncommented .code s) ∧
      EndsLiterals c ∧ (∀ w ∈ [fetchMark, typeTagMark], ¬ w <:+: c ∧ ¬ w <:+: s) ∧ s ≠ [] ∧
      Trimmed s ∧ s.head?.any isBrace = false ∧ s.getLast?.any isBrace = false)
    ⟨fun ⟨h₁, h₂, h₃, h₄, h₅, h₆, h₇⟩ => ⟨h₁, h₂, h₃, h₄, h₅, h₆, h₇⟩,
      fun ⟨h₁, h₂, h₃, h₄, h₅, h₆, h₇⟩ => ⟨h₁, h₂, h₃, h₄, h₅, h₆, h₇⟩⟩

theorem last_of_ne_nil (h : s ≠ []) : (inlineIf c s).getLast? = s.getLast? := by
  rw [inlineIf, List.getLast?_append_of_ne_nil _ (List.cons_ne_nil _ _),
    List.getLast?_cons_of_ne_nil h]

/-- The line begins and ends with no blank. -/
theorem trimmed_line (h : InlineIf c s) : Trimmed (inlineIf c s) where
  head x hx := by
    obtain rfl : 'i' = x := Option.some.inj hx
    decide
  last x hx := h.trimmed.last x (last_of_ne_nil h.ne_nil ▸ hx)

/-- The line is the one logical line of its body. -/
theorem logical (h : InlineIf c s) : logical (inlineIf c s) = [inlineIf c s] := by
  have statement : Uncommented .code (')' :: ' ' :: s) := by
    rw [uncommented_code_cons (by decide), uncommented_code_cons (by decide)]
    exact h.bare.2
  have bare : Uncommented .code (inlineIf c s) := by
    have parts : inlineIf c s = 'i' :: 'f' :: ' ' :: '(' :: (c ++ ')' :: ' ' :: s) := by
      simp [inlineIf, ifHead]
    rw [parts]
    repeat rw [uncommented_code_cons (by decide)]
    exact h.bare.1.append h.closed statement (by decide)
  have one_line : '\n' ∉ inlineIf c s := by
    simp [inlineIf, ifHead, h.one_line]
  exact logical_line bare one_line h.trimmed_line (by simp [inlineIf, ifHead])

theorem unbrace (h : InlineIf c s) : Line.unbrace (inlineIf c s) = inlineIf c s := by
  refine unbrace_of_trimmed h.trimmed_line rfl ?_
  rw [last_of_ne_nil h.ne_nil, h.unbraced.2]

/-- The line has no mark of an idle one. -/
theorem unmarked_line (h : InlineIf c s) {w : Text} (hw : w ∈ [fetchMark, typeTagMark]) :
    ¬ w <:+: inlineIf c s := by
  intro hi
  obtain ⟨hc, hs⟩ := h.unmarked w hw
  have plain : ∀ w ∈ [fetchMark, typeTagMark], ('(' ∉ w ∧ ')' ∉ w ∧ ¬ w <:+: "if ".toList) ∧
      w.isPrefixOf (' ' :: s) = false :=
    List.forall_mem_cons.mpr ⟨⟨by decide, rfl⟩, List.forall_mem_singleton.mpr ⟨by decide, rfl⟩⟩
  obtain ⟨⟨opening, closing, word⟩, space⟩ := plain w hw
  have parts : inlineIf c s = "if ".toList ++ '(' :: (c ++ ')' :: ' ' :: s) := by
    simp [inlineIf, ifHead]
  rw [parts] at hi
  rcases infix_of_not_mem closing ((infix_of_not_mem opening hi).resolve_left word) with hi | hi
  · exact hc hi
  · rcases List.infix_cons_iff.mp hi with hi | hi
    · rw [← List.isPrefixOf_iff_prefix, space] at hi
      cases hi
    · exact hs hi

/-- The line is not idle. -/
theorem not_idle (h : InlineIf c s) : isIdle (inlineIf c s) = false := by
  have absent {w : Text} (hw : w ∈ [fetchMark, typeTagMark]) :
      contains w (inlineIf c s) = false := by
    rw [Bool.eq_false_iff, Ne, contains_iff]
    exact h.unmarked_line hw
  have fetch : contains "PG_GETARG_" (inlineIf c s) = false := absent (.head _)
  have tag : contains typeTagMark (inlineIf c s) = false := absent (.tail _ (.head _))
  rw [isIdle, fetch, tag]
  rfl

/-- The `if` is the one logical line of its body, so its processing lines are what it is split
into. -/
theorem ofBody_eq_iff (h : InlineIf c s) : ofBody (inlineIf c s) = [ifHead c, s] ↔
    splitIf? (inlineIf c s) = some (ifHead c, s) := by
  rw [ofBody, h.logical, List.flatMap_singleton, working, h.unbrace, h.not_idle]
  cases splitIf? (inlineIf c s) <;> simp [Prod.ext_iff]

/-- The `if` is split behind its condition exactly if the parentheses of that are matched. -/
theorem splitIf?_iff (h : InlineIf c s) :
    splitIf? (inlineIf c s) = some (ifHead c, s) ↔ Matched c := by
  have parts : inlineIf c s = "if (" ++ (c ++ ')' :: ' ' :: s) := by
    simp [inlineIf, ifHead]
  have kept : s = Line.unbrace (trim (' ' :: s)) := by
    have blank : ∀ x ∈ [' '], isBlank x = true := List.forall_mem_singleton.mpr (by decide)
    have space : trim (' ' :: s) = s :=
      (trim_blank_append blank s).trans (trim_of_trimmed h.trimmed)
    rw [space, unbrace_of_trimmed h.trimmed h.unbraced.1 h.unbraced.2]
  rw [parts, splitIf?_eq_some_iff]
  constructor
  · rintro ⟨u, t, -, matched, head, -⟩
    have same : c = u := by simpa [ifHead] using head
    rwa [same]
  · intro matched
    exact ⟨c, ' ' :: s, rfl, matched, rfl, kept, h.ne_nil⟩

end InlineIf

/-- **A condition and its statement are told apart exactly if the parentheses of the condition are
matched**, in its literals and outside. -/
theorem ofBody_inlineIf_iff (h : InlineIf c s) :
    ofBody (inlineIf c s) = [ifHead c, s] ↔ Matched c :=
  h.ofBody_eq_iff.trans h.splitIf?_iff

/-! ### Conditions with literals -/

/-- The characters of a text, each with the region that it stands in. -/
def placed (g : Region) : Text → List (Region × Char)
  | [] => []
  | x :: s => (g, x) :: placed (g.behind x) s

/-- What is left of a text without its literals. -/
def unquoted (s : Text) : Text :=
  ((placed .code s).filter (·.1 = .code)).map Prod.snd

/-- No literal of the text has a parenthesis. -/
def PlainLiterals (s : Text) : Prop :=
  ∀ p ∈ placed .code s, p.1 ≠ .code → nesting p.2 = 0

instance : DecidablePred PlainLiterals := fun s =>
  inferInstanceAs (Decidable (∀ p ∈ placed .code s, p.1 ≠ .code → nesting p.2 = 0))

/-- The characters of a text with their regions are its characters. -/
theorem map_placed (g : Region) (s : Text) : (placed g s).map Prod.snd = s := by
  induction s generalizing g with
  | nil => rfl
  | cons x s ih => rw [placed, List.map_cons, ih]

/-- Where no literal has a parenthesis, the parentheses outside literals are all there are. -/
theorem matched_unquoted (h : PlainLiterals s) : Matched (unquoted s) ↔ Matched s := by
  have plain : ∀ p ∈ placed .code s, decide (p.1 = .code) = false → nesting p.2 = 0 :=
    fun p hp hn => h p hp (by simpa using hn)
  rw [unquoted, matched_filter plain, map_placed]

/-- **An `if` is divided at the end of its condition** if the parentheses of the condition are
matched outside its literals and there are none in them. -/
theorem ofBody_inlineIf (h : InlineIf c s) (hm : Matched (unquoted c)) (hp : PlainLiterals c) :
    ofBody (inlineIf c s) = [ifHead c, s] :=
  h.ofBody_eq_iff.mpr (h.splitIf?_iff.mpr ((matched_unquoted hp).mp hm))

/-- Calls may be nested, and literals hold anything else. -/
theorem ofBody_inlineIf_call :
    let c : Text := "! f(g(x), \"a 'b\") || y == '\\\''"
    let s : Text := "PG_RETURN_NULL();"
    InlineIf c s ∧ Matched (unquoted c) ∧ PlainLiterals c ∧
      ofBody (inlineIf c s) = [ifHead c, s] := by
  intro c s
  have parts : InlineIf c s := by decide +kernel
  have plain : PlainLiterals c := by decide +kernel
  have matched : Matched (unquoted c) := by decide +kernel
  exact ⟨parts, matched, plain,
    (ofBody_inlineIf_iff parts).mpr ((matched_unquoted plain).mp matched)⟩

/-- A parenthesis in a literal ends the condition. -/
theorem ofBody_inlineIf_paren :
    let c : Text := "x == ')'"
    let s : Text := "PG_RETURN_NULL();"
    InlineIf c s ∧ Matched (unquoted c) ∧
      ofBody (inlineIf c s) = ["if (x == ')".toList, "') PG_RETURN_NULL();".toList] := by
  decide +kernel

end Line

end VectorWrap
