import VectorWrap.Proofs.Code.Structure
import VectorWrap.Proofs.Implementation.Joined

/-!
# What is left of the lines of a body

Lines are trimmed, joined and cut, and none of that divides a token as long as each line closes its
literals: the tokens of the logical lines are those of the body (`code_logical`).  A logical line
loses the braces at its ends, or all of its tokens; one that is split also loses the braces around
the statement behind the condition.  `Line.marks` says so of every token, and the tokens that it
leaves are those of the processing lines (`rest_marks`).

Literals are what makes it delicate.  A token is a mark, a number or name, or a whole literal, and a
literal may hold blanks, braces and line breaks; so each lemma on a cut asks that the text before it
closes what it opened (`EndsLiterals`), and that the character at the cut stands in no number or
name (`tokens_edge`).
-/

namespace VectorWrap

/-! ### Closed literals -/

namespace Line
open Scan

/-- The region behind a character of a text without comments. -/
def Region.behind : Region → Char → Region
  | .literal q escaped, c => afterLiteral q escaped c
  | _, c => afterCode c

/-- Every literal of the text is closed. -/
def EndsLiterals (s : Text) : Prop :=
  s.foldl Region.behind .code = .code

instance (s : Text) : Decidable (EndsLiterals s) :=
  inferInstanceAs (Decidable (_ = _))

theorem endsLiterals_nil : EndsLiterals [] :=
  rfl

theorem behind_of_not_quote {c : Char} (h : isQuote c = false) : Region.behind .code c = .code := by
  simp only [isQuote, Bool.or_eq_false_iff, beq_eq_false_iff_ne] at h
  exact if_neg (not_or.mpr h)

/-- A text without quotes closes its literals. -/
theorem endsLiterals_of_quoteless {s : Text} (h : ∀ c ∈ s, isQuote c = false) : EndsLiterals s := by
  induction s with
  | nil => rfl
  | cons c s ih =>
    rw [EndsLiterals, List.foldl_cons, behind_of_not_quote (h c (.head _))]
    exact ih fun d hd => h d (.tail _ hd)

/-- A text that closes no literal closes none that is open before it. -/
theorem behind_literal {q : Char} {s : Text} (hq : isQuote q = true)
    (h : ∀ c ∈ s, isQuote c = false) (escaped : Bool) :
    s.foldl Region.behind (.literal q escaped) ≠ .code := by
  induction s generalizing escaped with
  | nil => nofun
  | cons c s ih =>
    have hne : c ≠ q := by
      rintro rfl
      rw [h c (.head _)] at hq
      cases hq
    have stays : Region.behind (.literal q escaped) c = .literal q (!escaped && c == '\\') :=
      if_neg fun hc => hne hc.2
    rw [List.foldl_cons, stays]
    exact ih (fun d hd => h d (.tail _ hd)) _

/-- Behind a text without comments there is code or a literal. -/
theorem code_or_literal (s : Text) : s.foldl Region.behind .code = .code ∨
    ∃ q escaped, isQuote q = true ∧ s.foldl Region.behind .code = .literal q escaped := by
  induction s using List.reverseRecOn with
  | nil => exact .inl rfl
  | append_singleton s c ih =>
    rw [List.foldl_append, List.foldl_cons, List.foldl_nil]
    rcases ih with ih | ⟨q, escaped, hq, ih⟩
    · rw [ih]
      by_cases hc : isQuote c = true
      · refine .inr ⟨c, false, hc, if_pos ?_⟩
        simpa [isQuote] using hc
      · exact .inl (behind_of_not_quote (by simpa using hc))
    · rw [ih, Region.behind, afterLiteral]
      split_ifs
      · exact .inl rfl
      · exact .inr ⟨q, _, hq, rfl⟩

theorem endsLiterals_append {a b : Text} (ha : EndsLiterals a) :
    EndsLiterals (a ++ b) ↔ EndsLiterals b := by
  rw [EndsLiterals, List.foldl_append, ha, EndsLiterals]

/-- What follows the last literal closes nothing. -/
theorem endsLiterals_append_quoteless {a b : Text} (hb : ∀ c ∈ b, isQuote c = false) :
    EndsLiterals (a ++ b) ↔ EndsLiterals a := by
  refine ⟨fun h => ?_, fun h => (endsLiterals_append h).mpr (endsLiterals_of_quoteless hb)⟩
  rcases code_or_literal a with ha | ⟨q, escaped, hq, ha⟩
  · exact ha
  · rw [EndsLiterals, List.foldl_append, ha] at h
    exact absurd h (behind_literal hq hb escaped)

end Line

/-! ### Where a text may be divided -/

namespace Text
open Line Scan

theorem takeWhile_append_cons {p : Char → Bool} {c : Char} (h : p c = false) (a u : Text) :
    (a ++ c :: u).takeWhile p = a.takeWhile p ∧
      (a ++ c :: u).dropWhile p = a.dropWhile p ++ c :: u := by
  induction a with
  | nil => simp [h]
  | cons d a ih => cases hd : p d <;> simp [hd, ih]

/-- A literal that is closed ends there, whatever follows the text. -/
theorem afterQuote_of_endsLiterals {q : Char} {escaped : Bool} {s : Text}
    (h : s.foldl Region.behind (.literal q escaped) = .code) (u : Text) :
    Token.afterQuote q escaped (s ++ u) =
        ((Token.afterQuote q escaped s).1, (Token.afterQuote q escaped s).2 ++ u) ∧
      EndsLiterals (Token.afterQuote q escaped s).2 := by
  induction s generalizing escaped with
  | nil => cases h
  | cons c s ih =>
    rw [List.foldl_cons, Region.behind, afterLiteral] at h
    have same : (!escaped && decide (c = q)) = true ↔ (!escaped) = true ∧ c = q := by simp
    rw [List.cons_append, Token.afterQuote, Token.afterQuote]
    by_cases hc : (!escaped) = true ∧ c = q
    · rw [if_pos hc] at h
      rw [if_pos (same.mpr hc), if_pos (same.mpr hc)]
      exact ⟨rfl, h⟩
    · rw [if_neg hc, beq_eq_decide] at h
      obtain ⟨split, closed⟩ := ih h
      rw [if_neg (mt same.mp hc), if_neg (mt same.mp hc), split]
      exact ⟨rfl, closed⟩

theorem isQuote_of_inNumber {c : Char} (h : Token.inNumber c = true) : isQuote c = false :=
  isQuote_of_class Token.inNumber rfl rfl h

/-- **Behind closed literals a text may be divided** before what is part of no name or number. -/
theorem tokens_append_cons {c : Char} (hc : Token.inNumber c = false) {s : Text}
    (hs : EndsLiterals s) (u : Text) : tokens (s ++ c :: u) = tokens s ++ tokens (c :: u) := by
  induction hk : s.length using Nat.strong_induction_on generalizing s with
  | _ k ih =>
    cases s with
    | nil => simp [tokens]
    | cons d r =>
      have shorter := Token.length_first d r
      suffices h : Token.first d (r ++ c :: u) =
          ((Token.first d r).1, (Token.first d r).2 ++ c :: u) ∧ EndsLiterals (Token.first d r).2 by
        rw [List.cons_append, tokens_cons, tokens_cons, h.1, List.cons_append,
          ih _ (hk ▸ shorter) h.2 rfl]
      have hrest : isQuote d = false → EndsLiterals r := fun hd => by
        rwa [EndsLiterals, List.foldl_cons, behind_of_not_quote hd] at hs
      have inside : ∀ {p : Char → Bool}, (∀ e, p e = true → Token.inNumber e = true) →
          isQuote d = false → EndsLiterals (r.dropWhile p) := fun {p} hp hd => by
        have parts : r.takeWhile p ++ r.dropWhile p = r := List.takeWhile_append_dropWhile
        have before : EndsLiterals (r.takeWhile p) := endsLiterals_of_quoteless fun e he =>
          isQuote_of_inNumber (hp e (List.mem_takeWhile_imp he))
        exact (endsLiterals_append before).mp (parts.symm ▸ hrest hd)
      have name : ∀ e, inName e = true → Token.inNumber e = true := fun e he => by
        rw [Token.inNumber, he, Bool.true_or]
      unfold Token.first
      split_ifs with hn hq hd
      · obtain ⟨before, behind⟩ := takeWhile_append_cons (Token.inName_of_inNumber hc) r u
        refine ⟨by rw [before, behind], inside name ?_⟩
        exact isQuote_of_inNumber (name d (inName_of_startsName hn))
      · have enters : Region.behind .code d = .literal d false := if_pos hq
        rw [EndsLiterals, List.foldl_cons, enters] at hs
        obtain ⟨split, closed⟩ := afterQuote_of_endsLiterals hs (c :: u)
        exact ⟨by rw [split], closed⟩
      · obtain ⟨before, behind⟩ := takeWhile_append_cons hc r u
        exact ⟨by rw [before, behind], inside (fun _ he => he) (by simpa [isQuote] using hq)⟩
      · exact ⟨rfl, hrest (by simpa [isQuote] using hq)⟩

/-- No brace and no blank stands in a number or a name. -/
theorem inNumber_of_edge {c : Char} (h : isBrace c = true ∨ isBlank c = true) :
    Token.inNumber c = false := by
  have hp : c ≠ '.' := by
    rintro rfl
    revert h
    decide
  rw [Token.inNumber, inName_of_edge h, Bool.false_or, beq_eq_false_iff_ne]
  exact hp

/-- A brace or a blank is a token. -/
theorem tokens_edge {c : Char} (h : isBrace c = true ∨ isBlank c = true) (u : Text) :
    tokens (c :: u) = .mark c :: tokens u := by
  have hn := inName_of_edge h
  have hs : ¬ startsName c = true := fun hs => by
    rw [inName_of_startsName hs] at hn
    cases hn
  have hq : ¬ (c = '"' ∨ c = '\'') := by simpa [isQuote] using isQuote_of_edge h
  have hd : ¬ c.isDigit = true := fun hd => by
    simp [inName, Char.isAlphanum, hd] at hn
  rw [tokens_cons, Token.first, if_neg hs, if_neg hq, if_neg hd]

/-- At a brace or a blank the tokens of a text are those of its parts. -/
theorem code_edge {c : Char} (h : isBrace c = true ∨ isBlank c = true) {s : Text}
    (hs : EndsLiterals s) (u : Text) : code (s ++ c :: u) = code s ++ code (c :: u) := by
  rw [code, tokens_append_cons (inNumber_of_edge h) hs, List.filter_append]
  rfl

theorem code_blank {c : Char} (h : isBlank c = true) (u : Text) : code (c :: u) = code u := by
  rw [code, tokens_edge (.inr h), List.filter_cons_of_neg (by simp [Token.isSpace, h])]
  rfl

theorem code_brace {c : Char} (h : isBrace c = true) (u : Text) :
    code (c :: u) = .mark c :: code u := by
  have hb : isBlank c = false := by
    simp only [isBrace, Bool.or_eq_true, beq_iff_eq] at h
    rcases h with rfl | rfl <;> decide
  rw [code, tokens_edge (.inl h), List.filter_cons_of_pos (by simp [Token.isSpace, hb])]
  rfl

/-- Blanks hold no token. -/
theorem code_blanks {a : Text} (ha : ∀ c ∈ a, isBlank c = true) (u : Text) :
    code (a ++ u) = code u := by
  induction a with
  | nil => rfl
  | cons c a ih =>
    rw [List.cons_append, code_blank (ha c (.head _)), ih fun d hd => ha d (.tail _ hd)]

theorem code_nil : code [] = [] := by
  simp [code, tokens]

/-- Blanks at the end add no token. -/
theorem code_append_blanks {s b : Text} (hs : EndsLiterals s) (hb : ∀ c ∈ b, isBlank c = true) :
    code (s ++ b) = code s := by
  cases b with
  | nil => rw [List.append_nil]
  | cons c b =>
    have none_behind : code (c :: b) = [] := by
      rw [← List.append_nil (c :: b), code_blanks hb, code_nil]
    rw [code_edge (.inr (hb c (.head _))) hs, none_behind, List.append_nil]

/-- Trimming leaves literals as they are. -/
theorem endsLiterals_trim (s : Text) : EndsLiterals (trim s) ↔ EndsLiterals s := by
  obtain ⟨a, b, hab, ha, hb⟩ := exists_trim s
  have quoteless : ∀ {w : Text}, (∀ c ∈ w, isBlank c = true) → ∀ c ∈ w, isQuote c = false :=
    fun h c hc => isQuote_of_edge (.inr (h c hc))
  conv_rhs => rw [hab]
  rw [List.append_assoc, endsLiterals_append (endsLiterals_of_quoteless (quoteless ha)),
    endsLiterals_append_quoteless (quoteless hb)]

/-- A text has the code that it has without the blanks at its ends. -/
theorem code_trim {s : Text} (hs : EndsLiterals s) : code (trim s) = code s := by
  obtain ⟨a, b, hab, ha, hb⟩ := exists_trim s
  conv_rhs => rw [hab]
  rw [List.append_assoc, code_blanks ha, code_append_blanks ((endsLiterals_trim s).mpr hs) hb]

end Text

/-! ### Logical lines -/

namespace Line
open Scan Text

/-- A line closes its literals exactly if it does without the blanks at its ends. -/
theorem endsLiterals_of_physical {p : Text} (hp : ∀ c ∈ p, (c == '\n') = false)
    (h : ∀ line ∈ physical p, EndsLiterals line) : EndsLiterals p := by
  rw [physical_line hp] at h
  rw [← endsLiterals_trim]
  split_ifs at h with he
  · rw [List.isEmpty_iff.mp he]
    rfl
  · exact h _ (.head _)

/-- A physical line has the tokens of the line before it was trimmed. -/
theorem code_physical_line {p : Text} (hp : ∀ c ∈ p, (c == '\n') = false)
    (h : EndsLiterals p) : (physical p).flatMap code = code p := by
  rw [physical_line hp, ← code_trim h]
  split_ifs with he
  · rw [List.isEmpty_iff.mp he, code_nil]
    rfl
  · simp

/-- The trimmed lines of a text have its code. -/
theorem code_physical {s : Text} (h : ∀ line ∈ physical s, EndsLiterals line) :
    (physical s).flatMap code = code s := by
  induction hk : s.length using Nat.strong_induction_on generalizing s with
  | _ k ih =>
    obtain ⟨p, hp, rfl | ⟨rest, rfl⟩⟩ := exists_line s
    · exact code_physical_line hp (endsLiterals_of_physical hp h)
    · rw [physical_append hp] at h ⊢
      have first := endsLiterals_of_physical hp fun l hl => h l (List.mem_append_left _ hl)
      have shorter : rest.length < k := by
        rw [← hk, List.length_append, List.length_cons]
        omega
      have feed : isBlank '\n' = true := by decide
      rw [List.flatMap_append, code_physical_line hp first,
        ih _ shorter (fun l hl => h l (List.mem_append_right _ hl)) rfl,
        code_edge (.inr feed) first, code_blank feed]

/-- Joining keeps the code. -/
theorem code_joinFrom {lines : List Text} (h : ∀ line ∈ lines, EndsLiterals line)
    {pending : Text} (hp : EndsLiterals pending) (depth : Int) :
    (joinFrom pending depth lines).flatMap code = code pending ++ lines.flatMap code ∧
      ∀ line ∈ joinFrom pending depth lines, EndsLiterals line := by
  induction lines generalizing pending depth with
  | nil =>
    cases pending with
    | nil => simp [joinFrom, code_nil]
    | cons c s => simpa [joinFrom] using hp
  | cons t lines ih =>
    obtain ⟨ht, h⟩ := List.forall_mem_cons.mp h
    have space : isBlank ' ' = true := by decide
    have joined : code (if pending.isEmpty then t else pending ++ ' ' :: t) =
        code pending ++ code t ∧
        EndsLiterals (if pending.isEmpty then t else pending ++ ' ' :: t) := by
      split_ifs with he
      · rw [List.isEmpty_iff.mp he, code_nil]
        exact ⟨rfl, ht⟩
      · rw [code_edge (.inr space) hp, code_blank space, endsLiterals_append hp]
        exact ⟨rfl, (endsLiterals_append (a := [' ']) (by rfl)).mpr ht⟩
    obtain ⟨hcode, hends⟩ := joined
    simp only [joinFrom]
    generalize (if pending.isEmpty then t else pending ++ ' ' :: t) = joined at *
    split_ifs
    · obtain ⟨hrest, hall⟩ := ih h endsLiterals_nil 0
      rw [List.flatMap_cons, hrest, hcode, code_nil]
      exact ⟨by simp, List.forall_mem_cons.mpr ⟨hends, hall⟩⟩
    · obtain ⟨hrest, hall⟩ := ih h hends (depth + parenBalance t)
      rw [hrest, hcode]
      exact ⟨by simp, hall⟩

/-- **The logical lines of a body have its code**, if each of its lines closes its literals. -/
theorem code_logical {body : Text}
    (h : ∀ line ∈ physical (stripComments body), EndsLiterals line) :
    (logical body).flatMap code = code (stripComments body) ∧
      ∀ line ∈ logical body, EndsLiterals line := by
  obtain ⟨hcode, hall⟩ := code_joinFrom h endsLiterals_nil 0
  rw [code_nil, List.nil_append, code_physical h] at hcode
  exact ⟨hcode, hall⟩

/-! ### What is left -/

/-- Each brace at the beginning is a token. -/
theorem code_braces {a : Text} (ha : ∀ c ∈ a, isBrace c = true) (u : Text) :
    code (a ++ u) = code a ++ code u := by
  induction a with
  | nil => rw [code_nil, List.nil_append, List.nil_append]
  | cons c a ih =>
    have hc := ha c (.head _)
    rw [List.cons_append, code_brace hc, ih fun d hd => ha d (.tail _ hd), code_brace hc,
      List.cons_append]

/-- Each brace at the end is a token. -/
theorem code_append_braces {s b : Text} (hs : EndsLiterals s) (hb : ∀ c ∈ b, isBrace c = true) :
    code (s ++ b) = code s ++ code b := by
  cases b with
  | nil => rw [code_nil, List.append_nil, List.append_nil]
  | cons c b => exact code_edge (.inl (hb c (.head _))) hs b

theorem endsLiterals_trimBy (s : Text) : EndsLiterals (trimBy isBrace s) ↔ EndsLiterals s := by
  have quoteless : ∀ {w : Text}, (∀ c ∈ w, isBrace c = true) → ∀ c ∈ w, isQuote c = false :=
    fun h c hc => isQuote_of_edge (.inl (h c hc))
  conv_rhs => rw [← lead_append_trail s]
  rw [endsLiterals_append (endsLiterals_of_quoteless (quoteless isBrace_of_mem_lead)),
    endsLiterals_append_quoteless (quoteless isBrace_of_mem_trail)]

theorem endsLiterals_unbrace (s : Text) : EndsLiterals (unbrace s) ↔ EndsLiterals s := by
  rw [unbrace, endsLiterals_trim, endsLiterals_trimBy]

/-- A text has the code of its outer braces around that of what they surround. -/
theorem code_unbrace {s : Text} (hs : EndsLiterals s) :
    code s = code (lead s) ++ (code (unbrace s) ++ code (trail s)) := by
  have hcore := (endsLiterals_trimBy s).mpr hs
  conv_lhs => rw [← lead_append_trail s]
  rw [code_braces isBrace_of_mem_lead, code_append_braces hcore isBrace_of_mem_trail, unbrace,
    code_trim hcore]

/-- The marks of a text that loses its outer braces, with those of what they surround. -/
def around (s : Text) (inner : List Mark) : List Mark :=
  Mark.taken (code (lead s)) ++ (inner ++ Mark.taken (code (trail s)))

/-- The tokens of a logical line, each with whether it is left in the processing lines. -/
def marks (line : Text) : List Mark :=
  let t := unbrace line
  around line <|
    if isIdle t then Mark.taken (code t)
    else
      match splitIf? t with
      | some (head, statement) =>
          Mark.left (code head) ++
            around (trim (t.drop head.length)) (Mark.left (code statement))
      | none => Mark.left (code t)

/-- With the braces around them, the marks of the inner text are those of the line. -/
theorem map_fst_around {s : Text} (hs : EndsLiterals s) {inner : List Mark}
    (h : inner.map Prod.fst = code (unbrace s)) : (around s inner).map Prod.fst = code s := by
  simp [around, h, code_unbrace hs]

theorem rest_around (s : Text) (inner : List Mark) :
    Mark.rest (around s inner) = Mark.rest inner := by
  simp [around]

/-- **The tokens that are left of a logical line are those of its processing lines.** -/
theorem rest_marks (line : Text) : Mark.rest (marks line) = (working line).flatMap code := by
  unfold marks working
  dsimp only
  rw [rest_around]
  split_ifs
  · simp
  · cases splitIf? (unbrace line) with
    | none => simp
    | some parts => simp [rest_around]

/-- A group ends with a closing parenthesis. -/
theorem exists_paren_of_afterGroup? {depth : Int} {s a b : Text}
    (h : afterGroup? depth s = some (a, b)) : ∃ a', a = a' ++ [')'] := by
  induction s generalizing depth a b with
  | nil => cases h
  | cons c s ih =>
    rw [afterGroup?] at h
    split_ifs at h with hc
    · cases h
      exact ⟨[], by rw [hc.1, List.nil_append]⟩
    all_goals
      obtain ⟨⟨x, y⟩, h, e⟩ := Option.map_eq_some_iff.mp h
      cases e
      obtain ⟨a', rfl⟩ := ih h
      exact ⟨c :: a', rfl⟩

/-- The head of an `if` that is split ends with its parenthesis. -/
theorem exists_paren_of_splitIf? {line head statement : Text}
    (h : splitIf? line = some (head, statement)) : ∃ a, head = a ++ [')'] := by
  obtain ⟨rest, -, h⟩ := Option.bind_eq_some_iff.mp h
  obtain ⟨-, -, h⟩ := Option.bind_eq_some_iff.mp h
  obtain ⟨⟨group, tail⟩, hg, h⟩ := Option.bind_eq_some_iff.mp h
  obtain ⟨-, -, h⟩ := Option.bind_eq_some_iff.mp h
  cases h
  obtain ⟨a, rfl⟩ := exists_paren_of_afterGroup? hg
  exact ⟨_, (List.append_assoc ..).symm⟩

theorem tokens_paren (u : Text) : tokens (')' :: u) = .mark ')' :: tokens u := by
  rw [tokens_cons]
  rfl

/-- A text may be divided behind the parenthesis of a head. -/
theorem code_split {line head statement : Text} (h : splitIf? line = some (head, statement))
    (hhead : EndsLiterals head) (tail : Text) : code (head ++ tail) = code head ++ code tail := by
  obtain ⟨a, rfl⟩ := exists_paren_of_splitIf? h
  have ha : EndsLiterals a := (endsLiterals_append_quoteless (by simp [isQuote])).mp hhead
  have divide : ∀ u, code (a ++ ')' :: u) = code a ++ .mark ')' :: code u := fun u => by
    rw [code, tokens_append_cons (by decide) ha, tokens_paren, List.filter_append,
      List.filter_cons_of_pos (by decide)]
    rfl
  rw [List.append_assoc, List.singleton_append, divide, divide, code_nil, List.append_assoc]
  rfl

/-- **The marks of a logical line are of its tokens**, if it closes its literals and the head of an
`if` does. -/
theorem map_fst_marks {line : Text} (hl : EndsLiterals line)
    (hs : ∀ head statement, splitIf? (unbrace line) = some (head, statement) → EndsLiterals head) :
    (marks line).map Prod.fst = code line := by
  refine map_fst_around hl ?_
  split_ifs
  · exact Mark.map_fst_taken _
  · split
    · next head statement h =>
      obtain ⟨tail, hline, rfl, -⟩ := parts_of_splitIf? h
      have hhead := hs _ _ h
      have htail : EndsLiterals (trim tail) := by
        rw [endsLiterals_trim, ← endsLiterals_append hhead, ← hline, endsLiterals_unbrace]
        exact hl
      rw [hline, List.drop_left, List.map_append, Mark.map_fst_left,
        map_fst_around htail (Mark.map_fst_left _), code_trim ((endsLiterals_trim tail).mp htail),
        code_split h hhead]
    · exact Mark.map_fst_left _

/-- The tokens of a body, each with whether it is left in the processing lines. -/
def bodyMarks (body : Text) : List Mark :=
  (logical body).flatMap marks

/-- Nothing in a body is taken apart for what it is not: every line of it closes its literals, and
so does the head of every `if` that is split. -/
structure Divisible (body : Text) : Prop where
  lines : ∀ line ∈ physical (stripComments body), EndsLiterals line
  heads : ∀ line ∈ logical body, ∀ x ∈ splitIf? (unbrace line), EndsLiterals x.1

instance (body : Text) : Decidable (Divisible body) :=
  decidable_of_iff ((∀ line ∈ physical (stripComments body), EndsLiterals line) ∧
    ∀ line ∈ logical body, ∀ x ∈ splitIf? (unbrace line), EndsLiterals x.1)
    ⟨fun h => ⟨h.1, h.2⟩, fun h => ⟨h.lines, h.heads⟩⟩

/-- The marks of a body are the tokens of its code, each once and in order. -/
theorem map_fst_bodyMarks {body : Text} (h : Divisible body) :
    (bodyMarks body).map Prod.fst = code (stripComments body) := by
  obtain ⟨hcode, hends⟩ := code_logical h.lines
  rw [← hcode, bodyMarks, List.map_flatMap]
  exact List.flatMap_congr fun line hl =>
    map_fst_marks (hends line hl) fun head statement hs => h.heads line hl (head, statement) hs

/-- What the marks leave are the tokens of the processing lines. -/
theorem rest_bodyMarks (body : Text) :
    Mark.rest (bodyMarks body) = (ofBody body).flatMap code := by
  rw [bodyMarks, ofBody, List.flatMap_assoc, Mark.rest_flatMap]
  exact List.flatMap_congr fun line _ => rest_marks line

end Line

end VectorWrap
