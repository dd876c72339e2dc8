import VectorWrap.Proofs.Scan.Lookahead
import VectorWrap.Proofs.Text.Words
import VectorWrap.Wrapper.Closure

/-!
# What a line declares

A line of generated code declares a variable if it is `T v = e;`, `T v(e);`, `T v[e];` or `T v;`
with the text of a type `T`.  `declared?` reads this off the line, and `declared?_bind` says that a
binding with a type is such a line whatever its value is.

Lines of other forms are dismissed by what they begin with (`declared?_of_prefix`,
`declared?_of_word`) or end with (`declared?_of_suffix`).

A declarator is what stands before the first of `=`, `(`, `[` and the end of the line
(`startsInit`); its last name is the variable, and what stands before that name has to be the text
of a type and no word of a statement, such as `return`.
-/

namespace VectorWrap

namespace Text

/-- A text before a certain ending. -/
theorem before?_eq_some {w s t : Text} : before? w s = some t ↔ s = t ++ w := by
  simp only [before?, Option.map_eq_some_iff, after?_eq_some]
  constructor
  · rintro ⟨r, h, rfl⟩
    simpa using congrArg List.reverse h
  · rintro rfl
    exact ⟨t.reverse, by simp, by simp⟩

end Text

namespace Closure

/-! ### Declarations -/

/-- Begins what a variable is initialised with. -/
def startsInit (c : Char) : Bool :=
  c == '=' || c == '(' || c == '['

/-- May stand in the text of a type. -/
def inType (c : Char) : Bool :=
  Text.inName c || Text.isBlank c || "*&<>,:".toList.contains c

/-- May end the text of a type. -/
def endsType (c : Char) : Bool :=
  Text.inName c || c == '*' || c == '&' || c == '>'

/-- Is the text of a type. -/
def isType (t : Text) : Bool :=
  (t.head?.map Text.startsName).getD false && t.all inType && (t.getLast?.map endsType).getD false

/-- The words after which a name is used and not declared. -/
def statementWords : List Text :=
  ["return".toList, "else".toList, "do".toList, "case".toList, "goto".toList, "throw".toList,
    "delete".toList]

/-- The variable of the text `T v`. -/
def declarator? (left : Text) : Option Text :=
  let t := Text.trim left
  let var := (t.reverse.takeWhile Text.inName).reverse
  let type := Text.trim (t.reverse.dropWhile Text.inName).reverse
  if Text.isName var ∧ isType type ∧ ¬ t.takeWhile Text.inName ∈ statementWords then some var
  else none

/-- Initialises a variable: after an equals sign a value follows. -/
def isInit : Text → Bool
  | '=' :: value => value.head? != some '=' && value.any (!Text.isBlank ·)
  | _ => true

/-- The variable that a line declares. -/
def declared? (line : Text) : Option Text := do
  let text ← Text.before? [';'] line
  guard (isInit (text.dropWhile (!startsInit ·)))
  declarator? (text.takeWhile (!startsInit ·))

/-- No initializer starts within a name. -/
theorem startsInit_of_inName {c : Char} (h : Text.inName c = true) : startsInit c = false := by
  rw [Bool.eq_false_iff]
  intro hc
  simp only [startsInit, Bool.or_eq_true, beq_iff_eq] at hc
  rcases hc with (rfl | rfl) | rfl <;> revert h <;> decide

/-- No initializer starts within a type. -/
theorem startsInit_of_inType {c : Char} (h : inType c = true) : startsInit c = false := by
  rw [Bool.eq_false_iff]
  intro hc
  simp only [startsInit, Bool.or_eq_true, beq_iff_eq] at hc
  rcases hc with (rfl | rfl) | rfl <;> revert h <;> decide

/-- What is declared is read off the declarator, in front of an initializer. -/
theorem declared?_eq_some {line v : Text} :
    declared? line = some v ↔ ∃ t, line = t ++ [';'] ∧
      isInit (t.dropWhile (!startsInit ·)) = true ∧
      declarator? (t.takeWhile (!startsInit ·)) = some v := by
  have hg : ∀ {b : Bool} {u : Unit}, (guard (b = true) : Option Unit) = some u ↔ b = true := by
    intro b u
    cases b <;> simp [guard]
  simp only [declared?, bind, Option.bind_eq_some_iff, Text.before?_eq_some, hg, exists_const]

/-! ### Lines that declare nothing -/

/-- Nothing is declared by a line that does not end with a semicolon. -/
theorem declared?_of_suffix {q line : Text} (h : q <:+ line) (hn : q ≠ [])
    (hq : q.getLast? ≠ some ';') : declared? line = none := by
  rw [Option.eq_none_iff_forall_ne_some]
  intro v hv
  obtain ⟨t, rfl, -, -⟩ := declared?_eq_some.mp hv
  obtain ⟨x, hx⟩ := h
  have := congrArg List.getLast? hx
  rw [List.getLast?_append_of_ne_nil _ hn, List.getLast?_append_cons] at this
  exact hq this

theorem startsInit_of_all {s : Text} (h : s.all (!startsInit ·) = true) {c : Char} (hc : c ∈ s) :
    startsInit c = false := by
  simpa using List.all_eq_true.mp h c hc

/-- Before the initialisation stands what declares. -/
theorem takeWhile_left {left r : Text} {c : Char} (hl : ∀ d ∈ left, startsInit d = false)
    (hc : startsInit c = true) : (left ++ c :: r).takeWhile (!startsInit ·) = left := by
  rw [List.takeWhile_append_of_pos (by simpa using hl)]
  simp [hc]

theorem dropWhile_left {left r : Text} {c : Char} (hl : ∀ d ∈ left, startsInit d = false)
    (hc : startsInit c = true) : (left ++ c :: r).dropWhile (!startsInit ·) = c :: r := by
  rw [List.dropWhile_append_of_pos (by simpa using hl)]
  simp [hc]

/-- A last semicolon stands behind what begins an initialisation. -/
theorem exists_of_semicolon {left rest t : Text} {c : Char} (hc : c ≠ ';')
    (h : left ++ c :: rest = t ++ [';']) : ∃ r, t = left ++ c :: r ∧ rest = r ++ [';'] := by
  rcases List.eq_nil_or_concat rest with rfl | ⟨r, d, rfl⟩
  · have := congrArg List.getLast? h
    simp only [List.getLast?_append_cons, List.getLast?_singleton, Option.some.injEq] at this
    exact absurd this hc
  · rw [List.concat_eq_append, ← List.cons_append, ← List.append_assoc] at h
    obtain ⟨rfl, hd⟩ := List.append_inj' h rfl
    cases hd
    exact ⟨r, rfl, List.concat_eq_append⟩

theorem ne_semicolon_of_startsInit {c : Char} (h : startsInit c = true) : c ≠ ';' := by
  rintro rfl
  cases h

/-- Nothing is declared where no declaration stands before the initialisation. -/
theorem declared?_of_left {l r : Text} {c : Char} (hl : ∀ d ∈ l, startsInit d = false)
    (hc : startsInit c = true) (h : declarator? l = none) :
    declared? (l ++ c :: r) = none := by
  rw [Option.eq_none_iff_forall_ne_some]
  intro v hv
  obtain ⟨t, ht, -, hd⟩ := declared?_eq_some.mp hv
  obtain ⟨x, rfl, -⟩ := exists_of_semicolon (ne_semicolon_of_startsInit hc) ht
  rw [takeWhile_left hl hc, h] at hd
  cases hd

/-- A beginning of a line that declares nothing: a text without declaration, and the mark after
it. -/
def isSilent (p : Text) : Bool :=
  p.dropLast.all (!startsInit ·) && (p.getLast?.map startsInit).getD false &&
    (declarator? p.dropLast).isNone

/-- A line declares nothing where what stands before the first mark is no declarator. -/
theorem declared?_of_prefix {p line : Text} (h : p <+: line) (hp : isSilent p = true) :
    declared? line = none := by
  simp only [isSilent, Bool.and_eq_true, Option.isNone_iff_eq_none, List.all_eq_true,
    Bool.not_eq_true'] at hp
  obtain ⟨⟨hl, hc⟩, hd⟩ := hp
  obtain ⟨rest, rfl⟩ := h
  cases e : p.getLast? with
  | none =>
    rw [e] at hc
    cases hc
  | some c =>
    rw [e] at hc
    have hpe : p = p.dropLast ++ [c] :=
      (List.dropLast_append_getLast? c (by rw [e]; rfl)).symm
    rw [hpe, List.append_assoc, List.singleton_append]
    exact declared?_of_left hl hc hd

theorem isName_of_statementWords : ∀ w ∈ statementWords, Text.isName w = true := by
  decide

/-- Nothing is declared after a word such as `return`. -/
theorem declarator?_of_word {pad word rest : Text} (hp : ∀ c ∈ pad, Text.isBlank c = true)
    (hw : word ∈ statementWords) : declarator? (pad ++ word ++ ' ' :: rest) = none := by
  have hn := isName_of_statementWords word hw
  have hword :
      ((pad ++ word ++ ' ' :: rest).dropWhile Text.isBlank).takeWhile Text.inName = word := by
    rw [List.append_assoc, List.dropWhile_append_of_pos hp]
    have hc := Text.all_inName_of_isName hn
    obtain ⟨c, word, rfl⟩ := List.exists_cons_of_ne_nil (Text.ne_nil_of_isName hn)
    rw [List.cons_append, List.dropWhile_cons_of_neg
      (by simp [Text.isBlank_of_inName (hc c List.mem_cons_self)]), ← List.cons_append,
      List.takeWhile_append_of_pos hc]
    simp [show Text.inName ' ' = false by decide]
  rw [declarator?, if_neg]
  rintro ⟨-, -, h⟩
  rw [Text.takeWhile_trim, hword] at h
  exact h hw

/-- A line that begins with a word of a statement declares nothing. -/
theorem declared?_of_word {p w r : Text} (hp : ∀ c ∈ p, Text.isBlank c = true)
    (hw : w ∈ statementWords) : declared? (p ++ w ++ ' ' :: r) = none := by
  rw [Option.eq_none_iff_forall_ne_some]
  intro v hv
  obtain ⟨t, ht, -, hd⟩ := declared?_eq_some.mp hv
  obtain ⟨x, rfl, -⟩ := exists_of_semicolon (by decide) ht
  have hs : ∀ c ∈ p ++ w ++ [' '], startsInit c = false := by
    intro c hc
    simp only [List.mem_append, List.mem_singleton] at hc
    rcases hc with (hc | hc) | rfl
    · exact startsInit_of_inType (by simp [inType, hp c hc])
    · exact startsInit_of_inName
        (Text.all_inName_of_isName (isName_of_statementWords w hw) c hc)
    · decide
  rw [show p ++ w ++ ' ' :: x = p ++ w ++ [' '] ++ x by simp,
    List.takeWhile_append_of_pos (by simpa using hs), List.append_assoc, List.singleton_append,
    declarator?_of_word hp hw] at hd
  cases hd

/-! ### Assignments and bindings -/

/-- A text that ends with the name `v`, taken apart. -/
theorem takeWhile_reverse {x v : Text} (hv : ∀ c ∈ v, Text.inName c = true)
    (hx : ∀ c, x.getLast? = some c → Text.inName c = false) :
    ((x ++ v).reverse.takeWhile Text.inName).reverse = v ∧
      ((x ++ v).reverse.dropWhile Text.inName).reverse = x := by
  have hv' : ∀ c ∈ v.reverse, Text.inName c = true := fun c hc => hv c (List.mem_reverse.mp hc)
  have hh : ∀ c, x.reverse.head? = some c → Text.inName c = false := fun c hc =>
    hx c (by rwa [List.head?_reverse] at hc)
  rw [List.reverse_append, List.takeWhile_append_of_pos hv', List.dropWhile_append_of_pos hv']
  cases e : x.reverse with
  | nil => simpa using e.symm
  | cons c y =>
    have hc := hh c (by rw [e]; rfl)
    rw [List.takeWhile_cons_of_neg (by simp [hc]), List.dropWhile_cons_of_neg (by simp [hc]), ← e]
    simp

/-- An assignment has no type before its variable. -/
theorem declarator?_of_isName {pad v b : Text} (hp : ∀ c ∈ pad, Text.isBlank c = true)
    (hv : Text.isName v = true) (hb : ∀ c ∈ b, Text.isBlank c = true) :
    declarator? (pad ++ v ++ b) = none := by
  have ht : Text.trim (pad ++ v ++ b) = v :=
    Text.trim_append hp hb (Text.trimmed_of_not_blank (Text.isBlank_of_isName hv))
  have hr := takeWhile_reverse (x := []) (Text.all_inName_of_isName hv) (by simp)
  rw [List.nil_append] at hr
  rw [declarator?, if_neg]
  rw [ht, hr.2]
  rintro ⟨-, h, -⟩
  cases h

theorem isBlank_of_endsType {c : Char} (h : endsType c = true) : Text.isBlank c = false := by
  simp only [endsType, Bool.or_eq_true, beq_iff_eq] at h
  rcases h with ((h | rfl) | rfl) | rfl
  · exact Text.isBlank_of_inName h
  all_goals decide

/-- A type begins with a name, and ends with a character that may end one. -/
theorem isType_iff {t : Text} : isType t = true ↔
    (∃ c, t.head? = some c ∧ Text.startsName c = true) ∧ (∀ c ∈ t, inType c = true) ∧
      ∃ c, t.getLast? = some c ∧ endsType c = true := by
  cases h₁ : t.head? <;> cases h₂ : t.getLast? <;>
    simp [isType, h₁, h₂, and_assoc]

/-- What stands between a type and its variable. -/
theorem gap_eq (t : Text) : t.getLast? = some '*' ∧ Fragment.gap t = [] ∨
    t.getLast? ≠ some '*' ∧ Fragment.gap t = [' '] := by
  by_cases h : t.getLast? = some '*'
  · exact .inl ⟨h, by simp [Fragment.gap, h]⟩
  · exact .inr ⟨h, by simp [Fragment.gap, h]⟩

/-- No name ends before a variable: a type that ends with a letter is followed by a space. -/
theorem inName_last_gap {t : Text} {c : Char} (h : (t ++ Fragment.gap t).getLast? = some c) :
    Text.inName c = false := by
  rcases gap_eq t with ⟨h₁, h₂⟩ | ⟨-, h₂⟩
  · rw [h₂, List.append_nil, h₁] at h
    cases h
    decide
  · rw [h₂, List.getLast?_append_cons] at h
    cases h
    decide

/-- Between a type and its variable the type is what is trimmed. -/
theorem trim_gap {t : Text} (ht : isType t = true) : Text.trim (t ++ Fragment.gap t) = t := by
  obtain ⟨⟨c, hc, hcn⟩, -, d, hd, hde⟩ := isType_iff.mp ht
  have hgap : ∀ x ∈ Fragment.gap t, Text.isBlank x = true := by
    rcases gap_eq t with ⟨-, h⟩ | ⟨-, h⟩ <;> rw [h]
    · simp
    · exact List.all_eq_true.mp (by decide)
  refine Text.trim_append (a := []) (by simp) hgap ⟨fun x hx => ?_, fun x hx => ?_⟩
  · rw [hc] at hx
    cases hx
    exact Text.isBlank_of_inName (Text.inName_of_startsName hcn)
  · rw [hd] at hx
    cases hx
    exact isBlank_of_endsType hde

/-- Trimming leaves a type and its variable. -/
theorem trim_variable {t v b : Text} (ht : isType t = true) (hv : Text.isName v = true)
    (hb : ∀ c ∈ b, Text.isBlank c = true) :
    Text.trim (t ++ Fragment.gap t ++ v ++ b) = t ++ Fragment.gap t ++ v := by
  obtain ⟨⟨c, hc, hcn⟩, -⟩ := isType_iff.mp ht
  refine Text.trim_append (a := []) (t := t ++ Fragment.gap t ++ v) (by simp) hb
    ⟨fun x hx => ?_, fun x hx => ?_⟩
  · rw [List.append_assoc, List.head?_append, hc] at hx
    cases hx
    exact Text.isBlank_of_inName (Text.inName_of_startsName hcn)
  · rw [List.getLast?_append_of_ne_nil _ (Text.ne_nil_of_isName hv)] at hx
    exact Text.isBlank_of_isName hv x (List.mem_of_getLast? hx)

/-- The first word is that of the type. -/
theorem takeWhile_gap (t v : Text) :
    (t ++ Fragment.gap t ++ v).takeWhile Text.inName = t.takeWhile Text.inName := by
  rw [List.append_assoc, List.takeWhile_append]
  split
  · next he =>
    have hself : t.takeWhile Text.inName = t :=
      List.IsPrefix.eq_of_length (List.takeWhile_prefix _) he
    rcases gap_eq t with ⟨h, -⟩ | ⟨-, h⟩
    · have := List.takeWhile_eq_self_iff.mp hself '*' (List.mem_of_getLast? h)
      exact absurd this (by decide)
    · rw [h, List.singleton_append, List.takeWhile_cons_of_neg (by decide), List.append_nil, hself]
  · rfl

/-- Behind a type the variable is declared. -/
theorem declarator?_of_isType {t v b : Text} (ht : isType t = true)
    (hw : ¬ t.takeWhile Text.inName ∈ statementWords) (hv : Text.isName v = true)
    (hb : ∀ c ∈ b, Text.isBlank c = true) :
    declarator? (t ++ Fragment.gap t ++ v ++ b) = some v := by
  have htrim := trim_variable ht hv hb
  obtain ⟨h₁, h₂⟩ := takeWhile_reverse (Text.all_inName_of_isName hv) fun _ =>
    inName_last_gap (t := t)
  rw [declarator?, if_pos]
  · rw [htrim, h₁]
  · rw [htrim, h₁, h₂, trim_gap ht, takeWhile_gap]
    exact ⟨hv, ht, hw⟩

/-- **A type and a name before an initialisation declare the name.** -/
theorem declared?_of_isType {t v b r : Text} {c : Char} (ht : isType t = true)
    (hw : ¬ t.takeWhile Text.inName ∈ statementWords) (hv : Text.isName v = true)
    (hb : ∀ c ∈ b, Text.isBlank c = true) (hc : startsInit c = true)
    (hi : isInit (c :: r) = true) :
    declared? (t ++ Fragment.gap t ++ v ++ b ++ c :: r ++ [';']) = some v := by
  have hl : ∀ c ∈ t ++ Fragment.gap t ++ v ++ b, startsInit c = false := by
    intro c hc
    simp only [List.mem_append] at hc
    rcases hc with ((hc | hc) | hc) | hc
    · exact startsInit_of_inType ((isType_iff.mp ht).2.1 c hc)
    · rcases gap_eq t with ⟨-, h⟩ | ⟨-, h⟩
      · rw [h] at hc
        cases hc
      · rw [h, List.mem_singleton] at hc
        rw [hc]
        decide
    · exact startsInit_of_inName (Text.all_inName_of_isName hv c hc)
    · exact startsInit_of_inType (by simp [inType, hb c hc])
  refine declared?_eq_some.mpr ⟨t ++ Fragment.gap t ++ v ++ b ++ c :: r, rfl, ?_, ?_⟩
  · rw [dropWhile_left hl hc, hi]
  · rw [takeWhile_left hl hc]
    exact declarator?_of_isType ht hw hv hb

/-- A binding with a type declares its variable. -/
theorem declared?_bind {t v e : Text} (ht : isType t = true)
    (hw : ¬ t.takeWhile Text.inName ∈ statementWords) (hv : Text.isName v = true)
    (he : e.any (!Text.isBlank ·) = true) : declared? (Fragment.bind t v e) = some v := by
  have hi : isInit ('=' :: ' ' :: e) = true := by
    simp only [isInit, List.head?_cons, List.any_cons, he]
    decide
  simpa [Fragment.bind] using
    declared?_of_isType (b := [' ']) ht hw hv (List.all_eq_true.mp (by decide)) (by decide) hi

end Closure

end VectorWrap
