import Mathlib.Algebra.Order.BigOperators.Group.List
import VectorWrap.Proofs.Declaration.Parts
import VectorWrap.Proofs.Text.Infix
import VectorWrap.Proofs.Text.Level

/-!
# Quoted defaults

A default may be a literal in quotes, with any characters between them, and quotes mean nothing
where a list is split and a default is looked for.  So a literal is read as written unless it has a
comma at top level, leaves the count of parentheses off balance for the parameters behind it, or
stands behind the word `default` and has an equals sign (`Kept`).

Where it is not, the list is read otherwise as a whole (`parseList_iff_kept`): either the first
default that is recorded is shorter or longer than the literal, or a quote is lost, and what is read
of a list never has more quotes than the list (`quotes_ofParts_le`).

The comparison goes entry by entry from the front, with the number of the parameters read so
far.  As long as the entries are kept both sides put the same in front (`Entry.onto_inj`); the first
that is not is where they part, and there the number of quotes shows that nothing behind it can make
up for the loss (`Proper.readsFrom_ne`).
-/

namespace VectorWrap

namespace Text

/-! ### Commas at top level -/

theorem level_of_flat {s : Text} (h : ∀ c ∈ s, isFlat c = true) : level s = 0 := by
  induction s with
  | nil => rfl
  | cons c s ih =>
    obtain ⟨hc, hs⟩ := List.forall_mem_cons.mp h
    rw [level_cons, nesting_of_flat hc, ih hs, add_zero]

theorem comma_not_mem_of_flat {s : Text} (h : ∀ c ∈ s, isFlat c = true) : ',' ∉ s := fun hm => by
  cases h _ hm

/-- A text whose commas are not at top level is passed over as a whole. -/
theorem topPieces_append {d : Int} {t : Text} (h : Enclosed ',' d t) (s : Text) :
    topPieces d (t ++ s) = glue t (topPieces (d + level t) s) := by
  induction t generalizing d with
  | nil =>
    obtain ⟨x, xs, hx⟩ := List.exists_cons_of_ne_nil (topPieces_ne_nil d s)
    simp [hx, glue]
  | cons c t ih =>
    rw [List.cons_append, topPieces_cons h.1, ih h.2, glue_glue, level_cons, add_assoc]
    rfl

theorem topPieces_enclosed {w : Text} (h : Enclosed ',' 0 w) : topPieces 0 w = [w] := by
  simpa [topPieces, glue] using topPieces_append h []

theorem topPieces_comma {w : Text} (h : Enclosed ',' 0 w) (hl : level w = 0) (s : Text) :
    topPieces 0 (w ++ ',' :: s) = w :: topPieces 0 s := by
  rw [topPieces_append h, hl, zero_add, topPieces, if_pos ⟨rfl, rfl⟩, glue, List.append_nil]

/-- Whether a text that ends or goes on with a comma is a piece of its own: otherwise the first
piece has fewer commas, or more. -/
theorem exists_other_piece {w t : Text} (ht : t = [] ∨ ∃ s, t = ',' :: s)
    (h : ¬ (Enclosed ',' 0 w ∧ (t = [] ∨ level w = 0))) :
    ∃ x ps, topPieces 0 (w ++ t) = x :: ps ∧ x.count ',' ≠ w.count ',' := by
  by_cases hw : Enclosed ',' 0 w
  · obtain ⟨hne, hl⟩ : t ≠ [] ∧ level w ≠ 0 := by simpa [hw] using h
    obtain ⟨s, rfl⟩ := ht.resolve_left hne
    obtain ⟨x, ps, hx⟩ := List.exists_cons_of_ne_nil (topPieces_ne_nil (level w + nesting ',') s)
    refine ⟨w ++ ([','] ++ x), ps, ?_, by simp⟩
    rw [topPieces_append hw, zero_add, topPieces_cons (by simp [hl]), hx]
    rfl
  · obtain ⟨u, v, rfl, hl, hu⟩ := exists_of_not_enclosed hw
    refine ⟨u, topPieces 0 (v ++ t), ?_, by simp⟩
    rw [List.append_assoc, List.cons_append, topPieces_comma hu (by rwa [zero_add] at hl)]

/-! ### Characters of the parts -/

/-- A trim takes blanks only. -/
theorem count_trim {c : Char} (hc : isBlank c = false) (s : Text) :
    (trim s).count c = s.count c := by
  obtain ⟨a, b, hs, ha, hb⟩ := exists_trim s
  conv_rhs => rw [hs]
  simp [List.count_eq_zero_of_not_mem (not_mem_of_class ha hc),
    List.count_eq_zero_of_not_mem (not_mem_of_class hb hc)]

/-- Nothing is lost of a text where it is split, but for commas. -/
theorem sum_count_topPieces {c : Char} (hc : c ≠ ',') (d : Int) (s : Text) :
    ((topPieces d s).map (·.count c)).sum = s.count c := by
  induction s generalizing d with
  | nil => rfl
  | cons x s ih =>
    by_cases h : x = ',' ∧ d = 0
    · rw [topPieces, if_pos h, List.map_cons, List.sum_cons, ih, h.1]
      simp [hc.symm]
    · obtain ⟨t, ts, ht⟩ := List.exists_cons_of_ne_nil (topPieces_ne_nil (d + nesting x) s)
      have rest := ih (d + nesting x)
      rw [ht, List.map_cons, List.sum_cons] at rest
      rw [topPieces_cons h, ht, glue, List.map_cons, List.sum_cons, List.count_append, add_assoc,
        rest, ← List.count_append, List.singleton_append]

/-- Pieces have no more of a character than the text. -/
theorem sum_count_splitBy_le (c : Char) (p : Char → Bool) (s : Text) :
    ((splitBy p s).map (·.count c)).sum ≤ s.count c := by
  induction s with
  | nil => simp [splitBy]
  | cons x s ih =>
    have kept : s.count c ≤ (x :: s).count c := List.count_le_count_cons
    cases hx : p x with
    | true =>
      rw [splitBy, if_pos hx, List.map_cons, List.sum_cons, List.count_nil, zero_add]
      exact ih.trans kept
    | false =>
      obtain ⟨t, ts, ht, hcons⟩ := splitBy_cons_of_neg p s
      rw [ht, List.map_cons, List.sum_cons] at ih
      rw [hcons x hx, List.map_cons, List.sum_cons, List.count_cons, List.count_cons]
      omega

/-- The words of a text are parts of it. -/
theorem sum_count_words_le (c : Char) (s : Text) :
    ((words s).map (·.count c)).sum ≤ s.count c :=
  ((List.filter_sublist.map _).sum_le_sum fun _ _ => Nat.zero_le _).trans
    (sum_count_splitBy_le c isBlank s)

end Text

namespace Param
open Text

/-! ### Quotes -/

/-- How many quotes there are in what is read of a list. -/
def quotes (read : List Param × List Text) : Nat :=
  (read.1.map fun p => p.type.count '\'' + p.name.count '\'').sum +
    (read.2.map (·.count '\'')).sum

theorem count_defaultName (k : Nat) : (defaultName k).count '\'' = 0 := by
  have digits : '\'' ∉ decimal k := fun h => by
    cases Nat.isDigit_of_mem_toDigits (by decide) (by decide) h
  rw [defaultName, List.count_append, List.count_eq_zero_of_not_mem digits]
  decide

/-- A parameter has no more quotes than its part. -/
theorem count_of_namedBy {k : Nat} {part : Text} {p : Param} (h : NamedBy k part p) :
    p.type.count '\'' + p.name.count '\'' ≤ part.count '\'' := by
  have parts := sum_count_words_le '\'' part
  cases h with
  | pair hw =>
    rw [hw] at parts
    simp only [List.map_cons, List.sum_cons] at parts
    dsimp only
    omega
  | single hw =>
    rw [hw] at parts
    simpa [count_defaultName] using parts

/-- A recorded default has no more quotes than its part. -/
theorem count_of_records {part value : Text} (h : Records part value) :
    value.count '\'' ≤ part.count '\'' := by
  cases h with
  | sign =>
    rw [count_trim (by decide), List.count_append, List.count_cons]
    omega
  | word =>
    rw [count_trim (by decide), List.count_append, List.count_append]
    omega

/-- What is read of parts has no more quotes than the parts. -/
theorem quotes_ofParts_le (k : Nat) (parts : List Text) :
    quotes (ofParts k parts) ≤ (parts.map (·.count '\'')).sum := by
  induction parts generalizing k with
  | nil => exact le_rfl
  | cons part parts ih =>
    rw [List.map_cons, List.sum_cons, ofParts]
    cases hd : default? part with
    | some value =>
      have first := count_of_records (default?_eq_some_iff.mp hd)
      have rest := ih k
      simp only [quotes, List.map_cons, List.sum_cons] at rest ⊢
      omega
    | none =>
      cases hp : ofPart? k part with
      | none => exact (ih k).trans (Nat.le_add_left _ _)
      | some p =>
        have first := count_of_namedBy (ofPart?_eq_some_iff.mp hp)
        have rest := ih (k + 1)
        simp only [quotes, List.map_cons, List.sum_cons] at rest ⊢
        omega

/-! ### Parameters as they are written -/

/-- What a default stands behind: the word, in any letter case, or the sign. -/
inductive Marker where
  | word (letters : Text)
  | sign
  deriving DecidableEq, Repr

namespace Marker

def text : Marker → Text
  | word letters => letters
  | sign => "="

def Proper : Marker → Prop
  | word letters => sameLetters letters "default" = true
  | sign => True

instance : DecidablePred Proper
  | word letters => inferInstanceAs (Decidable (sameLetters letters "default" = true))
  | sign => .isTrue trivial

end Marker

/-- A default as it is written. -/
inductive Value where
  /-- A number or an identifier. -/
  | plain (text : Text)
  /-- A literal in single quotes. A quote inside is written twice, which is of no account here. -/
  | quoted (inner : Text)
  deriving DecidableEq, Repr

namespace Value

/-- May stand in a number or an identifier. -/
def inPlain (c : Char) : Bool :=
  inName c || c == '.' || c == '+' || c == '-'

def text : Value → Text
  | plain text => text
  | quoted inner => '\'' :: (inner ++ ['\''])

def Proper : Value → Prop
  | plain text => text ≠ [] ∧ text.all inPlain = true
  | quoted _ => True

instance : DecidablePred Proper
  | plain text => inferInstanceAs (Decidable (text ≠ [] ∧ text.all inPlain = true))
  | quoted _ => .isTrue trivial

end Value

/-- A parameter as it is written in a list: a type and a name, and a default or none. -/
structure Entry where
  type : Text
  name : Text
  default? : Option (Marker × Value)
  deriving DecidableEq, Repr

namespace Entry

/-- What stands before the default. -/
def front (e : Entry) : Text :=
  match e.default? with
  | none => e.type ++ ' ' :: e.name
  | some (m, _) => e.type ++ ' ' :: (e.name ++ ' ' :: (m.text ++ [' ']))

/-- The text of the default, if there is one. -/
def value? (e : Entry) : Option Text :=
  e.default?.map (·.2.text)

/-- The text of the default; nothing if there is none. -/
def value (e : Entry) : Text :=
  e.value?.getD []

def text (e : Entry) : Text :=
  e.front ++ e.value

/-- The parameter that a caller must give. -/
def param? (e : Entry) : Option Param :=
  match e.default? with
  | none => some ⟨e.type, e.name⟩
  | some _ => none

/-- What is read, if the parameter stands before what is read as `read`. -/
def onto (e : Entry) (read : List Param × List Text) : List Param × List Text :=
  (e.param?.toList ++ read.1, e.value?.toList ++ read.2)

/-- The default stands behind the word. -/
def byWord (e : Entry) : Bool :=
  match e.default? with
  | some (.word _, _) => true
  | _ => false

/-- The default is read as it is written when the parameters `es` follow: it has no comma at top
level, nor an equals sign where it stands behind the word, and unless it is the last it opens as
many parentheses as it closes. -/
structure KeptBefore (e : Entry) (es : List Entry) : Prop where
  enclosed : Enclosed ',' 0 e.value
  balanced : es = [] ∨ level e.value = 0
  no_sign : e.byWord = true → '=' ∉ e.value

/-- Type and name are identifiers other than the word. -/
structure Proper (e : Entry) : Prop where
  type : isName e.type = true ∧ sameLetters e.type "default" = false
  name : isName e.name = true ∧ sameLetters e.name "default" = false
  default : ∀ d ∈ e.default?, d.1.Proper ∧ d.2.Proper

instance : DecidablePred Proper := fun e =>
  decidable_of_iff ((isName e.type = true ∧ sameLetters e.type "default" = false) ∧
      (isName e.name = true ∧ sameLetters e.name "default" = false) ∧
      ∀ d ∈ e.default?, d.1.Proper ∧ d.2.Proper)
    ⟨fun h => ⟨h.1, h.2.1, h.2.2⟩, fun h => ⟨h.type, h.name, h.default⟩⟩

end Entry

/-- What is written: the parameters without default and the texts of the defaults, each in order. -/
def written (es : List Entry) : List Param × List Text :=
  (es.filterMap Entry.param?, es.filterMap Entry.value?)

/-- The text of a list. -/
def listText (es : List Entry) : Text :=
  joinWith ", " (es.map Entry.text)

/-- No literal is taken for more or for less than itself: none has a comma at top level, or behind
the word an equals sign, and all but the last open as many parentheses as they close. -/
structure Kept (es : List Entry) : Prop where
  enclosed : ∀ e ∈ es, Enclosed ',' 0 e.value
  no_sign : ∀ e ∈ es, e.byWord = true → '=' ∉ e.value
  balanced : ∀ e ∈ es.dropLast, level e.value = 0

/-! ### What a part gives -/

namespace Entry

variable {e : Entry} {x : Text}

/-- The word has no quotes. -/
theorem no_quote_of_sameLetters {v : Text} (h : sameLetters v "default" = true) {c : Char}
    (hc : c ∈ v) : c ≠ '\'' := by
  rintro rfl
  have same : lower v = lower "default" := by simpa [sameLetters] using h
  have low : '\''.toLower ∈ lower v := List.mem_map_of_mem hc
  rw [same] at low
  revert low
  decide

/-- A name that is not the word `default` is a word of a parameter. -/
theorem isWord_of_name {w : Text} (h : isName w = true ∧ sameLetters w "default" = false) :
    Param.IsWord w where
  toIsWord := isWord_of_isName h.1
  no_sign hm := by cases all_inName_of_isName h.1 _ hm
  not_default := h.2

/-- No quote stands before a default, and no sign but the one that the default stands behind. -/
theorem Proper.of_mem_front (h : e.Proper) {c : Char} (hc : c ∈ e.front) :
    isFlat c = true ∧ c ≠ '\'' ∧ (c = '=' → ∃ v, e.default? = some (.sign, v)) := by
  have name {w : Text} (hw : isName w = true) (hc : c ∈ w) :
      isFlat c = true ∧ c ≠ '\'' ∧ c ≠ '=' := by
    have hn := all_inName_of_isName hw c hc
    refine ⟨isFlat_of_inName hn, ?_, ?_⟩ <;> (rintro rfl; cases hn)
  have space : isFlat ' ' = true ∧ ' ' ≠ '\'' ∧ ' ' ≠ '=' := by decide
  have plain (h : isFlat c = true ∧ c ≠ '\'' ∧ c ≠ '=') :
      isFlat c = true ∧ c ≠ '\'' ∧ (c = '=' → ∃ v, e.default? = some (.sign, v)) :=
    ⟨h.1, h.2.1, fun hs => absurd hs h.2.2⟩
  unfold front at hc
  split at hc
  · simp only [List.mem_append, List.mem_cons] at hc
    rcases hc with hc | rfl | hc
    · exact plain (name h.type.1 hc)
    · exact plain space
    · exact plain (name h.name.1 hc)
  · next m v hd =>
    simp only [List.mem_append, List.mem_cons, List.not_mem_nil, or_false] at hc
    rcases hc with hc | rfl | hc | rfl | hc | rfl
    · exact plain (name h.type.1 hc)
    · exact plain space
    · exact plain (name h.name.1 hc)
    · exact plain space
    · cases m with
      | word letters =>
        have same := (h.default _ hd).1
        obtain ⟨flat, sign, -⟩ := solid_of_sameLetters same hc
        exact plain ⟨flat, (no_quote_of_sameLetters same hc), sign⟩
      | sign =>
        obtain rfl : c = '=' := by simpa [Marker.text] using hc
        exact ⟨by decide, by decide, fun _ => ⟨v, hd⟩⟩
    · exact plain space

/-- With the word `default` no sign stands before the value. -/
theorem Proper.sign_not_mem_front (h : e.Proper) (hw : e.byWord = true) : '=' ∉ e.front := by
  intro hm
  obtain ⟨v, hv⟩ := (h.of_mem_front hm).2.2 rfl
  rw [byWord, hv] at hw
  cases hw

/-- What follows the marker is recorded, unless a sign is found behind the word. -/
theorem Proper.default?_append (h : e.Proper) {m : Marker} {v : Value}
    (hd : e.default? = some (m, v)) (hx : e.byWord = true → '=' ∉ x) :
    Param.default? (e.front ++ x) = some (trim x) := by
  have space : ∀ c ∈ [' '], isBlank c = true := by simp [isBlank, blankRanges]
  have behind : trim (' ' :: x) = trim x := trim_blank_append space x
  rw [default?_eq_some_iff, ← behind]
  cases m with
  | sign =>
    have before : '=' ∉ e.type ++ ' ' :: (e.name ++ [' ']) := by
      have ht := (isWord_of_name h.type).no_sign
      have hn := (isWord_of_name h.name).no_sign
      simp [ht, hn]
    have parts : e.front ++ x = (e.type ++ ' ' :: (e.name ++ [' '])) ++ '=' :: (' ' :: x) := by
      simp [front, hd, Marker.text]
    rw [parts]
    exact .sign before
  | word letters =>
    have keyword : e.byWord = true := by rw [byWord, hd]
    have parts : e.front ++ x = (e.type ++ ' ' :: (e.name ++ [' '])) ++ (letters ++ ' ' :: x) := by
      simp [front, hd, Marker.text]
    have no_sign : '=' ∉ e.front ++ x := by
      simp [h.sign_not_mem_front keyword, hx keyword]
    have same := (h.default _ hd).1
    rw [parts] at no_sign ⊢
    refine .word ⟨?_, ?_, ⟨by simp, ?_, fun c hc => (solid_of_sameLetters same hc).2.2, ?_⟩, same⟩
      no_sign
    · have others : words (e.type ++ ' ' :: (e.name ++ [' '])) = [e.type, e.name] := by
        rw [← List.cons_append, ← List.append_assoc, words_append_blanks space,
          words_pair (isWord_of_name h.type).toIsWord (isWord_of_name h.name).toIsWord]
      rw [others]
      exact List.forall_mem_cons.mpr ⟨h.type.2, List.forall_mem_singleton.mpr h.name.2⟩
    · intro c hc
      obtain rfl : ' ' = c := by simpa [List.getLast?_cons] using hc
      decide
    · rintro rfl
      cases same
    · rintro c ⟨⟩
      decide

/-- Where a sign stands behind the word and a quote, the quote is lost. -/
theorem Proper.exists_default?_append (h : e.Proper) (hw : e.byWord = true)
    (hx : '=' ∈ '\'' :: x) : ∃ y, Param.default? (e.front ++ '\'' :: x) = some y ∧
      y.count '\'' < ('\'' :: x).count '\'' := by
  obtain ⟨a, b, hab, ha⟩ := List.eq_append_cons_of_mem hx
  obtain ⟨a, rfl⟩ : ∃ a', a = '\'' :: a' := by
    cases a with
    | nil => cases hab
    | cons c a => exact ⟨a, by rw [(List.cons_eq_cons.mp hab).1]⟩
  have before : '=' ∉ e.front ++ '\'' :: a := by
    simpa [h.sign_not_mem_front hw] using ha
  refine ⟨trim b, ?_, ?_⟩
  · rw [default?_eq_some_iff, hab, ← List.append_assoc]
    exact .sign before
  · rw [count_trim (by decide), hab, List.cons_append, List.count_cons_self, List.count_append,
      List.count_cons]
    omega

theorem text_of_none (hd : e.default? = none) : e.text = (⟨e.type, some e.name⟩ : Form).text := by
  simp [text, front, value, value?, hd, Form.text]

theorem value_of_some {m : Marker} {v : Value} (hd : e.default? = some (m, v)) :
    e.value = v.text := by
  simp [value, value?, hd]

theorem solid_of_inPlain {c : Char} (h : Value.inPlain c = true) :
    isFlat c = true ∧ c ≠ '=' ∧ isBlank c = false := by
  simp only [Value.inPlain, Bool.or_eq_true, beq_iff_eq] at h
  rcases h with ((hn | rfl) | rfl) | rfl
  · exact ⟨isFlat_of_inName hn, (by rintro rfl; cases hn), isBlank_of_inName hn⟩
  all_goals decide

/-- A value begins and ends with no blank. -/
theorem trimmed_text {v : Value} (h : v.Proper) : Trimmed v.text := by
  cases v with
  | plain text =>
    exact trimmed_of_not_blank fun c hc => (solid_of_inPlain (List.all_eq_true.mp h.2 c hc)).2.2
  | quoted inner =>
    refine ⟨fun c hc => ?_, fun c hc => ?_⟩
    · obtain rfl : '\'' = c := by simpa [Value.text] using hc
      decide
    · obtain rfl : '\'' = c := by simpa [Value.text, List.getLast?_cons] using hc
      decide

/-- A part with a default that is kept gives what is written. -/
theorem Proper.ofParts_text (h : e.Proper) (hs : e.byWord = true → '=' ∉ e.value) (k : Nat)
    (parts : List Text) : ofParts k (e.text :: parts) =
      e.onto (ofParts (k + e.param?.toList.length) parts) := by
  cases hd : e.default? with
  | none =>
    have form : (⟨e.type, some e.name⟩ : Form).Proper :=
      ⟨isWord_of_name h.type, fun name hn => Option.some.inj hn ▸ isWord_of_name h.name⟩
    simp [ofParts, text_of_none hd, form.default?, form.ofPart?, Form.param, onto, param?, value?,
      hd]
  | some p =>
    obtain ⟨m, v⟩ := p
    rw [value_of_some hd] at hs
    have read := h.default?_append hd hs
    rw [trim_of_trimmed (trimmed_text (h.default _ hd).2)] at read
    simp [ofParts, text, value_of_some hd, read, onto, param?, value?, hd]

end Entry

/-! ### What a list gives -/

theorem written_cons (e : Entry) (es : List Entry) : written (e :: es) = e.onto (written es) := by
  simp only [written, Entry.onto, List.filterMap_cons]
  cases e.param? <;> cases e.value? <;> rfl

/-- An entry put before two lists tells them apart if they are apart. -/
theorem Entry.onto_inj {e : Entry} {a b : List Param × List Text} :
    e.onto a = e.onto b ↔ a = b := by
  simp [Entry.onto, Prod.ext_iff]

/-- All entries are kept exactly if the first is and the others are. -/
theorem kept_cons {e : Entry} {es : List Entry} :
    Kept (e :: es) ↔ e.KeptBefore es ∧ Kept es := by
  have last : (∀ x ∈ (e :: es).dropLast, level x.value = 0) ↔
      (es = [] ∨ level e.value = 0) ∧ ∀ x ∈ es.dropLast, level x.value = 0 := by
    cases es <;> simp
  constructor
  · rintro ⟨enclosed, no_sign, balanced⟩
    rw [List.forall_mem_cons] at enclosed no_sign
    rw [last] at balanced
    exact ⟨⟨enclosed.1, balanced.1, no_sign.1⟩, enclosed.2, no_sign.2, balanced.2⟩
  · rintro ⟨first, kept⟩
    exact ⟨List.forall_mem_cons.mpr ⟨first.enclosed, kept.enclosed⟩,
      List.forall_mem_cons.mpr ⟨first.no_sign, kept.no_sign⟩,
      last.mpr ⟨first.balanced, kept.balanced⟩⟩

/-- What stands behind the first parameter of a list. -/
def listTail (es : List Entry) : Text :=
  if es = [] then [] else ',' :: ' ' :: listText es

/-- The text of a list begins with its first entry. -/
theorem listText_cons (e : Entry) (es : List Entry) :
    listText (e :: es) = e.text ++ listTail es := by
  cases es with
  | nil => simp [listText, joinWith, listTail]
  | cons e' es => simp [listText, joinWith, listTail]

/-- What is read of the parts of a text when `k` parameters come before it. -/
def readsFrom (k : Nat) (s : Text) : List Param × List Text :=
  ofParts k (topPieces 0 s)

/-- A part without anything gives nothing. -/
theorem ofParts_nil_cons (k : Nat) (parts : List Text) :
    ofParts k ([] :: parts) = ofParts k parts := by
  have nothing : default? [] = none := default?_eq_none_iff.mpr (by decide)
  rw [ofParts, nothing]
  rfl

/-- The blanks around a part make no difference. -/
theorem parseList_eq_readsFrom (s : Text) : parseList s = readsFrom 0 s := by
  have skip (k : Nat) (parts : List Text) :
      ofParts k (parts.filter (!·.isEmpty)) = ofParts k parts := by
    induction parts generalizing k with
    | nil => rfl
    | cons part parts ih =>
      cases part with
      | nil => rw [List.filter_cons_of_neg (by simp), ih, ofParts_nil_cons]
      | cons c part => rw [List.filter_cons_of_pos (by simp), ofParts, ofParts, ih, ih]
  rw [parseList, splitTopLevel, skip, ofParts_trim, readsFrom]

/-- A space before a list does not matter. -/
theorem readsFrom_space (k : Nat) (s : Text) : readsFrom k (' ' :: s) = readsFrom k s := by
  obtain ⟨x, xs, hx⟩ := List.exists_cons_of_ne_nil (topPieces_ne_nil 0 s)
  have first : topPieces 0 (' ' :: s) = (' ' :: x) :: xs := by
    rw [topPieces_cons (by simp)]
    simpa [nesting, glue] using congrArg (glue [' ']) hx
  have space : trim (' ' :: x) = trim x :=
    trim_blank_append (a := [' ']) (List.forall_mem_singleton.mpr (by decide)) x
  rw [readsFrom, readsFrom, first, hx, ← ofParts_trim, ← ofParts_trim k (x :: xs), List.map_cons,
    List.map_cons, space]

variable {e : Entry} {es : List Entry}

theorem Entry.Proper.topPieces_front (h : e.Proper) (s : Text) :
    topPieces 0 (e.front ++ s) = glue e.front (topPieces 0 s) :=
  topPieces_closed (isClosed_of_flat fun _ hc => (h.of_mem_front hc).1) s

theorem Entry.Proper.count_text (h : e.Proper) : e.text.count '\'' = e.value.count '\'' := by
  have front : '\'' ∉ e.front := fun hm => (h.of_mem_front hm).2.1 rfl
  rw [Entry.text, List.count_append, List.count_eq_zero_of_not_mem front, zero_add]

/-- All quotes of a list are in its defaults. -/
theorem count_listText (h : ∀ e ∈ es, e.Proper) :
    (listText es).count '\'' = quotes (written es) := by
  induction es with
  | nil => rfl
  | cons e es ih =>
    obtain ⟨he, hes⟩ := List.forall_mem_cons.mp h
    have name {w : Text} (hw : isName w = true) : w.count '\'' = 0 :=
      List.count_eq_zero_of_not_mem fun hm => by cases all_inName_of_isName hw _ hm
    have tail : (listTail es).count '\'' = (listText es).count '\'' := by
      rw [listTail]
      split_ifs with hn
      · rw [hn]
        rfl
      · simp
    rw [listText_cons, List.count_append, he.count_text, tail, ih hes, written_cons]
    cases hd : e.default? with
    | none =>
      simp [Entry.value, Entry.value?, Entry.onto, Entry.param?, hd, quotes, name he.type.1,
        name he.name.1]
    | some p =>
      simp [Entry.value, Entry.value?, Entry.onto, Entry.param?, hd, quotes, Nat.add_left_comm]

/-- A default is a piece of its own if it has no comma at top level and is the last, or leaves the
count of parentheses as it was. -/
theorem exists_topPieces {w : Text} (enclosed : Enclosed ',' 0 w)
    (balanced : es = [] ∨ level w = 0) : ∃ ps, topPieces 0 (w ++ listTail es) = w :: ps ∧
      ∀ k, ofParts k ps = readsFrom k (listText es) := by
  cases es with
  | nil =>
    refine ⟨[], ?_, fun k => (ofParts_nil_cons k []).symm⟩
    rw [listTail, if_pos rfl, List.append_nil, topPieces_enclosed enclosed]
  | cons e es =>
    refine ⟨topPieces 0 (' ' :: listText (e :: es)), ?_, fun k => readsFrom_space k _⟩
    rw [listTail, if_neg (List.cons_ne_nil e es),
      topPieces_comma enclosed (balanced.resolve_left (List.cons_ne_nil e es))]

namespace Entry

/-- A parameter that is cut off as a whole is read as it is written. -/
theorem Proper.readsFrom (h : e.Proper) (hv : e.KeptBefore es) (k : Nat) :
    readsFrom k (listText (e :: es)) =
      e.onto (readsFrom (k + e.param?.toList.length) (listText es)) := by
  obtain ⟨ps, cut, rest⟩ := exists_topPieces hv.enclosed hv.balanced
  rw [listText_cons, text, List.append_assoc, Param.readsFrom, h.topPieces_front, cut, glue, ← text,
    h.ofParts_text hv.no_sign, rest]

/-- Any value but a literal in quotes is cut off as a whole. -/
theorem Proper.exists_quoted (h : e.Proper) (hv : ¬ e.KeptBefore es) :
    ∃ m inner, e.default? = some (m, .quoted inner) := by
  cases hd : e.default? with
  | none =>
    have nothing : e.value = [] := by simp [value, value?, hd]
    exact absurd ⟨by rw [nothing]; trivial, .inr (by rw [nothing]; rfl), by simp [nothing]⟩ hv
  | some p =>
    obtain ⟨m, v⟩ := p
    cases v with
    | quoted inner => exact ⟨m, inner, rfl⟩
    | plain t =>
      obtain ⟨-, plain⟩ := (h.default _ hd).2
      have solid := fun c hc => solid_of_inPlain (List.all_eq_true.mp plain c hc)
      have value : e.value = t := value_of_some hd
      refine absurd ⟨?_, .inr ?_, fun _ hm => ?_⟩ hv
      · exact enclosed_of_not_mem (value ▸ comma_not_mem_of_flat fun c hc => (solid c hc).1) 0
      · exact value ▸ level_of_flat fun c hc => (solid c hc).1
      · exact (solid _ (value ▸ hm)).2.1 rfl

/-- What is cut off elsewhere begins with a quote all the same, and has other commas than the
literal, or a sign where a default is looked for behind the word. -/
theorem Proper.exists_cut (h : e.Proper) (hv : ¬ e.KeptBefore es) :
    ∃ x ps, topPieces 0 (listText (e :: es)) = (e.front ++ '\'' :: x) :: ps ∧
      (('\'' :: x).count ',' ≠ e.value.count ',' ∨ e.byWord = true ∧ '=' ∈ '\'' :: x) := by
  obtain ⟨m, inner, hd⟩ := h.exists_quoted hv
  have literal : e.value = '\'' :: (inner ++ ['\'']) := value_of_some hd
  obtain ⟨x, ps, cut, lost⟩ : ∃ x ps, topPieces 0 (e.value ++ listTail es) = x :: ps ∧
      (x.count ',' ≠ e.value.count ',' ∨ e.byWord = true ∧ '=' ∈ x) := by
    by_cases hw : Enclosed ',' 0 e.value ∧ (es = [] ∨ level e.value = 0)
    · obtain ⟨ps, cut, -⟩ := exists_topPieces hw.1 hw.2
      have sign : ¬ (e.byWord = true → '=' ∉ e.value) := fun hs => hv ⟨hw.1, hw.2, hs⟩
      exact ⟨e.value, ps, cut, .inr (by simpa using sign)⟩
    · have ends : listTail es = [] ↔ es = [] := by
        rw [listTail]
        split_ifs with hn <;> simp [hn]
      obtain ⟨x, ps, cut, other⟩ := exists_other_piece (w := e.value) (t := listTail es)
        (by rw [listTail]; split_ifs <;> simp) (by rwa [ends])
      exact ⟨x, ps, cut, .inl other⟩
  obtain ⟨y, ys, hy⟩ := List.exists_cons_of_ne_nil
    (topPieces_ne_nil 0 (inner ++ '\'' :: listTail es))
  have first : topPieces 0 (e.value ++ listTail es) = ('\'' :: y) :: ys := by
    rw [literal, List.cons_append, topPieces_cons (by simp)]
    simpa [nesting, glue] using congrArg (glue ['\'']) hy
  rw [first] at cut
  obtain ⟨rfl, rfl⟩ := List.cons_eq_cons.mp cut
  refine ⟨y, ys, ?_, lost⟩
  rw [listText_cons, text, List.append_assoc, h.topPieces_front, first, glue]

/-- A parameter that is cut off elsewhere is read otherwise, or the list has a quote that is not
read. -/
theorem Proper.readsFrom_ne (h : ∀ x ∈ e :: es, x.Proper) (hv : ¬ e.KeptBefore es) (k : Nat) :
    Param.readsFrom k (listText (e :: es)) ≠ written (e :: es) := by
  intro same
  have he := h e List.mem_cons_self
  obtain ⟨m, inner, hd⟩ := he.exists_quoted hv
  obtain ⟨x, ps, cut, lost⟩ := he.exists_cut hv
  have total : quotes (written (e :: es)) =
      (e.front ++ '\'' :: x).count '\'' + (ps.map (·.count '\'')).sum := by
    rw [← count_listText h, ← sum_count_topPieces (by decide) 0, cut, List.map_cons, List.sum_cons]
  rw [Param.readsFrom, cut] at same
  by_cases hs : e.byWord = true ∧ '=' ∈ '\'' :: x
  · obtain ⟨y, read, fewer⟩ := he.exists_default?_append hs.1 hs.2
    have rest := quotes_ofParts_le k ps
    rw [← same] at total
    simp only [ofParts, read, quotes, List.map_cons, List.sum_cons, List.count_append] at total rest
    omega
  · have read := he.default?_append hd (x := '\'' :: x) fun hw hm => hs ⟨hw, hm⟩
    have value : trim ('\'' :: x) = e.value := by
      rw [written_cons] at same
      simpa [ofParts, read, onto, value?, value, hd] using congrArg (·.2.head?) same
    have commas := lost.resolve_right hs
    rw [← value, count_trim (by decide)] at commas
    exact commas rfl

end Entry

/-- A list is read as it is written exactly if its literals are kept. -/
theorem readsFrom_iff_kept (h : ∀ e ∈ es, e.Proper) (k : Nat) :
    readsFrom k (listText es) = written es ↔ Kept es := by
  induction es generalizing k with
  | nil => exact iff_of_true (ofParts_nil_cons k []) ⟨by simp, by simp, by simp⟩
  | cons e es ih =>
    rw [kept_cons]
    by_cases hv : e.KeptBefore es
    · rw [(h e List.mem_cons_self).readsFrom hv, written_cons, Entry.onto_inj,
        ih fun x hx => h x (List.mem_cons_of_mem e hx)]
      exact (and_iff_right hv).symm
    · exact iff_of_false (Entry.Proper.readsFrom_ne h hv k) fun hk => hv hk.1

/-- **The parameters and defaults of a list are read as they are written exactly if no literal is
taken for more or less than itself.** -/
theorem parseList_iff_kept (h : ∀ e ∈ es, e.Proper) :
    parseList (listText es) = written es ↔ Kept es := by
  rw [parseList_eq_readsFrom]
  exact readsFrom_iff_kept h 0

/-- Commas in parentheses do no harm, nor does the word, nor a sign behind a sign. -/
theorem parseList_commas_and_signs :
    let es : List Entry :=
      [⟨"integer", "n", none⟩,
        ⟨"text", "sep", some (.word "Default", .quoted "a (b, c) default")⟩,
        ⟨"real", "scale", some (.sign, .plain "-1.5")⟩,
        ⟨"text", "format", some (.sign, .quoted "x=(")⟩]
    (∀ e ∈ es, e.Proper) ∧ Kept es ∧ parseList (listText es) =
      (([⟨"integer", "n"⟩], ["'a (b, c) default'", "-1.5", "'x=('"]) : List Param × List Text) := by
  intro es
  have proper : ∀ e ∈ es, e.Proper := by decide
  have kept : Kept es := ⟨by decide, by decide, by decide⟩
  exact ⟨proper, kept, (parseList_iff_kept proper).mpr kept⟩

/-- A sign in a literal behind the word is taken for the one that a default stands behind. -/
theorem parseList_sign_in_quotes :
    let e : Entry := ⟨"text", "sep", some (.word "DEFAULT", .quoted "a=b")⟩
    e.Proper ∧ written [e] = ([], ["'a=b'".toList]) ∧
      parseList (listText [e]) = ([], ["b'".toList]) := by
  decide

end Param

end VectorWrap
