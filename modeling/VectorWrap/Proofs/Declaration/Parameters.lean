import VectorWrap.Declaration.Parameters
import VectorWrap.Declaration.Statement
import VectorWrap.Proofs.Text.Words

/-!
# Parameter lists are read as written

In a closed text the parentheses balance and no comma stands outside of them.  What looks for an end
by counting parentheses passes over such a text as a whole, at any depth: the end of a parenthesised
text (`closing?_closed`), the commas of a list (`topPieces_closed`) and the end of a property
(`valueEnd?_closed`).

A list of closed parts is therefore split into these parts (`splitTopLevel_list`), and a list of
parameters is read as these parameters (`parseList_text`).

`isClosed` is a computation with the depth as its argument, so that the lemmas for single words
follow from the characters they are made of, and a closed part in front of any text is passed by one
rewriting with the lemma of the reader in question.
-/

namespace VectorWrap

namespace Text

/-! ### Closed texts -/

/-- With `depth` parentheses open before it, the text closes them all and has no comma outside. -/
def isClosed (depth : Nat) : Text → Bool
  | [] => depth == 0
  | c :: r =>
      if c = '(' then isClosed (depth + 1) r
      else if c = ')' then
        match depth with
        | 0 => false
        | d + 1 => isClosed d r
      else (c != ',' || depth != 0) && isClosed depth r

/-- A closed text may follow another. -/
theorem isClosed_append {d : Nat} {a s : Text} (ha : isClosed d a = true)
    (hs : isClosed 0 s = true) : isClosed d (a ++ s) = true := by
  fun_induction isClosed d a with
  | case1 d =>
    obtain rfl : d = 0 := by simpa using ha
    exact hs
  | case2 d a ih => simpa [isClosed] using ih ha
  | case3 => cases ha
  | case4 a d _ ih => simpa [isClosed] using ih ha
  | case5 d c a ho hc ih =>
    rw [Bool.and_eq_true] at ha
    simp [isClosed, ho, hc, ih ha.2, ha.1]

/-- Is neither a parenthesis nor a comma. -/
def isFlat (c : Char) : Bool :=
  c != '(' && c != ')' && c != ','

/-- A text without parentheses and commas is closed. -/
theorem isClosed_of_flat {s : Text} (h : ∀ c ∈ s, isFlat c = true) : isClosed 0 s = true := by
  induction s with
  | nil => rfl
  | cons c s ih =>
    obtain ⟨hc, hs⟩ := List.forall_mem_cons.mp h
    have flat : (c ≠ '(' ∧ c ≠ ')') ∧ c ≠ ',' := by simpa [isFlat] using hc
    simp [isClosed, flat, ih hs]

theorem nesting_of_flat {c : Char} (h : isFlat c = true) : nesting c = 0 := by
  have flat : (c ≠ '(' ∧ c ≠ ')') ∧ c ≠ ',' := by simpa [isFlat] using h
  simp [nesting, flat]

theorem isFlat_of_inName {c : Char} (h : inName c = true) : isFlat c = true := by
  simp only [isFlat, Bool.and_eq_true, bne_iff_ne]
  refine ⟨⟨?_, ?_⟩, ?_⟩ <;> (rintro rfl; cases h)

theorem isFlat_of_isLayout {c : Char} (h : isLayout c = true) : isFlat c = true := by
  simp only [isLayout, Bool.or_eq_true, beq_iff_eq] at h
  rcases h with ((rfl | rfl) | rfl) | rfl <;> decide

/-! ### Lists -/

/-- Puts a text in front of the first piece. -/
def glue (w : Text) : List Text → List Text
  | [] => [w]
  | t :: ts => (w ++ t) :: ts

theorem glue_glue (v w : Text) (ts : List Text) : glue v (glue w ts) = glue (v ++ w) ts := by
  cases ts <;> simp [glue]

/-- There is always a piece. -/
theorem topPieces_ne_nil (d : Int) (s : Text) : topPieces d s ≠ [] := by
  cases s with
  | nil => simp [topPieces]
  | cons c s =>
    rw [topPieces]
    split
    · simp
    · split <;> simp

/-- A character that does not separate belongs to the first piece. -/
theorem topPieces_cons {d : Int} {c : Char} (h : ¬ (c = ',' ∧ d = 0)) (s : Text) :
    topPieces d (c :: s) = glue [c] (topPieces (d + nesting c) s) := by
  rw [topPieces, if_neg h]
  cases topPieces (d + nesting c) s <;> rfl

/-- A closed text belongs to the first piece as a whole. -/
theorem topPieces_closed {d : Nat} {w : Text} (h : isClosed d w = true) (s : Text) :
    topPieces d (w ++ s) = glue w (topPieces 0 s) := by
  have glued (c : Char) (w : Text) (ts : List Text) : glue [c] (glue w ts) = glue (c :: w) ts :=
    glue_glue [c] w ts
  fun_induction isClosed d w with
  | case1 d =>
    obtain rfl : d = 0 := by simpa using h
    obtain ⟨t, ts, ht⟩ := List.exists_cons_of_ne_nil (topPieces_ne_nil 0 s)
    simp [ht, glue]
  | case2 d w ih =>
    have hd : (d : Int) + nesting '(' = ((d + 1 : Nat) : Int) := rfl
    rw [List.cons_append, topPieces_cons (by simp), hd, ih h, glued]
  | case3 => cases h
  | case4 w d _ ih =>
    have hd : ((d + 1 : Nat) : Int) + nesting ')' = d := by
      have : nesting ')' = -1 := rfl
      omega
    rw [List.cons_append, topPieces_cons (by simp), hd, ih h, glued]
  | case5 d c w ho hc ih =>
    rw [Bool.and_eq_true] at h
    have hd : (d : Int) + nesting c = d := by simp [nesting, ho, hc]
    have inner : ¬ (c = ',' ∧ (d : Int) = 0) := by
      rintro ⟨rfl, h0⟩
      obtain rfl : d = 0 := by simpa using h0
      simp at h
    rw [List.cons_append, topPieces_cons inner, hd, ih h.2, glued]

/-- A part of a list: closed, and neither empty nor with blanks at its ends. -/
structure IsPart (w : Text) : Prop where
  closed : isClosed 0 w = true
  trimmed : Trimmed w
  ne_nil : w ≠ []

theorem splitTopLevel_part {w : Text} (h : IsPart w) : splitTopLevel w = [w] := by
  have pieces : topPieces 0 w = [w] := by
    simpa [topPieces, glue] using topPieces_closed h.closed []
  simp [splitTopLevel, pieces, trim_of_trimmed h.trimmed, h.ne_nil]

/-- A part before a comma is the first piece. -/
theorem splitTopLevel_comma {w : Text} (h : IsPart w) (s : Text) :
    splitTopLevel (w ++ ',' :: s) = w :: splitTopLevel s := by
  have pieces : topPieces 0 (w ++ ',' :: s) = w :: topPieces 0 s := by
    simpa [topPieces, glue] using topPieces_closed h.closed (',' :: s)
  simp [splitTopLevel, pieces, trim_of_trimmed h.trimmed, h.ne_nil]

/-- Layout before a list is trimmed away. -/
theorem splitTopLevel_layout {a : Text} (h : ∀ c ∈ a, isLayout c = true) (s : Text) :
    splitTopLevel (a ++ s) = splitTopLevel s := by
  have pieces : topPieces 0 (a ++ s) = glue a (topPieces 0 s) :=
    topPieces_closed (isClosed_of_flat fun c hc => isFlat_of_isLayout (h c hc)) s
  obtain ⟨t, ts, ht⟩ := List.exists_cons_of_ne_nil (topPieces_ne_nil 0 s)
  simp only [splitTopLevel, pieces, ht, glue, List.map_cons,
    trim_blank_append (fun c hc => isBlank_of_isLayout (h c hc))]

/-- **A list is split into its parts**, whatever layout follows its commas. -/
theorem splitTopLevel_list {pad : Text} (hp : ∀ c ∈ pad, isLayout c = true) {ws : List Text}
    (h : ∀ w ∈ ws, IsPart w) : splitTopLevel (joinWith (',' :: pad) ws) = ws := by
  induction ws with
  | nil => rfl
  | cons w ws ih =>
    obtain ⟨hw, hs⟩ := List.forall_mem_cons.mp h
    cases ws with
    | nil => exact (congrArg _ List.intercalate_singleton).trans (splitTopLevel_part hw)
    | cons v vs =>
      rw [joinWith, List.intercalate_cons_cons, List.append_assoc, List.cons_append,
        splitTopLevel_comma hw, splitTopLevel_layout hp]
      exact congrArg _ (ih hs)

/-! ### Words -/

/-- A word of a declaration: a closed text without blanks. -/
structure IsWord (w : Text) : Prop where
  ne_nil : w ≠ []
  not_blank : ∀ c ∈ w, isBlank c = false
  closed : isClosed 0 w = true

theorem IsWord.isPart {w : Text} (h : IsWord w) : IsPart w :=
  ⟨h.closed, trimmed_of_not_blank h.not_blank, h.ne_nil⟩

theorem isWord_of_isName {v : Text} (h : isName v = true) : IsWord v where
  ne_nil := ne_nil_of_isName h
  not_blank := isBlank_of_isName h
  closed := isClosed_of_flat fun c hc => isFlat_of_inName (all_inName_of_isName h c hc)

/-- Without parentheses every comma is at top level. -/
theorem topPieces_eq_splitBy {s : Text} (h : ∀ c ∈ s, nesting c = 0) :
    topPieces 0 s = splitBy (· == ',') s := by
  induction s with
  | nil => rfl
  | cons c s ih =>
    obtain ⟨hc, hs⟩ := List.forall_mem_cons.mp h
    by_cases comma : c = ','
    · simp [topPieces, splitBy, comma, ih hs]
    · cases pieces : splitBy (· == ',') s <;>
        simp [topPieces, splitBy, comma, hc, ih hs, pieces]

/-- A list of names has no parentheses. -/
theorem nesting_names {pad : Text} (hp : ∀ c ∈ pad, isLayout c = true) {vs : List Text}
    (h : ∀ v ∈ vs, isName v = true) : ∀ c ∈ joinWith (',' :: pad) vs, nesting c = 0 := by
  have name {v : Text} (hv : isName v = true) : ∀ c ∈ v, nesting c = 0 := fun c hc =>
    nesting_of_flat (isFlat_of_inName (all_inName_of_isName hv c hc))
  have sep : ∀ c ∈ ',' :: pad, nesting c = 0 :=
    List.forall_mem_cons.mpr ⟨rfl, fun c hc => nesting_of_flat (isFlat_of_isLayout (hp c hc))⟩
  induction vs with
  | nil => simp [joinWith]
  | cons v vs ih =>
    obtain ⟨hv, hs⟩ := List.forall_mem_cons.mp h
    cases vs with
    | nil => simpa [joinWith] using name hv
    | cons u us =>
      rw [joinWith, List.intercalate_cons_cons]
      exact List.forall_mem_append.mpr ⟨List.forall_mem_append.mpr ⟨name hv, sep⟩, ih hs⟩

/-- Names that are joined by commas are found again. -/
theorem splitBy_names {pad : Text} (hp : ∀ c ∈ pad, isLayout c = true) {vs : List Text}
    (h : ∀ v ∈ vs, isName v = true) :
    ((splitBy (· == ',') (joinWith (',' :: pad) vs)).map trim).filter (!·.isEmpty) = vs := by
  rw [← topPieces_eq_splitBy (nesting_names hp h)]
  exact splitTopLevel_list hp fun v hv => (isWord_of_isName (h v hv)).isPart

theorem words_word {w : Text} (h : IsWord w) : words w = [w] := by
  simp [words, splitBy_of_none h.not_blank, h.ne_nil]

/-- Two words with a space between them are its words. -/
theorem words_pair {v w : Text} (hv : IsWord v) (hw : IsWord w) :
    words (v ++ ' ' :: w) = [v, w] := by
  have blank : isBlank ' ' = true := by decide
  simp [words, splitBy_append hv.not_blank blank, splitBy_of_none hw.not_blank, hv.ne_nil,
    hw.ne_nil]

theorem afterWord?_of_none {s w : Text} (h : nextWord? s = none) : afterWord? w s = none := by
  rw [afterWord?.eq_def]
  split <;> rename_i e
  · rfl
  · rw [h] at e
    cases e

/-- A word is found where it is the next one, or behind that. -/
theorem afterWord?_of_some {s v w r : Text} (h : nextWord? s = some (v, r)) :
    afterWord? w s = if sameLetters v w then some r else afterWord? w r := by
  rw [afterWord?.eq_def]
  split <;> rename_i e
  · rw [h] at e
    cases e
  · rw [h] at e
    cases e
    rfl

theorem afterWord?_nil (w : Text) : afterWord? w [] = none :=
  afterWord?_of_none rfl

/-- Another word is passed over. -/
theorem afterWord?_append {a v w s : Text} (ha : ∀ c ∈ a, isBlank c = true) (hv : IsWord v)
    (hn : sameLetters v w = false) (hs : ∀ c, s.head? = some c → isBlank c = true) :
    afterWord? w (a ++ (v ++ s)) = afterWord? w s := by
  have next : nextWord? (a ++ (v ++ s)) = some (v, s) := by
    obtain ⟨c, v, rfl⟩ := List.exists_cons_of_ne_nil hv.ne_nil
    have word : ∀ d ∈ c :: v, (!isBlank d) = true := fun d hd => by simp [hv.not_blank d hd]
    have stop : ∀ d, s.head? = some d → (!isBlank d) = false := fun d hd => by simp [hs d hd]
    have drop : (a ++ (c :: v ++ s)).dropWhile isBlank = c :: (v ++ s) :=
      dropWhile_append_of_head ha fun d hd => by
        cases hd
        exact hv.not_blank c List.mem_cons_self
    rw [nextWord?, drop]
    simp only [← List.cons_append, takeWhile_append_of_head word stop,
      dropWhile_append_of_head word stop]
  simp [afterWord?_of_some next, hn]

/-- Nothing is cut at a character that is not there. -/
theorem cut?_of_not_mem {c : Char} {s : Text} (h : c ∉ s) : cut? c s = none := by
  induction s with
  | nil => rfl
  | cons d s ih =>
    obtain ⟨hd, hs⟩ : c ≠ d ∧ c ∉ s := by simpa using h
    simp [cut?, Ne.symm hd, ih hs]

end Text

namespace Scan
open Text

/-- A closed text is passed on the way to the closing parenthesis. -/
theorem closing?_closed {d : Nat} {w : Text} (h : isClosed d w = true) (s : Text) :
    closing? d (w ++ s) = (closing? 0 s).map fun (a, r) => (w ++ a, r) := by
  fun_induction isClosed d w with
  | case1 d =>
    obtain rfl : d = 0 := by simpa using h
    simp
  | case2 d w ih => simp [closing?, ih h, Function.comp_def]
  | case3 => cases h
  | case4 w d _ ih => simp [closing?, ih h, Function.comp_def]
  | case5 d c w ho hc ih =>
    rw [Bool.and_eq_true] at h
    simp [closing?, ho, hc, ih h.2, Function.comp_def]

theorem closing?_comma (s : Text) :
    closing? 0 (',' :: s) = (closing? 0 s).map fun (a, r) => (',' :: a, r) := by
  simp [closing?]

/-- A parenthesis is closed after the list that stands inside. -/
theorem closing?_list {pad : Text} (hp : isClosed 0 pad = true) {ws : List Text}
    (h : ∀ w ∈ ws, isClosed 0 w = true) (s : Text) :
    closing? 0 (joinWith (',' :: pad) ws ++ ')' :: s) = some (joinWith (',' :: pad) ws, s) := by
  have close : closing? 0 (')' :: s) = some ([], s) := by simp [closing?]
  induction ws with
  | nil => exact close
  | cons w ws ih =>
    obtain ⟨hw, hs⟩ := List.forall_mem_cons.mp h
    cases ws with
    | nil => simp [joinWith, closing?_closed hw, close]
    | cons v vs =>
      simp only [joinWith, List.intercalate_cons_cons, List.append_assoc, List.cons_append,
        closing?_closed hw, closing?_comma, closing?_closed hp]
      simp only [joinWith] at ih
      simp [ih hs]

end Scan

namespace Statement
open Text

/-- A closed text is passed on the way to the end of a value. -/
theorem valueEnd?_closed {d : Nat} {w : Text} (h : isClosed d w = true) (s : Text) :
    valueEnd? d (w ++ s) = (valueEnd? 0 s).map fun (a, r) => (w ++ a, r) := by
  fun_induction isClosed d w with
  | case1 d =>
    obtain rfl : d = 0 := by simpa using h
    simp
  | case2 d w ih => simp [valueEnd?, ih h, Function.comp_def]
  | case3 => cases h
  | case4 w d _ ih => simp [valueEnd?, ih h, Function.comp_def]
  | case5 d c w ho hc ih =>
    rw [Bool.and_eq_true] at h
    have on : ¬ (d = 0 ∧ (c = ',' ∨ c = ')')) := by
      rintro ⟨rfl, rfl | rfl⟩
      · simp at h
      · exact hc rfl
    rw [List.cons_append, valueEnd?, if_neg on]
    simp [ho, hc, ih h.2, Function.comp_def]

end Statement

namespace Param
open Text

/-! ### Parameters -/

/-- A word of a parameter: it marks no default. -/
structure IsWord (w : Text) : Prop extends Text.IsWord w where
  no_sign : '=' ∉ w
  not_default : sameLetters w "default" = false

/-- A parameter as a declaration has it: a type, and a name or none. -/
structure Form where
  type : Text
  name? : Option Text
  deriving DecidableEq, Repr

namespace Form

def text (p : Form) : Text :=
  match p.name? with
  | none => p.type
  | some name => p.type ++ ' ' :: name

/-- The parameter that `k` others come before. -/
def param (k : Nat) (p : Form) : Param :=
  ⟨p.type, p.name?.getD (defaultName k)⟩

/-- The parameters of a list. -/
def params (ps : List Form) : List Param :=
  ps.mapIdx param

structure Proper (p : Form) : Prop where
  type : IsWord p.type
  name : ∀ name, p.name? = some name → IsWord name

/-- A written parameter is a part. -/
theorem Proper.isPart {p : Form} (h : p.Proper) : IsPart p.text := by
  rcases p with ⟨type, _ | name⟩
  · exact h.type.isPart
  · have ht := h.type
    have hn := h.name name rfl
    have closed : isClosed 0 (' ' :: name) = true := by simpa [isClosed] using hn.closed
    refine ⟨isClosed_append ht.closed closed, ⟨fun c hc => ?_, fun c hc => ?_⟩, by simp [text]⟩
    · obtain ⟨d, t, rfl⟩ := List.exists_cons_of_ne_nil ht.ne_nil
      refine ht.not_blank c ?_
      obtain rfl : d = c := by simpa [text] using hc
      exact List.mem_cons_self
    · refine hn.not_blank c (List.mem_of_getLast? ?_)
      simpa [text, List.getLast?_cons, List.getLast?_eq_some_getLast hn.ne_nil] using hc

/-- A written parameter has no default. -/
theorem Proper.default? {p : Form} (h : p.Proper) : default? p.text = none := by
  have ht := h.type
  rcases p with ⟨type, _ | name⟩
  · have word :=
      afterWord?_append (a := []) (s := []) (by simp) ht.toIsWord ht.not_default (by simp)
    simp only [List.nil_append, List.append_nil, afterWord?_nil] at word
    simp only [Param.default?, text, cut?_of_not_mem ht.no_sign, word, Option.map_none]
  · have hn := h.name name rfl
    have blank : isBlank ' ' = true := by decide
    have no_sign : '=' ∉ type ++ ' ' :: name := by simp [ht.no_sign, hn.no_sign]
    have first := afterWord?_append (a := []) (s := ' ' :: name) (by simp) ht.toIsWord
      ht.not_default (by simp [blank])
    have second := afterWord?_append (a := [' ']) (s := []) (by simp [blank]) hn.toIsWord
      hn.not_default (by simp)
    simp only [List.nil_append, List.append_nil, List.cons_append, afterWord?_nil] at first second
    simp only [Param.default?, text, cut?_of_not_mem no_sign, first, second, Option.map_none]

/-- A written parameter is read as what it is written with. -/
theorem Proper.ofPart? {p : Form} (h : p.Proper) (k : Nat) :
    ofPart? k p.text = some (p.param k) := by
  rcases p with ⟨type, _ | name⟩
  · simp [Param.ofPart?, text, words_word h.type.toIsWord, param]
  · simp [Param.ofPart?, text, words_pair h.type.toIsWord (h.name name rfl).toIsWord, param]

end Form

/-- Written parameters are read as what they are written with, in order. -/
theorem ofParts_text {ps : List Form} (h : ∀ p ∈ ps, p.Proper) (k : Nat) :
    ofParts k (ps.map Form.text) = (ps.mapIdx fun i => Form.param (k + i), []) := by
  induction ps generalizing k with
  | nil => rfl
  | cons p ps ih =>
    obtain ⟨hp, hs⟩ := List.forall_mem_cons.mp h
    simp [ofParts, hp.default?, hp.ofPart?, ih hs, List.mapIdx_cons, Nat.add_assoc, Nat.add_comm 1]

/-- **A list of parameters is read as these parameters**, and no default is read. -/
theorem parseList_text {pad : Text} (hp : ∀ c ∈ pad, isLayout c = true) {ps : List Form}
    (h : ∀ p ∈ ps, p.Proper) :
    parseList (joinWith (',' :: pad) (ps.map Form.text)) = (Form.params ps, []) := by
  have parts : ∀ w ∈ ps.map Form.text, IsPart w := fun w hw => by
    obtain ⟨p, hp, rfl⟩ := List.mem_map.mp hw
    exact (h p hp).isPart
  rw [parseList, splitTopLevel_list hp parts, ofParts_text h]
  simp [Form.params]

end Param

end VectorWrap
