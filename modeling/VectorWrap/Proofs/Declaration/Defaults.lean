import VectorWrap.Proofs.Declaration.Cuts

/-!
# Defaults are read as written

Each part of a parameter list is a parameter, or it gives up its name and type for a default: what
stands behind the first `=`, or behind the first word `default`.  The blanks around a part do not
matter for either (`default?_trim`, `ofPart?_trim`).  So a list of parameters and then of defaults
is read as these (`parseList_written`), with the blanks and the letter case left open.

`Plain` and `Defaulted` say how a part may be written, with what is left open as existentials in
them: the blanks around the words, the word `default` in either case or the sign.  They are made for
statements about lists of parts, by `List.Forall₂`, in which each part has its type or its default.
-/

namespace VectorWrap

namespace Text

/-! ### The next word -/

theorem nextWord?_blanks {a : Text} (ha : ∀ c ∈ a, isBlank c = true) (s : Text) :
    nextWord? (a ++ s) = nextWord? s := by
  rw [nextWord?, nextWord?, List.dropWhile_append_of_pos ha]

/-- A division at a word gives the word as the next one. -/
theorem Splits.nextWord? {a v r : Text} (h : Splits a v r) :
    nextWord? (a ++ (v ++ r)) = some (v, r) := by
  obtain ⟨c, v, rfl⟩ := List.exists_cons_of_ne_nil h.ne_nil
  have word : ∀ d ∈ c :: v, (!isBlank d) = true := fun d hd => by simp [h.not_blank d hd]
  have stop : ∀ d, r.head? = some d → (!isBlank d) = false := fun d hd => by simp [h.ends d hd]
  have drop : (c :: v ++ r).dropWhile isBlank = c :: (v ++ r) :=
    List.dropWhile_cons_of_neg (by simp [h.not_blank c List.mem_cons_self])
  rw [nextWord?_blanks h.blank, Text.nextWord?, drop]
  simp only [← List.cons_append, takeWhile_append_of_head word stop,
    dropWhile_append_of_head word stop]

/-- Blanks at the end stay behind the word. -/
theorem nextWord?_append_blanks {b : Text} (hb : ∀ c ∈ b, isBlank c = true) (s : Text) :
    nextWord? (s ++ b) = (nextWord? s).map fun (v, r) => (v, r ++ b) := by
  cases h : nextWord? s with
  | none =>
    have blank : ∀ c ∈ s ++ b, isBlank c = true :=
      List.forall_mem_append.mpr ⟨blank_of_nextWord? h, hb⟩
    rw [nextWord?, List.dropWhile_eq_nil_iff.mpr blank]
    rfl
  | some p =>
    obtain ⟨v, r⟩ := p
    obtain ⟨a, rfl, hs⟩ := splits_of_nextWord? h
    have longer : Splits a v (r ++ b) :=
      { hs with
        ends := fun c hc => by
          cases r with
          | nil => exact hb c (List.mem_of_mem_head? hc)
          | cons d r => exact hs.ends c hc }
    rw [List.append_assoc, List.append_assoc, longer.nextWord?]
    rfl

/-! ### What follows a word -/

variable {w : Text}

/-- Blanks before the text do not matter to the search for a word. -/
theorem afterWord?_blanks {a : Text} (ha : ∀ c ∈ a, isBlank c = true) (s : Text) :
    afterWord? w (a ++ s) = afterWord? w s := by
  cases h : nextWord? s with
  | none => rw [afterWord?_of_none h, afterWord?_of_none (nextWord?_blanks ha s ▸ h)]
  | some p => rw [afterWord?_of_some h, afterWord?_of_some ((nextWord?_blanks ha s).trans h)]

/-- Blanks behind the text are left behind the word. -/
theorem afterWord?_append_blanks {b : Text} (hb : ∀ c ∈ b, isBlank c = true) (s : Text) :
    afterWord? w (s ++ b) = (afterWord? w s).map (· ++ b) := by
  induction hn : s.length using Nat.strong_induction_on generalizing s with
  | _ n ih =>
    have next := nextWord?_append_blanks hb s
    cases h : nextWord? s with
    | none =>
      rw [h] at next
      rw [afterWord?_of_none h, afterWord?_of_none next]
      rfl
    | some p =>
      obtain ⟨v, r⟩ := p
      rw [h] at next
      rw [afterWord?_of_some h, afterWord?_of_some next,
        ih r.length (hn ▸ length_nextWord? h) r rfl]
      split <;> rfl

/-- Words that are not looked for are passed over. -/
theorem afterWord?_skip {front : Text} (hf : ∀ v ∈ words front, sameLetters v w = false)
    (hend : ∀ c, front.getLast? = some c → isBlank c = true) (s : Text) :
    afterWord? w (front ++ s) = afterWord? w s := by
  induction hn : front.length using Nat.strong_induction_on generalizing front with
  | _ n ih =>
    cases h : nextWord? front with
    | none => exact afterWord?_blanks (blank_of_nextWord? h) s
    | some p =>
      obtain ⟨v, r⟩ := p
      have shorter := length_nextWord? h
      obtain ⟨a, rfl, hs⟩ := splits_of_nextWord? h
      rw [hs.words, List.forall_mem_cons] at hf
      -- the text ends in a blank, so something follows the word
      have left : r ≠ [] := by
        rintro rfl
        obtain ⟨c, hc⟩ := Option.isSome_iff_exists.mp (List.getLast?_isSome.mpr hs.ne_nil)
        have blank := hend c (by
          rw [List.append_nil, List.getLast?_append_of_ne_nil _ hs.ne_nil, hc])
        rw [hs.not_blank c (List.mem_of_getLast? hc)] at blank
        cases blank
      have longer : Splits a v (r ++ s) :=
        { hs with
          ends := fun c hc => by
            rw [List.head?_append_of_ne_nil _ left] at hc
            exact hs.ends c hc }
      have last : ∀ c, r.getLast? = some c → isBlank c = true := fun c hc => hend c (by
        rw [← List.append_assoc, List.getLast?_append_of_ne_nil _ left, hc])
      rw [List.append_assoc, List.append_assoc, afterWord?_of_some longer.nextWord?, hf.1,
        if_neg Bool.false_ne_true]
      exact ih r.length (hn ▸ shorter) hf.2 last rfl

/-- A word that is not among the words of a text is not found in it. -/
theorem afterWord?_of_words {s : Text} (hs : ∀ v ∈ words s, sameLetters v w = false) :
    afterWord? w s = none := by
  have blank : isBlank ' ' = true := by decide
  have space : ∀ c ∈ [' '], isBlank c = true := by simp [blank]
  have last : ∀ c, (s ++ [' ']).getLast? = some c → isBlank c = true := fun c hc => by
    rw [List.getLast?_concat] at hc
    cases hc
    exact blank
  have skip : afterWord? w (s ++ [' '] ++ []) = afterWord? w [] :=
    afterWord?_skip (by rwa [words_append_blanks space]) last []
  rw [List.append_nil, afterWord?_append_blanks space, afterWord?_nil, Option.map_eq_none_iff]
    at skip
  exact skip

/-- What is looked for is found behind other words. -/
theorem afterWord?_found {front v s : Text} (hf : ∀ v ∈ words front, sameLetters v w = false)
    (hend : ∀ c, front.getLast? = some c → isBlank c = true) (hv : Splits [] v s)
    (hw : sameLetters v w = true) : afterWord? w (front ++ (v ++ s)) = some s := by
  have here : nextWord? (v ++ s) = some (v, s) := hv.nextWord?
  rw [afterWord?_skip hf hend, afterWord?_of_some here, if_pos hw]

/-! ### Trimmed parts -/

/-- What stands behind a word is the same in a trimmed text, but for blanks. -/
theorem afterWord?_trim (s : Text) :
    (afterWord? w (trim s)).map trim = (afterWord? w s).map trim := by
  obtain ⟨a, b, hs, ha, hb⟩ := exists_trim s
  have behind : trim ∘ (· ++ b) = trim := by
    funext r
    exact trim_append_blanks hb r
  conv_rhs =>
    rw [hs, afterWord?_append_blanks hb, afterWord?_blanks ha, Option.map_map, behind]

/-- A text is cut at the first such character. -/
theorem cut?_append {c : Char} {s : Text} (hs : c ∉ s) (t : Text) :
    cut? c (s ++ c :: t) = some (s, t) := by
  induction s with
  | nil => simp [cut?]
  | cons d s ih =>
    obtain ⟨hd, hs⟩ : c ≠ d ∧ c ∉ s := by simpa using hs
    simp [cut?, hd.symm, ih hs]

end Text

namespace Param
open Text

/-- What stands behind the sign is the same in a trimmed part, but for blanks. -/
theorem cut?_trim (s : Text) :
    (cut? '=' (trim s)).map (fun p => trim p.2) = (cut? '=' s).map fun p => trim p.2 := by
  have solid : isBlank '=' = false := by decide
  obtain ⟨a, b, hs, ha, hb⟩ := exists_trim s
  by_cases h : '=' ∈ trim s
  · obtain ⟨x, y, hxy, hx⟩ := List.eq_append_cons_of_mem h
    have whole : s = (a ++ x) ++ '=' :: (y ++ b) := by
      conv_lhs => rw [hs, hxy]
      simp
    have front : '=' ∉ a ++ x := by simp [not_mem_of_class ha solid, hx]
    conv_rhs => rw [whole, cut?_append front]
    rw [hxy, cut?_append hx, Option.map_some, Option.map_some, trim_append_blanks hb]
  · have absent : '=' ∉ s := by
      rw [hs]
      simp [not_mem_of_class ha solid, not_mem_of_class hb solid, h]
    rw [cut?_of_not_mem h, cut?_of_not_mem absent]

/-- A default stands behind the first sign, or else behind the first word `default`. -/
theorem default?_eq (s : Text) : default? s = (((cut? '=' s).map fun p => trim p.2) <|>
    (afterWord? "default" s).map trim) := by
  rw [default?]
  cases cut? '=' s <;> rfl

/-- A default is the same in a trimmed part. -/
theorem default?_trim (s : Text) : default? (trim s) = default? s := by
  rw [default?_eq, default?_eq, cut?_trim, afterWord?_trim]

theorem ofPart?_trim (k : Nat) (s : Text) : ofPart? k (trim s) = ofPart? k s := by
  rw [ofPart?, ofPart?, words_trim]

/-- The parts may be trimmed before they are read. -/
theorem ofParts_trim (k : Nat) (parts : List Text) :
    ofParts k (parts.map trim) = ofParts k parts := by
  induction parts generalizing k with
  | nil => rfl
  | cons s parts ih => simp only [List.map_cons, ofParts, default?_trim, ofPart?_trim, ih]

/-! ### Parts as they are written -/

/-- A default literal. -/
structure IsLiteral (e : Text) : Prop where
  closed : isClosed 0 e = true
  not_blank : ∀ c ∈ e, isBlank c = false
  no_sign : '=' ∉ e

/-- The words of a parameter: they mark no default. -/
structure Words (s : Text) : Prop where
  closed : isClosed 0 s = true
  no_sign : '=' ∉ s
  no_default : ∀ w ∈ words s, sameLetters w "default" = false

/-- A part without default, of the given type. -/
structure Plain (s type : Text) : Prop extends Words s where
  type : (words s).head? = some type

/-- A part with the given default, behind a sign or behind the word. -/
inductive Defaulted : Text → Text → Prop where
  | sign {front a e b : Text} (hf : isClosed 0 front = true) (hs : '=' ∉ front)
      (ha : ∀ c ∈ a, isBlank c = true) (he : IsLiteral e) (hb : ∀ c ∈ b, isBlank c = true) :
      Defaulted (front ++ '=' :: (a ++ (e ++ b))) e
  | word {front v a e b : Text} (hf : Words front)
      (hend : ∀ c, front.getLast? = some c → isBlank c = true)
      (hv : sameLetters v "default" = true) (ha : ∀ c ∈ a, isBlank c = true) (hne : a ≠ [])
      (he : IsLiteral e) (hb : ∀ c ∈ b, isBlank c = true) :
      Defaulted (front ++ (v ++ (a ++ (e ++ b)))) e

theorem IsLiteral.trimmed {e : Text} (h : IsLiteral e) : Trimmed e :=
  trimmed_of_not_blank h.not_blank

theorem IsLiteral.trim_eq {a e b : Text} (h : IsLiteral e) (ha : ∀ c ∈ a, isBlank c = true)
    (hb : ∀ c ∈ b, isBlank c = true) : trim (a ++ (e ++ b)) = e := by
  rw [← List.append_assoc]
  exact trim_append ha hb h.trimmed

/-- The word has no other characters than letters. -/
theorem solid_of_sameLetters {v : Text} (h : sameLetters v "default" = true) {c : Char}
    (hc : c ∈ v) : isFlat c = true ∧ c ≠ '=' ∧ isBlank c = false := by
  have low : c.toLower ∈ "default".toList := by
    have same : lower v = lower "default" := by simpa [sameLetters] using h
    have hm : c.toLower ∈ lower v := List.mem_map_of_mem hc
    rw [same] at hm
    exact hm
  have letters : "default".toList.all (fun d => !isBlank d) = true := by decide
  have letter : isBlank c.toLower = false := by simpa using List.all_eq_true.mp letters _ low
  refine ⟨?_, ?_, by rwa [isBlank_toLower] at letter⟩
  · simp only [isFlat, Bool.and_eq_true, bne_iff_ne]
    refine ⟨⟨?_, ?_⟩, ?_⟩ <;> (rintro rfl; revert low; decide)
  · rintro rfl
    revert low
    decide

theorem Plain.default? {s type : Text} (h : Plain s type) : default? s = none := by
  rw [default?_eq, cut?_of_not_mem h.no_sign, afterWord?_of_words h.no_default]
  rfl

/-- A plain part is a parameter of its type. -/
theorem Plain.exists_param {s type : Text} (h : Plain s type) (k : Nat) :
    ∃ p, ofPart? k s = some p ∧ p.type = type := by
  have first := h.type
  rw [ofPart?]
  cases hw : words s with
  | nil =>
    rw [hw] at first
    cases first
  | cons t names =>
    rw [hw] at first
    cases first
    cases names with
    | nil => exact ⟨_, rfl, rfl⟩
    | cons n _ => exact ⟨_, rfl, rfl⟩

/-- A defaulted part has the default that it is written with. -/
theorem Defaulted.default? {s e : Text} (h : Defaulted s e) : default? s = some e := by
  cases h with
  | sign hf hs ha he hb =>
    rw [default?_eq, cut?_append hs, Option.map_some, he.trim_eq ha hb]
    rfl
  | @word front v a e b hf hend hv ha hne he hb =>
    have solid := fun c => solid_of_sameLetters hv (c := c)
    have splits : Splits [] v (a ++ (e ++ b)) := by
      refine ⟨by simp, ?_, fun c hc => (solid c hc).2.2, fun c hc => ?_⟩
      · rintro rfl
        cases hv
      · obtain ⟨d, a, rfl⟩ := List.exists_cons_of_ne_nil hne
        cases hc
        exact ha c List.mem_cons_self
    have apart : '=' ∉ front ++ (v ++ (a ++ (e ++ b))) := by
      have equals : isBlank '=' = false := by decide
      have keyword : '=' ∉ v := fun h => (solid _ h).2.1 rfl
      simp [hf.no_sign, keyword, not_mem_of_class ha equals, he.no_sign, not_mem_of_class hb equals]
    rw [default?_eq, cut?_of_not_mem apart, afterWord?_found hf.no_default hend splits hv,
      Option.map_some, he.trim_eq ha hb]
    rfl

theorem isClosed_of_blank {a : Text} (ha : ∀ c ∈ a, isBlank c = true) : isClosed 0 a = true := by
  refine isClosed_of_flat fun c hc => ?_
  simp only [isFlat, Bool.and_eq_true, bne_iff_ne]
  refine ⟨⟨?_, ?_⟩, ?_⟩ <;> (rintro rfl; exact absurd (ha _ hc) (by decide))

/-- A defaulted part is closed. -/
theorem Defaulted.isClosed {s e : Text} (h : Defaulted s e) : isClosed 0 s = true := by
  cases h with
  | @sign front a e b hf hs ha he hb =>
    have value := isClosed_append (isClosed_of_blank ha)
      (isClosed_append he.closed (isClosed_of_blank hb))
    exact isClosed_append hf (by simpa [Text.isClosed] using value)
  | @word front v a e b hf hend hv ha hne he hb =>
    have value := isClosed_append (isClosed_of_blank ha)
      (isClosed_append he.closed (isClosed_of_blank hb))
    exact isClosed_append hf.closed (isClosed_append
      (isClosed_of_flat fun c hc => (solid_of_sameLetters hv hc).1) value)

/-- A defaulted part is not blank. -/
theorem Defaulted.not_blank {s e : Text} (h : Defaulted s e) : ∃ c ∈ s, isBlank c = false := by
  cases h with
  | sign => exact ⟨'=', by simp, by decide⟩
  | @word front v a e b hf hend hv =>
    have hne : v ≠ [] := by
      rintro rfl
      cases hv
    obtain ⟨c, v, rfl⟩ := List.exists_cons_of_ne_nil hne
    exact ⟨c, by simp, (solid_of_sameLetters hv List.mem_cons_self).2.2⟩

/-- A plain part is not blank. -/
theorem Plain.not_blank {s type : Text} (h : Plain s type) : ∃ c ∈ s, isBlank c = false := by
  by_contra hn
  have blank : ∀ c ∈ s, isBlank c = true := fun c hc => by
    simpa using fun hf => hn ⟨c, hc, hf⟩
  have first := h.type
  rw [words_of_blank blank] at first
  cases first

/-! ### Lists as they are written -/

/-- A list of parameters of the given types without default, and then of parameters with the given
defaults. -/
def IsList (list : Text) (types defaults : List Text) : Prop :=
  ∃ plain defaulted, list = joinWith [','] (plain ++ defaulted) ∧
    List.Forall₂ Plain plain types ∧ List.Forall₂ Defaulted defaulted defaults

/-- Closed parts that are joined by commas are found again. -/
theorem topPieces_join {ws : List Text} (hne : ws ≠ []) (h : ∀ w ∈ ws, isClosed 0 w = true) :
    topPieces 0 (joinWith [','] ws) = ws := by
  induction ws with
  | nil => exact absurd rfl hne
  | cons w ws ih =>
    obtain ⟨hw, hs⟩ := List.forall_mem_cons.mp h
    cases ws with
    | nil => simpa [joinWith, topPieces, glue] using topPieces_closed hw []
    | cons v vs =>
      have rest := ih (List.cons_ne_nil v vs) hs
      rw [joinWith] at rest
      have comma : topPieces 0 (',' :: [','].intercalate (v :: vs)) = [] :: v :: vs := by
        rw [topPieces, if_pos ⟨rfl, rfl⟩, rest]
      have pieces : topPieces 0 (w ++ ',' :: [','].intercalate (v :: vs)) = w :: v :: vs := by
        have := topPieces_closed hw (',' :: [','].intercalate (v :: vs))
        simpa [comma, glue] using this
      rw [joinWith, List.intercalate_cons_cons, List.append_assoc]
      exact pieces

/-- A list is split at its commas. -/
theorem splitTopLevel_join {ws : List Text} (hc : ∀ w ∈ ws, isClosed 0 w = true)
    (hb : ∀ w ∈ ws, ∃ c ∈ w, isBlank c = false) :
    splitTopLevel (joinWith [','] ws) = ws.map trim := by
  cases ws with
  | nil => rfl
  | cons w ws =>
    rw [splitTopLevel, topPieces_join (List.cons_ne_nil w ws) hc, List.filter_eq_self]
    intro t ht
    obtain ⟨v, hv, rfl⟩ := List.mem_map.mp ht
    obtain ⟨c, hm, hc⟩ := hb v hv
    obtain ⟨a, b, hs, ha, hb⟩ := exists_trim v
    have kept : trim v ≠ [] := by
      intro e
      rw [hs, e, List.append_nil] at hm
      rcases List.mem_append.mp hm with hm | hm
      · exact not_mem_of_class ha hc hm
      · exact not_mem_of_class hb hc hm
    simpa using kept

/-- Parts with defaults are read as these defaults. -/
theorem ofParts_defaulted {parts es : List Text} (h : List.Forall₂ Defaulted parts es) (k : Nat) :
    ofParts k parts = ([], es) := by
  induction h with
  | nil => rfl
  | cons hd _ ih => simp [ofParts, hd.default?, ih]

/-- Plain parts, and then parts with defaults, are read as parameters and defaults. -/
theorem ofParts_plain {plain types rest es : List Text} (h : List.Forall₂ Plain plain types)
    (hr : ∀ k, ofParts k rest = ([], es)) (k : Nat) :
    ∃ ps, ofParts k (plain ++ rest) = (ps, es) ∧ ps.map Param.type = types := by
  induction h generalizing k with
  | nil => exact ⟨[], hr k, rfl⟩
  | cons hp _ ih =>
    obtain ⟨p, read, type⟩ := hp.exists_param k
    obtain ⟨ps, more, types⟩ := ih (k + 1)
    exact ⟨p :: ps, by simp [ofParts, hp.default?, read, more], by simp [type, types]⟩

/-- **A list of parameters and then of defaults is read as it is written.** -/
theorem parseList_written {list : Text} {types es : List Text} (h : IsList list types es) :
    ∃ ps, parseList list = (ps, es) ∧ ps.map Param.type = types := by
  obtain ⟨plain, defaulted, rfl, hp, hd⟩ := h
  -- every part is closed and has a character that is no blank
  have solid : ∀ w ∈ plain ++ defaulted, isClosed 0 w = true ∧ ∃ c ∈ w, isBlank c = false :=
    List.forall_mem_append.mpr
      ⟨((List.forall₂_and_left plain types).mp
          (hp.imp fun _ _ h => ⟨⟨h.closed, h.not_blank⟩, h⟩)).1,
        ((List.forall₂_and_left defaulted es).mp
          (hd.imp fun _ _ h => ⟨⟨h.isClosed, h.not_blank⟩, h⟩)).1⟩
  obtain ⟨ps, read, types⟩ := ofParts_plain hp (ofParts_defaulted hd) 0
  refine ⟨ps, ?_, types⟩
  rw [parseList, splitTopLevel_join (fun w hw => (solid w hw).1) fun w hw => (solid w hw).2,
    ofParts_trim, read]

end Param

end VectorWrap
