import VectorWrap.Proofs.Declaration.Parameters
import VectorWrap.Proofs.Declaration.Sections
import VectorWrap.Proofs.Scan.Written
import VectorWrap.Proofs.Text.Bytes
import VectorWrap.Proofs.Text.Squeeze
import VectorWrap.Proofs.Results

/-!
# A script read by byte offsets

Three things are cut out of a script by byte offsets: the pieces of a parameter list at its commas,
the default of a parameter behind a sign or a word that is found in the lowered text, and the text
before a statement, of which the lines are counted.  An offset is always that of a character that
was found, or of the end of one, so the cut never faults, and it gives what the reading by
characters gives (`cutParse_eq`).
-/

namespace VectorWrap

namespace Text

/-! ### The parts of a list -/

/-- The pieces between the commas at top level, each cut out of `whole` when its end is seen: the
piece at hand begins at the byte `start`, and the byte `here` is the first that is left. -/
def cutPieces (whole : Text) (start : Nat) (depth : Int) (here : Nat) :
    Text → Except Fault (List Text)
  | [] => do
      let last ← fromByte start whole
      pure [last]
  | c :: r =>
      if c = ',' ∧ depth = 0 then do
        let piece ← slice start here whole
        let pieces ← cutPieces whole (here + 1) depth (here + c.utf8Size) r
        pure (piece :: pieces)
      else cutPieces whole start (depth + nesting c) (here + c.utf8Size) r

/-- The parts of a list, cut out of it by byte offsets. -/
def cutTopLevel (s : Text) : Except Fault (List Text) :=
  (cutPieces s 0 0 0 s).map fun ps => (ps.map trim).filter (!·.isEmpty)

/-- Every cut is made before a comma or behind one. -/
theorem cutPieces_eq {whole a b s : Text} {start here : Nat} (depth : Int)
    (hw : whole = a ++ (b ++ s)) (hs : start = byteLength a)
    (hh : here = byteLength a + byteLength b) :
    cutPieces whole start depth here s = .ok (glue b (topPieces depth s)) := by
  induction s generalizing a b start here depth with
  | nil =>
    rw [cutPieces, hw, hs, fromByte_byteLength]
    simp [topPieces, glue, bind, Except.bind, pure, Except.pure]
  | cons c s ih =>
    rw [cutPieces]
    split_ifs with h
    · obtain ⟨rfl, rfl⟩ := h
      have piece : slice start here whole = .ok b := by rw [hw, hs, hh, slice_append]
      have comma : here + 1 = byteLength (a ++ (b ++ [','])) := by
        simp [hh, byteLength_append, byteLength, Nat.add_assoc]
        rfl
      have pieces : cutPieces whole (here + 1) 0 (here + ','.utf8Size) s =
          .ok (glue [] (topPieces 0 s)) :=
        ih 0 (by simp [hw]) comma comma
      obtain ⟨t, ts, ht⟩ := List.exists_cons_of_ne_nil (topPieces_ne_nil 0 s)
      rw [piece, pieces]
      simp [topPieces, glue, ht, bind, Except.bind, pure, Except.pure]
    · have longer : here + c.utf8Size = byteLength a + byteLength (b ++ [c]) := by
        simp [hh, byteLength_append, byteLength, Nat.add_assoc]
      rw [ih (depth + nesting c) (by simp [hw]) hs longer, topPieces_cons h, glue_glue]

/-- **No list is cut inside a character.** -/
theorem cutTopLevel_eq (s : Text) : cutTopLevel s = .ok (splitTopLevel s) := by
  have pieces : cutPieces s 0 0 0 s = .ok (glue [] (topPieces 0 s)) := by
    exact cutPieces_eq (a := []) (b := []) 0 rfl rfl rfl
  obtain ⟨t, ts, ht⟩ := List.exists_cons_of_ne_nil (topPieces_ne_nil 0 s)
  rw [cutTopLevel, pieces, splitTopLevel, ht]
  rfl

/-! ### Words of a small copy -/

/-- What follows a word of `part`: its small copy `low` is searched for one of `ws` after the
other, from the byte at which the last one ended, and `part` is cut where the word ends. -/
def cutAfterWord? (w part low : Text) (offset : Nat) : List Text → Except Fault (Option Text)
  | [] => .ok none
  | v :: ws => do
      let rest ← fromByte offset low
      match find? v rest with
      | none => pure none
      | some i =>
          let stop := offset + i + byteLength v
          if v = w then (fromByte stop part).map some
          else cutAfterWord? w part low stop ws

theorem lower_append (s t : Text) : lower (s ++ t) = lower s ++ lower t :=
  List.map_append

/-- A letter and its small form take one byte each, and no other character is changed. -/
theorem toLower_cases (c : Char) : c.toLower = c ∨
    (c.utf8Size = 1 ∧ isBlank c = false) ∧ c.toLower.utf8Size = 1 ∧ isBlank c.toLower = false := by
  have letters : ∀ n < 91, 65 ≤ n →
      ((Char.ofNat n).utf8Size = 1 ∧ isBlank (Char.ofNat n) = false) ∧
        (Char.ofNat n).toLower.utf8Size = 1 ∧ isBlank (Char.ofNat n).toLower = false := by
    decide
  rw [Char.toLower]
  split_ifs with h
  · have low : 65 ≤ c.toNat := UInt32.le_iff_toNat_le.mp h.1
    have high : c.toNat ≤ 90 := UInt32.le_iff_toNat_le.mp h.2
    have := letters c.toNat (Nat.lt_succ_of_le high) low
    rw [Char.ofNat_toNat, Char.toLower, dif_pos h] at this
    exact .inr this
  · exact .inl rfl

/-- A letter of either case has as many bytes, so offsets in the lowered text are offsets in the
text. -/
theorem byteLength_lower (s : Text) : byteLength (lower s) = byteLength s := by
  induction s with
  | nil => rfl
  | cons c s ih =>
    have hc : c.toLower.utf8Size = c.utf8Size := by
      rcases toLower_cases c with h | ⟨h, h', -⟩
      · rw [h]
      · rw [h.1, h']
    rw [lower, List.map_cons, byteLength, byteLength, hc, ← lower, ih]

theorem isBlank_toLower (c : Char) : isBlank c.toLower = isBlank c := by
  rcases toLower_cases c with h | ⟨h, -, h'⟩
  · rw [h]
  · rw [h.2, h']

/-- What is blank, or not, is so in the lowered text. -/
theorem isBlank_of_mem_lower {s : Text} {b : Bool} (h : ∀ c ∈ s, isBlank c = b) :
    ∀ c ∈ lower s, isBlank c = b := by
  intro c hc
  obtain ⟨d, hd, rfl⟩ := List.mem_map.mp hc
  rw [isBlank_toLower, h d hd]

/-- Blanks, a word, and what ends it: where the next word of a text is found. -/
structure Splits (a v r : Text) : Prop where
  blank : ∀ c ∈ a, isBlank c = true
  ne_nil : v ≠ []
  not_blank : ∀ c ∈ v, isBlank c = false
  ends : ∀ c, r.head? = some c → isBlank c = true

/-- The next word divides the text. -/
theorem splits_of_nextWord? {s v r : Text} (h : nextWord? s = some (v, r)) :
    ∃ a, s = a ++ (v ++ r) ∧ Splits a v r := by
  have first := List.head?_dropWhile_not isBlank s
  unfold nextWord? at h
  split at h
  · cases h
  · next c t e =>
    cases h
    have hc : isBlank c = false := by simpa [e] using first
    refine ⟨s.takeWhile isBlank, ?_, fun d hd => List.mem_takeWhile_imp hd, ?_, fun d hd => ?_,
      fun d hd => ?_⟩
    · rw [List.takeWhile_append_dropWhile, ← e, List.takeWhile_append_dropWhile]
    · simp [hc]
    · simpa using List.mem_takeWhile_imp hd
    · simpa [hd] using List.head?_dropWhile_not (!isBlank ·) (c :: t)

/-- Without a next word there are blanks only. -/
theorem blank_of_nextWord? {s : Text} (h : nextWord? s = none) : ∀ c ∈ s, isBlank c = true := by
  unfold nextWord? at h
  split at h
  · next e => exact List.dropWhile_eq_nil_iff.mp e
  · cases h

namespace Splits

variable {a v r : Text}

/-- A division at a word is one of the lowered text. -/
theorem lower (h : Splits a v r) : Splits (lower a) (lower v) (lower r) where
  blank := isBlank_of_mem_lower h.blank
  ne_nil := by simpa [Text.lower] using h.ne_nil
  not_blank := isBlank_of_mem_lower h.not_blank
  ends c hc := by
    obtain ⟨d, hd, rfl⟩ : ∃ d, r.head? = some d ∧ d.toLower = c := by
      simpa [Text.lower] using hc
    rw [isBlank_toLower, h.ends d hd]

/-- A word that divides a text is its first word. -/
theorem words (h : Splits a v r) : words (a ++ (v ++ r)) = v :: words r := by
  obtain ⟨ha, hv, hn, hr⟩ := h
  induction a with
  | nil =>
    cases r with
    | nil =>
      rw [List.append_nil, List.nil_append, words_of_not_blank hv hn]
      rfl
    | cons c r => rw [List.nil_append, words_append hv hn (hr c rfl), words_blank (hr c rfl)]
  | cons c a ih =>
    obtain ⟨hc, ha⟩ := List.forall_mem_cons.mp ha
    rw [List.cons_append, words_blank hc, ih ha]

/-- The word is found behind the blanks. -/
theorem find? (h : Splits a v r) : find? v (a ++ (v ++ r)) = some (byteLength a) := by
  obtain ⟨c, v, rfl⟩ := List.exists_cons_of_ne_nil h.ne_nil
  have hc : isBlank c = false := h.not_blank c List.mem_cons_self
  have apart : c ∉ a := by
    intro hm
    rw [h.blank c hm] at hc
    cases hc
  exact find?_append apart v r

end Splits

/-- The copy is as long as the original, so the bytes at which its words end are the ends of words
there too. -/
theorem cutAfterWord?_eq {w : Text} (hw : lower w = w) (a s : Text) :
    cutAfterWord? w (a ++ s) (lower (a ++ s)) (byteLength a) (words (lower s)) =
      .ok (afterWord? w s) := by
  induction hn : s.length using Nat.strong_induction_on generalizing a s with
  | _ n ih =>
    cases h : nextWord? s with
    | none =>
      rw [words_of_blank (isBlank_of_mem_lower (blank_of_nextWord? h)), afterWord?_of_none h,
        cutAfterWord?]
    | some p =>
      obtain ⟨v, r⟩ := p
      obtain ⟨b, rfl, hs⟩ := splits_of_nextWord? h
      have rest : fromByte (byteLength a) (lower (a ++ (b ++ (v ++ r)))) =
          .ok (lower b ++ (lower v ++ lower r)) := by
        rw [lower_append, ← byteLength_lower a, fromByte_byteLength, lower_append, lower_append]
      have stop : byteLength a + byteLength (lower b) + byteLength (lower v) =
          byteLength (a ++ (b ++ v)) := by
        rw [byteLength_lower, byteLength_lower, byteLength_append, byteLength_append,
          Nat.add_assoc]
      have text : a ++ (b ++ (v ++ r)) = a ++ (b ++ v) ++ r := by simp
      have same : sameLetters v w = true ↔ lower v = w := by rw [sameLetters, hw, beq_iff_eq]
      rw [lower_append b, lower_append v, hs.lower.words, cutAfterWord?, rest,
        afterWord?_of_some h]
      simp only [bind, Except.bind, hs.lower.find?, stop, same]
      split_ifs
      · rw [text, fromByte_byteLength]
        rfl
      · rw [text]
        exact ih r.length (hn ▸ length_nextWord? h) _ r rfl

end Text

namespace Param

/-- The default of a part, cut out of it by byte offsets. -/
def cutDefault? (part : Text) : Except Fault (Option Text) :=
  match Text.cut? '=' part with
  | some (_, value) => pure (some (Text.trim value))
  | none => do
      let low := Text.lower part
      let rest ← Text.cutAfterWord? "default" part low 0 (Text.words low)
      pure (rest.map Text.trim)

/-- A default is cut out of a part as it is read there. -/
theorem cutDefault?_eq (part : Text) : cutDefault? part = .ok (default? part) := by
  unfold cutDefault? default?
  cases Text.cut? '=' part with
  | some _ => rfl
  | none =>
    have := Text.cutAfterWord?_eq (w := "default") (by decide) [] part
    rw [List.nil_append, Text.byteLength] at this
    simp only [this]
    rfl

/-- The parameters and the defaults of the parts, every default cut out by byte offsets; `k`
parameters come before them. -/
def cutParts (k : Nat) : List Text → Except Fault (List Param × List Text)
  | [] => pure ([], [])
  | part :: parts => do
      match ← cutDefault? part with
      | some value =>
          let (ps, ds) ← cutParts k parts
          pure (ps, value :: ds)
      | none =>
          match ofPart? k part with
          | none => cutParts k parts
          | some p =>
              let (ps, ds) ← cutParts (k + 1) parts
              pure (p :: ps, ds)

/-- All parts are cut as they are read. -/
theorem cutParts_eq (k : Nat) (parts : List Text) : cutParts k parts = .ok (ofParts k parts) := by
  induction parts generalizing k with
  | nil => rfl
  | cons part parts ih =>
    rw [cutParts, ofParts, cutDefault?_eq]
    simp only [bind, Except.bind]
    cases default? part with
    | some value => simp only [ih]; rfl
    | none =>
      cases ofPart? k part with
      | none => simp only [ih]
      | some p => simp only [ih]; rfl

/-- The parameters and the defaults of a list, cut out of it by byte offsets. -/
def cutList (s : Text) : Except Fault (List Param × List Text) := do
  cutParts 0 (← Text.cutTopLevel s)

theorem cutList_eq (s : Text) : cutList s = .ok (parseList s) := by
  rw [cutList, Text.cutTopLevel_eq, parseList, ← cutParts_eq]
  rfl

end Param

namespace Script

/-- What is left where a statement begins is left of the script. -/
theorem here_suffix {source : Text} {f : Found Statement} (hf : f ∈ statements source) :
    f.here <:+ source :=
  Scan.suffix_of_mem_sweep Statement.closed_form.suffix Statement.suffix_gap hf

/-- The line of a statement, found from the byte at which it begins. -/
theorem lineAt_start {source : Text} {f : Found Statement} (hf : f ∈ statements source)
    (file : Option Nat) :
    Text.lineAt source (f.span file source).start = .ok (lineOf source f) := by
  obtain ⟨a, ha⟩ := here_suffix hf
  have start : (f.span file source).start = Text.byteLength a := by
    show Text.byteLength source - Text.byteLength f.here = _
    rw [← ha, Text.byteLength_append, Nat.add_sub_cancel]
  rw [Text.lineAt, start, lineOf, ← ha, Text.takeBytes_append, Text.upTo_append_self]
  rfl

/-- The section mark of a statement, its line found from the byte at which it begins. -/
def cutMark? (source : Text) (f : Found Statement) : Except Fault (Option SectionMark) :=
  match f.value with
  | .mark label => do
      let line ← Text.lineAt source (f.span none source).start
      pure (some ⟨label, line⟩)
  | _ => pure none

/-- The line of a mark is found by its offset. -/
theorem cutMark?_eq {source : Text} {f : Found Statement} (hf : f ∈ statements source) :
    cutMark? source f = .ok (mark? source f) := by
  unfold cutMark? mark?
  cases f.value with
  | mark label =>
    simp only [lineAt_start hf]
    rfl
  | _ => rfl

/-- The declaration of a statement, its parameters and its line found by byte offsets. -/
def cutDeclaration? (file : Option Nat) (source : Text) (marks : List SectionMark)
    (casts : List Cast) (operators : List Operator) (f : Found Statement) :
    Except Fault (Option Declaration) :=
  match f.value with
  | .function name paramText returnType quoted =>
      let symbol := Text.trim quoted
      if symbol.isEmpty then pure none
      else do
        let (params, defaults) ← Param.cutList paramText
        let line ← Text.lineAt source (f.span file source).start
        let category := categoryAt marks line
        pure (some {
          name, returnType, params, defaults, symbol, category, line
          definition := f.text
          isOperator := Category.isOperator category
          isAggregate := Category.isAggregate category
          isCast := isCast casts name symbol params
          operator? := operatorOf? operators name params
          span := f.span file source })
  | _ => pure none

/-- A declaration is cut as it is read. -/
theorem cutDeclaration?_eq {file : Option Nat} {source : Text} {marks : List SectionMark}
    {casts : List Cast} {operators : List Operator} {f : Found Statement}
    (hf : f ∈ statements source) : cutDeclaration? file source marks casts operators f =
      .ok (declaration? file source marks casts operators f) := by
  unfold cutDeclaration? declaration?
  cases f.value with
  | function name paramText returnType quoted =>
    simp only [Param.cutList_eq, lineAt_start hf, bind, Except.bind]
    split_ifs <;> rfl
  | _ => rfl

/-- What a script declares, everything that is cut out of it cut by byte offsets. -/
def cutParse (file : Option Nat) (source : Text) : Except Fault Script := do
  let found := statements source
  let casts := found.filterMap cast?
  let operators := found.filterMap operator?
  let marks ← found.mapM (cutMark? source)
  let declarations ← found.mapM
    (cutDeclaration? file source marks.reduceOption casts operators)
  pure {
    declarations := declarations.reduceOption
    marks := marks.reduceOption
    casts, operators
    types := found.filterMap type? }

/-- **The byte offsets of a script fall between characters, all of them.** -/
theorem cutParse_eq (file : Option Nat) (source : Text) :
    cutParse file source = .ok (parse file source) := by
  rw [cutParse, parse]
  simp only [mapM_of_ok fun f hf => cutMark?_eq hf, mapM_of_ok fun f hf => cutDeclaration?_eq hf,
    bind, Except.bind, pure, Except.pure, List.reduceOption, List.filterMap_map, Function.id_comp]

end Script

end VectorWrap
