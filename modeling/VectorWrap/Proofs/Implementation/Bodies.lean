import VectorWrap.Proofs.Implementation.Ascii
import VectorWrap.Proofs.Implementation.LineComment
import VectorWrap.Proofs.Scan.Written

/-!
# Bodies end at their own brace

`IsBody` says what may stand between the braces of a function: characters of code, comments and
literals that end, and bodies in braces.  Whatever braces, quotes or openings of comments stand
inside its comments and literals, such a text is passed over as a whole (`closeBody?_append`, by
induction on how the text is made), so that the brace after it is the one that closes it.

A source that exports and defines functions one after the other is therefore swept into its exports
and definitions.

A body is what its definition says and no more is asked of it: that its comments and literals end,
since otherwise they would go on beyond the brace.  What the body means is not looked at; it is
taken over as it is written but for the layout in front.
-/

namespace VectorWrap
open Scan

/-! ### Bodies -/

/-- What follows the opening `quote` of a literal, to its end: the first `quote` that no backslash
escapes. -/
inductive Quoted (quote : Char) : Text → Prop where
  | close : Quoted quote [quote]
  | escaped {c : Char} {s : Text} (hs : Quoted quote s) : Quoted quote ('\\' :: c :: s)
  | char {c : Char} {s : Text} (hq : c ≠ quote) (he : c ≠ '\\') (hs : Quoted quote s) :
      Quoted quote (c :: s)

/-- The text of a body: every comment and literal in it ends in it, and the braces outside of them
are balanced. -/
inductive IsBody : Text → Prop where
  | nil : IsBody []
  | char {c : Char} {s : Text} (hb : Line.isBrace c = false) (hq : isQuote c = false)
      (ho : ¬ opensComment c s) (hs : IsBody s) : IsBody (c :: s)
  | block {a s : Text} (ha : ¬ "*/".toList <:+: a ++ ['*']) (hs : IsBody s) :
      IsBody ('/' :: '*' :: (a ++ ('*' :: '/' :: s)))
  | line {a s : Text} {c : Char} (ha : ∀ d ∈ a, isLineBreak d = false)
      (hc : isLineBreak c = true) (hs : IsBody s) : IsBody ('/' :: '/' :: (a ++ c :: s))
  | literal {q : Char} {a s : Text} (hq : isQuote q = true) (ha : Quoted q a) (hs : IsBody s) :
      IsBody (q :: (a ++ s))
  | group {a s : Text} (ha : IsBody a) (hs : IsBody s) : IsBody ('\x7b' :: (a ++ '\x7d' :: s))

/-- A body may lose the layout in front. -/
theorem IsBody.dropWhile_layout {s : Text} (h : IsBody s) :
    IsBody (s.dropWhile Text.isLayout) := by
  induction h with
  | nil => exact .nil
  | @char c s hb hq ho hs ih =>
    by_cases hc : Text.isLayout c = true
    · rwa [List.dropWhile_cons_of_pos hc]
    · rw [List.dropWhile_cons_of_neg hc]
      exact .char hb hq ho hs
  | block ha hs => exact .block ha hs
  | line ha hc hs => exact .line ha hc hs
  | @literal q a s hq ha hs =>
    rw [List.dropWhile_cons_of_neg (Bool.eq_false_iff.mp (not_isLayout_of_isQuote hq))]
    exact .literal hq ha hs
  | group ha hs => exact .group ha hs

/-- Begins neither a comment nor a literal, and is no brace. -/
def isPlain (c : Char) : Bool :=
  !Line.isBrace c && !isQuote c && c != '/'

/-- Plain characters may stand before a body. -/
theorem IsBody.append_plain {a s : Text} (ha : a.all isPlain = true) (hs : IsBody s) :
    IsBody (a ++ s) := by
  induction a with
  | nil => exact hs
  | cons c a ih =>
    rw [List.all_cons, Bool.and_eq_true] at ha
    have plain : Line.isBrace c = false ∧ isQuote c = false ∧ c ≠ '/' := by
      simpa [isPlain, and_assoc] using ha.1
    exact .char plain.1 plain.2.1 (fun ho => plain.2.2 ho.1) (ih ha.2)

/-! ### Comments and literals are passed over -/

/-- A literal is passed up to the quote that closes it. -/
theorem closeQuote?_append {q : Char} {a : Text} (h : Quoted q a) (hq : q ≠ '\\') (s : Text) :
    closeQuote? .exact q false (a ++ s) = some s := by
  induction h with
  | close => simp [closeQuote?]
  | @escaped c a _ ih =>
    have spacing : (Spacing.exact == .free) = false := rfl
    simpa [closeQuote?, Ne.symm hq, spacing] using ih
  | @char c a hc he _ ih => simpa [closeQuote?, hc, beq_false_of_ne he] using ih

/-- A line comment is passed up to its line feed. -/
theorem trivia_line {a : Text} {c : Char} (ha : ∀ d ∈ a, isLineBreak d = false)
    (hc : isLineBreak c = true) (s : Text) :
    trivia .exact ('/' :: '/' :: (a ++ c :: s)) = some ((), c :: s) := by
  have hb : blockComment ('/' :: '/' :: (a ++ c :: s)) = none := blockComment_of_ne (by simp)
  have ha' : ∀ d ∈ a, (!isLineBreak d) = true := fun d hd => by simp [ha d hd]
  have hs : ∀ d, (c :: s).head? = some d → (!isLineBreak d) = false := fun d hd => by
    cases hd
    simp [hc]
  rw [trivia, orElse_of_none hb]
  refine orElse_of_some (bind_eq_some.mpr ⟨(), _, exactly_eq_some.mpr rfl, ?_⟩)
  refine bind_eq_some.mpr ⟨a, c :: s, run_eq_some.mpr ⟨?_, ?_⟩, rfl⟩
  · exact Text.takeWhile_append_of_head ha' hs
  · exact Text.dropWhile_append_of_head ha' hs

namespace NativeSource

/-! ### Steps through a body -/

theorem closeBody?_open (d : Nat) (s : Text) :
    closeBody? d ('\x7b' :: s) = closeBody? (d + 1) s := by
  rw [closeBody?.eq_def]
  rfl

theorem closeBody?_close_succ (d : Nat) (s : Text) :
    closeBody? (d + 1) ('\x7d' :: s) = closeBody? d s := by
  rw [closeBody?.eq_def]
  rfl

theorem closeBody?_close (s : Text) : closeBody? 0 ('\x7d' :: s) = some s := by
  rw [closeBody?.eq_def]
  rfl

/-- A comment or a literal is passed on the way to the brace. -/
theorem closeBody?_trivia {c : Char} {s r : Text} (hb : Line.isBrace c = false)
    (h : trivia .exact (c :: s) = some ((), r)) (hr : r.length < (c :: s).length) (d : Nat) :
    closeBody? d (c :: s) = closeBody? d r := by
  simp only [Line.isBrace, Bool.or_eq_false_iff, beq_eq_false_iff_ne] at hb
  rw [closeBody?.eq_def]
  simp only [hb.1, hb.2, if_false, (progress_eq_some hr).mpr h]

/-- Any other character is passed on the way to the brace. -/
theorem closeBody?_char {c : Char} {s : Text} (hb : Line.isBrace c = false)
    (h : trivia .exact (c :: s) = none) (d : Nat) : closeBody? d (c :: s) = closeBody? d s := by
  simp only [Line.isBrace, Bool.or_eq_false_iff, beq_eq_false_iff_ne] at hb
  rw [closeBody?.eq_def]
  simp only [hb.1, hb.2, if_false, progress_of_none h]

/-- **A body is passed over as a whole** before the brace that follows it, at any depth. -/
theorem closeBody?_append {a : Text} (h : IsBody a) (d : Nat) (s : Text) :
    closeBody? d (a ++ '\x7d' :: s) = closeBody? d ('\x7d' :: s) := by
  induction h generalizing d s with
  | nil => rfl
  | @char c a hb hq ho _ ih =>
    -- the closing brace makes no comment of a slash before it
    have ho' : ¬ opensComment c (a ++ '\x7d' :: s) := by
      rintro ⟨rfl, h⟩
      cases a with
      | nil => simp at h
      | cons e a => exact ho ⟨rfl, h⟩
    rw [List.cons_append, closeBody?_char hb (trivia_eq_none hq ho'), ih]
  | @block a b ha _ ih =>
    have first : splitAt? "*/" (a ++ ('*' :: '/' :: (b ++ '\x7d' :: s))) =
        some (a, b ++ '\x7d' :: s) := splitAt?_append_self (by decide) ha _
    have h := trivia_block first .exact
    simp only [List.cons_append, List.append_assoc] at h ⊢
    rw [closeBody?_trivia (by decide) h
        (by simp only [List.length_cons, List.length_append]; omega),
      ih]
  | @line a b c ha hc _ ih =>
    have h := trivia_line ha hc (b ++ '\x7d' :: s)
    simp only [List.cons_append, List.append_assoc] at h ⊢
    have hb : Line.isBrace c = false ∧ isQuote c = false ∧ c ≠ '/' := by
      simp only [isLineBreak, Bool.or_eq_true, beq_iff_eq] at hc
      rcases hc with rfl | rfl <;> decide
    rw [closeBody?_trivia (by decide) h
        (by simp only [List.length_cons, List.length_append]; omega),
      closeBody?_char hb.1 (trivia_eq_none hb.2.1 fun ho => hb.2.2 ho.1), ih]
  | @literal q a b hq ha _ ih =>
    have quote : Line.isBrace q = false ∧ q ≠ '\\' := by
      simp only [isQuote, Bool.or_eq_true, beq_iff_eq] at hq
      rcases hq with rfl | rfl <;> decide
    have h := trivia_literal hq (closeQuote?_append ha quote.2 (b ++ '\x7d' :: s))
    simp only [List.cons_append, List.append_assoc] at h ⊢
    rw [closeBody?_trivia quote.1 h
        (by simp only [List.length_cons, List.length_append]; omega), ih]
  | @group a b _ _ iha ihb =>
    simp only [List.cons_append, List.append_assoc]
    rw [closeBody?_open, iha, closeBody?_close_succ, ihb]

/-! ### Items -/

/-- A function as a source has it: an export, then the head and the body, each with the layout that
follows it. -/
structure Function where
  name : Text
  body : Text
  afterExport : Text
  afterHead : Text
  afterBody : Text

namespace Function

/-- The export of the function. -/
def exportText (f : Function) : Text :=
  "PGDLLEXPORT Datum " ++ (f.name ++ "(PG_FUNCTION_ARGS);")

/-- The definition of the function. -/
def definition (f : Function) : Text :=
  "Datum " ++ (f.name ++ ("(PG_FUNCTION_ARGS)" ++ (f.afterHead ++ ('\x7b' :: (f.body ++ "\x7d")))))

/-- The export and the definition. -/
def text (f : Function) : Text :=
  f.exportText ++ f.afterExport ++ f.definition ++ f.afterBody

/-- The body without the layout at its beginning. -/
def content (f : Function) : Text :=
  f.body.dropWhile Text.isLayout

/-- The function has a name and a body, and nothing but layout after its parts. -/
structure Proper (f : Function) : Prop where
  name : Text.isName f.name = true
  body : IsBody f.body
  ascii : Text.Ascii f.body
  afterExport : ∀ c ∈ f.afterExport, Text.isLayout c = true
  afterHead : ∀ c ∈ f.afterHead, Text.isLayout c = true
  afterBody : ∀ c ∈ f.afterBody, Text.isLayout c = true

end Function

/-- A written export is read, whatever follows it. -/
theorem exportForm_append {name : Text} (h : Text.isName name = true) (s : Text) :
    exportForm ("PGDLLEXPORT Datum " ++ (name ++ ("(PG_FUNCTION_ARGS);" ++ s))) =
      some (.exported name, s) := by
  refine bind_eq_some.mpr ⟨(), " Datum ".toList ++ (name ++ ("(PG_FUNCTION_ARGS);" ++ s)), rfl, ?_⟩
  refine bind_eq_some.mpr ⟨(), ' ' :: (name ++ ("(PG_FUNCTION_ARGS);" ++ s)), rfl, ?_⟩
  refine bind_eq_some.mpr ⟨name, _, ident_before (l := [' ']) layout_space h rfl _, ?_⟩
  refine bind_eq_some.mpr ⟨(), ';' :: s, rfl, ?_⟩
  exact bind_eq_some.mpr ⟨(), s, rfl, rfl⟩

/-- A written body is read up to its own brace, whatever follows it. -/
theorem bodyForm_append {lay body : Text} (hl : ∀ c ∈ lay, Text.isLayout c = true)
    (h : IsBody body) (s : Text) :
    bodyForm (lay ++ '\x7b' :: (body ++ '\x7d' :: s)) =
      some (body.dropWhile Text.isLayout, s) := by
  have hd : (body ++ '\x7d' :: s).dropWhile Text.isLayout =
      body.dropWhile Text.isLayout ++ '\x7d' :: s := by
    rw [List.dropWhile_append]
    split
    · next he =>
      rw [List.isEmpty_iff.mp he]
      exact List.dropWhile_cons_of_neg (by decide)
    · rfl
  have hc : closeBody? 0 (body.dropWhile Text.isLayout ++ '\x7d' :: s) = some s := by
    rw [closeBody?_append h.dropWhile_layout, closeBody?_close]
  have hu : Text.upTo (body.dropWhile Text.isLayout ++ '\x7d' :: s) s =
      body.dropWhile Text.isLayout ++ ['\x7d'] := by
    have := Text.upTo_append_self (body.dropWhile Text.isLayout ++ ['\x7d']) s
    simpa using this
  refine bind_eq_some.mpr ⟨(), body ++ '\x7d' :: s, ?_, ?_⟩
  · exact symbol_append (w := ['\x7b']) hl (by decide) _
  refine bind_eq_some.mpr ⟨(), _, layout_eq_some.mpr hd, ?_⟩
  simp [hc, hu]

/-- A written definition is read with its body, whatever follows it. -/
theorem definitionForm_append {name lay body : Text} (hn : Text.isName name = true)
    (hl : ∀ c ∈ lay, Text.isLayout c = true) (h : IsBody body) (s : Text) :
    definitionForm ("Datum " ++ (name ++ ("(PG_FUNCTION_ARGS)" ++
      (lay ++ '\x7b' :: (body ++ '\x7d' :: s))))) =
      some (.defined name (body.dropWhile Text.isLayout), s) := by
  refine bind_eq_some.mpr ⟨(), _, rfl, ?_⟩
  refine bind_eq_some.mpr ⟨name, _, ident_before (l := [' ']) layout_space hn rfl _, ?_⟩
  refine bind_eq_some.mpr ⟨(), lay ++ '\x7b' :: (body ++ '\x7d' :: s), rfl, ?_⟩
  exact bind_eq_some.mpr ⟨_, s, bodyForm_append hl h s, rfl⟩

/-- The export of a function as a piece of the source. -/
def Function.exportPiece (f : Function) : Piece Item :=
  ⟨f.exportText, .exported f.name, f.afterExport⟩

/-- The definition of a function as a piece of the source. -/
def Function.definitionPiece (f : Function) : Piece Item :=
  ⟨f.definition, .defined f.name f.content, f.afterBody⟩

/-- The export of a function is a piece that is read. -/
theorem Function.Proper.read_export {f : Function} (h : f.Proper) :
    f.exportPiece.Read (exportForm <|> definitionForm) where
  head := rfl
  read s := by
    have read : exportForm (f.exportText ++ s) = some (.exported f.name, s) := by
      unfold exportText
      simp only [List.append_assoc]
      exact exportForm_append h.name s
    exact orElse_of_some read
  after := h.afterExport

/-- The definition of a function is a piece that is read. -/
theorem Function.Proper.read_definition {f : Function} (h : f.Proper) :
    f.definitionPiece.Read (exportForm <|> definitionForm) where
  head := rfl
  read s := by
    have text : f.definition ++ s = "Datum " ++ (f.name ++ ("(PG_FUNCTION_ARGS)" ++
        (f.afterHead ++ '\x7b' :: (f.body ++ '\x7d' :: s)))) := by
      unfold definition
      simp only [List.append_assoc, List.cons_append]
      rfl
    have other : exportForm (f.definition ++ s) = none := by
      rw [text]
      exact bind_of_none rfl
    have read : definitionForm (f.definition ++ s) = some (.defined f.name f.content, s) := by
      rw [text]
      exact definitionForm_append h.name h.afterHead h.body s
    exact (orElse_of_none other).trans read
  after := h.afterBody

/-- The pieces of a function. -/
def Function.pieces (f : Function) : List (Piece Item) :=
  [f.exportPiece, f.definitionPiece]

/-- The items of a written source are its exports and definitions. -/
theorem items_text {fs : List Function} (h : ∀ f ∈ fs, f.Proper) :
    items (fs.flatMap Function.text) = Piece.found (fs.flatMap Function.pieces) := by
  have written : fs.flatMap Function.text = Piece.written (fs.flatMap Function.pieces) := by
    simp only [Piece.written, List.flatMap_assoc]
    refine List.flatMap_congr fun f _ => ?_
    simp [Function.text, Function.pieces, Function.exportPiece, Function.definitionPiece]
  rw [written]
  refine sweep_written fun p hp => ?_
  obtain ⟨f, hf, hp⟩ := List.mem_flatMap.mp hp
  rcases List.mem_pair.mp hp with rfl | rfl
  · exact (h f hf).read_export
  · exact (h f hf).read_definition

/-! ### Functions -/

/-- The symbol that an item exports. -/
def Item.export? : Item → Option Text
  | .exported name => some name
  | .defined .. => none

/-- The body that an item gives to a symbol. -/
def Item.body? (symbol : Text) : Item → Option Text
  | .exported _ => none
  | .defined name body => if name = symbol then some body else none

/-- The values of the items of a source that is made of functions. -/
theorem values_text {fs : List Function} (h : ∀ f ∈ fs, f.Proper) :
    (items (fs.flatMap Function.text)).map Found.value =
      fs.flatMap fun f => [.exported f.name, .defined f.name f.content] := by
  rw [items_text h, Piece.map_value_found, List.map_flatMap]
  rfl

/-- The exports of a written source are the names of its functions. -/
theorem exports_text {fs : List Function} (h : ∀ f ∈ fs, f.Proper) :
    exports (fs.flatMap Function.text) = fs.map Function.name := by
  have values : exports (fs.flatMap Function.text) =
      ((items (fs.flatMap Function.text)).map Found.value).filterMap Item.export? := by
    rw [List.filterMap_map]
    rfl
  rw [values, values_text h, List.filterMap_flatMap, List.map_eq_flatMap]
  rfl

/-- Of functions with different names each is the first of its name. -/
theorem findSome?_body {fs : List Function} (distinct : (fs.map Function.name).Nodup)
    {f : Function} (hf : f ∈ fs) :
    (fs.flatMap fun g => [Item.exported g.name, .defined g.name g.content]).findSome?
      (Item.body? f.name) = some f.content := by
  induction fs with
  | nil => cases hf
  | cons g gs ih =>
    rw [List.map_cons, List.nodup_cons] at distinct
    rcases List.mem_cons.mp hf with rfl | hf
    · simp [List.findSome?_cons, Item.body?]
    · have other : g.name ≠ f.name := fun e => distinct.1 (e ▸ List.mem_map_of_mem hf)
      simpa [List.findSome?_cons, Item.body?, other] using ih distinct.2 hf

/-- Each name is given the body that its function was written with. -/
theorem lookup?_text {fs : List Function} (h : ∀ f ∈ fs, f.Proper)
    (distinct : (fs.map Function.name).Nodup) (file : Option Nat) {f : Function} (hf : f ∈ fs) :
    ∃ span, lookup? file (fs.flatMap Function.text) f.name = some (f.content, span) := by
  have values : (lookup? file (fs.flatMap Function.text) f.name).map Prod.fst =
      ((items (fs.flatMap Function.text)).map Found.value).findSome? (Item.body? f.name) := by
    rw [lookup?, List.map_findSome?, List.findSome?_map]
    congr 1
    funext x
    cases e : x.value with
    | exported name => simp [bodyOf?, e, Item.body?]
    | defined name body => by_cases hn : name = f.name <;> simp [bodyOf?, e, Item.body?, hn]
  rw [values_text h, findSome?_body distinct hf] at values
  obtain ⟨⟨body, span⟩, hl, rfl⟩ := Option.map_eq_some_iff.mp values
  exact ⟨span, hl⟩

/-- Symbols that have readable bodies all become functions. -/
theorem exists_foldlM_collect {find : Text → Option (Text × Span)} {fs : List Function}
    (h : ∀ f ∈ fs, Text.Ascii f.content ∧ ∃ span, find f.name = some (f.content, span))
    (acc : NativeSource) : ∃ s, (fs.map Function.name).foldlM (collect find) acc = .ok s
      ∧ s.functions.map (fun n => (n.symbol, n.body)) =
        acc.functions.map (fun n => (n.symbol, n.body)) ++ fs.map (fun f => (f.name, f.content))
      ∧ s.dropped = acc.dropped := by
  induction fs generalizing acc with
  | nil => exact ⟨acc, rfl, by simp, rfl⟩
  | cons f fs ih =>
    obtain ⟨ascii, span, found⟩ := h f List.mem_cons_self
    obtain ⟨n, hn, symbol, body⟩ := Implementation.exists_ofBody ascii f.name span
    have step : collect find acc f.name = .ok { acc with functions := acc.functions ++ [n] } := by
      simp only [collect, found, hn]
      rfl
    obtain ⟨s, hs, functions, dropped⟩ := ih (fun g hg => h g (List.mem_cons_of_mem f hg))
      { acc with functions := acc.functions ++ [n] }
    refine ⟨s, ?_, ?_, dropped⟩
    · rw [List.map_cons, List.foldlM_cons, step]
      exact hs
    · rw [functions, List.map_append, List.append_assoc, List.map_singleton, List.map_cons, symbol,
        body]
      rfl

/-- **Bodies are extracted exactly.**  A source that exports and defines functions of different
names one after the other gives these functions, in order, each with its body but for the layout at
the beginning of that, and drops none. -/
theorem parse_text (file : Option Nat) {fs : List Function} (h : ∀ f ∈ fs, f.Proper)
    (distinct : (fs.map Function.name).Nodup) :
    ∃ s, parse file (fs.flatMap Function.text) = .ok s
      ∧ s.functions.map (fun n => (n.symbol, n.body)) =
        fs.map (fun f => (f.name, f.body.dropWhile Text.isLayout))
      ∧ s.dropped = [] := by
  rw [parse_eq, exports_text h]
  refine exists_foldlM_collect (fun f hf => ⟨?_, lookup?_text h distinct file hf⟩) {}
  exact (h f hf).ascii.of_subset (List.dropWhile_subset _)

/-- A body with braces and quotes in comments and literals, and a block. -/
def braces : Text :=
  "\n  /* \x7d */ s = \"\x7d\"; // \x7b \"\n  \x7b t = '\\''; \x7d\n"

/-- Braces in comments and literals leave a body one. -/
theorem isBody_braces : IsBody braces := by
  have inner : IsBody (" t = ".toList ++ '\'' :: ("\\''".toList ++ ("; ".toList ++ []))) :=
    .append_plain (by decide) (.literal rfl (.escaped .close) (.append_plain (by decide) .nil))
  have last : IsBody ("  ".toList ++ '\x7b' :: ((" t = ".toList ++ '\'' :: ("\\''".toList ++
      ("; ".toList ++ []))) ++ '\x7d' :: ("\n".toList ++ []))) :=
    .append_plain (by decide) (.group inner (.append_plain (by decide) .nil))
  have first : IsBody ("\n  ".toList ++ '/' :: '*' :: (" \x7d ".toList ++ '*' :: '/' ::
      (" s = ".toList ++ '"' :: ("\x7d\"".toList ++ ("; ".toList ++ '/' :: '/' ::
      (" \x7b \"".toList ++ '\n' :: _)))))) :=
    .append_plain (by decide) (.block (by decide) (.append_plain (by decide)
      (.literal rfl (.char (by decide) (by decide) .close) (.append_plain (by decide)
      (.line (by simp [isLineBreak]) rfl last)))))
  exact first

/-- The theorem for two functions, of which one has that body. -/
theorem parse_text_of_braces :
    ∃ s, parse none ([⟨"f", braces, "\n", "\n", "\n\n"⟩, ⟨"g", [], "\n", " ", "\n"⟩].flatMap
        Function.text) = .ok s
      ∧ s.functions.map (fun n => (n.symbol, n.body)) =
        [("f".toList, braces.dropWhile Text.isLayout), ("g".toList, [])]
      ∧ s.dropped = [] := by
  refine parse_text none (fun f hf => ?_) (by decide)
  have layout : ∀ lay : Text, lay.all Text.isLayout = true → ∀ c ∈ lay, Text.isLayout c = true :=
    fun _ h => List.all_eq_true.mp h
  rcases List.mem_pair.mp hf with rfl | rfl
  · exact ⟨rfl, isBody_braces, by decide, layout _ rfl, layout _ rfl, layout _ rfl⟩
  · exact ⟨rfl, .nil, by decide, layout _ rfl, layout _ rfl, layout _ rfl⟩

end NativeSource

end VectorWrap
