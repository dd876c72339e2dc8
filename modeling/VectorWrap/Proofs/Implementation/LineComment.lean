import VectorWrap.Implementation.Source
import VectorWrap.Proofs.Declaration.LineComment
import VectorWrap.Proofs.Implementation.Shapes

/-!
# Line comments in a native source

Between the items of a C source a line comment takes the rest of the source with it too.

* `parse_line_comment`: what follows complete items and a line comment is not there.
* `sameReport_line_comment_iff`: so the comment is harmless exactly where what follows it exports
  nothing and defines nothing that was exported before it in vain.

`line_comment_iff` puts both kinds of file together.

What is missing in between is only seen where it is asked for.  A definition behind the comment
counts for an export before it whose body was not found (`Defines`), since each export takes the
first definition of its name; and a body that is found keeps its place, so that the spans of what
stands before the comment do not change.
-/

namespace VectorWrap

namespace NativeSource
open Scan

/-- An export declaration or a function definition that nothing after it can become part of: all
comments and literals in its body are closed. -/
def Complete (w : Text) : Prop :=
  ∃ v, ∀ t, (exportForm <|> definitionForm) (w ++ t) = some (v, t)

/-! ### The items that are found -/

theorem exactWord_slash {w : Text} (hw : w ≠ []) (s : Text) : exactWord w ('/' :: s) = none := by
  rw [Option.eq_none_iff_forall_ne_some]
  rintro ⟨_, x⟩ hx
  obtain ⟨_, _, h₁, h₂⟩ := bind_eq_some.mp hx
  obtain rfl := layout_eq_some.mp h₁
  obtain ⟨_, _, h₃, h₄⟩ := bind_eq_some.mp h₂
  obtain ⟨h₅, -⟩ := run_eq_some.mp h₃
  exact hw ((guard_eq_some.mp h₄).1.symm.trans h₅.symm)

theorem item_slash (s : Text) : (exportForm <|> definitionForm) ('/' :: s) = none := by
  have he : exportForm ('/' :: s) = none := bind_of_none (exactWord_slash (by decide) s)
  have hd : definitionForm ('/' :: s) = none := bind_of_none (exactWord_slash (by decide) s)
  rw [orElse_of_none he, hd]

/-- Behind complete items the rest is read on its own, each item with the text behind it. -/
theorem items_append {a : Text} (ha : Composed Complete a) (t : Text) :
    items (a ++ t) = (items a).map (Found.extend t) ++ items t :=
  sweep_append id ha t

/-- Nothing is found in a line comment or after it. -/
theorem items_line_comment (s : Text) : items ('\n' :: '/' :: '/' :: s) = [] := by
  rw [items, sweep_layout (by decide), sweep_gap (by decide) (item_slash _) (codeGap_line s)
    (by simp), sweep_nil]

theorem items_blank_line (s : Text) : items ('\n' :: '\n' :: s) = items s := by
  rw [items, sweep_layout (by decide), sweep_layout (by decide)]
  rfl

@[simp]
theorem exported?_extend (t : Text) : exported? ∘ Found.extend t = exported? := rfl

@[simp]
theorem bodyOf?_extend (file : Option Nat) (a t symbol : Text) :
    bodyOf? file (a ++ t) symbol ∘ Found.extend t = bodyOf? file a symbol := by
  funext f
  simp only [Function.comp, bodyOf?, Found.value_extend, Found.span_extend]

/-! ### Exports and their bodies -/

/-- The symbols that a source exports, in order. -/
def exports (source : Text) : List Text :=
  (items source).filterMap exported?

/-- The body that a source gives to a symbol, with where its definition stands. -/
def lookup? (file : Option Nat) (source symbol : Text) : Option (Text × Span) :=
  (items source).findSome? (bodyOf? file source symbol)

/-- The source defines a function of that name. -/
def Defines (source symbol : Text) : Prop :=
  ∃ f ∈ items source, ∃ body, f.value = .defined symbol body

/-- The step of `parse`: one exported symbol, with what is found of it. -/
def collect (find : Text → Option (Text × Span)) (acc : NativeSource) (symbol : Text) :
    Except Fault NativeSource :=
  match find symbol with
  | some (body, span) => do
      let n ← Implementation.ofBody symbol body span
      pure { acc with functions := acc.functions ++ [n] }
  | none => pure { acc with dropped := acc.dropped ++ [symbol] }

theorem parse_eq (file : Option Nat) (source : Text) :
    parse file source = (exports source).foldlM (collect (lookup? file source)) {} := rfl

theorem bodyOf?_eq_none {file : Option Nat} {source symbol : Text} {f : Found Item} :
    bodyOf? file source symbol f = none ↔ ∀ body, f.value ≠ .defined symbol body := by
  unfold bodyOf?
  split
  · next name body e =>
    by_cases h : name = symbol
    · simp [e, h]
    · simp [e, h]
  · next e => simp [e]

theorem findSome?_bodyOf?_eq_none {file : Option Nat} {source s symbol : Text} :
    (items s).findSome? (bodyOf? file source symbol) = none ↔ ¬ Defines s symbol := by
  simp only [List.findSome?_eq_none_iff, bodyOf?_eq_none, Defines, not_exists, not_and]

/-- A symbol is looked up in the first part, and then in the second. -/
theorem lookup?_append {file : Option Nat} {a b : Text} (ha : Composed Complete a)
    (symbol : Text) : lookup? file (a ++ '\n' :: '\n' :: b) symbol =
      (lookup? file a symbol).or
        ((items b).findSome? (bodyOf? file (a ++ '\n' :: '\n' :: b) symbol)) := by
  rw [lookup?, items_append ha, items_blank_line, List.findSome?_append, List.findSome?_map,
    bodyOf?_extend, lookup?]

theorem exports_append {a : Text} (ha : Composed Complete a) (b : Text) :
    exports (a ++ '\n' :: '\n' :: b) = exports a ++ exports b := by
  rw [exports, items_append ha, items_blank_line, List.filterMap_append, List.filterMap_map,
    exported?_extend, exports, exports]

/-- **A line comment between items ends the source.** -/
theorem parse_line_comment (file : Option Nat) {a : Text} (ha : Composed Complete a) (s : Text) :
    parse file (a ++ '\n' :: '/' :: '/' :: s) = parse file a := by
  have hl : lookup? file (a ++ '\n' :: '/' :: '/' :: s) = lookup? file a := by
    funext symbol
    rw [lookup?, items_append ha, items_line_comment, List.append_nil, List.findSome?_map,
      bodyOf?_extend, lookup?]
  rw [parse_eq, parse_eq, hl, exports, items_append ha, items_line_comment, List.append_nil,
    List.filterMap_map, exported?_extend, exports]

/-! ### What becomes of the exports -/

/-- A symbol is dropped, or becomes the function that is read from its body. -/
theorem collect_cases {find : Text → Option (Text × Span)} {acc s : NativeSource} {symbol : Text}
    (h : collect find acc symbol = .ok s) :
    find symbol = none ∧ s = { acc with dropped := acc.dropped ++ [symbol] } ∨
      ∃ n, find symbol = some (n.body, n.span) ∧ n.symbol = symbol ∧
        s = { acc with functions := acc.functions ++ [n] } := by
  unfold collect at h
  split at h
  · next body span e =>
    obtain ⟨n, hn, h⟩ := bind_eq_ok.mp h
    obtain ⟨_, -, rfl⟩ := Implementation.exists_of_ofBody hn
    cases h
    exact .inr ⟨_, e, rfl, rfl⟩
  · next e =>
    cases h
    exact .inl ⟨e, rfl⟩

/-- An exported symbol with a body becomes a function, any other is dropped. -/
theorem collected {find : Text → Option (Text × Span)} {symbols : List Text}
    {acc s : NativeSource} (h : symbols.foldlM (collect find) acc = .ok s) :
    s.functions.map (·.symbol) =
        acc.functions.map (·.symbol) ++ symbols.filter (fun x => (find x).isSome) ∧
      s.dropped = acc.dropped ++ symbols.filter fun x => (find x).isNone := by
  induction symbols generalizing acc with
  | nil =>
    cases h
    simp
  | cons x xs ih =>
    rw [List.foldlM_cons] at h
    obtain ⟨acc', hx, h⟩ := bind_eq_ok.mp h
    obtain ⟨functions, dropped⟩ := ih h
    rcases collect_cases hx with ⟨e, rfl⟩ | ⟨n, e, symbol, rfl⟩
    · simp [functions, dropped, e]
    · simp [functions, dropped, e, symbol]

/-- A reading depends on its lookup only at the symbols that are exported. -/
theorem foldlM_collect_congr {find find' : Text → Option (Text × Span)} {symbols : List Text}
    (acc : NativeSource) (h : ∀ x ∈ symbols, find x = find' x) :
    symbols.foldlM (collect find) acc = symbols.foldlM (collect find') acc := by
  induction symbols generalizing acc with
  | nil => rfl
  | cons x xs ih =>
    have hx : collect find acc x = collect find' acc x := by
      simp only [collect, h x List.mem_cons_self]
    rw [List.foldlM_cons, List.foldlM_cons, hx]
    refine bind_congr fun acc' => ?_
    exact ih acc' fun y hy => h y (List.mem_cons_of_mem x hy)

/-! ### What a line comment costs -/

/-- What is reported of a function. -/
def facts (n : Implementation) :=
  (n.symbol, n.slots, n.shape, n.nullable, n.returnKind?)

/-- Two sources report the same. -/
structure SameReport (a b : NativeSource) : Prop where
  functions : a.functions.map facts = b.functions.map facts
  dropped : a.dropped = b.dropped

/-- Two readings that report the same found the same symbols. -/
theorem SameReport.symbols {a b : NativeSource} (h : SameReport a b) :
    a.functions.map (·.symbol) = b.functions.map (·.symbol) := by
  have := congrArg (List.map Prod.fst) h.functions
  simp only [List.map_map] at this
  exact this

/-- What `rest` adds to the functions and the dropped symbols of the source before it: its own
exports, and bodies for symbols that were exported in vain. -/
def AddsNothing (source rest : Text) : Prop :=
  exports rest = [] ∧ ∀ x ∈ exports source, ¬ Defines source x → ¬ Defines rest x

/-- A second part that adds nothing may follow the first. -/
theorem parse_blank_line (file : Option Nat) {a b : Text} (ha : Composed Complete a)
    (hb : AddsNothing a b) : parse file (a ++ '\n' :: '\n' :: b) = parse file a := by
  rw [parse_eq, parse_eq, exports_append ha, hb.1, List.append_nil]
  refine foldlM_collect_congr _ fun x hx => ?_
  rw [lookup?_append ha]
  cases e : lookup? file a x with
  | some p => rfl
  | none =>
    rw [Option.none_or]
    exact findSome?_bodyOf?_eq_none.mpr (hb.2 x hx (findSome?_bodyOf?_eq_none.mp e))

/-- A second part that does not change the report adds nothing. -/
theorem addsNothing_of_sameReport {file : Option Nat} {a b : Text} {s s' : NativeSource}
    (ha : Composed Complete a) (h : parse file a = .ok s)
    (h' : parse file (a ++ '\n' :: '\n' :: b) = .ok s') (hs : SameReport s s') :
    AddsNothing a b := by
  rw [parse_eq] at h
  rw [parse_eq, exports_append ha] at h'
  obtain ⟨hf, hd⟩ := collected h
  obtain ⟨hf', hd'⟩ := collected h'
  have hsome := hf.symm.trans (hs.symbols.trans hf')
  have hnone := hd.symm.trans (hs.dropped.trans hd')
  simp only [List.map_nil, List.nil_append] at hsome hnone
  -- each export is counted once, as a function or as dropped
  have count : ∀ (find : Text → Option (Text × Span)) (xs : List Text),
      (xs.filter fun x => (find x).isSome).length + (xs.filter fun x => (find x).isNone).length =
        xs.length := fun find xs => by
    have := List.length_eq_length_filter_add (l := xs) fun x => (find x).isSome
    simp only [Option.not_isSome] at this
    exact this.symm
  have hb : exports b = [] := by
    have h₁ := count (lookup? file a) (exports a)
    rw [hsome, hnone, count, List.length_append] at h₁
    exact List.eq_nil_of_length_eq_zero (by omega)
  refine ⟨hb, fun x hx hxa hxb => ?_⟩
  have hmem : x ∈ (exports a).filter fun x => (lookup? file a x).isNone :=
    List.mem_filter.mpr ⟨hx, Option.isNone_iff_eq_none.mpr (findSome?_bodyOf?_eq_none.mpr hxa)⟩
  rw [hnone, List.mem_filter, Option.isNone_iff_eq_none, lookup?_append ha, Option.or_eq_none_iff,
    findSome?_bodyOf?_eq_none (s := b)] at hmem
  exact hmem.2.2 hxb

/-- A line comment stands for a blank line just where what follows it adds nothing. -/
theorem sameReport_line_comment_iff {file : Option Nat} {a b : Text} {s : NativeSource}
    (ha : Composed Complete a) (h : parse file (a ++ "\n\n" ++ b) = .ok s) (c : Text) :
    (∃ s', parse file (a ++ "\n// " ++ c ++ "\n" ++ b) = .ok s' ∧ SameReport s' s) ↔
      AddsNothing a b := by
  have h₁ : parse file (a ++ "\n// " ++ c ++ "\n" ++ b) = parse file a := by
    simpa using parse_line_comment file ha (' ' :: (c ++ '\n' :: b))
  have h₂ : a ++ "\n\n".toList ++ b = a ++ '\n' :: '\n' :: b := by simp
  rw [h₂] at h
  rw [h₁]
  constructor
  · rintro ⟨s', hs', hr⟩
    exact addsNothing_of_sameReport ha hs' h hr
  · intro hb
    exact ⟨s, (parse_blank_line file ha hb).symm.trans h, rfl, rfl⟩

end NativeSource

/-! ### Both kinds of file -/

open Scan

/-- **Where a line comment between items ends at its line break.**  It takes the rest of the text
with it, so just where nothing that would be reported is left after it: in a script nothing at all,
in a native source no export and no body for an earlier export without one. -/
theorem line_comment_iff (file : Option Nat) (c : Text) {script source rest : Text}
    {s : NativeSource} (hd : Composed Statement.Complete script)
    (hn : Composed NativeSource.Complete source)
    (hs : NativeSource.parse file (source ++ "\n\n" ++ rest) = .ok s) :
    (∀ b : Text, Script.SameReport (Script.parse file (script ++ "\n-- " ++ c ++ "\n" ++ b))
        (Script.parse file (script ++ "\n\n" ++ b)) ↔ Script.parse file b = {}) ∧
      ((∃ s', NativeSource.parse file (source ++ "\n// " ++ c ++ "\n" ++ rest) = .ok s' ∧
        NativeSource.SameReport s' s) ↔ NativeSource.AddsNothing source rest) :=
  ⟨fun b => Script.sameReport_line_comment_iff file hd c b,
    NativeSource.sameReport_line_comment_iff hn hs c⟩

theorem composed_type : Composed Statement.Complete "CREATE TYPE a;" :=
  .piece (c := 'C') (w := "REATE TYPE a;".toList) (by decide) ⟨.type "a".toList, by rfl⟩ .nil

theorem composed_export :
    Composed NativeSource.Complete "PGDLLEXPORT Datum f(PG_FUNCTION_ARGS);" :=
  .piece (c := 'P') (w := "GDLLEXPORT Datum f(PG_FUNCTION_ARGS);".toList) (by decide)
    ⟨.exported "f".toList, fun t => by rfl⟩ .nil

/-- The theorem for one type, and for two exports without definitions. -/
theorem line_comment_iff_of_exports :
    (∀ b : Text, Script.SameReport
        (Script.parse none ("CREATE TYPE a;".toList ++ "\n-- " ++ "note" ++ "\n" ++ b))
        (Script.parse none ("CREATE TYPE a;".toList ++ "\n\n" ++ b)) ↔
          Script.parse none b = {}) ∧
      ((∃ s', NativeSource.parse none ("PGDLLEXPORT Datum f(PG_FUNCTION_ARGS);".toList ++ "\n// " ++
          "note" ++ "\n" ++ "PGDLLEXPORT Datum g(PG_FUNCTION_ARGS);") = .ok s' ∧
        NativeSource.SameReport s' { dropped := ["f".toList, "g".toList] }) ↔
        NativeSource.AddsNothing "PGDLLEXPORT Datum f(PG_FUNCTION_ARGS);"
          "PGDLLEXPORT Datum g(PG_FUNCTION_ARGS);") :=
  line_comment_iff none "note" composed_type composed_export (by cbv)

/-- A type and an export behind a line comment are lost. -/
theorem line_comment_hides :
    ¬ Script.SameReport
        (Script.parse none ("CREATE TYPE a;".toList ++ "\n-- " ++ "note" ++ "\n" ++
          "CREATE TYPE b;"))
        (Script.parse none ("CREATE TYPE a;".toList ++ "\n\n" ++ "CREATE TYPE b;")) ∧
      ¬ ∃ s', NativeSource.parse none ("PGDLLEXPORT Datum f(PG_FUNCTION_ARGS);".toList ++ "\n// " ++
          "note" ++ "\n" ++ "PGDLLEXPORT Datum g(PG_FUNCTION_ARGS);") = .ok s' ∧
        NativeSource.SameReport s' { dropped := ["f".toList, "g".toList] } := by
  constructor
  · intro h
    have hb := (Script.sameReport_line_comment_iff none composed_type _ _).mp h
    have ht : (Script.parse none "CREATE TYPE b;").types = ["b".toList] := by cbv
    rw [hb] at ht
    cases ht
  · intro h
    have hb := (NativeSource.sameReport_line_comment_iff composed_export (by cbv) _).mp h
    have he : NativeSource.exports "PGDLLEXPORT Datum g(PG_FUNCTION_ARGS);" = ["g".toList] := by
      cbv
    rw [hb.1] at he
    cases he

end VectorWrap
