import VectorWrap.Declaration.Script
import VectorWrap.Proofs.Code.Trivia
import VectorWrap.Proofs.Declaration.Whole
import VectorWrap.Proofs.Scan.Sweep

/-!
# Line comments in a script

No line break is seen inside a line comment, so one that stands between two statements takes the
rest of the script with it.

* `parse_line_comment`: what follows complete statements and a line comment is not there.
* `sameReport_line_comment_iff`: so the comment is harmless exactly where nothing that is reported
  follows it.

That the comment is harmless only then is shown by counting.  A script is compared with the one in
which the comment is a blank line, where both parts are read: it has the counts of both together
(`counts_blank_line`), so if the reports are the same the second part counts nothing.
-/

namespace VectorWrap

namespace Statement
open Scan

/-- A statement or a section mark, with nothing missing and nothing after it. -/
def Complete (w : Text) : Prop :=
  ∃ v, form w = some (v, [])

/-- A complete statement is read whatever follows it. -/
theorem Complete.append {w : Text} (h : Complete w) : ∃ v, ∀ t, form (w ++ t) = some (v, t) := by
  obtain ⟨v, hv⟩ := h
  refine ⟨v, fun t => ?_⟩
  have := closed_form.append (y := w) (t := []) (u := t) (r := []) (by simpa using hv)
  simpa using this

theorem form_dashes (s : Text) : form ('-' :: s) = none := by
  rw [form_of_mark (by decide) (by decide)]
  exact bind_of_none (exactly_of_ne fun _ h => nomatch h)

/-- A line comment takes the rest of the text. -/
theorem gap_dashes (s : Text) : gap ('-' :: '-' :: s) = some ((), []) := by
  have hb : blockComment ('-' :: '-' :: s) = none := blockComment_of_ne (by simp)
  have hl : lineComment "--" .free ('-' :: '-' :: s) = some ((), []) := lineComment_free "--" s
  rw [gap, orElse_of_none hb, orElse_of_some hl]

end Statement

namespace Script
open Scan

/-! ### The statements that are found -/

/-- Behind complete statements the rest of a script is read on its own. -/
theorem statements_append {a : Text} (ha : Composed Statement.Complete a) (t : Text) :
    statements (a ++ t) = (statements a).map (Found.extend t) ++ statements t :=
  sweep_append Statement.Complete.append ha t

/-- Nothing is found in a line comment or after it. -/
theorem statements_line_comment (s : Text) : statements ('\n' :: '-' :: '-' :: s) = [] := by
  rw [statements, sweep_layout (by decide), sweep_gap (by decide) (Statement.form_dashes _)
    (Statement.gap_dashes s) (by simp), sweep_nil]

theorem statements_blank_line (s : Text) : statements ('\n' :: '\n' :: s) = statements s := by
  rw [statements, sweep_layout (by decide), sweep_layout (by decide)]
  rfl

/-! ### What they say -/

@[simp]
theorem lineOf_extend {α : Type} (a t : Text) (f : Found α) :
    lineOf (a ++ t) (f.extend t) = lineOf a f :=
  congrArg Text.nextLine (Text.upTo_append _ _ _)

@[simp]
theorem mark?_extend (a t : Text) : mark? (a ++ t) ∘ Found.extend t = mark? a := by
  funext f
  simp [mark?]

@[simp]
theorem cast?_extend (t : Text) : cast? ∘ Found.extend t = cast? := rfl

@[simp]
theorem type?_extend (t : Text) : type? ∘ Found.extend t = type? := rfl

@[simp]
theorem operator?_extend (t : Text) : operator? ∘ Found.extend t = operator? := rfl

@[simp]
theorem declaration?_extend (file : Option Nat) (a t : Text) (ms : List SectionMark)
    (cs : List Cast) (os : List Operator) :
    declaration? file (a ++ t) ms cs os ∘ Found.extend t = declaration? file a ms cs os := by
  funext f
  simp [declaration?]

/-- **A line comment between statements ends the script.** -/
theorem parse_line_comment (file : Option Nat) {a : Text} (ha : Composed Statement.Complete a)
    (s : Text) : parse file (a ++ '\n' :: '-' :: '-' :: s) = parse file a := by
  simp only [parse, statements_append ha, statements_line_comment, List.append_nil,
    List.filterMap_map, mark?_extend, cast?_extend, type?_extend, operator?_extend,
    declaration?_extend]

/-! ### How much a script reports -/

/-- The number of things of each kind that a script reports. -/
def counts (s : Script) : List Nat :=
  [s.declarations.length, s.marks.length, s.casts.length, s.types.length, s.operators.length]

theorem eq_empty_of_counts {s : Script} (h : s.counts = [0, 0, 0, 0, 0]) : s = {} := by
  obtain ⟨ds, ms, cs, ts, os⟩ := s
  simpa [counts] using h

/-- The statement is a section mark. -/
def isMark : Statement → Bool
  | .mark _ => true
  | _ => false

/-- The statement is a function whose symbol is not blank. -/
def declares : Statement → Bool
  | .function _ _ _ quoted => !(Text.trim quoted).isEmpty
  | _ => false

/-- As many marks are reported as there are. -/
theorem length_marks (source : Text) (found : List (Found Statement)) :
    (found.filterMap (mark? source)).length = found.countP fun f => isMark f.value := by
  rw [List.length_filterMap_eq_countP]
  congr 1
  funext f
  cases e : f.value <;> simp [mark?, isMark, e]

/-- As many declarations are reported as there are functions with a symbol. -/
theorem length_declarations (file : Option Nat) (source : Text) (ms : List SectionMark)
    (cs : List Cast) (os : List Operator) (found : List (Found Statement)) :
    (found.filterMap (declaration? file source ms cs os)).length =
      found.countP fun f => declares f.value := by
  rw [List.length_filterMap_eq_countP]
  congr 1
  funext f
  cases e : f.value with
  | function name params returnType quoted =>
    cases h : (Text.trim quoted).isEmpty <;> simp [declaration?, declares, e, h]
  | _ => simp [declaration?, declares, e]

/-- A blank line joins two scripts: what is reported of both is what is reported of each. -/
theorem counts_blank_line (file : Option Nat) {a : Text} (ha : Composed Statement.Complete a)
    (b : Text) : (parse file (a ++ '\n' :: '\n' :: b)).counts =
      List.zipWith (· + ·) (parse file a).counts (parse file b).counts := by
  simp only [counts, parse, length_marks, length_declarations, statements_append ha,
    statements_blank_line, List.filterMap_append, List.length_append, List.filterMap_map,
    mark?_extend, cast?_extend, type?_extend, operator?_extend, declaration?_extend]
  rfl

/-- Behind a blank line a script that reports nothing changes nothing. -/
theorem parse_blank_line (file : Option Nat) {a b : Text} (ha : Composed Statement.Complete a)
    (hb : parse file b = {}) : parse file (a ++ '\n' :: '\n' :: b) = parse file a := by
  simp only [parse, Script.mk.injEq] at hb
  obtain ⟨hd, hm, hc, ht, ho⟩ := hb
  have hm' (s : Text) : (statements b).filterMap (mark? s) = [] := by
    rw [← List.length_eq_zero_iff, length_marks, ← length_marks b, hm, List.length_nil]
  have hd' (s : Text) (ms cs os) :
      (statements b).filterMap (declaration? file s ms cs os) = [] := by
    rw [← List.length_eq_zero_iff, length_declarations, ← length_declarations file b, hd,
      List.length_nil]
  simp only [parse, statements_append ha, statements_blank_line, List.filterMap_append,
    List.filterMap_map, mark?_extend, cast?_extend, type?_extend, operator?_extend,
    declaration?_extend, hm', hd', hc, ht, ho, List.append_nil]

/-! ### What a line comment costs -/

/-- What is reported of a declaration. -/
def facts (d : Declaration) :=
  (d.name, d.types, d.defaults, d.returnType, d.symbol, d.isOperator, d.isAggregate, d.isCast,
    d.operator?, d.category, d.line)

/-- Two scripts report the same. -/
structure SameReport (a b : Script) : Prop where
  declarations : a.declarations.map facts = b.declarations.map facts
  marks : a.marks = b.marks
  casts : a.casts = b.casts
  types : a.types = b.types
  operators : a.operators = b.operators

theorem SameReport.counts {a b : Script} (h : SameReport a b) : a.counts = b.counts := by
  have hd := congrArg List.length h.declarations
  simp only [List.length_map] at hd
  simp only [Script.counts, hd, h.marks, h.casts, h.types, h.operators]

/-- A line comment stands for a blank line just where nothing that is reported follows it. -/
theorem sameReport_line_comment_iff (file : Option Nat) {a : Text}
    (ha : Composed Statement.Complete a) (c b : Text) :
    SameReport (parse file (a ++ "\n-- " ++ c ++ "\n" ++ b)) (parse file (a ++ "\n\n" ++ b)) ↔
      parse file b = {} := by
  have h₁ : parse file (a ++ "\n-- " ++ c ++ "\n" ++ b) = parse file a := by
    simpa using parse_line_comment file ha (' ' :: (c ++ '\n' :: b))
  have h₂ : a ++ "\n\n".toList ++ b = a ++ '\n' :: '\n' :: b := by simp
  rw [h₁, h₂]
  constructor
  · intro h
    -- what follows the blank line adds its own counts to those of `a`, so they are all zero
    refine eq_empty_of_counts ?_
    have := h.counts.trans (counts_blank_line file ha b)
    simpa [Script.counts] using this
  · intro h
    rw [parse_blank_line file ha h]
    exact ⟨rfl, rfl, rfl, rfl, rfl⟩

end Script

end VectorWrap
