import VectorWrap.Proofs.Declaration.Cuts

/-!
# Ranges of declarations

What a sweep finds stands between two cuts of the source (`Found.slice_span`), one behind the other
(`Found.stop_le_start`).  So the range of a declaration gives its definition and its line
(`placed_of_mem_declarations`), and the ranges of a script are in order and do not overlap
(`pairwise_declarations`).

A range is two byte lengths, of what stands before the statement and of what is left behind
it.  That one statement ends before the next begins is a fact about the sweep
(`Scan.pairwise_sweep`); that the cuts are between characters follows from what is found being a
suffix of the source.
-/

namespace VectorWrap

namespace Found

variable {α : Type} {f g : Found α} {source : Text}

/-- The range of a thing that was found gives its text. -/
theorem slice_span (hf : f.here <:+ source) (hr : f.rest <:+ f.here) (file : Option Nat) :
    Text.slice (f.span file source).start (f.span file source).stop source = .ok f.text := by
  obtain ⟨a, rfl⟩ := hf
  obtain ⟨w, hw⟩ := hr
  have text : f.text = w := by rw [Found.text, ← hw, Text.upTo_append_self]
  have start : (f.span file (a ++ f.here)).start = Text.byteLength a := by
    show Text.byteLength (a ++ f.here) - Text.byteLength f.here = _
    rw [Text.byteLength_append, Nat.add_sub_cancel]
  have stop : (f.span file (a ++ f.here)).stop = Text.byteLength a + Text.byteLength w := by
    show Text.byteLength (a ++ f.here) - Text.byteLength f.rest = _
    rw [← hw, Text.byteLength_append, Text.byteLength_append, ← Nat.add_assoc, Nat.add_sub_cancel]
  rw [start, stop, text, ← hw]
  exact Text.slice_append a w f.rest

/-- Something was read, so the range is not empty. -/
theorem start_lt_stop (hf : f.here <:+ source) (hr : f.rest <:+ f.here)
    (hl : f.rest.length < f.here.length) (file : Option Nat) :
    (f.span file source).start < (f.span file source).stop := by
  have := Text.byteLength_lt_of_suffix hr hl
  have := Text.byteLength_le_of_suffix hf
  show Text.byteLength source - _ < Text.byteLength source - _
  omega

/-- What is found behind another thing has a range behind that of the other. -/
theorem stop_le_start (h : g.here <:+ f.rest) (file : Option Nat) :
    (f.span file source).stop ≤ (g.span file source).start :=
  Nat.sub_le_sub_left (Text.byteLength_le_of_suffix h) _

end Found

namespace Script

variable {file : Option Nat} {source : Text} {d : Declaration}

/-- The range of a declaration is one of its source, with its definition, and begins on its line. -/
structure Placed (file : Option Nat) (source : Text) (d : Declaration) : Prop where
  file : d.span.file = file
  slice : Text.slice d.span.start d.span.stop source = .ok d.definition
  line : Text.lineAt source d.span.start = .ok d.line
  nonempty : d.span.start < d.span.stop

/-- A declaration has the range of a statement. -/
theorem exists_span_of_declaration? {marks : List SectionMark} {casts : List Cast}
    {operators : List Operator} {f : Found Statement}
    (h : declaration? file source marks casts operators f = some d) :
    d.span = f.span file source ∧ d.definition = f.text ∧ d.line = lineOf source f := by
  obtain ⟨_, _, _, _, -, rfl⟩ := exists_of_declaration? h
  exact ⟨rfl, rfl, rfl⟩

/-- Every declaration stands where its span says. -/
theorem placed_of_mem_declarations (h : d ∈ (parse file source).declarations) :
    Placed file source d := by
  obtain ⟨f, hf, h⟩ := List.mem_filterMap.mp h
  obtain ⟨span, definition, line⟩ := exists_span_of_declaration? h
  have read := Scan.item_of_mem_sweep hf
  have rest := Statement.closed_form.suffix read
  refine ⟨by rw [span]; rfl, ?_, ?_, ?_⟩
  · rw [span, definition]
    exact Found.slice_span (here_suffix hf) rest file
  · rw [span, line]
    exact lineAt_start hf file
  · rw [span]
    exact Found.start_lt_stop (here_suffix hf) rest (Statement.closed_form.shrinks read) file

/-- **The declarations of a script** have ranges one behind the other. -/
theorem pairwise_declarations (file : Option Nat) (source : Text) :
    (parse file source).declarations.Pairwise fun d d' => d.span.stop ≤ d'.span.start := by
  have hi : ∀ {s a r}, Statement.form s = some (a, r) → r <:+ s := Statement.closed_form.suffix
  refine (Scan.pairwise_sweep hi Statement.suffix_gap source).filterMap _
    fun f g h d hd d' hd' => ?_
  rw [(exists_span_of_declaration? hd).1, (exists_span_of_declaration? hd').1]
  exact Found.stop_le_start h file

end Script

end VectorWrap
