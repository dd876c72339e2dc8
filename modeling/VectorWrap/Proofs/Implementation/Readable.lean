import VectorWrap.Proofs.Declaration.Cuts
import VectorWrap.Proofs.Implementation.Cuts
import VectorWrap.Proofs.Implementation.Forms

/-!
# Which texts are read as native sources

The grammar reads every text to its end, and the three searches of a body read every body.  What
they find is taken apart by byte offsets, which fall between characters but for one: where the
variable of an assignment is cut off behind a character of several bytes.  A source has a reading
unless that line is the first of two in the body of an exported symbol, and the second returns a
value (`NativeSource.reads_unless_cut`).

The cut lies in the shape of a body, and a shape is only asked for where the body is that of an
exported symbol; every other body may hold such a line.
-/

namespace VectorWrap

namespace Implementation
open Scan Rule NativeSource

/-! ### Files and searches -/

/-- The rule that reads an item. -/
def itemRule : Item → Rule
  | .exported .. => .exportDecl
  | .defined .. => .functionDef

/-- The rules of items. -/
def isItem : Rule → Bool
  | .exportDecl | .functionDef => true
  | _ => false

theorem rule_exportForm : Gives exportForm fun v => itemRule v = .exportDecl := by
  unfold exportForm
  repeat refine Gives.bind fun _ => ?_
  exact .pure rfl

theorem rule_definitionForm : Gives definitionForm fun v => itemRule v = .functionDef := by
  unfold definitionForm
  repeat refine Gives.bind fun _ => ?_
  exact .pure rfl

/-- The file rule reads every text to its end, and finds the items. -/
theorem readsAll_file : grammar.ReadsAll .file isItem fun s =>
    (items s).map (Found.call itemRule) := by
  have calls : Calls grammar itemRule (exportForm <|> definitionForm) Rule.items :=
    .orElse (.rule agrees_exportForm.after_layout rule_exportForm)
      (.rule agrees_definitionForm.after_layout rule_definitionForm)
  have known : ∀ v, isItem (itemRule v) = true := by
    intro v
    cases v <;> rfl
  exact (sweeps_of_calls calls known rfl (by decide) (by decide)).readsAll rfl

/-- A search for the things that one rule reads. -/
theorem readsAll_search {α : Type} {item : Scan α} {r search : Rule}
    (h : Agrees grammar false (do layout; item) (.rule r)) (word : r ≠ .word)
    (solid : (part (.rule r)).solid grammar 2 = true)
    (turns : ∀ x ∈ (part (.rule r)).turns, x.solid grammar 2 = true)
    (body : grammar.body search = .file (part (.rule r))) :
    grammar.ReadsAll search (· == r) fun s =>
      (sweep item codeGap s).map (Found.call fun _ => r) := by
  have calls : Calls grammar (fun _ => r) item (.rule r) := .rule h fun _ _ _ _ => rfl
  have other : (Rule.word == r) = false := beq_false_of_ne word.symm
  have sweeps : Sweeps grammar (· == r) (fun _ => r) (part (.rule r)) item codeGap :=
    sweeps_of_calls calls (by simp) other solid turns
  exact sweeps.readsAll body

end Implementation

namespace NativeSource
open Scan Implementation

/-- The lines of a body and the arguments of a call are taken apart by byte offsets, with the same
parts and the same fault. -/
structure CutsAgree : Prop where
  conditional : ∀ line, Line.cutIf? line = .ok (Line.splitIf? line)
  assignment : ∀ line, Assignment.cutLine line = Assignment.ofLine line
  arguments : ∀ args, Text.cutTopLevel args = .ok (Text.splitTopLevel args)

/-- The cuts by byte offsets have the same parts and the same faults. -/
theorem cutsAgree : CutsAgree :=
  ⟨Line.cutIf?_eq, Assignment.cutLine_eq, Text.cutTopLevel_eq⟩

/-- The grammar reads every file and, in every body, finds what the searches find. -/
structure ReadsEverything : Prop where
  file : grammar.ReadsAll .file isItem fun s => (items s).map (Found.call itemRule)
  declarations : grammar.ReadsAll .declScan (· == .declBinding) fun s =>
    (sweep ArgSlot.declaration codeGap s).map (Found.call fun _ => .declBinding)
  assignments : grammar.ReadsAll .assignScan (· == .assignBinding) fun s =>
    (sweep ArgSlot.assignment codeGap s).map (Found.call fun _ => .assignBinding)
  returns : grammar.ReadsAll .macroScan (· == .returnMacro) fun s =>
    (sweep Return.mark codeGap s).map (Found.call fun _ => .returnMacro)

/-- The grammar reads every file and every body. -/
theorem readsEverything : ReadsEverything where
  file := readsAll_file
  declarations :=
    readsAll_search agrees_declaration.after_layout (by decide) (by decide) (by decide) rfl
  assignments :=
    readsAll_search agrees_assignment.after_layout (by decide) (by decide) (by decide) rfl
  returns := readsAll_search agrees_mark (by decide) (by decide) (by decide) rfl

/-- **A source has a reading unless a body is cut inside a character.**  The grammar reads every
text to its end, as do the three searches of a body, and all byte offsets agree with the parts
between characters.  What is left is the variable of an assignment: it is a fault where it is cut
off inside a character, and this happens to a body of two lines of which the last alone returns a
value. -/
theorem reads_unless_cut (file : Option Nat) (source : Text) :
    grammar.Total ∧ ReadsEverything ∧ CutsAgree ∧
      (∀ symbol body span, (∃ n, ofBody symbol body span = .ok n) ↔
        ¬ Shape.Cut (Line.ofBody body)) ∧
      ((∃ u, parse file source = .ok u) ↔ ∀ symbol ∈ exports source, ∀ body span,
        lookup? file source symbol = some (body, span) → ¬ Shape.Cut (Line.ofBody body)) :=
  ⟨grounded.total, readsEverything, cutsAgree, fun _ _ _ => exists_ofBody_iff, exists_parse_iff⟩

/-! ### A letter that takes two bytes -/

/-- A body that assigns to a variable with an accent. -/
def accentedBody : Text :=
  "int32 né = g(1);\n  PG_RETURN_INT32(n);\n"

/-- A source of the function with that body. -/
def accented : Text :=
  "PGDLLEXPORT Datum f(PG_FUNCTION_ARGS);\nDatum f(PG_FUNCTION_ARGS)\n\x7b\n  ".toList ++
    accentedBody ++ "\x7d\n".toList

/-- The shape of the body with the accented name is cut in a character. -/
theorem cut_accentedBody : Shape.Cut (Line.ofBody accentedBody) := by
  have lines : Line.ofBody accentedBody =
      ["int32 né = g(1);".toList, "PG_RETURN_INT32(n);".toList] := by decide +kernel
  have fault : Assignment.ofLine "int32 né = g(1);" = .error .insideCharacter := by cbv
  exact ⟨_, _, lines, by cbv, by cbv, Assignment.ofLine_eq_error_iff.mp ⟨_, fault⟩⟩

/-- Such a function takes the reading of the whole source down. -/
theorem accented_has_no_reading : ¬ ∃ u, parse none accented = .ok u := by
  have exported : exports accented = ["f".toList] := by cbv
  have defined : (lookup? none accented "f").map Prod.fst = some accentedBody := by cbv
  obtain ⟨⟨body, span⟩, found, rfl⟩ := Option.map_eq_some_iff.mp defined
  rw [exists_parse_iff, exported]
  intro h
  exact h _ (List.mem_singleton_self _) _ span found cut_accentedBody

end NativeSource

end VectorWrap
