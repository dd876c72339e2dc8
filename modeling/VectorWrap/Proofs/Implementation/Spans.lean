import VectorWrap.Proofs.Declaration.Spans
import VectorWrap.Proofs.Implementation.Bodies
import VectorWrap.Proofs.Implementation.Literals

/-!
# Ranges of native functions

The range of a function is that of its definition, up to the brace that closes the body, so its text
holds the body (`placed_of_mem_functions`).

A lookup takes the first definition of a symbol, wherever it stands, so the range of an exported
function may lie before or behind its export.
-/

namespace VectorWrap

namespace NativeSource
open Scan Implementation

variable {file : Option Nat} {source : Text}

/-! ### Definitions -/

/-- A body is closed by a brace. -/
theorem closeBody?_eq_append {d : Nat} {s r : Text} (h : closeBody? d s = some r) :
    ∃ w, s = w ++ '\x7d' :: r := by
  have behind {x s : Text} (hs : s <:+ x) (h : ∃ w, s = w ++ '\x7d' :: r) :
      ∃ w, x = w ++ '\x7d' :: r := by
    obtain ⟨v, rfl⟩ := hs
    obtain ⟨w, rfl⟩ := h
    exact ⟨v ++ w, (List.append_assoc v w _).symm⟩
  fun_induction closeBody? d s with
  | case1 => cases h
  | case2 _ s ih => exact behind (List.suffix_cons _ s) (ih h)
  | case3 s =>
    cases h
    exact ⟨[], rfl⟩
  | case4 s d _ ih => exact behind (List.suffix_cons _ s) (ih h)
  | case5 _ c s _ _ _ rest hr hp ih =>
    rw [hp] at h
    exact behind (suffix_trivia ((progress_eq_some hr).mp hp)) (ih h)
  | case6 _ c s _ _ hp ih =>
    rw [hp] at h
    exact behind (List.suffix_cons c s) (ih h)

/-- A body is read up to the brace that closes it. -/
theorem bodyForm_eq_append {s body r : Text} (h : bodyForm s = some (body, r)) :
    ∃ front, s = front ++ (body ++ '\x7d' :: r) := by
  obtain ⟨_, s₁, brace, h⟩ := bind_eq_some.mp h
  obtain ⟨_, s₂, layout, h⟩ := bind_eq_some.mp h
  obtain ⟨r', closed, e⟩ := Option.map_eq_some_iff.mp h
  cases e
  obtain ⟨w, rfl⟩ := closeBody?_eq_append closed
  have text : Text.upTo (w ++ '\x7d' :: r) r = w ++ ['\x7d'] := by
    rw [List.append_cons, Text.upTo_append_self]
  rw [text, List.dropLast_concat]
  obtain ⟨v, hv⟩ :=
    (local_layout.suffix layout).trans ((closed_symbol (List.cons_ne_nil _ [])).suffix brace)
  exact ⟨v, hv.symm⟩

theorem local_exactWord (w : Text) : Local (exactWord w) :=
  local_layout.bind fun _ => (local_run _).bind fun _ => (rigid_guard _).toLocal

theorem local_argsForm : Local argsForm :=
  (closed_symbol (by decide)).toLocal.bind fun _ =>
    (closed_symbol (by decide)).toLocal.bind fun _ => (closed_symbol (by decide)).toLocal

/-- An export is read as far as it goes, whatever follows. -/
theorem local_exportForm : Local exportForm :=
  (local_exactWord _).bind fun _ => (local_exactWord _).bind fun _ => local_ident.bind fun _ =>
    local_argsForm.bind fun _ => (closed_symbol (by decide)).toLocal.bind fun _ =>
      (rigid_pure _).toLocal

/-- An export gives a name. -/
theorem exists_of_exportForm {s r : Text} {v : Item} (h : exportForm s = some (v, r)) :
    ∃ name, v = .exported name ∧ Text.isName name = true := by
  obtain ⟨_, _, -, h⟩ := bind_eq_some.mp h
  obtain ⟨_, _, -, h⟩ := bind_eq_some.mp h
  obtain ⟨name, _, ident, h⟩ := bind_eq_some.mp h
  obtain ⟨_, _, -, h⟩ := bind_eq_some.mp h
  obtain ⟨_, _, -, h⟩ := bind_eq_some.mp h
  obtain ⟨rfl, -⟩ := pure_eq_some.mp h
  exact ⟨name, rfl, (parts_of_ident ident).2⟩

/-- A definition gives its name and its body, which a brace closes. -/
theorem definitionForm_eq_append {s r : Text} {v : Item} (h : definitionForm s = some (v, r)) :
    ∃ name body front, v = .defined name body ∧ s = front ++ (body ++ '\x7d' :: r) := by
  obtain ⟨_, s₁, word, h⟩ := bind_eq_some.mp h
  obtain ⟨name, s₂, ident, h⟩ := bind_eq_some.mp h
  obtain ⟨_, s₃, args, h⟩ := bind_eq_some.mp h
  obtain ⟨body, s₄, read, h⟩ := bind_eq_some.mp h
  obtain ⟨rfl, rfl⟩ := pure_eq_some.mp h
  obtain ⟨front, rfl⟩ := bodyForm_eq_append read
  obtain ⟨u, rfl⟩ := (local_argsForm.suffix args).trans
    ((local_ident.suffix ident).trans ((local_exactWord _).suffix word))
  exact ⟨name, body, u ++ front, rfl, (List.append_assoc u front _).symm⟩

/-- What follows an item is the end of the text. -/
theorem suffix_item {s r : Text} {v : Item} (h : (exportForm <|> definitionForm) s = some (v, r)) :
    r <:+ s := by
  refine suffix_orElse local_exportForm.suffix (fun {s v r} h => ?_) h
  obtain ⟨_, body, front, -, rfl⟩ := definitionForm_eq_append h
  exact ⟨front ++ body ++ ['\x7d'], by simp⟩

/-- An item with a body is a definition. -/
theorem definition_of_item {s r : Text} {name body : Text}
    (h : (exportForm <|> definitionForm) s = some (.defined name body, r)) :
    definitionForm s = some (.defined name body, r) := by
  rcases orElse_eq_some.mp h with h | ⟨-, h⟩
  · obtain ⟨_, e, -⟩ := exists_of_exportForm h
    cases e
  · exact h

/-! ### Functions -/

/-- The range of a function is one of its source, with its body in it. -/
structure Placed (file : Option Nat) (source : Text) (n : Implementation) : Prop where
  file : n.span.file = file
  body : ∃ text, Text.slice n.span.start n.span.stop source = .ok text ∧ n.body <:+: text

/-- What is found of a symbol is the body of a definition, with its range. -/
theorem exists_of_lookup? {symbol body : Text} {span : Span}
    (h : lookup? file source symbol = some (body, span)) :
    span.file = file ∧ ∃ text, Text.slice span.start span.stop source = .ok text ∧
      body <:+: text := by
  obtain ⟨f, hf, h⟩ := List.exists_of_findSome?_eq_some h
  rw [bodyOf?] at h
  split at h
  · next name body' hv =>
    split_ifs at h
    cases h
    have read := item_of_mem_sweep hf
    have here : f.here <:+ source := suffix_of_mem_sweep suffix_item suffix_codeGap hf
    refine ⟨rfl, f.text, Found.slice_span here (suffix_item read) file, ?_⟩
    rw [hv] at read
    obtain ⟨_, _, front, e, whole⟩ := definitionForm_eq_append (definition_of_item read)
    cases e
    have text : f.text = front ++ body ++ ['\x7d'] := by
      rw [Found.text, whole, List.append_cons, ← List.append_assoc, Text.upTo_append_self,
        ← List.append_assoc]
    rw [text]
    exact ⟨front, ['\x7d'], rfl⟩
  · cases h

/-- The functions that are collected have the bodies that are found. -/
theorem exists_of_mem_collected {find : Text → Option (Text × Span)} {symbols : List Text}
    {acc s : NativeSource} (h : symbols.foldlM (collect find) acc = .ok s) :
    ∀ n ∈ s.functions, n ∈ acc.functions ∨ ∃ symbol, find symbol = some (n.body, n.span) := by
  induction symbols generalizing acc with
  | nil =>
    cases h
    exact fun n hn => .inl hn
  | cons x xs ih =>
    rw [List.foldlM_cons] at h
    obtain ⟨acc', hx, h⟩ := bind_eq_ok.mp h
    intro n hn
    rcases ih h n hn with hn | found
    · rcases collect_cases hx with ⟨-, rfl⟩ | ⟨n', found, -, rfl⟩
      · exact .inl hn
      · rcases List.mem_append.mp hn with hn | hn
        · exact .inl hn
        · rw [List.mem_singleton.mp hn]
          exact .inr ⟨x, found⟩
    · exact .inr found

/-- **The range of a function** that was read gives a text with its body. -/
theorem placed_of_mem_functions {u : NativeSource} {n : Implementation}
    (hu : parse file source = .ok u) (hn : n ∈ u.functions) : Placed file source n := by
  rcases exists_of_mem_collected (parse_eq file source ▸ hu) n hn with hn | ⟨symbol, found⟩
  · cases hn
  · obtain ⟨file, body⟩ := exists_of_lookup? found
    exact ⟨file, body⟩

end NativeSource

end VectorWrap
