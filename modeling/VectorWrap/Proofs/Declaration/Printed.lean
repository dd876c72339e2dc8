import VectorWrap.Declaration.Script
import VectorWrap.Proofs.Declaration.Parameters
import VectorWrap.Proofs.Declaration.Whole
import VectorWrap.Proofs.Scan.Written

/-!
# Scripts are read as written

A script may be written of section marks, functions, casts, types and operators, one after the
other.  Each item is read as a statement to its own end, whatever follows it (`form_text`), so a
sweep finds the items and nothing else, and what is reported of them is what they were written with
(`parse_written`).

Where an item stands is told by the text before it: it gives the line of a mark and of a function,
and the span of a function.
-/

namespace VectorWrap
open Text

namespace Statement
open Scan

/-! ### Section marks -/

/-- A row of asterisks is dropped before anything but the end of the comment. -/
theorem dropStars_replicate (k : Nat) {s : Text} (h : s.head? ≠ some '/') :
    dropStars (List.replicate k '*' ++ s) = dropStars s := by
  induction k with
  | zero => rfl
  | succ k ih =>
    have next : (List.replicate k '*' ++ s).head? ≠ some '/' := by
      cases k with
      | zero => exact h
      | succ k => simp [List.replicate_succ]
    rw [List.replicate_succ, List.cons_append, dropStars, if_pos ⟨rfl, next⟩, ih]

/-- One space is skipped. -/
theorem spaces_space {s : Text} (h : ∀ c, s.head? = some c → isLayout c = false) :
    spaces (' ' :: s) = some ((), s) := by
  have head : ∀ c, s.head? = some c → (c == ' ' || c == '\t') = false := fun c hc => by
    have := h c hc
    simp only [isLayout, Bool.or_eq_false_iff] at this ⊢
    exact this.1.1
  refine bind_eq_some.mpr ⟨[' '], s, run_eq_some.mpr ⟨?_, ?_⟩, rfl⟩
  · exact takeWhile_append_of_head (a := [' ']) (by simp) head
  · exact dropWhile_append_of_head (a := [' ']) (by simp) head

/-- The first character of a text that begins with a trimmed one. -/
theorem isLayout_of_head {w s : Text} (hw : w ≠ []) (ht : Trimmed w) :
    ∀ c, (w ++ s).head? = some c → isLayout c = false := by
  intro c hc
  obtain ⟨d, w, rfl⟩ := List.exists_cons_of_ne_nil hw
  have := ht.head c hc
  rw [Bool.eq_false_iff] at this ⊢
  exact fun h => this (isBlank_of_isLayout h)

/-- The last line of a box. -/
theorem lastLine_append (closing : Nat) (a : Statement) (t : Text) :
    (spaces >>= fun _ => stars >>= fun _ => exactly "*/" >>= fun _ => pure a)
      (' ' :: (List.replicate closing '*' ++ ("*/" ++ t))) = some (a, t) := by
  have head : ∀ c, (List.replicate closing '*' ++ ("*/".toList ++ t)).head? = some c →
      isLayout c = false := fun c h => by
    obtain rfl : '*' = c := by
      cases closing <;> simpa [List.replicate_succ] using h
    decide
  have dropped := dropStars_replicate closing (s := "*/".toList ++ t) (by simp)
  refine bind_eq_some.mpr ⟨(), _, spaces_space head, ?_⟩
  refine bind_eq_some.mpr ⟨(), _, congrArg (fun s => some ((), s)) dropped, ?_⟩
  exact bind_eq_some.mpr ⟨(), t, rfl, rfl⟩

/-- A written mark is read as its label, whatever follows it. -/
theorem markForm_append {label : Text} (hl : label ≠ []) (ht : Trimmed label)
    (hc : ∀ c ∈ label, c ≠ '*' ∧ isLineBreak c = false) (opening closing : Nat) (t : Text) :
    markForm ("/*" ++ (List.replicate opening '*' ++ ("\n * " ++ (label ++ ("\n " ++
      (List.replicate closing '*' ++ ("*/" ++ t))))))) = some (.mark label, t) := by
  have word : ∀ c ∈ label, (c != '*' && !isLineBreak c) = true := fun c h => by simp [hc c h]
  have stop (s : Text) : ∀ c, ('\n' :: s).head? = some c → (c != '*' && !isLineBreak c) = false :=
    fun c h => by
      cases h
      decide
  have dropped (s : Text) : dropStars (List.replicate opening '*' ++ '\n' :: s) = '\n' :: s :=
    dropStars_replicate opening (by simp)
  -- the first line
  refine bind_eq_some.mpr ⟨(), _, rfl, ?_⟩
  refine bind_eq_some.mpr ⟨(), _, congrArg (fun s => some ((), s)) (dropped _), ?_⟩
  refine bind_eq_some.mpr ⟨(), _, rfl, bind_eq_some.mpr ⟨(), _, rfl, ?_⟩⟩
  -- the line of the title
  refine bind_eq_some.mpr ⟨(), _, rfl, bind_eq_some.mpr ⟨(), _, rfl, ?_⟩⟩
  refine bind_eq_some.mpr ⟨(), _, spaces_space (isLayout_of_head (w := label) hl ht), ?_⟩
  refine bind_eq_some.mpr ⟨label, _, run1_append hl word (stop _), ?_⟩
  refine bind_eq_some.mpr ⟨(), _, rfl, bind_eq_some.mpr ⟨(), _, rfl, ?_⟩⟩
  rw [trim_of_trimmed ht]
  exact lastLine_append closing (.mark label) t

/-! ### Functions -/

/-- A parenthesised list is read as it stands inside. -/
theorem parenthesised_list {pad : Text} (hp : ∀ c ∈ pad, isLayout c = true) {ws : List Text}
    (h : ∀ w ∈ ws, IsPart w) (s : Text) :
    parenthesised ('(' :: (joinWith (',' :: pad) ws ++ ')' :: s)) =
      some (joinWith (',' :: pad) ws, s) := by
  have close := closing?_list
    (isClosed_of_flat fun c hc => isFlat_of_isLayout (hp c hc)) (fun w hw => (h w hw).closed) s
  refine bind_eq_some.mpr ⟨(), joinWith (',' :: pad) ws ++ ')' :: s, rfl, ?_⟩
  refine bind_eq_some.mpr ⟨(), _, layout_eq_some.mpr ?_, close⟩
  cases ws with
  | nil => rfl
  | cons w ws =>
    have hw := h w List.mem_cons_self
    obtain ⟨r, hr⟩ : ∃ r, joinWith (',' :: pad) (w :: ws) ++ ')' :: s = w ++ r := by
      cases ws <;> simp [joinWith]
    rw [hr]
    exact dropWhile_append_of_head (a := []) (by simp) (isLayout_of_head hw.ne_nil hw.trimmed)

theorem quoted_append {l a : Text} (hl : ∀ c ∈ l, isLayout c = true) (ha : '\'' ∉ a)
    (s : Text) : quoted (l ++ '\'' :: (a ++ '\'' :: s)) = some (a, s) :=
  bind_eq_some.mpr ⟨(), _, symbol_append (w := ['\'']) hl (by decide) _, upTo_char ha s⟩

/-- A written function is read as what it is written with, whatever follows it. -/
theorem functionForm_append {name params returnType path symbol : Text} (hn : isName name = true)
    (hp : ∀ s, parenthesised ('(' :: (params ++ ')' :: s)) = some (params, s))
    (hr : isName returnType = true) (hpath : '\'' ∉ path) (hs : '\'' ∉ symbol) (t : Text) :
    functionForm ("CREATE FUNCTION " ++ (name ++ ("(" ++ (params ++ (") RETURNS " ++
      (returnType ++ (" AS '" ++ (path ++ ("', '" ++ (symbol ++ ("' LANGUAGE C;" ++ t))))))))))) =
      some (.function name params returnType symbol, t) := by
  refine bind_eq_some.mpr ⟨(), _, rfl, bind_eq_some.mpr ⟨(), _, rfl, ?_⟩⟩
  refine bind_eq_some.mpr ⟨name, _, ident_before (l := [' ']) layout_space hn rfl _, ?_⟩
  refine bind_eq_some.mpr ⟨params, _, hp _, bind_eq_some.mpr ⟨(), _, rfl, ?_⟩⟩
  refine bind_eq_some.mpr ⟨returnType, _, ident_before (l := [' ']) layout_space hr rfl _, ?_⟩
  refine bind_eq_some.mpr ⟨(), _, rfl, ?_⟩
  refine bind_eq_some.mpr ⟨path, _, quoted_append (l := [' ']) layout_space hpath _, ?_⟩
  refine bind_eq_some.mpr ⟨(), _, rfl, ?_⟩
  refine bind_eq_some.mpr ⟨symbol, _, quoted_append (l := [' ']) layout_space hs _, ?_⟩
  exact bind_eq_some.mpr ⟨" LANGUAGE C".toList, t, rfl, rfl⟩

/-! ### Casts and types -/

/-- A written cast is read as what it is written with, whatever follows it. -/
theorem castForm_append {source target function args : Text} (hs : isName source = true)
    (ht : isName target = true) (hf : isName function = true) (ha : ')' ∉ args) (t : Text) :
    castForm ("CREATE CAST (" ++ (source ++ (" AS " ++ (target ++ (") WITH FUNCTION " ++
      (function ++ ("(" ++ (args ++ (");" ++ t))))))))) =
      some (.cast source target function args, t) := by
  refine bind_eq_some.mpr ⟨(), _, rfl, bind_eq_some.mpr ⟨(), _, rfl, ?_⟩⟩
  refine bind_eq_some.mpr ⟨(), _, rfl, ?_⟩
  refine bind_eq_some.mpr ⟨source, _, ident_before (l := []) (by simp) hs rfl _, ?_⟩
  refine bind_eq_some.mpr ⟨(), _, rfl, ?_⟩
  refine bind_eq_some.mpr ⟨target, _, ident_before (l := [' ']) layout_space ht rfl _, ?_⟩
  refine bind_eq_some.mpr ⟨(), _, rfl, bind_eq_some.mpr ⟨(), _, rfl, ?_⟩⟩
  refine bind_eq_some.mpr ⟨(), _, rfl, ?_⟩
  refine bind_eq_some.mpr ⟨function, _, ident_before (l := [' ']) layout_space hf rfl _, ?_⟩
  refine bind_eq_some.mpr ⟨(), _, rfl, bind_eq_some.mpr ⟨args, ';' :: t, upTo_char ha _, ?_⟩⟩
  exact bind_eq_some.mpr ⟨none, _, rfl, bind_eq_some.mpr ⟨(), t, rfl, rfl⟩⟩

/-- A written type is read as what it is written with, whatever follows it. -/
theorem typeForm_append {name : Text} (hn : isName name = true) (t : Text) :
    typeForm ("CREATE TYPE " ++ (name ++ (";" ++ t))) = some (.type name, t) := by
  refine bind_eq_some.mpr ⟨(), _, rfl, bind_eq_some.mpr ⟨(), _, rfl, ?_⟩⟩
  refine bind_eq_some.mpr ⟨name, _, ident_before (l := [' ']) layout_space hn rfl _, ?_⟩
  exact bind_eq_some.mpr ⟨(), t, rfl, rfl⟩

/-! ### Operators -/

/-- A written property is read up to the comma or the parenthesis behind it. -/
theorem property_append {l k value : Text} (hl : ∀ c ∈ l, isLayout c = true)
    (hk : isName k = true) (hv : IsWord value) {c : Char} (hc : c = ',' ∨ c = ')') (s : Text) :
    property (l ++ (k ++ (" = " ++ (value ++ c :: s)))) =
      some ((lower k, value), c :: s) := by
  have stop : valueEnd? 0 (c :: s) = some ([], c :: s) := by
    rw [valueEnd?, if_pos ⟨rfl, hc⟩]
  have read : valueEnd? 0 (value ++ c :: s) = some (value, c :: s) := by
    rw [valueEnd?_closed hv.closed, stop]
    simp
  refine bind_eq_some.mpr ⟨k, _, ident_before hl hk rfl _, bind_eq_some.mpr ⟨(), _, rfl, ?_⟩⟩
  refine bind_eq_some.mpr ⟨(), value ++ c :: s, layout_eq_some.mpr ?_, ?_⟩
  · exact dropWhile_append_of_head (a := [' ']) layout_space
      (isLayout_of_head hv.ne_nil hv.isPart.trimmed)
  refine bind_eq_some.mpr ⟨value, c :: s, read, bind_eq_some.mpr ⟨(), c :: s, ?_, ?_⟩⟩
  · exact guard_eq_some.mpr ⟨hv.ne_nil, rfl⟩
  · rw [trim_of_trimmed hv.isPart.trimmed]
    rfl

/-- A property as it is written behind another one. -/
def furtherProperty (p : Text × Text) : Text :=
  ", " ++ (p.1 ++ (" = " ++ p.2))

/-- The properties behind the first one, to the end of their list. -/
theorem properties_append (ps : List (Text × Text))
    (h : ∀ p ∈ ps, isName p.1 = true ∧ IsWord p.2) (t : Text) :
    many (symbol "," >>= fun _ => property)
      (ps.flatMap furtherProperty ++ ')' :: t) =
      some (ps.map fun p => (lower p.1, p.2), ')' :: t) := by
  induction ps with
  | nil => exact many_of_none rfl
  | cons p ps ih =>
    obtain ⟨⟨hk, hv⟩, hs⟩ := List.forall_mem_cons.mp h
    obtain ⟨c, s, hc, rest⟩ : ∃ c s, (c = ',' ∨ c = ')') ∧
        ps.flatMap furtherProperty ++ ')' :: t = c :: s := by
      cases ps with
      | nil => exact ⟨')', t, .inr rfl, rfl⟩
      | cons q qs => exact ⟨',', _, .inl rfl, rfl⟩
    have ih := ih hs
    rw [rest] at ih
    simp only [List.flatMap_cons, furtherProperty, List.append_assoc, rest, List.map_cons]
    have read : (symbol "," >>= fun _ => property) (", " ++ (p.1 ++ (" = " ++ (p.2 ++ c :: s)))) =
        some ((lower p.1, p.2), c :: s) :=
      bind_eq_some.mpr ⟨(), _, rfl, property_append (l := [' ']) layout_space hk hv hc s⟩
    refine many_of_some read ?_ ih
    simp only [List.length_append]
    have := List.length_pos_iff.mpr hv.ne_nil
    omega

/-- A written operator is read as what it is written with, whatever follows it. -/
theorem operatorForm_append {name procedure left right : Text} (hn : name ≠ [])
    (hc : ∀ c ∈ name, c ≠ '(' ∧ isLayout c = false) (hp : IsWord procedure) (hl : IsWord left)
    (hr : IsWord right) (t : Text) :
    operatorForm ("CREATE OPERATOR " ++ (name ++ (" (PROCEDURE = " ++ (procedure ++
      (", LEFTARG = " ++ (left ++ (", RIGHTARG = " ++ (right ++ (");" ++ t))))))))) =
      some (.operator name [("procedure", procedure), ("leftarg", left), ("rightarg", right)],
        t) := by
  have word : ∀ c ∈ name, (c != '(' && !isLayout c) = true := fun c h => by simp [hc c h]
  have head (s : Text) : ∀ c, (name ++ s).head? = some c → isLayout c = false := fun c h => by
    obtain ⟨d, n, rfl⟩ := List.exists_cons_of_ne_nil hn
    cases h
    exact (hc c List.mem_cons_self).2
  have stop (s : Text) : ∀ c, (' ' :: s).head? = some c → (c != '(' && !isLayout c) = false :=
    fun c h => by
      cases h
      decide
  have more := properties_append [("LEFTARG", left), ("RIGHTARG", right)]
    (by simp only [List.forall_mem_cons]; exact ⟨⟨rfl, hl⟩, ⟨rfl, hr⟩, by simp⟩) (';' :: t)
  simp only [List.flatMap_cons, List.flatMap_nil, furtherProperty, List.append_nil,
    List.append_assoc] at more
  refine bind_eq_some.mpr ⟨(), _, rfl, bind_eq_some.mpr ⟨(), _, rfl, ?_⟩⟩
  refine bind_eq_some.mpr ⟨(), _, layout_eq_some.mpr
    (dropWhile_append_of_head (a := [' ']) layout_space (head _)), ?_⟩
  refine bind_eq_some.mpr ⟨name, _, run1_append hn word (stop _), ?_⟩
  refine bind_eq_some.mpr ⟨(), _, rfl, ?_⟩
  refine bind_eq_some.mpr ⟨_, _, property_append (l := []) (k := "PROCEDURE".toList) (by simp) rfl
    hp (.inl rfl) _, ?_⟩
  refine bind_eq_some.mpr ⟨_, _, more, bind_eq_some.mpr ⟨(), ';' :: t, rfl, ?_⟩⟩
  exact bind_eq_some.mpr ⟨(), t, rfl, rfl⟩

/-! ### All forms -/

theorem form_of_mark_some {s r : Text} {a : Statement} (h : markForm s = some (a, r)) :
    form s = some (a, r) :=
  orElse_of_some h

/-- What is read as a function is no mark, so it is read as a statement. -/
theorem form_of_function {s r : Text} {a : Statement} (h : functionForm s = some (a, r)) :
    form s = some (a, r) := by
  rw [form, orElse_of_none (opened_functionForm.not_mark h), orElse_of_some h]

theorem form_of_cast {s r : Text} {a : Statement} (h : castForm s = some (a, r)) :
    form s = some (a, r) := by
  have other := opened_castForm.other opened_functionForm (by decide) h
  rw [form, orElse_of_none (opened_castForm.not_mark h), orElse_of_none other, orElse_of_some h]

theorem form_of_type {s r : Text} {a : Statement} (h : typeForm s = some (a, r)) :
    form s = some (a, r) := by
  have other₁ := opened_typeForm.other opened_functionForm (by decide) h
  have other₂ := opened_typeForm.other opened_castForm (by decide) h
  rw [form, orElse_of_none (opened_typeForm.not_mark h), orElse_of_none other₁,
    orElse_of_none other₂, orElse_of_some h]

theorem form_of_operator {s r : Text} {a : Statement} (h : operatorForm s = some (a, r)) :
    form s = some (a, r) := by
  have other₁ := opened_operatorForm.other opened_functionForm (by decide) h
  have other₂ := opened_operatorForm.other opened_castForm (by decide) h
  have other₃ := opened_operatorForm.other opened_typeForm (by decide) h
  rw [form, orElse_of_none (opened_operatorForm.not_mark h), orElse_of_none other₁,
    orElse_of_none other₂, orElse_of_none other₃, h]

end Statement

namespace Script

/-! ### Items -/

/-- What a script is written of. -/
inductive Item where
  /-- A title, in a box with so many further asterisks in its first and in its last line. -/
  | mark (label : Text) (opening closing : Nat)
  | function (name : Text) (params : List Param.Form) (returnType path symbol : Text)
  | cast (source target function : Text) (args : List Text)
  | type (name : Text)
  | operator (symbol procedure left right : Text)
  deriving DecidableEq, Repr

namespace Item

/-- How the item is written, with `pad` after the commas of its lists. -/
def text (pad : Text) : Item → Text
  | .mark label opening closing =>
      "/*" ++ (List.replicate opening '*' ++ ("\n * " ++ (label ++ ("\n " ++
        (List.replicate closing '*' ++ "*/")))))
  | .function name params returnType path symbol =>
      "CREATE FUNCTION " ++ (name ++ ("(" ++ (joinWith (',' :: pad) (params.map Param.Form.text) ++
        (") RETURNS " ++ (returnType ++ (" AS '" ++ (path ++ ("', '" ++ (symbol ++
          "' LANGUAGE C;")))))))))
  | .cast source target f args =>
      "CREATE CAST (" ++ (source ++ (" AS " ++ (target ++ (") WITH FUNCTION " ++ (f ++
        ("(" ++ (joinWith (',' :: pad) args ++ ");")))))))
  | .type name => "CREATE TYPE " ++ (name ++ ";")
  | .operator symbol procedure left right =>
      "CREATE OPERATOR " ++ (symbol ++ (" (PROCEDURE = " ++ (procedure ++ (", LEFTARG = " ++
        (left ++ (", RIGHTARG = " ++ (right ++ ");")))))))

/-- The statement that the item is read as. -/
def statement (pad : Text) : Item → Statement
  | .mark label _ _ => .mark label
  | .function name params returnType _ symbol =>
      .function name (joinWith (',' :: pad) (params.map Param.Form.text)) returnType symbol
  | .cast source target f args =>
      .cast source target f (joinWith (',' :: pad) args)
  | .type name => .type name
  | .operator symbol procedure left right =>
      .operator symbol [("procedure", procedure), ("leftarg", left), ("rightarg", right)]

/-- The parts of the item can stand where they are written. -/
inductive Proper : Item → Prop where
  | mark {label : Text} {opening closing : Nat} (hl : label ≠ []) (ht : Trimmed label)
      (hc : ∀ c ∈ label, c ≠ '*' ∧ Scan.isLineBreak c = false) :
      Proper (.mark label opening closing)
  | function {name returnType path symbol : Text} {params : List Param.Form}
      (hn : isName name = true) (hp : ∀ p ∈ params, p.Proper) (hr : isName returnType = true)
      (hpath : '\'' ∉ path) (hq : '\'' ∉ symbol) (hs : symbol ≠ []) (ht : Trimmed symbol) :
      Proper (.function name params returnType path symbol)
  | cast {source target function : Text} {args : List Text} (hs : isName source = true)
      (ht : isName target = true) (hf : isName function = true)
      (ha : ∀ a ∈ args, isName a = true) : Proper (.cast source target function args)
  | type {name : Text} (hn : isName name = true) : Proper (.type name)
  | operator {symbol procedure left right : Text} (hs : symbol ≠ [])
      (hc : ∀ c ∈ symbol, c ≠ '(' ∧ isLayout c = false) (hp : IsWord procedure)
      (hl : IsWord left) (hr : IsWord right) : Proper (.operator symbol procedure left right)

/-- **An item is read to its own end**, whatever follows it. -/
theorem form_text {pad : Text} (hp : ∀ c ∈ pad, isLayout c = true) {i : Item} (h : i.Proper)
    (t : Text) : Statement.form (i.text pad ++ t) = some (i.statement pad, t) := by
  cases h with
  | @mark label opening closing hl ht hc =>
    refine Statement.form_of_mark_some ?_
    unfold text
    simp only [List.append_assoc]
    exact Statement.markForm_append hl ht hc opening closing t
  | @function name returnType path symbol params hn hps hr hpath hq hs ht =>
    have parts : ∀ w ∈ params.map Param.Form.text, IsPart w := fun w hw => by
      obtain ⟨p, hp, rfl⟩ := List.mem_map.mp hw
      exact (hps p hp).isPart
    refine Statement.form_of_function ?_
    unfold text
    simp only [List.append_assoc]
    exact Statement.functionForm_append hn (Statement.parenthesised_list hp parts) hr hpath hq t
  | cast hs ht hf ha =>
    refine Statement.form_of_cast ?_
    unfold text
    simp only [List.append_assoc]
    exact Statement.castForm_append hs ht hf (fun h => nomatch nesting_names hp ha _ h) t
  | type hn =>
    refine Statement.form_of_type ?_
    unfold text
    simp only [List.append_assoc]
    exact Statement.typeForm_append hn t
  | operator hs hc hp hl hr =>
    refine Statement.form_of_operator ?_
    unfold text
    simp only [List.append_assoc]
    exact Statement.operatorForm_append hs hc hp hl hr t

/-! ### What an item says -/

/-- The section mark of an item that `before` stands before. -/
def mark? (before : Text) : Item → Option SectionMark
  | .mark label _ _ => some ⟨label, Text.nextLine before⟩
  | _ => none

def cast? : Item → Option Cast
  | .cast source target f args => some ⟨source, target, f, args⟩
  | _ => none

def type? : Item → Option Text
  | .type name => some name
  | _ => none

def operator? : Item → Option Operator
  | .operator symbol procedure left right => some ⟨symbol, procedure, some left, some right⟩
  | _ => none

/-- The declaration of an item that `before` stands before, in a script with the given marks, casts
and operators. -/
def declaration? (file : Option Nat) (pad : Text) (marks : List SectionMark) (casts : List Cast)
    (operators : List Operator) (before : Text) (i : Item) : Option Declaration :=
  match i with
  | .function name params returnType _ symbol =>
      let params := Param.Form.params params
      let line := Text.nextLine before
      let category := categoryAt marks line
      some {
        name, returnType, params, symbol, category, line
        defaults := []
        definition := i.text pad
        isOperator := Category.isOperator category
        isAggregate := Category.isAggregate category
        isCast := isCast casts name symbol params
        operator? := operatorOf? operators name params
        span := ⟨file, byteLength before, byteLength (before ++ i.text pad)⟩ }
  | _ => none

section Found

variable {pad : Text} {i : Item} {before rest : Text}

/-- The item as it is found with `rest` after it. -/
def found (pad : Text) (i : Item) (rest : Text) : Found Statement :=
  ⟨i.statement pad, i.text pad ++ rest, rest⟩

/-- An item stands on the line that the text before it leads to. -/
theorem lineOf_found :
    lineOf (before ++ (i.text pad ++ rest)) (i.found pad rest) = Text.nextLine before :=
  congrArg Text.nextLine (upTo_append_self _ _)

/-- What is reported of a mark. -/
theorem mark?_found :
    Script.mark? (before ++ (i.text pad ++ rest)) (i.found pad rest) = i.mark? before := by
  cases i with
  | mark label opening closing =>
    exact congrArg (fun line => some (SectionMark.mk label line)) lineOf_found
  | _ => rfl

/-- What is reported of a cast. -/
theorem cast?_found (hp : ∀ c ∈ pad, isLayout c = true) (h : i.Proper) :
    Script.cast? (i.found pad rest) = i.cast? := by
  cases h with
  | @cast source target f args _ _ _ ha =>
    exact congrArg (fun args => some (Cast.mk source target f args)) (splitBy_names hp ha)
  | _ => rfl

theorem type?_found : Script.type? (i.found pad rest) = i.type? := by
  cases i <;> rfl

theorem operator?_found : Script.operator? (i.found pad rest) = i.operator? := by
  cases i <;> rfl

/-- The span of an item is between the lengths of the text before it and with it. -/
theorem span_found (file : Option Nat) :
    (i.found pad rest).span file (before ++ (i.text pad ++ rest)) =
      ⟨file, byteLength before, byteLength (before ++ i.text pad)⟩ := by
  simp only [Found.span, Span.between, found, byteLength_append, Span.mk.injEq, true_and]
  omega

/-- What is reported of a function. -/
theorem declaration?_found (hp : ∀ c ∈ pad, isLayout c = true) (h : i.Proper) (file : Option Nat)
    (marks : List SectionMark) (casts : List Cast) (operators : List Operator) :
    Script.declaration? file (before ++ (i.text pad ++ rest)) marks casts operators
        (i.found pad rest) = i.declaration? file pad marks casts operators before := by
  cases h with
  | @function name returnType path symbol params hn hps hr hpath hq hs ht =>
    have value : (found pad (.function name params returnType path symbol) rest).value =
      .function name (joinWith (',' :: pad) (params.map Param.Form.text)) returnType symbol := rfl
    have definition : (found pad (.function name params returnType path symbol) rest).text =
        text pad (.function name params returnType path symbol) := upTo_append_self _ _
    have some_symbol : symbol.isEmpty = false := List.isEmpty_eq_false_iff.mpr hs
    simp only [Script.declaration?, value, trim_of_trimmed ht, some_symbol, lineOf_found,
      span_found, definition, Param.parseList_text hp hps]
    rfl
  | _ => rfl

end Found

end Item

/-! ### Scripts -/

/-- The text of items, each with the layout after it. -/
def written (pad : Text) (items : List (Item × Text)) : Text :=
  items.flatMap fun (i, after) => i.text pad ++ after

/-- The items, each with the text before it. -/
def placed (pad before : Text) : List (Item × Text) → List (Text × Item)
  | [] => []
  | (i, after) :: items => (before, i) :: placed pad (before ++ (i.text pad ++ after)) items

/-- What the items say, each kind in the order of the items. -/
def ofItems (file : Option Nat) (pad : Text) (items : List (Item × Text)) : Script :=
  let marks := (placed pad [] items).filterMap fun (before, i) => i.mark? before
  let casts := items.filterMap fun (i, _) => i.cast?
  let operators := items.filterMap fun (i, _) => i.operator?
  { declarations := (placed pad [] items).filterMap fun (before, i) =>
      i.declaration? file pad marks casts operators before
    marks, casts, operators
    types := items.filterMap fun (i, _) => i.type? }

variable {pad : Text} {items : List (Item × Text)}

/-- The item as a piece of the text. -/
def Item.piece (pad : Text) : Item × Text → Scan.Piece Statement
  | (i, after) => ⟨i.text pad, i.statement pad, after⟩

theorem written_pieces (items : List (Item × Text)) :
    Scan.Piece.written (items.map (Item.piece pad)) = written pad items := by
  simp [written, Scan.Piece.written, Item.piece, List.flatMap_map]

/-- The statements of a written script are its items. -/
theorem statements_written (hp : ∀ c ∈ pad, isLayout c = true)
    (h : ∀ i ∈ items, i.1.Proper ∧ ∀ c ∈ i.2, isLayout c = true) :
    statements (written pad items) = Scan.Piece.found (items.map (Item.piece pad)) := by
  rw [← written_pieces]
  refine Scan.sweep_written fun p hpiece => ?_
  obtain ⟨⟨i, after⟩, hi, rfl⟩ := List.mem_map.mp hpiece
  exact ⟨by cases i <;> rfl, Item.form_text hp (h _ hi).1, (h _ hi).2⟩

/-- What is said of what is found is what the items say where they stand. -/
theorem filterMap_found {β : Type} (say : Found Statement → Option β)
    (say' : Text × Item → Option β) {source before : Text} (h : ∀ i ∈ items, i.1.Proper)
    (hs : ∀ before i rest, i.Proper → source = before ++ (i.text pad ++ rest) →
      say (i.found pad rest) = say' (before, i))
    (hb : source = before ++ written pad items) :
    (Scan.Piece.found (items.map (Item.piece pad))).filterMap say =
      (placed pad before items).filterMap say' := by
  induction items generalizing before with
  | nil => rfl
  | cons x items ih =>
    obtain ⟨i, after⟩ := x
    obtain ⟨hi, hr⟩ := List.forall_mem_cons.mp h
    have here : source = before ++ (i.text pad ++ (after ++ written pad items)) := by
      simpa [written] using hb
    have rest : source = before ++ (i.text pad ++ after) ++ written pad items := by
      simpa using here
    have first : say ⟨i.statement pad, i.text pad ++ (after ++ written pad items),
        after ++ written pad items⟩ = say' (before, i) := hs _ _ _ hi here
    simp only [List.map_cons, Scan.Piece.found, Item.piece, written_pieces, placed,
      List.filterMap_cons, first, ih hr rest]

/-- The items that are placed are the items. -/
theorem map_placed (pad before : Text) (items : List (Item × Text)) :
    (placed pad before items).map Prod.snd = items.map Prod.fst := by
  induction items generalizing before with
  | nil => rfl
  | cons x items ih => simp [placed, ih]

/-- **A script of items says what the items say**: every mark, function, cast, type and operator as
it was written, each kind in order, and nothing else. -/
theorem parse_written (file : Option Nat) (hp : ∀ c ∈ pad, isLayout c = true)
    (h : ∀ i ∈ items, i.1.Proper ∧ ∀ c ∈ i.2, isLayout c = true) :
    parse file (written pad items) = ofItems file pad items := by
  have proper : ∀ i ∈ items, i.1.Proper := fun i hi => (h i hi).1
  have start : written pad items = [] ++ written pad items := rfl
  have kinds {β : Type} (say : Item → Option β) :
      (placed pad [] items).filterMap (fun x => say x.2) = items.filterMap fun x => say x.1 := by
    have := congrArg (List.filterMap say) (map_placed pad [] items)
    rwa [List.filterMap_map, List.filterMap_map] at this
  have marks := filterMap_found (mark? (written pad items)) (fun x => x.2.mark? x.1) proper
    (fun _ _ _ _ e => e ▸ Item.mark?_found) start
  have casts := (filterMap_found cast? (fun x => x.2.cast?) proper
    (fun _ _ _ hi _ => Item.cast?_found hp hi) start).trans (kinds Item.cast?)
  have types := (filterMap_found type? (fun x => x.2.type?) proper
    (fun _ _ _ _ _ => Item.type?_found) start).trans (kinds Item.type?)
  have operators := (filterMap_found operator? (fun x => x.2.operator?) proper
    (fun _ _ _ _ _ => Item.operator?_found) start).trans (kinds Item.operator?)
  have declarations (ms cs os) := filterMap_found (declaration? file (written pad items) ms cs os)
    (fun x => x.2.declaration? file pad ms cs os x.1) proper
    (fun _ _ _ hi e => e ▸ Item.declaration?_found hp hi file ms cs os) start
  simp only [parse, statements_written hp h, marks, casts, types, operators, declarations]
  rfl

/-- A script of all kinds of items. -/
def boxItems : List (Item × Text) :=
  [(.mark "Conversion functions" 3 2, "\n"),
    (.function "tbox" [⟨"numeric(10,2)", none⟩, ⟨"text", some "unit"⟩] "tbox" "MODULE" "Box_of",
      "\n\n"),
    (.cast "text" "tbox" "tbox" ["text"], "\n"), (.type "tbox", "\n"),
    (.operator "&&" "overlaps" "tbox" "tbox", "\n")]

/-- The items are proper. -/
theorem proper_boxItems : ∀ i ∈ boxItems, i.1.Proper ∧ ∀ c ∈ i.2, isLayout c = true := by
  have layout (t : Text) (h : t.all isLayout = true) : ∀ c ∈ t, isLayout c = true :=
    List.all_eq_true.mp h
  have bare (t : Text) (h : t.any isBlank = false) : ∀ c ∈ t, isBlank c = false := fun c hc => by
    simpa using List.any_eq_false.mp h c hc
  have decimal : Param.IsWord "numeric(10,2)" :=
    ⟨⟨by decide, bare _ (by decide), by decide⟩, by decide, by decide⟩
  have name {v : Text} (h : isName v = true) (hs : '=' ∉ v) (hd : sameLetters v "default" = false) :
      Param.IsWord v := ⟨isWord_of_isName h, hs, hd⟩
  simp only [boxItems, List.forall_mem_cons, List.not_mem_nil, false_implies, implies_true,
    and_true]
  refine ⟨⟨.mark (by decide) ⟨?_, ?_⟩ (by simp [Scan.isLineBreak]), layout _ rfl⟩,
    ⟨.function rfl ?_ rfl (by decide) (by decide) (by decide) (trimmed_of_not_blank (bare _ rfl)),
      layout _ rfl⟩,
    ⟨.cast rfl rfl rfl (by simp; rfl), layout _ rfl⟩, ⟨.type rfl, layout _ rfl⟩,
    ⟨.operator (by decide) (by simp [isLayout]) (isWord_of_isName rfl) (isWord_of_isName rfl)
      (isWord_of_isName rfl), layout _ rfl⟩⟩
  · rintro c ⟨⟩
    decide
  · rintro c ⟨⟩
    decide
  · simp only [List.forall_mem_cons, List.not_mem_nil, false_implies, implies_true, and_true]
    refine ⟨⟨decimal, by simp⟩, ⟨name rfl (by decide) rfl, ?_⟩⟩
    rintro _ ⟨⟩
    exact name rfl (by decide) rfl

/-- The theorem for that script, whose function has a title above it. -/
theorem parse_written_of_boxItems :
    parse none (written [' '] boxItems) = ofItems none [' '] boxItems
      ∧ (ofItems none [' '] boxItems).declarations.map (fun d => (d.category, d.line)) =
        [("conversion".toList, 4)] :=
  ⟨parse_written none Scan.layout_space proper_boxItems, by decide +kernel⟩

end Script

end VectorWrap
