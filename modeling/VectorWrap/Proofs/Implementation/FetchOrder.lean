import VectorWrap.Proofs.Declaration.Sections
import VectorWrap.Proofs.Implementation.Comments
import VectorWrap.Proofs.Implementation.Fetches
import VectorWrap.Proofs.Implementation.Literals

/-!
# The order of the fetches

The search for declarations finds a fetch statement from its type on, the search for assignments
from its variable on, and the search for return macros finds nothing in it.  Each then goes on
behind the line as if it were not there.

What a sweep does in the statement depends on what its item reads before the character that it waits
for (`Leads`), which is words and what else may stand in a type; where another character comes first
the item fails, and the sweep passes on.
-/

namespace VectorWrap

open Scan ArgSlot

namespace ArgSlot.Fetch

variable {f : Fetch}

/-! ### The searches of a line -/

variable {α : Type} {item : Scan α} {d : Char}

/-- The name of the macro is a name. -/
theorem isName_call (hf : f.Proper) : Text.isName ("PG_GETARG_" ++ f.kind) = true := by
  have rest : ("G_GETARG_" ++ f.kind : Text).all Text.inName = true :=
    List.all_eq_true.mpr fun c hc => (List.mem_append.mp hc).elim
      (List.all_eq_true.mp (by decide) c) fun h => inName_of_inKind (hf.kind.2 c h)
  exact rest

/-- Words in a parenthesis are passed over. -/
theorem sweep_words (h : Leads d item) (hd : inType d = false) (hp : d ≠ ')') {y : Text}
    (hy : ∀ c ∈ y, inType c = true) (t : Text) :
    sweep item codeGap (y ++ ')' :: t) = sweep item codeGap (')' :: t) := by
  refine sweep_type ⟨hy, fun c e _ he _ => ?_⟩ fun z c hz _ => ?_
  · cases he
    rfl
  · refine h.blocked (fun hm => ?_) rfl hp.symm
    rw [hy d (hz.subset hm)] at hd
    cases hd

theorem sweep_close (h : Leads d item) (t : Text) :
    sweep item codeGap (')' :: t) = sweep item codeGap t :=
  sweep_mark rfl rfl (by decide) rfl (h.head_none rfl)

theorem sweep_open (h : Leads d item) (t : Text) :
    sweep item codeGap ('(' :: t) = sweep item codeGap t :=
  sweep_mark rfl rfl (by decide) rfl (h.head_none rfl)

/-- A sweep passes an equals sign. -/
theorem sweep_sign (h : Leads d item) (t : Text) :
    sweep item codeGap (" = " ++ t) = sweep item codeGap t := by
  have sign : sweep item codeGap ('=' :: ' ' :: t) = sweep item codeGap (' ' :: t) :=
    sweep_mark rfl rfl (by decide) rfl (h.head_none rfl)
  exact (sweep_layout rfl _).trans (sign.trans (sweep_layout rfl _))

/-- A sweep passes the end of a statement. -/
theorem sweep_end (h : Leads d item) (t : Text) :
    sweep item codeGap (";\n" ++ t) = sweep item codeGap t := by
  have semicolon : sweep item codeGap (';' :: '\n' :: t) = sweep item codeGap ('\n' :: t) :=
    sweep_mark rfl rfl (by decide) rfl (h.head_none rfl)
  exact semicolon.trans (sweep_layout rfl _)

/-- A sweep that finds nothing at a fetch passes it. -/
theorem sweep_call (hf : f.Proper) (h : Leads d item) (hd : inType d = false) (hp : d ≠ ')')
    {t : Text} (hcall : item (f.call ++ t) = none) :
    sweep item codeGap (f.call ++ t) = sweep item codeGap t := by
  have digits : ∀ c ∈ f.digits, inType c = true := fun c hc =>
    inType_of_inName (inName_of_isDigit (hf.digits.2 c hc))
  rw [call_append, ← List.append_assoc] at hcall ⊢
  have word : sweep item codeGap (("PG_GETARG_" ++ f.kind) ++ ("(" ++ (f.digits ++ (")" ++ t)))) =
      sweep item codeGap ("(" ++ (f.digits ++ (")" ++ t))) :=
    sweep_word (isName_call hf) (fun c hc => by cases hc; rfl) hcall
  exact word.trans ((sweep_open h _).trans ((sweep_words h hd hp digits t).trans (sweep_close h t)))

/-- A sweep that finds nothing behind the equals sign passes it. -/
theorem sweep_right (hf : f.Proper) (h : Leads d item) (hd : inType d = false) (hp : d ≠ ')')
    {t : Text} (hcall : item (f.call ++ t) = none) :
    sweep item codeGap (" = " ++ (f.right ++ t)) = sweep item codeGap t := by
  rw [sweep_sign h]
  cases e : f.cast? with
  | none =>
    rw [right, e]
    exact sweep_call hf h hd hp hcall
  | some type =>
    have right : f.right ++ t = '(' :: (type ++ ')' :: ' ' :: (f.call ++ t)) := by
      simp [Fetch.right, e]
    rw [right, sweep_open h, sweep_words h hd hp fun c hc =>
      inType_of_inWords ((hf.cast type e).1 c hc), sweep_close h, sweep_layout rfl]
    exact sweep_call hf h hd hp hcall

/-- The parts of a fetch statement, before what follows it. -/
theorem line_append (f : Fetch) (t : Text) :
    f.line ++ t = f.left ++ (f.var ++ (" = " ++ (f.right ++ (";\n" ++ t)))) := by
  unfold Fetch.line
  simp only [List.append_assoc]

/-- An equals sign leads behind the name of the macro to nothing. -/
theorem call_unread (hf : f.Proper) (h : Leads '=' item) (t : Text) :
    item (f.call ++ t) = none := by
  rw [call_append, ← List.append_assoc]
  refine h.blocked (fun hm => ?_) rfl (by decide)
  exact absurd (Text.all_inName_of_isName (isName_call hf) '=' hm) (by decide)

/-- A statement begins with its type. -/
theorem Proper.exists_left (hf : f.Proper) (hl : f.left ≠ []) :
    ∃ c y, f.left = c :: y ∧ Text.isLayout c = false := by
  obtain ⟨c, y, hy⟩ := List.exists_cons_of_ne_nil hl
  refine ⟨c, y, hy, isLayout_of_inWords (hf.left c (by rw [hy]; exact List.mem_cons_self)) ?_⟩
  rintro rfl
  exact hf.left_head (by rw [hy]; rfl)

/-- The variable has a first character, which is no layout. -/
theorem Proper.exists_var (hf : f.Proper) :
    ∃ c v, f.var = c :: v ∧ Text.isLayout c = false := by
  obtain ⟨c, v, hv⟩ := List.exists_cons_of_ne_nil (Text.ne_nil_of_isName hf.var)
  have starts := hf.var
  rw [hv, Text.isName, Bool.and_eq_true] at starts
  exact ⟨c, v, hv, Text.isLayout_of_startsName starts.1⟩

/-- The type ends before the variable. -/
theorem Proper.typeBefore (hf : f.Proper) (s : Text) : TypeBefore s f.left where
  chars c hc := inType_of_inWords (hf.left c hc)
  whole c e hc _ hn := by
    rw [hf.left_last c hc] at hn
    cases hn

/-- What is read to the end of the statement is found, and then the search goes on. -/
theorem sweep_found (h : Leads d item) {c : Char} {s t : Text} {a : α}
    (hc : Text.isLayout c = false) (read : item (c :: s ++ (";\n" ++ t)) = some (a, ";\n" ++ t)) :
    sweep item codeGap (c :: s ++ (";\n" ++ t)) =
      ⟨a, c :: s ++ (";\n" ++ t), ";\n" ++ t⟩ :: sweep item codeGap t := by
  rw [← sweep_end h t]
  exact sweep_item hc read (Text.length_lt_cons_append c s (";\n" ++ t))

/-- The search for declarations finds a statement if it has a type. -/
theorem sweep_declaration_line (hf : f.Proper) (t : Text) :
    sweep declaration codeGap (f.line ++ t) =
      (if f.left = [] then [] else [⟨f.binding, f.line ++ t, ";\n" ++ t⟩]) ++
        sweep declaration codeGap t := by
  split
  · next hl =>
    rw [line_append, hl, List.nil_append, List.nil_append, sweep_word hf.var
      (fun c hc => by cases hc; rfl) (declaration_bare hf _), sweep_right hf leads_declaration rfl
      (by decide) (call_unread hf leads_declaration _), sweep_end leads_declaration]
  · next hl =>
    obtain ⟨c, y, hy, hc⟩ := hf.exists_left hl
    have read := declaration_append hf hl (";\n" ++ t)
    have whole : f.line ++ t = c :: (y ++ (f.var ++ (" = " ++ f.right))) ++ (";\n" ++ t) := by
      rw [line_append, hy]
      simp only [List.cons_append, List.append_assoc]
    rw [← line_append, whole] at read
    rw [whole, sweep_found leads_declaration hc read, List.singleton_append]

/-- The search for assignments finds a statement from its variable on. -/
theorem sweep_assignment_line (hf : f.Proper) (t : Text) :
    sweep assignment codeGap (f.line ++ t) =
      ⟨⟨f.cast?.map Text.squeeze, f.var, f.kind, f.digits⟩,
        f.var ++ (" = " ++ (f.right ++ (";\n" ++ t))), ";\n" ++ t⟩ ::
        sweep assignment codeGap t := by
  obtain ⟨c, v, hv, hc⟩ := hf.exists_var
  have read := @assignment_append f hf [] (by simp) (";\n" ++ t)
  have whole : f.var ++ (" = " ++ (f.right ++ (";\n" ++ t))) =
      c :: (v ++ (" = " ++ f.right)) ++ (";\n" ++ t) := by
    rw [hv]
    simp only [List.cons_append, List.append_assoc]
  rw [List.nil_append, whole] at read
  rw [line_append, sweep_type (hf.typeBefore _) fun z e hz he => assignment_left hf hz he _, whole,
    sweep_found leads_assignment hc read]

/-- The search for return macros finds nothing in a statement. -/
theorem sweep_macro_line (hf : f.Proper) (t : Text) :
    sweep Return.macroForm codeGap (f.line ++ t) = sweep Return.macroForm codeGap t := by
  have sign : ∀ y : Text, (∀ c ∈ y, inType c = true) → ∀ s,
      Return.macroForm (y ++ (" = " ++ s)) = none := by
    intro y hy s
    have blocked := Return.leads_macroForm.blocked (a := y ++ [' ']) (c := '=') (t := ' ' :: s)
      (fun hm => ?_) rfl (by decide)
    · rwa [List.append_assoc] at blocked
    · rcases List.mem_append.mp hm with hm | hm
      · exact absurd (hy '(' hm) (by decide)
      · simp at hm
  have word : ∀ c ∈ f.var, inType c = true := fun c hc =>
    inType_of_inName (Text.all_inName_of_isName hf.var c hc)
  have call : Return.macroForm (f.call ++ (";\n" ++ t)) = none := by
    have other : exactly "PG_RETURN_" (f.call ++ (";\n" ++ t)) = none := exactly_of_ne fun x h => by
      rw [call_append] at h
      simp at h
    exact bind_of_none other
  rw [line_append, sweep_type (hf.typeBefore _) fun z c hz _ => ?_,
    sweep_word hf.var (fun c hc => by cases hc; rfl) (sign f.var word _),
    sweep_right hf Return.leads_macroForm rfl (by decide) call, sweep_end Return.leads_macroForm]
  rw [← List.append_assoc]
  exact sign _ (List.forall_mem_append.mpr
    ⟨fun e he => inType_of_inWords (hf.left e (hz.subset he)), word⟩) _

end ArgSlot.Fetch

namespace ArgSlot

/-! ### The slots of a text -/

/-- What is found as a declaration and what is found as an assignment share a part of the text. -/
def overlap (d a : Found Binding) : Bool :=
  !(Text.byteLength a.here ≤ Text.byteLength d.rest ||
    Text.byteLength d.here ≤ Text.byteLength a.rest)

/-- The slots of the declarations. -/
def declaredSlots (s : Text) : List ArgSlot :=
  (sweep declaration codeGap s).filterMap fun d => ofBinding? d.value

/-- The slot of an assignment that shares nothing with the slots that are declared. -/
def kept (s : Text) (a : Found Binding) : Option ArgSlot :=
  if (sweep declaration codeGap s).any fun d => (ofBinding? d.value).isSome && overlap d a
  then none else ofBinding? a.value

/-- The slots of the assignments that are no part of a declaration. -/
def assignedSlots (s : Text) : List ArgSlot :=
  (sweep assignment codeGap s).filterMap (kept s)

theorem suffix_of_mem_declared {s : Text} {d : Found Binding}
    (h : d ∈ sweep declaration codeGap s) : d.here <:+ s :=
  suffix_of_mem_sweep closed_declaration.suffix Implementation.suffix_codeGap h

theorem suffix_of_mem_assigned {s : Text} {a : Found Binding}
    (h : a ∈ sweep assignment codeGap s) : a.here <:+ s :=
  suffix_of_mem_sweep closed_assignment.suffix Implementation.suffix_codeGap h

/-- Overlaps do not depend on what stands before in the body. -/
theorem found_eq_slots (s : Text) : found s = declaredSlots s ++ assignedSlots s := by
  have same : ∀ d ∈ sweep declaration codeGap s, ∀ a ∈ sweep assignment codeGap s,
      overlap (id d) (id a) = (d.span none s).overlaps (a.span none s) := by
    intro d hd a ha
    have dh := suffix_of_mem_declared hd
    have ah := suffix_of_mem_assigned ha
    have dr := (closed_declaration.suffix (item_of_mem_sweep hd)).trans dh
    have ar := (closed_assignment.suffix (item_of_mem_sweep ha)).trans ah
    simp only [id, overlap, Span.overlaps, Found.span, Span.between, ge_iff_le,
      Text.offset_le_iff dr ah, Text.offset_le_iff ar dh]
  rw [found_eq, ← merged_map (g := id) (fun _ => rfl) same, List.map_id, List.map_id]
  rfl

namespace Fetch

variable {f : Fetch}

/-- The slot of the statement, if its number can be counted. -/
def slots (f : Fetch) : List ArgSlot :=
  (ofBinding? f.binding).toList

/-- The slot of a statement with a type. -/
def typed (f : Fetch) : List ArgSlot :=
  if f.left = [] then [] else f.slots

/-- The slot of a statement without a type. -/
def untyped (f : Fetch) : List ArgSlot :=
  if f.left = [] then f.slots else []

/-- A fetch statement adds its typed slot, if it has one, to the declared slots. -/
theorem declaredSlots_line (hf : f.Proper) (t : Text) :
    declaredSlots (f.line ++ t) = f.typed ++ declaredSlots t := by
  rw [declaredSlots, sweep_declaration_line hf, List.filterMap_append, typed, slots, declaredSlots]
  split
  · rfl
  · cases h : ofBinding? f.binding <;> simp [h]

/-- What is found behind a place does not overlap what is found before it. -/
theorem overlap_behind {d a : Found Binding} {t : Text} (hd : t <:+ d.rest) (ha : a.here <:+ t) :
    overlap d a = false := by
  have := Text.byteLength_le_of_suffix (ha.trans hd)
  simp [overlap, this]

theorem overlap_before {d a : Found Binding} {t : Text} (ha : t <:+ a.rest) (hd : d.here <:+ t) :
    overlap d a = false := by
  have := Text.byteLength_le_of_suffix (hd.trans ha)
  simp [overlap, this]

/-- Whether the number can be counted depends on the digits alone. -/
theorem isSome_ofBinding? {b b' : Binding} (h : b.digits = b'.digits) :
    (ofBinding? b).isSome = (ofBinding? b').isSome := by
  rw [ofBinding?, ofBinding?, h]
  split <;> rfl

/-- The assignment of a statement. -/
def assigned (f : Fetch) (t : Text) : Found Binding :=
  ⟨⟨f.cast?.map Text.squeeze, f.var, f.kind, f.digits⟩,
    f.var ++ (" = " ++ (f.right ++ (";\n" ++ t))), ";\n" ++ t⟩

theorem byteLength_assigned (f : Fetch) (t : Text) :
    Text.byteLength (";\n" ++ t) < Text.byteLength (f.assigned t).here := by
  have here : (f.assigned t).here = f.var ++ (" = " ++ (f.right ++ (";\n" ++ t))) := rfl
  have sign : Text.byteLength " = " = 3 := by decide
  simp only [here, Text.byteLength_append, sign]
  omega

/-- Behind a statement it does not matter what is declared in it. -/
theorem kept_behind (hf : f.Proper) {a : Found Binding} {t : Text}
    (ha : a ∈ sweep assignment codeGap t) : kept (f.line ++ t) a = kept t a := by
  have tail : t <:+ ";\n" ++ t := List.suffix_append _ _
  rw [kept, kept, sweep_declaration_line hf, List.any_append]
  split
  · rfl
  · rw [List.any_cons, List.any_nil, overlap_behind tail (suffix_of_mem_assigned ha),
      Bool.and_false, Bool.or_false, Bool.false_or]

/-- The assignment of a statement is kept if the statement has no type. -/
theorem kept_assigned (hf : f.Proper) (t : Text) :
    (kept (f.line ++ t) (f.assigned t)).toList = f.untyped := by
  have later : ((sweep declaration codeGap t).any fun d =>
      (ofBinding? d.value).isSome && overlap d (f.assigned t)) = false := by
    rw [List.any_eq_false]
    intro d hd
    rw [overlap_before (a := f.assigned t) (List.suffix_append _ _) (suffix_of_mem_declared hd),
      Bool.and_false]
    exact Bool.false_ne_true
  rw [kept, sweep_declaration_line hf, List.any_append, later, Bool.or_false, untyped]
  by_cases hl : f.left = []
  · have same : f.binding = (f.assigned t).value := by simp [binding, assigned, hl]
    rw [if_pos hl, if_pos hl, slots, same]
    rfl
  · have shared : overlap ⟨f.binding, f.line ++ t, ";\n" ++ t⟩ (f.assigned t) = true := by
      have longer := byteLength_assigned f t
      have whole : Text.byteLength (f.assigned t).here ≤ Text.byteLength (f.line ++ t) := by
        rw [line_append, Text.byteLength_append]
        exact Nat.le_add_left _ _
      have behind : (f.assigned t).rest = ";\n" ++ t := rfl
      simp only [overlap, Bool.not_eq_true', Bool.or_eq_false_iff, decide_eq_false_iff_not, behind]
      omega
    rw [if_neg hl, if_neg hl, List.any_cons, List.any_nil, shared, Bool.and_true, Bool.or_false]
    cases h : ofBinding? (f.assigned t).value with
    | none => simp
    | some slot =>
      have counted : (ofBinding? f.binding).isSome = (ofBinding? (f.assigned t).value).isSome :=
        isSome_ofBinding? rfl
      rw [if_pos (by rw [counted, h]; rfl)]
      rfl

/-- A fetch statement adds its untyped slot, if it has one, to the assigned slots. -/
theorem assignedSlots_line (hf : f.Proper) (t : Text) :
    assignedSlots (f.line ++ t) = f.untyped ++ assignedSlots t := by
  have later : (sweep assignment codeGap t).filterMap (kept (f.line ++ t)) = assignedSlots t :=
    List.filterMap_congr fun a ha => kept_behind hf ha
  rw [assignedSlots, sweep_assignment_line hf, ← assigned, List.filterMap_cons, later,
    ← kept_assigned hf t]
  cases kept (f.line ++ t) (f.assigned t) <;> rfl

end Fetch

end ArgSlot

end VectorWrap
