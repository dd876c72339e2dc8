import VectorWrap.Proofs.Implementation.FetchOrder
import VectorWrap.Proofs.Scan.Collapsed

/-!
# The layout of a body

Bindings and return macros are found in a body however it is broken into lines and indented: two
bodies with the same collapsed text have the same slots and the same returns (`reads_of_collapse`).
The sweeps find the same things in the same order, and so the same of them overlap.

Positions change when layout is collapsed, but not their order (`Text.byteLength_collapse_le_iff`),
and whether two things overlap is a matter of order alone (`overlap_collapse`).
-/

namespace VectorWrap
open Scan

namespace ArgSlot

/-! ### What is read is read blindly -/

theorem blind_variableAhead : Blind variableAhead :=
  (blind_layout.bind fun _ => blind_name).bind fun _ => (blind_symbol (by decide)).bind fun _ =>
    blind_layout.bind fun _ => (blind_exactly (by decide)).absent

theorem blind_typeToken : Blind typeToken :=
  blind_layout.bind fun _ => blind_variableAhead.absent.bind fun _ =>
    ((blind_run1 fun _ => Text.inName_of_isLayout).bind fun _ => blind_pure _).orElse
      ((blind_exactly (by decide)).orElse (blind_exactly (by decide)))

/-- A token of a type is a word or a mark. -/
theorem solid_typeToken : Solid typeToken := by
  intro s r u h
  obtain ⟨a, w, rfl, -, token⟩ := exists_of_typeToken h
  -- whatever is read behind the layout ends with no layout
  have last : ∃ x c, w = x ++ [c] ∧ Text.isLayout c = false := by
    rcases token with word | rfl | rfl
    · obtain ⟨hw, taken, -⟩ := run1_eq_some.mp word
      refine ⟨w.dropLast, w.getLast hw, (List.dropLast_append_getLast hw).symm, ?_⟩
      have inside : w.getLast hw ∈ (w ++ r).takeWhile Text.inName := by
        rw [taken]
        exact List.getLast_mem hw
      have named := List.mem_takeWhile_imp inside
      rw [Bool.eq_false_iff]
      intro hl
      rw [Text.inName_of_isLayout hl] at named
      cases named
    · exact ⟨[], '*', rfl, by decide⟩
    · exact ⟨[':'], ':', rfl, by decide⟩
  obtain ⟨x, c, rfl, hc⟩ := last
  exact ⟨a ++ x, c, by simp, hc⟩

theorem blind_typeForm : Blind typeForm :=
  blind_squeezed_lexeme (blind_typeToken.many1 solid_typeToken) solid_typeToken.many1

/-- **A declaration is read however its text is broken into lines.** -/
theorem blind_declaration : Blind declaration :=
  blind_typeForm.bind fun _ => blind_assignment.bind fun _ => blind_pure _

end ArgSlot

theorem Return.blind_macroForm : Blind macroForm :=
  (blind_exactly (by decide)).bind fun _ =>
    (blind_run1 fun _ => ArgSlot.not_inKind_of_isLayout).bind fun _ =>
      (blind_symbol (by decide)).bind fun _ => blind_pure _

/-! ### What is found -/

/-- Of two texts that follow in a body the first begins first in the collapsed body as well, if the
later one begins with no layout. -/
theorem Text.byteLength_collapse_le_iff {s x y : Text} {c : Char} (hc : isLayout c = false)
    (hx : c :: x <:+ s) (hy : y <:+ s) :
    byteLength (collapse (c :: x)) ≤ byteLength (collapse y) ↔
      byteLength (c :: x) ≤ byteLength y := by
  rcases List.suffix_or_suffix_of_suffix hx hy with h | h
  · exact iff_of_true (byteLength_le_of_suffix (collapse_suffix h)) (byteLength_le_of_suffix h)
  · rcases List.suffix_cons_iff.mp h with rfl | h
    · exact iff_of_true le_rfl le_rfl
    · -- `y` is behind `c`, and so behind it in the collapsed text
      have width := c.utf8Size_pos
      have shorter := byteLength_le_of_suffix h
      have shorter' := byteLength_le_of_suffix (collapse_suffix h)
      rw [collapse_cons hc]
      simp only [byteLength]
      exact iff_of_false (by omega) (by omega)

namespace ArgSlot

/-- The declarations of the collapsed text are those of the text. -/
theorem sweep_declaration_collapse (s : Text) : sweep declaration codeGap (Text.collapse s) =
    (sweep declaration codeGap s).map Found.collapse :=
  sweep_collapse blind_declaration blind_codeGap closed_declaration.suffix
    Implementation.suffix_codeGap s

/-- The assignments of the collapsed text are those of the text. -/
theorem sweep_assignment_collapse (s : Text) : sweep assignment codeGap (Text.collapse s) =
    (sweep assignment codeGap s).map Found.collapse :=
  sweep_collapse blind_assignment blind_codeGap closed_assignment.suffix
    Implementation.suffix_codeGap s

/-- The same overlap in the collapsed text. -/
theorem overlap_collapse {s : Text} {d a : Found Binding}
    (hd : d ∈ sweep declaration codeGap s) (ha : a ∈ sweep assignment codeGap s) :
    overlap d.collapse a.collapse = overlap d a := by
  have dh := suffix_of_mem_declared hd
  have ah := suffix_of_mem_assigned ha
  have dr := (closed_declaration.suffix (item_of_mem_sweep hd)).trans dh
  have ar := (closed_assignment.suffix (item_of_mem_sweep ha)).trans ah
  have begins {form : Scan Binding} {f : Found Binding} (hf : f ∈ sweep form codeGap s)
      (hc : Closed form) : ∃ c x, f.here = c :: x ∧ Text.isLayout c = false := by
    cases e : f.here with
    | nil =>
      have := hc.shrinks (item_of_mem_sweep hf)
      rw [e] at this
      exact absurd this (Nat.not_lt_zero _)
    | cons c x => exact ⟨c, x, rfl, isLayout_of_mem_sweep hf (by rw [e]; rfl)⟩
  obtain ⟨c, x, hx, hc⟩ := begins hd closed_declaration
  obtain ⟨c', x', hx', hc'⟩ := begins ha closed_assignment
  rw [hx] at dh
  rw [hx'] at ah
  simp only [overlap, Found.collapse, hx, hx', Text.byteLength_collapse_le_iff hc dh ar,
    Text.byteLength_collapse_le_iff hc' ah dr]

/-- The slots of the collapsed text are those of the text. -/
theorem found_collapse (s : Text) : found (Text.collapse s) = found s := by
  have merges (t : Text) : found t =
      merged overlap (sweep declaration codeGap t) (sweep assignment codeGap t) :=
    found_eq_slots t
  rw [merges, merges, sweep_declaration_collapse, sweep_assignment_collapse]
  exact merged_map (g := Found.collapse) (fun _ => rfl) fun d hd a ha => overlap_collapse hd ha

end ArgSlot

/-- The returns of the collapsed text are those of the text. -/
theorem Return.kinds_collapse (s : Text) : kinds (Text.collapse s) = kinds s := by
  rw [kinds_eq, kinds_eq, sweep_collapse blind_macroForm blind_codeGap closed_macroForm.suffix
    Implementation.suffix_codeGap, List.map_map]
  rfl

/-- **Where a body is broken into lines makes no difference to its slots and returns.** -/
theorem reads_of_collapse {s t : Text} (h : Text.collapse s = Text.collapse t) :
    ArgSlot.ofBody s = ArgSlot.ofBody t ∧ Return.summary s = Return.summary t := by
  have slots : ArgSlot.found s = ArgSlot.found t := by
    rw [← ArgSlot.found_collapse, h, ArgSlot.found_collapse]
  have kinds : Return.kinds s = Return.kinds t := by
    rw [← Return.kinds_collapse, h, Return.kinds_collapse]
  rw [ArgSlot.ofBody, slots, Return.summary, kinds]
  exact ⟨rfl, rfl⟩

end VectorWrap
