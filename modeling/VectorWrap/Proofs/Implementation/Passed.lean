import VectorWrap.Proofs.Implementation.Rows
import VectorWrap.Proofs.Scan.Written

/-!
# What a search passes over

A binding or a return macro begins with words, and then comes one certain character: the equals sign
or the parenthesis (`Leads`).  So nothing is found where another character comes first, and words,
asterisks and what else may stand in a type are passed over (`sweep_type`).

The two conditions on a mark say why a sweep goes one character on there: it begins no comment and
no literal, and it stands in no name.  Layout and whole names are passed over as gaps of their own.
-/

namespace VectorWrap

namespace ArgSlot
open Scan

/-! ### Types -/

theorem inType_of_isLayout {c : Char} (h : Text.isLayout c = true) : inType c = true := by
  simp [inType, h]

theorem inType_of_inName {c : Char} (h : Text.inName c = true) : inType c = true := by
  simp [inType, h]

/-- What may stand in a type begins no literal and no comment. -/
theorem not_quote_of_inType {c : Char} (h : inType c = true) : isQuote c = false ∧ c ≠ '/' := by
  refine ⟨isQuote_of_class inType rfl rfl h, ?_⟩
  rintro rfl
  cases h

theorem inName_of_inKind {c : Char} (h : inKind c = true) : Text.inName c = true := by
  simp only [inKind, Text.inName, Char.isAlphanum, Char.isAlpha, Bool.or_eq_true] at h ⊢
  rcases h with (h | h) | h <;> simp [h]

variable {t : Text}

/-- The rest of a type stands before the same text. -/
theorem TypeBefore.suffix {y z : Text} (h : TypeBefore t y) (hz : z <:+ y) : TypeBefore t z where
  chars e he := h.chars e (hz.subset he)
  whole e f he := by
    obtain ⟨x, hx⟩ := hz
    by_cases hz0 : z = []
    · rw [hz0] at he
      cases he
    · exact h.whole e f (by rw [← hx, List.getLast?_append_of_ne_nil _ hz0, he])

/-- A word in a type ends in the type. -/
theorem TypeBefore.dropWhile_inName {y : Text} (h : TypeBefore t y) :
    (y ++ t).dropWhile Text.inName = y.dropWhile Text.inName ++ t ∨ y = [] := by
  by_cases hy : y.dropWhile Text.inName = []
  · by_cases hy0 : y = []
    · exact .inr hy0
    · have word := List.dropWhile_eq_nil_iff.mp hy
      obtain ⟨c, hc⟩ := Option.isSome_iff_exists.mp (List.getLast?_isSome.mpr hy0)
      rw [hy]
      exact .inl (Text.dropWhile_append_of_head word fun d hd =>
        h.whole c d hc hd (word c (List.mem_of_getLast? hc)))
  · exact .inl (Text.dropWhile_append_of_ne_nil t hy)

end ArgSlot

open Scan ArgSlot

/-! ### What is passed over -/

namespace Scan

variable {α : Type} {item : Scan α} {gap : Scan Unit} {t : Text} {c d : Char}

theorem not_opensComment_of_ne (h : c ≠ '/') (s : Text) : ¬ opensComment c s :=
  fun ho => h ho.1

theorem ne_slash_of_inName (h : Text.inName c = true) : c ≠ '/' := by
  rintro rfl
  cases h

theorem sweep_blanks {a : Text} (ha : ∀ c ∈ a, Text.isLayout c = true) (s : Text) :
    sweep item gap (a ++ s) = sweep item gap s :=
  sweep_congr (List.dropWhile_append_of_pos ha)

/-- A word is passed over as a whole. -/
theorem sweep_word {v : Text} (hv : Text.isName v = true)
    (ht : ∀ c, t.head? = some c → Text.inName c = false) (hi : item (v ++ t) = none) :
    sweep item codeGap (v ++ t) = sweep item codeGap t := by
  cases v with
  | nil => cases hv
  | cons c v =>
    have all := Text.all_inName_of_isName hv
    rw [Text.isName, Bool.and_eq_true] at hv
    have hc := all c List.mem_cons_self
    have passed := codeGap_name (s := v ++ t) (isQuote_of_inName hc)
      (not_opensComment_of_ne (ne_slash_of_inName hc) _) hv.1
    rw [← List.cons_append, Text.dropWhile_append_of_head all ht] at passed
    exact sweep_gap (Text.isLayout_of_startsName hv.1) hi passed
      (Text.length_lt_cons_append c v t)

/-- A character that belongs to no word is passed over. -/
theorem sweep_mark (hl : Text.isLayout c = false) (hq : isQuote c = false) (hs : c ≠ '/')
    (hn : Text.startsName c = false) (hi : item (c :: t) = none) :
    sweep item codeGap (c :: t) = sweep item codeGap t :=
  sweep_char hl hi (codeGap_eq_none hq (not_opensComment_of_ne hs t) hn)

/-- What may stand in a type is passed over where nothing is read in it. -/
theorem sweep_type {y : Text} (hy : TypeBefore t y)
    (hi : ∀ z c, c :: z <:+ y → Text.isLayout c = false → item (c :: z ++ t) = none) :
    sweep item codeGap (y ++ t) = sweep item codeGap t := by
  induction hk : y.length using Nat.strong_induction_on generalizing y with
  | _ k ih =>
    cases y with
    | nil => rfl
    | cons c y =>
      -- the rest of a type is passed over in the same way
      have rest : ∀ z, z <:+ y → sweep item codeGap (z ++ t) = sweep item codeGap t := by
        intro z hz
        have whole := hz.trans (List.suffix_cons c y)
        have shorter : z.length < k := by
          have := hz.length_le
          rw [← hk, List.length_cons]
          omega
        exact ih z.length shorter (hy.suffix whole) (fun x e hx => hi x e (hx.trans whole)) rfl
      obtain ⟨hq, hslash⟩ := not_quote_of_inType (hy.chars c List.mem_cons_self)
      cases hl : Text.isLayout c with
      | true => rw [List.cons_append, sweep_layout hl, rest y List.suffix_rfl]
      | false =>
        have unread := hi y c List.suffix_rfl hl
        cases hs : Text.startsName c with
        | true =>
          have passed := codeGap_name (s := y ++ t) hq (not_opensComment_of_ne hslash _) hs
          have word := hy.dropWhile_inName.resolve_right (List.cons_ne_nil c y)
          have drop : (c :: y).dropWhile Text.inName = y.dropWhile Text.inName :=
            List.dropWhile_cons_of_pos (Text.inName_of_startsName hs)
          rw [← List.cons_append, word, drop] at passed
          have shorter : (y.dropWhile Text.inName ++ t).length < (c :: y ++ t).length := by
            have := Text.length_dropWhile_le Text.inName y
            simp only [List.length_append, List.length_cons]
            omega
          rw [List.cons_append] at unread passed shorter ⊢
          rw [sweep_gap hl unread passed shorter, rest _ (List.dropWhile_suffix _)]
        | false =>
          rw [List.cons_append] at unread ⊢
          rw [sweep_mark hl hq hslash hs unread, rest y List.suffix_rfl]

/-- What is read begins with words, or with what else may stand in a type, and then a `d`. -/
def Leads (d : Char) (item : Scan α) : Prop :=
  ∀ {s r a}, item s = some (a, r) →
    ∃ x y, s = x ++ d :: y ∧ x ≠ [] ∧ ∀ c ∈ x, ArgSlot.inType c = true

/-- Nothing is read at a character that may not stand in a type. -/
theorem Leads.head_none (h : Leads d item) (hc : ArgSlot.inType c = false) :
    item (c :: t) = none := by
  rw [Option.eq_none_iff_forall_ne_some]
  rintro ⟨a, r⟩ hr
  obtain ⟨x, y, e, hx, chars⟩ := h hr
  cases x with
  | nil => exact hx rfl
  | cons b x =>
    obtain ⟨rfl, -⟩ := List.cons_eq_cons.mp e
    rw [chars c List.mem_cons_self] at hc
    cases hc

/-- Nothing is read where another character comes first. -/
theorem Leads.blocked {a : Text} (h : Leads d item) (ha : d ∉ a) (hc : ArgSlot.inType c = false)
    (hcd : c ≠ d) : item (a ++ c :: t) = none := by
  rw [Option.eq_none_iff_forall_ne_some]
  rintro ⟨v, r⟩ hr
  obtain ⟨x, y, e, -, chars⟩ := h hr
  rcases List.append_eq_append_iff.mp e with ⟨z, rfl, hz⟩ | ⟨z, rfl, hz⟩
  · cases z with
    | nil => exact hcd (List.cons_eq_cons.mp hz).1
    | cons b z =>
      obtain ⟨rfl, -⟩ := List.cons_eq_cons.mp hz
      rw [chars c (by simp)] at hc
      cases hc
  · cases z with
    | nil => exact hcd (List.cons_eq_cons.mp hz).1.symm
    | cons b z =>
      obtain ⟨rfl, -⟩ := List.cons_eq_cons.mp hz
      exact ha (by simp)

end Scan

namespace ArgSlot

/-- An assignment is read up to its equals sign. -/
theorem leads_assignment : Leads '=' assignment := by
  intro s r b h
  obtain ⟨lay, gap, t, rfl, hl, hg⟩ := parts_of_assignment h
  refine ⟨lay ++ b.var ++ gap, t, by simp, ?_, ?_⟩
  · have := Text.ne_nil_of_isName (isName_of_assignment h)
    simp [this]
  · intro c hc
    simp only [List.mem_append] at hc
    rcases hc with (hc | hc) | hc
    · exact inType_of_isLayout (hl c hc)
    · exact inType_of_inName (Text.all_inName_of_isName (isName_of_assignment h) c hc)
    · exact inType_of_isLayout (hg c hc)

/-- A declaration is read up to its equals sign. -/
theorem leads_declaration : Leads '=' declaration := by
  intro s r b h
  obtain ⟨type, s₁, htype, h⟩ := bind_eq_some.mp h
  obtain ⟨b', s₂, hassign, -⟩ := bind_eq_some.mp h
  obtain ⟨p, x, rfl, hp, chars, -, -, hread⟩ := exists_start_of_typed htype hassign
  obtain ⟨y, z, rfl, -, more⟩ := leads_assignment hread
  exact ⟨p ++ y, z, by simp, by simp [hp], List.forall_mem_append.mpr ⟨chars, more⟩⟩

end ArgSlot

namespace Return

/-- A return macro is read up to its parenthesis. -/
theorem leads_macroForm : Leads '(' macroForm := by
  intro s r kind h
  obtain ⟨_, s₁, h₁, h⟩ := bind_eq_some.mp h
  obtain ⟨kind', s₂, h₂, h⟩ := bind_eq_some.mp h
  obtain ⟨_, s₃, h₃, -⟩ := bind_eq_some.mp h
  obtain ⟨-, rfl, rfl⟩ := run1_eq_some.mp h₂
  have paren : (s₁.dropWhile inKind).dropWhile Text.isLayout = '(' :: s₃ := symbol_eq_some.mp h₃
  refine ⟨"PG_RETURN_".toList ++ s₁.takeWhile inKind ++
    (s₁.dropWhile inKind).takeWhile Text.isLayout, s₃, ?_, by simp, ?_⟩
  · rw [List.append_assoc, List.append_assoc, ← paren, List.takeWhile_append_dropWhile,
      List.takeWhile_append_dropWhile]
    exact exactly_eq_some.mp h₁
  · intro c hc
    simp only [List.mem_append] at hc
    rcases hc with (hc | hc) | hc
    · exact List.all_eq_true.mp (by decide : "PG_RETURN_".toList.all inType = true) c hc
    · exact inType_of_inName (inName_of_inKind (List.mem_takeWhile_imp hc))
    · exact inType_of_isLayout (List.mem_takeWhile_imp hc)

end Return

end VectorWrap
