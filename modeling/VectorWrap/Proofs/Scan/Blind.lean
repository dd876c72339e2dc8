import VectorWrap.Implementation.Slot
import VectorWrap.Proofs.Scan.Written
import VectorWrap.Proofs.Text.Squeeze

/-!
# Scanners that do not see how much layout there is

`collapse` makes every run of layout one space.  A scanner is `Blind` if it reads of the collapsed
text what it reads of the text, and leaves the collapsed rest: where a line is broken makes no
difference to it.  What skips layout before each thing it reads is blind, so an assignment is
(`blind_assignment`); the type of a cast is squeezed anyway.

The relation between the text and the collapsed one is kept by every step: a blind scanner leaves
the collapsed rest, so the next one starts from the same relation (`Blind.bind`).  Runs are the one
thing that has to be looked at closely, for a run may go on over layout; it is blind when layout is
in the run or ends it (`takeWhile_collapse`, `takeWhile_collapse_of_layout`).
-/

namespace VectorWrap

namespace Text

/-! ### Collapsed texts -/

/-- A text with every run of layout made one space. -/
def collapse : Text → Text
  | [] => []
  | c :: s =>
      if isLayout c then if s.head?.any isLayout then collapse s else ' ' :: collapse s
      else c :: collapse s

variable {c : Char} {s t : Text}

@[simp]
theorem collapse_nil : collapse [] = [] := rfl

theorem collapse_cons (hc : isLayout c = false) (s : Text) :
    collapse (c :: s) = c :: collapse s := by
  rw [collapse, if_neg (by simp [hc])]

/-- Of a run of layout the last character counts. -/
theorem collapse_layout (hc : isLayout c = true) (s : Text) :
    s.head?.any isLayout = true ∧ collapse (c :: s) = collapse s ∨
      s.head?.any isLayout = false ∧ collapse (c :: s) = ' ' :: collapse s := by
  rw [collapse, if_pos hc]
  cases h : s.head?.any isLayout with
  | true => exact .inl ⟨rfl, by simp⟩
  | false => exact .inr ⟨rfl, by simp⟩

/-- A run of layout begins a collapsed text as a space. -/
theorem exists_collapse (hc : isLayout c = true) (s : Text) :
    ∃ t, collapse (c :: s) = ' ' :: t := by
  induction s generalizing c with
  | nil =>
    rcases collapse_layout hc [] with ⟨h, -⟩ | ⟨-, h⟩
    · cases h
    · exact ⟨_, h⟩
  | cons d s ih =>
    rcases collapse_layout hc (d :: s) with ⟨hd, h⟩ | ⟨-, h⟩
    · rw [h]
      exact ih (by simpa using hd)
    · exact ⟨_, h⟩

/-- A text with characters has one when it is collapsed. -/
theorem collapse_eq_nil : collapse s = [] ↔ s = [] := by
  refine ⟨fun h => ?_, fun h => by rw [h, collapse_nil]⟩
  cases s with
  | nil => rfl
  | cons c s =>
    cases hc : isLayout c with
    | true =>
      obtain ⟨t, ht⟩ := exists_collapse hc s
      rw [ht] at h
      cases h
    | false =>
      rw [collapse_cons hc] at h
      cases h

/-- A run of characters of which none or each is layout ends where it ended. -/
theorem dropWhile_collapse {p : Char → Bool} {b : Bool} (hp : ∀ c, isLayout c = true → p c = b)
    (s : Text) : (collapse s).dropWhile p = collapse (s.dropWhile p) := by
  induction s with
  | nil => rfl
  | cons c s ih =>
    cases hc : isLayout c with
    | false =>
      rw [collapse_cons hc]
      by_cases h : p c = true
      · rw [List.dropWhile_cons_of_pos h, List.dropWhile_cons_of_pos h, ih]
      · rw [List.dropWhile_cons_of_neg h, List.dropWhile_cons_of_neg h, collapse_cons hc]
    | true =>
      have space : p ' ' = b := hp ' ' (by decide)
      cases b with
      | true =>
        rw [List.dropWhile_cons_of_pos (hp c hc), ← ih]
        rcases collapse_layout hc s with ⟨-, h⟩ | ⟨-, h⟩ <;> rw [h]
        exact List.dropWhile_cons_of_pos space
      | false =>
        obtain ⟨t, ht⟩ := exists_collapse hc s
        rw [List.dropWhile_cons_of_neg (by simp [hp c hc]), ht]
        exact List.dropWhile_cons_of_neg (by simp [space])

/-- A run without layout is kept. -/
theorem takeWhile_collapse {p : Char → Bool} (hp : ∀ c, isLayout c = true → p c = false)
    (s : Text) : (collapse s).takeWhile p = s.takeWhile p := by
  induction s with
  | nil => rfl
  | cons c s ih =>
    cases hc : isLayout c with
    | false => rw [collapse_cons hc, List.takeWhile_cons, List.takeWhile_cons, ih]
    | true =>
      obtain ⟨t, ht⟩ := exists_collapse hc s
      rw [ht, List.takeWhile_cons_of_neg (by simp [hp ' ' (by decide)]),
        List.takeWhile_cons_of_neg (by simp [hp c hc])]

/-- A run with all its layout is collapsed. -/
theorem takeWhile_collapse_of_layout {p : Char → Bool} (hp : ∀ c, isLayout c = true → p c = true)
    (s : Text) : (collapse s).takeWhile p = collapse (s.takeWhile p) := by
  induction s with
  | nil => rfl
  | cons c s ih =>
    cases hc : isLayout c with
    | false =>
      rw [collapse_cons hc]
      by_cases h : p c = true
      · rw [List.takeWhile_cons_of_pos h, List.takeWhile_cons_of_pos h, ih, collapse_cons hc]
      · rw [List.takeWhile_cons_of_neg h, List.takeWhile_cons_of_neg h, collapse_nil]
    | true =>
      have next : (s.takeWhile p).head?.any isLayout = s.head?.any isLayout := by
        cases s with
        | nil => rfl
        | cons d s =>
          cases hd : isLayout d with
          | true => simp [hp d hd]
          | false => by_cases h : p d = true <;> simp [h, hd]
      rw [List.takeWhile_cons_of_pos (hp c hc), collapse, collapse, if_pos hc, if_pos hc, next]
      split_ifs
      · exact ih
      · rw [List.takeWhile_cons_of_pos (hp ' ' (by decide)), ih]

/-- What is no layout is in the collapsed text if it is in the text. -/
theorem mem_collapse (hc : isLayout c = false) : c ∈ collapse s ↔ c ∈ s := by
  induction s with
  | nil => rfl
  | cons d s ih =>
    cases hd : isLayout d with
    | false => rw [collapse_cons hd, List.mem_cons, List.mem_cons, ih]
    | true =>
      have ne : c ≠ d := by
        rintro rfl
        rw [hc] at hd
        cases hd
      have ne' : c ≠ ' ' := by
        rintro rfl
        cases hc
      rcases collapse_layout hd s with ⟨-, h⟩ | ⟨-, h⟩ <;> rw [h] <;> simp [ih, ne, ne']

/-! ### Collapsing a composed text -/

/-- What is no layout sets apart what is collapsed. -/
theorem collapse_append_cons (hc : isLayout c = false) (s t : Text) :
    collapse (s ++ c :: t) = collapse s ++ c :: collapse t := by
  induction s with
  | nil => exact collapse_cons hc t
  | cons d s ih =>
    rw [List.cons_append]
    cases hd : isLayout d with
    | false => rw [collapse_cons hd, collapse_cons hd, ih, List.cons_append]
    | true =>
      have next : (s ++ c :: t).head?.any isLayout = s.head?.any isLayout := by
        cases s with
        | nil => simp [hc]
        | cons e s => rfl
      rw [collapse, collapse, if_pos hd, if_pos hd, next, ih]
      split_ifs <;> rfl

/-- What is no layout stands in the text where it stands in the collapsed text. -/
theorem exists_of_collapse {u v : Text} (hc : isLayout c = false)
    (h : collapse s = u ++ c :: v) : ∃ u' v', s = u' ++ c :: v' ∧ collapse u' = u ∧
      collapse v' = v := by
  induction s generalizing u with
  | nil => simp at h
  | cons d s ih =>
    cases hd : isLayout d with
    | false =>
      rw [collapse_cons hd] at h
      cases u with
      | nil =>
        cases h
        exact ⟨[], s, rfl, rfl, rfl⟩
      | cons e u =>
        rw [List.cons_append, List.cons_eq_cons] at h
        obtain ⟨rfl, h⟩ := h
        obtain ⟨u', v', rfl, rfl, rfl⟩ := ih h
        exact ⟨d :: u', v', rfl, collapse_cons hd u', rfl⟩
    | true =>
      have next : ∀ u' v' : Text, (u' ++ c :: v').head?.any isLayout = u'.head?.any isLayout := by
        rintro (_ | ⟨e, u'⟩) v'
        · simp [hc]
        · rfl
      rcases collapse_layout hd s with ⟨hs, e⟩ | ⟨hs, e⟩ <;> rw [e] at h
      · obtain ⟨u', v', rfl, rfl, rfl⟩ := ih h
        rw [next] at hs
        exact ⟨d :: u', v', rfl, by rw [collapse, if_pos hd, if_pos hs], rfl⟩
      · cases u with
        | nil =>
          cases h
          cases hc
        | cons e u =>
          rw [List.cons_append, List.cons_eq_cons] at h
          obtain ⟨rfl, h⟩ := h
          obtain ⟨u', v', rfl, rfl, rfl⟩ := ih h
          rw [next] at hs
          exact ⟨d :: u', v', rfl, by rw [collapse, if_pos hd, if_neg (by simp [hs])], rfl⟩

/-- Texts with one collapsed form have the same end, if it is no layout. -/
theorem getLast?_of_collapse (hc : isLayout c = false) (h : collapse s = collapse t)
    (hs : s.getLast? = some c) : t.getLast? = some c := by
  obtain ⟨u, rfl⟩ : ∃ u, s = u ++ [c] := ⟨_, (List.dropLast_append_getLast? c hs).symm⟩
  rw [collapse_append_cons hc] at h
  obtain ⟨u', v', rfl, -, hv⟩ := exists_of_collapse hc h.symm
  rw [collapse_eq_nil.mp hv]
  simp

/-- A text may be collapsed before something is put behind it. -/
theorem collapse_append (s t : Text) : collapse (collapse s ++ t) = collapse (s ++ t) := by
  induction s with
  | nil => rfl
  | cons c s ih =>
    cases hc : isLayout c with
    | false => rw [collapse_cons hc, List.cons_append, List.cons_append, collapse_cons hc, ih,
        collapse_cons hc]
    | true =>
      rw [List.cons_append]
      rcases collapse_layout hc s with ⟨hs, h⟩ | ⟨hs, h⟩
      · obtain ⟨d, s', rfl⟩ : ∃ d s', s = d :: s' := by
          cases s with
          | nil => cases hs
          | cons d s' => exact ⟨d, s', rfl⟩
        rw [h, ih, List.cons_append]
        conv_rhs => rw [collapse, if_pos hc, if_pos (by simpa using hs)]
      · have next : (collapse s ++ t).head?.any isLayout = (s ++ t).head?.any isLayout := by
          cases s with
          | nil => rfl
          | cons d s =>
            have hd : isLayout d = false := by simpa using hs
            rw [collapse_cons hd]
            rfl
        rw [h, List.cons_append, collapse, collapse, if_pos hc, if_pos (by decide), next, ih]

/-- Of what is put behind a text in layout only that it is there counts. -/
theorem collapse_append_layout {g : Text} (hg : ∀ c ∈ g, isLayout c = true) (hne : g ≠ [])
    (s : Text) : collapse (s ++ g) = collapse (s ++ [' ']) := by
  have gap : collapse g = [' '] := by
    induction g with
    | nil => exact absurd rfl hne
    | cons c g ih =>
      obtain ⟨hc, hg⟩ := List.forall_mem_cons.mp hg
      cases g with
      | nil => simp [collapse, hc]
      | cons d g =>
        rw [collapse, if_pos hc, if_pos (by simpa using hg d List.mem_cons_self)]
        exact ih hg (by simp)
  induction s with
  | nil => exact gap
  | cons c s ih =>
    have next : (s ++ g).head?.any isLayout = (s ++ [' ']).head?.any isLayout := by
      cases s with
      | nil =>
        obtain ⟨d, g', rfl⟩ := List.exists_cons_of_ne_nil hne
        exact hg d List.mem_cons_self
      | cons d s => rfl
    rw [List.cons_append, List.cons_append, collapse, collapse, next, ih]

/-- A front without blanks stays as it is. -/
theorem collapse_of_not_blank (h : ∀ c ∈ s, isBlank c = false) (t : Text) :
    collapse (s ++ t) = s ++ collapse t := by
  induction s with
  | nil => rfl
  | cons c s ih =>
    obtain ⟨hc, hs⟩ := List.forall_mem_cons.mp h
    have hl : isLayout c = false := by
      rw [Bool.eq_false_iff]
      intro hl
      rw [isBlank_of_isLayout hl] at hc
      cases hc
    rw [List.cons_append, collapse_cons hl, ih hs, List.cons_append]

/-- A collapsed text has the same words. -/
theorem words_collapse (s : Text) : words (collapse s) = words s := by
  induction hk : s.length using Nat.strong_induction_on generalizing s with
  | _ k ih =>
    obtain ⟨w, hw, rfl | ⟨c, r, rfl, hc⟩⟩ := exists_run s
    · have := collapse_of_not_blank hw []
      rw [List.append_nil] at this
      rw [this, collapse_nil, List.append_nil]
    · rw [List.length_append, List.length_cons] at hk
      have behind : ∀ d u, isBlank d = true → words (w ++ d :: u) =
          if w = [] then words u else w :: words u := by
        intro d u hd
        split_ifs with h
        · rw [h, List.nil_append, words_blank hd]
        · exact words_append h hw hd u
      have rest := ih r.length (by omega) r rfl
      rw [collapse_of_not_blank hw, behind c r hc]
      cases hl : isLayout c with
      | false => rw [collapse_cons hl, behind c _ hc, rest]
      | true =>
        rcases collapse_layout hl r with ⟨hr, h⟩ | ⟨-, h⟩ <;> rw [h]
        · -- the layout goes on, and the word may as well end before its next character
          obtain ⟨d, r, rfl⟩ : ∃ d r', r = d :: r' := by
            cases r with
            | nil => cases hr
            | cons d r' => exact ⟨d, r', rfl⟩
          have hd : isBlank d = true := isBlank_of_isLayout (by simpa using hr)
          have same := ih (w ++ d :: r).length
            (by rw [List.length_append, List.length_cons] at *; omega) _ rfl
          rw [collapse_of_not_blank hw, behind d r hd] at same
          rw [same, words_blank hd]
        · rw [behind ' ' _ (by decide), rest]

theorem squeeze_collapse (s : Text) : squeeze (collapse s) = squeeze s := by
  rw [squeeze, words_collapse, squeeze]

end Text

namespace Scan

variable {α β : Type}

/-! ### Blind scanners -/

/-- Reads the same of the collapsed text, and leaves the collapsed rest. -/
def Blind (p : Scan α) : Prop :=
  ∀ s, p (Text.collapse s) = (p s).map fun x => (x.1, Text.collapse x.2)

theorem blind_pure (a : α) : Blind (pure a : Scan α) := fun _ => rfl

/-- One blind scanner after another is blind. -/
theorem Blind.bind {p : Scan α} {q : α → Scan β} (hp : Blind p) (hq : ∀ a, Blind (q a)) :
    Blind (p >>= q) := by
  intro s
  cases h : p s with
  | none => rw [bind_of_none h, bind_of_none (by rw [hp, h]; rfl), Option.map_none]
  | some x => rw [bind_of_some h, bind_of_some (t := Text.collapse x.2) (a := x.1)
      (by rw [hp, h]; rfl), hq]

/-- A blind scanner may be left out. -/
theorem Blind.orNone {p : Scan α} (hp : Blind p) : Blind (orNone p) := by
  intro s
  cases h : p s with
  | none => rw [orNone_of_none h, orNone_of_none (by rw [hp, h]; rfl), Option.map_some]
  | some x => rw [orNone_of_some h, orNone_of_some (r := Text.collapse x.2) (a := x.1)
      (by rw [hp, h]; rfl), Option.map_some]

theorem blind_layout : Blind layout := fun s => by
  simp only [layout, Option.map_some, Text.dropWhile_collapse (b := true) fun _ h => h]

/-- A fixed text without layout is read blindly. -/
theorem blind_exactly {w : Text} (hw : w.all (!Text.isLayout ·) = true) : Blind (exactly w) := by
  have after : ∀ s, Text.after? w (Text.collapse s) = (Text.after? w s).map Text.collapse := by
    induction w with
    | nil => exact fun s => rfl
    | cons c w ih =>
      rw [List.all_cons, Bool.and_eq_true, Bool.not_eq_true'] at hw
      obtain ⟨hc, hw⟩ := hw
      rintro (_ | ⟨d, s⟩)
      · rfl
      · cases hd : Text.isLayout d with
        | false =>
          rw [Text.collapse_cons hd, Text.after?, Text.after?]
          split_ifs
          · exact ih hw s
          · rfl
        | true =>
          obtain ⟨t, ht⟩ := Text.exists_collapse hd s
          have ne : c ≠ d ∧ c ≠ ' ' := by
            constructor <;> rintro rfl
            · rw [hc] at hd
              cases hd
            · cases hc
          rw [ht, Text.after?, Text.after?, if_neg ne.1, if_neg ne.2, Option.map_none]
  intro s
  rw [exactly, exactly, after, Option.map_map, Option.map_map]
  rfl

theorem blind_symbol {w : Text} (hw : w.all (!Text.isLayout ·) = true) : Blind (symbol w) :=
  blind_layout.bind fun _ => blind_exactly hw

/-- A run that layout ends. -/
theorem blind_run1 {p : Char → Bool} (hp : ∀ c, Text.isLayout c = true → p c = false) :
    Blind (run1 p) := by
  intro s
  cases h : run1 p s with
  | none =>
    rw [Option.eq_none_iff_forall_ne_some] at h
    rw [Option.map_none, Option.eq_none_iff_forall_ne_some]
    rintro ⟨a, r⟩ hr
    obtain ⟨hne, ha, -⟩ := run1_eq_some.mp hr
    rw [Text.takeWhile_collapse hp] at ha
    exact h (a, _) (run1_eq_some.mpr ⟨hne, ha, rfl⟩)
  | some x =>
    obtain ⟨hne, ha, hr⟩ := run1_eq_some.mp h
    exact run1_eq_some.mpr ⟨hne, by rw [Text.takeWhile_collapse hp, ha],
      by rw [Text.dropWhile_collapse hp, hr]⟩

/-- A run that goes over layout, squeezed. -/
theorem blind_squeezed {p : Char → Bool} (hp : ∀ c, Text.isLayout c = true → p c = true) :
    Blind (do
      let t ← run1 p
      pure (Text.squeeze t)) := by
  intro s
  cases h : run1 p s with
  | none =>
    rw [bind_of_none h, Option.map_none]
    refine bind_of_none (Option.eq_none_iff_forall_ne_some.mpr ?_)
    rintro ⟨a, r⟩ hr
    obtain ⟨hne, ha, -⟩ := run1_eq_some.mp hr
    rw [Text.takeWhile_collapse_of_layout hp] at ha
    refine absurd (run1_eq_some.mpr ⟨?_, rfl, rfl⟩) (Option.eq_none_iff_forall_ne_some.mp h _)
    rintro e
    rw [e, Text.collapse_nil] at ha
    exact hne ha.symm
  | some x =>
    obtain ⟨a, r⟩ := x
    obtain ⟨hne, ha, hr⟩ := run1_eq_some.mp h
    have read : run1 p (Text.collapse s) = some (Text.collapse a, Text.collapse r) :=
      run1_eq_some.mpr ⟨fun e => hne (Text.collapse_eq_nil.mp e),
        by rw [Text.takeWhile_collapse_of_layout hp, ha], by rw [Text.dropWhile_collapse hp, hr]⟩
    rw [bind_of_some h, bind_of_some read, Text.squeeze_collapse]
    rfl

/-- A name behind layout is read blindly. -/
theorem blind_name : Blind name := by
  rintro (_ | ⟨c, s⟩)
  · rfl
  · cases hc : Text.isLayout c with
    | false =>
      have ends : ∀ d, Text.isLayout d = true → Text.inName d = false := fun _ =>
        Text.inName_of_isLayout
      rw [Text.collapse_cons hc, name, name]
      split_ifs
      · rw [Text.takeWhile_collapse ends, Text.dropWhile_collapse ends]
        rfl
      · rfl
    | true =>
      obtain ⟨t, ht⟩ := Text.exists_collapse hc s
      have no : ∀ d u, Text.isLayout d = true → name (d :: u) = none := by
        intro d u hd
        refine if_neg fun h => ?_
        rw [Text.isLayout_of_startsName h] at hd
        cases hd
      rw [ht, no ' ' t (by decide), no c s hc, Option.map_none]

end Scan

namespace ArgSlot
open Scan

/-- The fetching of an argument is read blindly. -/
theorem blind_fetch : Blind fetch := by
  have digit : ∀ c, Text.isLayout c = true → c.isDigit = false := by
    intro c h
    simp only [Text.isLayout, Bool.or_eq_true, beq_iff_eq] at h
    rcases h with ((rfl | rfl) | rfl) | rfl <;> rfl
  have kind : ∀ c, Text.isLayout c = true → inKind c = false := by
    intro c h
    simp only [Text.isLayout, Bool.or_eq_true, beq_iff_eq] at h
    rcases h with ((rfl | rfl) | rfl) | rfl <;> rfl
  exact (blind_exactly (by decide)).bind fun _ => (blind_run1 kind).bind fun _ =>
    (blind_symbol (by decide)).bind fun _ => blind_layout.bind fun _ => (blind_run1 digit).bind
      fun _ => (blind_symbol (by decide)).bind fun _ => blind_pure _

/-- A cast is read blindly: its type is squeezed. -/
theorem blind_castForm : Blind castForm := by
  have form : castForm = symbol "(" >>= fun _ => layout >>= fun _ =>
      (run1 (· != ')') >>= fun type => pure (Text.squeeze type)) >>= fun t =>
      symbol ")" >>= fun _ => pure t := by
    simp [castForm]
  have inside : ∀ c, Text.isLayout c = true → (c != ')') = true := by
    intro c h
    simp only [Text.isLayout, Bool.or_eq_true, beq_iff_eq] at h
    rcases h with ((rfl | rfl) | rfl) | rfl <;> rfl
  rw [form]
  exact (blind_symbol (by decide)).bind fun _ => blind_layout.bind fun _ =>
    (blind_squeezed inside).bind fun _ => (blind_symbol (by decide)).bind fun _ => blind_pure _

/-- **An assignment is read however its text is broken into lines.** -/
theorem blind_assignment : Blind assignment :=
  (blind_layout.bind fun _ => blind_name).bind fun _ => (blind_symbol (by decide)).bind fun _ =>
    blind_castForm.orNone.bind fun _ => blind_layout.bind fun _ => blind_fetch.bind fun _ =>
      blind_pure _

end ArgSlot

end VectorWrap
