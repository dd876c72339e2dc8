import Mathlib
import VectorWrap.Scan.Basic

/-!
# What a reading depends on

A scanner leaves a suffix of the text that it was given.  Three properties say how much of that text
its result depends on.

* `Local`: a reading that leaves something of `y` is the same whatever follows `y`.  A run of
  characters is local, for what is left shows where it ends.
* `Rigid`: the same without the condition.  Fixed texts are rigid, and so is what ends with one.
* `Closed`: is rigid and reads something.

A local scanner followed by a closed one is closed (`Local.bind_closed`):
this is how a statement that ends with its semicolon gets read without regard to the next one.

The properties are about a text `y` that is followed by one text in the hypothesis and by any other
in the conclusion, so that no scanner has to be unfolded again where a whole file is compared with a
longer one.  Each constructor of scanners has a lemma for each property that it keeps.
-/

namespace VectorWrap

namespace Text

/-- A text begins with a word exactly if it is the word and a rest. -/
theorem after?_eq_some {w s r : Text} : after? w s = some r ↔ s = w ++ r := by
  induction w generalizing s with
  | nil => simp [after?, eq_comm]
  | cons p ps ih =>
    cases s with
    | nil => simp [after?]
    | cons c s =>
      by_cases h : p = c
      · simp [after?, h, ih]
      · simp [after?, h, Ne.symm h]

/-- What is left of `y ++ t` after a run, if it is more than `t`, is left of `y`. -/
theorem dropWhile_of_append {p : Char → Bool} {y t r : Text} (hr : r ≠ [])
    (h : (y ++ t).dropWhile p = r ++ t) : y.dropWhile p = r := by
  rw [List.dropWhile_append] at h
  split at h
  · have hl := congrArg List.length h
    have := length_dropWhile_le p t
    have := List.length_pos_iff.mpr hr
    simp only [List.length_append] at hl
    omega
  · exact List.append_cancel_right h

theorem dropWhile_append_of_ne_nil {p : Char → Bool} {y : Text} (u : Text)
    (h : y.dropWhile p ≠ []) : (y ++ u).dropWhile p = y.dropWhile p ++ u := by
  rw [List.dropWhile_append, if_neg (by simpa using h)]

/-- A run that ends in a text is the same whatever follows. -/
theorem takeWhile_append_of_ne_nil {p : Char → Bool} {y : Text} (u : Text)
    (h : y.dropWhile p ≠ []) : (y ++ u).takeWhile p = y.takeWhile p := by
  rw [List.takeWhile_append, if_neg]
  intro hl
  have := congrArg List.length (List.takeWhile_append_dropWhile (p := p) (l := y))
  rw [List.length_append, hl] at this
  exact h (List.eq_nil_of_length_eq_zero (by omega))

theorem length_lt_cons_append (c : Char) (w t : Text) : t.length < (c :: w ++ t).length := by
  simp only [List.length_append, List.length_cons]
  omega

/-- What stands before a rest is the same with a text behind both. -/
theorem upTo_append (s r t : Text) : upTo (s ++ t) (r ++ t) = upTo s r := by
  unfold upTo
  rw [List.take_append_of_le_length (by simp), List.length_append, List.length_append,
    Nat.add_sub_add_right]

end Text

namespace Scan

variable {α β : Type}

/-! ### Results of the combinators -/

/-- Two scanners read one after the other exactly if each of them reads. -/
theorem bind_eq_some {p : Scan α} {q : α → Scan β} {s r : Text} {b : β} :
    (p >>= q) s = some (b, r) ↔ ∃ a t, p s = some (a, t) ∧ q a t = some (b, r) := by
  simp [bind, StateT.bind, Option.bind_eq_some_iff]

theorem bind_of_some {p : Scan α} {q : α → Scan β} {s t : Text} {a : α} (h : p s = some (a, t)) :
    (p >>= q) s = q a t := by
  simp [bind, StateT.bind, h]

theorem bind_of_none {p : Scan α} {q : α → Scan β} {s : Text} (h : p s = none) :
    (p >>= q) s = none := by
  simp [bind, StateT.bind, h]

theorem pure_eq_some {a b : α} {s r : Text} :
    (pure a : Scan α) s = some (b, r) ↔ a = b ∧ s = r := by
  simp [pure, StateT.pure]

theorem orElse_eq {p q : Scan α} {s : Text} : (p <|> q) s = (p s <|> q s) := rfl

theorem orElse_of_some {p q : Scan α} {s r : Text} {a : α} (h : p s = some (a, r)) :
    (p <|> q) s = some (a, r) := by
  rw [orElse_eq, h]; rfl

theorem orElse_of_none {p q : Scan α} {s : Text} (h : p s = none) : (p <|> q) s = q s := by
  rw [orElse_eq, h]; rfl

/-- An alternative reads what the first reads, or what the second does where that fails. -/
theorem orElse_eq_some {p q : Scan α} {s : Text} {x : α × Text} :
    (p <|> q) s = some x ↔ p s = some x ∨ p s = none ∧ q s = some x := by
  cases e : p s with
  | none => simp [orElse_of_none e]
  | some y => simp [orElse_of_some e]

/-- An alternative fails exactly if both fail. -/
theorem orElse_eq_none {p q : Scan α} {s : Text} :
    (p <|> q) s = none ↔ p s = none ∧ q s = none := by
  cases e : p s with
  | none => simp [orElse_of_none e]
  | some y => simp [orElse_of_some e]

/-- A condition is passed exactly if it holds, and reads nothing. -/
theorem guard_eq_some {c : Prop} [Decidable c] {s r : Text} {u : Unit} :
    (guard c : Scan Unit) s = some (u, r) ↔ c ∧ s = r := by
  by_cases h : c
  · simp [guard, h, pure, StateT.pure]
  · simp only [guard, h, if_false, false_and, iff_false]
    exact fun h' => nomatch h'

/-! ### Local, rigid and closed scanners -/

/-- Leaves a suffix, and reads the same of `y` whatever follows, if something of `y` is left. -/
structure Local (p : Scan α) : Prop where
  suffix : ∀ {s a r}, p s = some (a, r) → r <:+ s
  append : ∀ {y t u a r}, r ≠ [] → p (y ++ t) = some (a, r ++ t) → p (y ++ u) = some (a, r ++ u)

/-- Leaves a suffix, and reads the same of `y` whatever follows. -/
structure Rigid (p : Scan α) : Prop where
  suffix : ∀ {s a r}, p s = some (a, r) → r <:+ s
  append : ∀ {y t u a r}, p (y ++ t) = some (a, r ++ t) → p (y ++ u) = some (a, r ++ u)

/-- Is rigid and never reads nothing. -/
structure Closed (p : Scan α) : Prop extends Rigid p where
  shrinks : ∀ {s a r}, p s = some (a, r) → r.length < s.length

theorem Rigid.toLocal {p : Scan α} (h : Rigid p) : Local p :=
  ⟨h.suffix, fun _ => h.append⟩

theorem Closed.toLocal {p : Scan α} (h : Closed p) : Local p :=
  h.toRigid.toLocal

/-- A closed scanner reads of `z ++ t` no less than it leaves of `z`. -/
theorem Closed.ne_nil {p : Scan α} (h : Closed p) {z t r : Text} {a : α}
    (hp : p (z ++ t) = some (a, r ++ t)) : z ≠ [] := by
  rintro rfl
  have := h.shrinks hp
  simp only [List.nil_append, List.length_append] at this
  omega

/-- The position between two readings, as a suffix of the text that both read. -/
theorem exists_between {y t s r : Text} (hs : s <:+ y ++ t) (hr : r ++ t <:+ s) :
    ∃ z, s = z ++ t ∧ r <:+ z ∧ z <:+ y := by
  obtain ⟨w, rfl⟩ := hr
  refine ⟨w ++ r, by simp, List.suffix_append _ _, ?_⟩
  obtain ⟨v, hv⟩ := hs
  exact ⟨v, List.append_cancel_right (by simpa using hv)⟩

/-- One local scanner after another is local. -/
theorem Local.bind {p : Scan α} {q : α → Scan β} (hp : Local p) (hq : ∀ a, Local (q a)) :
    Local (p >>= q) where
  suffix h := by
    obtain ⟨a, t, h₁, h₂⟩ := bind_eq_some.mp h
    exact ((hq a).suffix h₂).trans (hp.suffix h₁)
  append hr h := by
    obtain ⟨a, s, h₁, h₂⟩ := bind_eq_some.mp h
    obtain ⟨z, rfl, hz, -⟩ := exists_between (hp.suffix h₁) ((hq a).suffix h₂)
    have hz0 : z ≠ [] := by rintro rfl; exact hr (List.suffix_nil.mp hz)
    exact bind_eq_some.mpr ⟨a, _, hp.append hz0 h₁, (hq a).append hr h₂⟩

/-- One rigid scanner after another is rigid. -/
theorem Rigid.bind {p : Scan α} {q : α → Scan β} (hp : Rigid p) (hq : ∀ a, Rigid (q a)) :
    Rigid (p >>= q) where
  suffix h := (Local.bind hp.toLocal fun a => (hq a).toLocal).suffix h
  append h := by
    obtain ⟨a, s, h₁, h₂⟩ := bind_eq_some.mp h
    obtain ⟨z, rfl, -, -⟩ := exists_between (hp.suffix h₁) ((hq a).suffix h₂)
    exact bind_eq_some.mpr ⟨a, _, hp.append h₁, (hq a).append h₂⟩

/-- What comes before a closed scanner has left something, so it only has to be local. -/
theorem Local.bind_closed {p : Scan α} {q : α → Scan β} (hp : Local p) (hq : ∀ a, Closed (q a)) :
    Closed (p >>= q) where
  suffix h := (hp.bind fun a => (hq a).toLocal).suffix h
  shrinks h := by
    obtain ⟨a, t, h₁, h₂⟩ := bind_eq_some.mp h
    exact lt_of_lt_of_le ((hq a).shrinks h₂) (hp.suffix h₁).length_le
  append h := by
    obtain ⟨a, s, h₁, h₂⟩ := bind_eq_some.mp h
    obtain ⟨z, rfl, -, -⟩ := exists_between (hp.suffix h₁) ((hq a).suffix h₂)
    exact bind_eq_some.mpr ⟨a, _, hp.append ((hq a).ne_nil h₂) h₁, (hq a).append h₂⟩

/-- A closed scanner and then a rigid one are closed. -/
theorem Closed.bind {p : Scan α} {q : α → Scan β} (hp : Closed p) (hq : ∀ a, Rigid (q a)) :
    Closed (p >>= q) where
  toRigid := hp.toRigid.bind hq
  shrinks h := by
    obtain ⟨a, t, h₁, h₂⟩ := bind_eq_some.mp h
    exact lt_of_le_of_lt ((hq a).suffix h₂).length_le (hp.shrinks h₁)

theorem rigid_pure (a : α) : Rigid (pure a : Scan α) where
  suffix h := by
    obtain ⟨-, rfl⟩ := pure_eq_some.mp h
    exact List.suffix_rfl
  append h := by
    obtain ⟨rfl, h'⟩ := pure_eq_some.mp h
    obtain rfl := List.append_cancel_right h'
    exact pure_eq_some.mpr ⟨rfl, rfl⟩

theorem rigid_guard (c : Prop) [Decidable c] : Rigid (guard c : Scan Unit) where
  suffix h := by
    obtain ⟨-, rfl⟩ := guard_eq_some.mp h
    exact List.suffix_rfl
  append h := by
    obtain ⟨hc, h'⟩ := guard_eq_some.mp h
    obtain rfl := List.append_cancel_right h'
    exact guard_eq_some.mpr ⟨hc, rfl⟩

/-! ### Single steps -/

/-- A fixed text is read exactly if it stands in front. -/
theorem exactly_eq_some {w s r : Text} {u : Unit} :
    exactly w s = some (u, r) ↔ s = w ++ r := by
  simp only [exactly, Option.map_eq_some_iff, Prod.mk.injEq, true_and]
  exact ⟨fun ⟨_, h, e⟩ => e ▸ Text.after?_eq_some.mp h,
    fun h => ⟨r, Text.after?_eq_some.mpr h, rfl⟩⟩

/-- A fixed text is read whatever follows it. -/
theorem rigid_exactly (w : Text) : Rigid (exactly w) where
  suffix h := exactly_eq_some.mp h ▸ List.suffix_append _ _
  append h := by
    rw [exactly_eq_some, ← List.append_assoc] at h
    rw [List.append_cancel_right h]
    exact exactly_eq_some.mpr (by simp)

/-- A fixed text that is not empty is closed. -/
theorem closed_exactly {w : Text} (hw : w ≠ []) : Closed (exactly w) where
  toRigid := rigid_exactly w
  shrinks h := by
    have := List.length_pos_iff.mpr hw
    rw [exactly_eq_some.mp h, List.length_append]
    omega

theorem layout_eq_some {s r : Text} {u : Unit} :
    layout s = some (u, r) ↔ s.dropWhile Text.isLayout = r := by
  simp [layout]

/-- A run that must have a character is read exactly if it has one. -/
theorem run1_eq_some {p : Char → Bool} {s a r : Text} :
    run1 p s = some (a, r) ↔ a ≠ [] ∧ s.takeWhile p = a ∧ s.dropWhile p = r := by
  cases s with
  | nil =>
    refine iff_of_false nofun ?_
    rintro ⟨ha, rfl, -⟩
    exact ha rfl
  | cons c s =>
    by_cases hc : p c
    · simp only [run1, hc, if_true, Option.some.injEq, Prod.mk.injEq, List.takeWhile_cons,
        List.dropWhile_cons]
      constructor
      · rintro ⟨rfl, rfl⟩
        exact ⟨by simp, rfl, rfl⟩
      · rintro ⟨-, rfl, rfl⟩
        exact ⟨rfl, rfl⟩
    · simp only [run1, hc, List.takeWhile_cons]
      refine iff_of_false (by simp) ?_
      rintro ⟨ha, rfl, -⟩
      exact ha rfl

/-- What must be absent is not there, and nothing is read. -/
theorem absent_eq_some {p : Scan α} {s r : Text} {u : Unit} :
    absent p s = some (u, r) ↔ p s = none ∧ s = r := by
  cases h : p s <;> simp [absent, h]

/-- Layout ends where something else is left. -/
theorem local_layout : Local layout where
  suffix h := layout_eq_some.mp h ▸ List.dropWhile_suffix _
  append hr h := by
    have h' := Text.dropWhile_of_append hr (layout_eq_some.mp h)
    exact layout_eq_some.mpr (by rw [Text.dropWhile_append_of_ne_nil _ (h' ▸ hr), h'])

theorem run_eq_some {p : Char → Bool} {s a r : Text} :
    run p s = some (a, r) ↔ s.takeWhile p = a ∧ s.dropWhile p = r := by
  simp [run]

/-- A run ends where something is left. -/
theorem local_run (p : Char → Bool) : Local (run p) where
  suffix h := by
    obtain ⟨-, rfl⟩ := run_eq_some.mp h
    exact List.dropWhile_suffix _
  append hr h := by
    obtain ⟨rfl, h₂⟩ := run_eq_some.mp h
    have h' := Text.dropWhile_of_append hr h₂
    have hne : List.dropWhile p _ ≠ [] := h' ▸ hr
    exact run_eq_some.mpr ⟨by simp only [Text.takeWhile_append_of_ne_nil _ hne],
      by rw [Text.dropWhile_append_of_ne_nil _ hne, h']⟩

/-- A run of at least one character, its first and its other characters of two classes. -/
theorem local_run_after {f p : Char → Bool} {q : Scan Text}
    (hq : q = fun s => match s with
      | [] => none
      | c :: r => if f c then some (c :: r.takeWhile p, r.dropWhile p) else none) : Local q where
  suffix {s a r} h := by
    subst hq
    cases s with
    | nil => cases h
    | cons c s =>
      simp only [Option.ite_none_right_eq_some, Option.some.injEq, Prod.mk.injEq] at h
      exact h.2.2 ▸ (List.dropWhile_suffix _).trans (List.suffix_cons _ _)
  append {y t u a r} hr h := by
    subst hq
    cases y with
    | nil =>
      have hl : (r ++ t).length ≤ t.length := by
        cases t with
        | nil => cases h
        | cons c t =>
          simp only [List.nil_append, Option.ite_none_right_eq_some, Option.some.injEq,
            Prod.mk.injEq] at h
          have := Text.length_dropWhile_le p t
          rw [← h.2.2, List.length_cons]
          omega
      have := List.length_pos_iff.mpr hr
      simp only [List.length_append] at hl
      omega
    | cons c y =>
      simp only [List.cons_append, Option.ite_none_right_eq_some, Option.some.injEq,
        Prod.mk.injEq] at h ⊢
      obtain ⟨hc, rfl, h₂⟩ := h
      have h' := Text.dropWhile_of_append hr h₂
      have hne : List.dropWhile p _ ≠ [] := h' ▸ hr
      exact ⟨hc, by simp only [Text.takeWhile_append_of_ne_nil _ hne],
        by rw [Text.dropWhile_append_of_ne_nil _ hne, h']⟩

theorem local_run1 (p : Char → Bool) : Local (run1 p) :=
  local_run_after rfl

theorem local_name : Local name :=
  local_run_after rfl

theorem local_ident : Local ident :=
  local_layout.bind fun _ => local_name

/-- An identifier is a name behind layout. -/
theorem parts_of_ident {s v r : Text} (h : ident s = some (v, r)) :
    s.dropWhile Text.isLayout = v ++ r ∧ Text.isName v = true := by
  obtain ⟨_, t, skip, h⟩ := bind_eq_some.mp h
  rw [layout_eq_some.mp skip]
  cases t with
  | nil => cases h
  | cons c t =>
    simp only [name, Option.ite_none_right_eq_some, Option.some.injEq, Prod.mk.injEq] at h
    obtain ⟨starts, rfl, rfl⟩ := h
    constructor
    · rw [List.cons_append, List.takeWhile_append_dropWhile]
    · simp only [Text.isName, starts, Bool.true_and, List.all_eq_true]
      exact fun d hd => List.mem_takeWhile_imp hd

theorem closed_symbol {w : Text} (hw : w ≠ []) : Closed (symbol w) :=
  local_layout.bind_closed fun _ => closed_exactly hw

theorem local_keyword (w : Text) : Local (keyword w) :=
  local_layout.bind fun _ => (local_run _).bind fun _ => (rigid_guard _).toLocal

/-! ### Reading up to something -/

/-- A text is divided at a word into what is before it and what is behind it. -/
theorem splitAt?_eq {w s a r : Text} (h : splitAt? w s = some (a, r)) : s = a ++ w ++ r := by
  induction s generalizing a with
  | nil =>
    simp only [splitAt?, List.isEmpty_iff, Option.ite_none_right_eq_some, Option.some.injEq,
      Prod.mk.injEq] at h
    obtain ⟨rfl, rfl, rfl⟩ := h
    rfl
  | cons c s ih =>
    unfold splitAt? at h
    split at h
    · next h' =>
      obtain ⟨rfl, rfl⟩ := by simpa using h
      simpa using Text.after?_eq_some.mp h'
    · obtain ⟨⟨b, r⟩, h', e⟩ := Option.map_eq_some_iff.mp h
      obtain ⟨rfl, rfl⟩ := by simpa using e
      simp [ih h']

/-- A division that leaves something of a text is the same whatever follows that text. -/
theorem splitAt?_append {w y t u a r : Text} (hw : w ≠ [])
    (h : splitAt? w (y ++ t) = some (a, r ++ t)) : splitAt? w (y ++ u) = some (a, r ++ u) := by
  have hy : y = a ++ w ++ r := by
    have := splitAt?_eq h
    rw [← List.append_assoc] at this
    exact List.append_cancel_right this
  subst hy
  induction a with
  | nil =>
    obtain ⟨c, w, rfl⟩ := List.exists_cons_of_ne_nil hw
    have : Text.after? (c :: w) (c :: w ++ (r ++ u)) = some (r ++ u) :=
      Text.after?_eq_some.mpr rfl
    simp only [List.cons_append] at this
    simp [splitAt?, this]
  | cons c a ih =>
    simp only [List.cons_append, splitAt?] at h ⊢
    split at h
    · simp at h
    · next hn =>
      obtain ⟨⟨b, r'⟩, h', e⟩ := Option.map_eq_some_iff.mp h
      obtain ⟨rfl, rfl⟩ := by simpa using e
      -- `w` fits into `c :: b ++ w`, so whether it stands at the front is seen there
      have hn' : Text.after? w (c :: (b ++ w ++ r ++ u)) = none := by
        rw [Option.eq_none_iff_forall_ne_some]
        intro x hx
        have hp : w <+: c :: (b ++ w ++ r) := by
          have hw' : w <+: c :: (b ++ w ++ r ++ u) := ⟨x, (Text.after?_eq_some.mp hx).symm⟩
          refine List.prefix_of_prefix_length_le hw' (by simp) ?_
          simp only [List.length_cons, List.length_append]
          omega
        obtain ⟨z, hz⟩ := hp
        have : Text.after? w (c :: (b ++ w ++ r ++ t)) = some (z ++ t) :=
          Text.after?_eq_some.mpr (by rw [← List.append_assoc, hz]; simp)
        rw [hn] at this
        cases this
      rw [hn', ih h']
      rfl

/-- What is read up to a word is closed. -/
theorem closed_upTo {w : Text} (hw : w ≠ []) : Closed (upTo w) where
  suffix h := splitAt?_eq h ▸ List.suffix_append _ _
  append h := splitAt?_append hw h
  shrinks h := by
    have := List.length_pos_iff.mpr hw
    rw [splitAt?_eq h, List.length_append, List.length_append]
    omega

/-- A closing parenthesis divides the text. -/
theorem closing?_eq {d : Nat} {s a r : Text} (h : closing? d s = some (a, r)) :
    s = a ++ ')' :: r := by
  fun_induction closing? d s generalizing a with
  | case1 => cases h
  | case2 d s ih | case5 d c s _ _ ih =>
    obtain ⟨⟨b, r⟩, h', e⟩ := Option.map_eq_some_iff.mp h
    obtain ⟨rfl, rfl⟩ := by simpa using e
    simp [ih h']
  | case3 s _ =>
    obtain ⟨rfl, rfl⟩ := by simpa using h
    rfl
  | case4 s _ d ih =>
    obtain ⟨⟨b, r⟩, h', e⟩ := Option.map_eq_some_iff.mp h
    obtain ⟨rfl, rfl⟩ := by simpa using e
    simp [ih h']

/-- A closing parenthesis in a text is the same whatever follows the text. -/
theorem closing?_append {d : Nat} {y t u a r : Text} (h : closing? d (y ++ t) = some (a, r ++ t)) :
    closing? d (y ++ u) = some (a, r ++ u) := by
  have hy : y = a ++ ')' :: r := by
    have := closing?_eq h
    rw [← List.cons_append, ← List.append_assoc] at this
    exact List.append_cancel_right this
  subst hy
  induction a generalizing d with
  | nil =>
    cases d with
    | zero => simp [closing?]
    | succ d =>
      simp [closing?] at h
  | cons c a ih =>
    simp only [List.cons_append, closing?] at h ⊢
    split at h <;> rename_i h₁
    · obtain ⟨⟨b, r'⟩, h', e⟩ := Option.map_eq_some_iff.mp h
      obtain ⟨rfl, rfl⟩ := by simpa using e
      rw [if_pos h₁, ih h']
      rfl
    · rw [if_neg h₁]
      split at h <;> rename_i h₂
      · rw [if_pos h₂]
        cases d with
        | zero => simp at h
        | succ d =>
          obtain ⟨⟨b, r'⟩, h', e⟩ := Option.map_eq_some_iff.mp h
          obtain ⟨rfl, rfl⟩ := by simpa using e
          simp only [ih h']
          rfl
      · obtain ⟨⟨b, r'⟩, h', e⟩ := Option.map_eq_some_iff.mp h
        obtain ⟨rfl, rfl⟩ := by simpa using e
        rw [if_neg h₂, ih h']
        rfl

/-- What is read up to a closing parenthesis is closed. -/
theorem closed_closing (d : Nat) : Closed (fun s => closing? d s : Scan Text) where
  suffix h := closing?_eq h ▸ (List.suffix_cons _ _).trans (List.suffix_append _ _)
  append h := closing?_append h
  shrinks h := by
    rw [closing?_eq h, List.length_append, List.length_cons]
    omega

theorem closed_parenthesised : Closed parenthesised :=
  (closed_symbol (by decide)).toLocal.bind_closed fun _ =>
    local_layout.bind_closed fun _ => closed_closing 0

end Scan

end VectorWrap
