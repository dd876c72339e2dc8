import VectorWrap.Proofs.Scan.Reading

/-!
# Looking ahead

Alternatives, optional parts and repetitions go on by what a scanner fails on, and a failure may
depend on the text that follows.  It does not where what is read instead excludes what
failed: then the same is read, and the same fails, whatever comes after it (`closed_orElse`,
`closed_orNone`, `closed_many`).

Each of the three has the same shape.  The scanner that fails must be told apart from what is read
instead by something in the text itself, such as a keyword or a first character, and the hypothesis
says so; then the failure is seen in the text alone.
-/

namespace VectorWrap

namespace Scan

variable {α β : Type}

/-! ### Looking ahead -/

/-- Alternatives of which no text allows both. -/
theorem closed_orElse {p q : Scan α} (hp : Closed p) (hq : Closed q)
    (h : ∀ {s a r}, q s = some (a, r) → p s = none) : Closed (p <|> q) where
  suffix h' := by
    rcases orElse_eq_some.mp h' with h₁ | ⟨-, h₂⟩
    · exact hp.suffix h₁
    · exact hq.suffix h₂
  shrinks h' := by
    rcases orElse_eq_some.mp h' with h₁ | ⟨-, h₂⟩
    · exact hp.shrinks h₁
    · exact hq.shrinks h₂
  append h' := by
    rcases orElse_eq_some.mp h' with h₁ | ⟨-, h₂⟩
    · exact orElse_eq_some.mpr (.inl (hp.append h₁))
    · exact orElse_eq_some.mpr (.inr ⟨h (hq.append h₂), hq.append h₂⟩)

theorem orElse_assoc (p q r : Scan α) : ((p <|> q) <|> r) = (p <|> q <|> r) := by
  funext s
  simp only [orElse_eq]
  cases p s <;> rfl

/-- An alternative leaves a part of the text if both scanners do. -/
theorem suffix_orElse {p q : Scan α} (hp : ∀ {s a r}, p s = some (a, r) → r <:+ s)
    (hq : ∀ {s a r}, q s = some (a, r) → r <:+ s) {s r : Text} {a : α}
    (h : (p <|> q) s = some (a, r)) : r <:+ s :=
  (orElse_eq_some.mp h).elim hp fun h => hq h.2

/-- A mark is read exactly if it stands behind the layout. -/
theorem symbol_eq_some {w s r : Text} {u : Unit} :
    symbol w s = some (u, r) ↔ s.dropWhile Text.isLayout = w ++ r := by
  simp only [symbol, bind_eq_some, layout_eq_some, exactly_eq_some]
  exact ⟨fun ⟨_, _, h₁, h₂⟩ => h₁.trans h₂, fun h => ⟨(), _, rfl, h⟩⟩

theorem orNone_of_none {p : Scan α} {s : Text} (h : p s = none) : orNone p s = some (none, s) := by
  simp [orNone, h]

theorem orNone_of_some {p : Scan α} {s r : Text} {a : α} (h : p s = some (a, r)) :
    orNone p s = some (some a, r) := by
  simp [orNone, h]

/-- An optional part is read, or is not there and nothing is read. -/
theorem orNone_eq_some {p : Scan α} {s r : Text} {o : Option α} (h : orNone p s = some (o, r)) :
    (∃ a, o = some a ∧ p s = some (a, r)) ∨ (o = none ∧ p s = none ∧ s = r) := by
  unfold orNone at h
  split at h <;> simp_all

/-- An optional part before something that is read only where that part is not. -/
theorem closed_orNone {p : Scan α} {q : Option α → Scan β} (hp : Local p) (hq : ∀ o, Closed (q o))
    (h : ∀ {s b r}, q none s = some (b, r) → p s = none) : Closed (orNone p >>= q) := by
  have hl : ∀ {s o r}, orNone p s = some (o, r) → r <:+ s := fun h => by
    rcases orNone_eq_some h with ⟨a, -, h'⟩ | ⟨-, -, rfl⟩
    · exact hp.suffix h'
    · exact List.suffix_rfl
  refine ⟨⟨fun h => ?_, fun {y t u b r} h' => ?_⟩, fun h => ?_⟩
  · obtain ⟨o, s, h₁, h₂⟩ := bind_eq_some.mp h
    exact ((hq o).suffix h₂).trans (hl h₁)
  · obtain ⟨o, s, h₁, h₂⟩ := bind_eq_some.mp h'
    obtain ⟨z, rfl, -, -⟩ := exists_between (hl h₁) ((hq o).suffix h₂)
    have h₂' := (hq o).append (u := u) h₂
    refine bind_eq_some.mpr ⟨o, z ++ u, ?_, h₂'⟩
    -- where the option was not read `q` reads on, and so keeps it from being read before `u`
    rcases orNone_eq_some h₁ with ⟨a, rfl, h₃⟩ | ⟨rfl, -, e⟩
    · exact orNone_of_some (hp.append ((hq _).ne_nil h₂) h₃)
    · obtain rfl := List.append_cancel_right e
      exact orNone_of_none (h h₂')
  · obtain ⟨o, s, h₁, h₂⟩ := bind_eq_some.mp h
    exact lt_of_lt_of_le ((hq o).shrinks h₂) (hl h₁).length_le

/-! ### Repetition -/

/-- With what is left shorter, a reading is one that goes on. -/
theorem progress_eq_some {p : Scan α} {s r : Text} {a : α} (hr : r.length < s.length) :
    progress p s = some (a, ⟨r, hr⟩) ↔ p s = some (a, r) := by
  unfold progress
  cases e : p s with
  | none => simp
  | some x =>
    obtain ⟨b, x⟩ := x
    by_cases hx : x.length < s.length
    · simp [hx]
    · simp only [hx, dite_false, reduceCtorEq, Option.some.injEq, Prod.mk.injEq, false_iff, not_and]
      rintro - rfl
      exact hx hr

theorem progress_of_none {p : Scan α} {s : Text} (h : p s = none) : progress p s = none := by
  unfold progress
  rw [h]

/-- A repetition leaves a part of the text. -/
theorem suffix_repeated {p : Scan α} (hp : ∀ {s a r}, p s = some (a, r) → r <:+ s) (s : Text) :
    (repeated p s).2 <:+ s := by
  fun_induction repeated p s with
  | case1 => exact List.suffix_rfl
  | case2 s a r hr h as t e ih =>
    rw [e] at ih
    exact ih.trans (hp ((progress_eq_some _).mp h))

/-- A repetition that leaves something of `y`, after which its item fails on any text. -/
theorem repeated_append {p : Scan α} (hp : Local p) {y t u r : Text} {as : List α} (hr : r ≠ [])
    (hn : p (r ++ u) = none) (h : repeated p (y ++ t) = (as, r ++ t)) :
    repeated p (y ++ u) = (as, r ++ u) := by
  induction hk : y.length using Nat.strong_induction_on generalizing y as with
  | _ k ih =>
    rw [repeated.eq_def] at h
    split at h
    · obtain ⟨rfl, h'⟩ := Prod.mk.inj h
      obtain rfl := List.append_cancel_right h'
      rw [repeated.eq_def, progress_of_none hn]
    · next a x hx e =>
      have hpx := (progress_eq_some _).mp e
      obtain ⟨rfl, h'⟩ := Prod.mk.inj h
      obtain ⟨z, rfl, hz, hzy⟩ := exists_between (hp.suffix hpx) (h' ▸ suffix_repeated hp.suffix x)
      -- something of `z` is left in the end, so the item read up to `z` whatever follows
      have hz0 : z ≠ [] := by rintro rfl; exact hr (List.suffix_nil.mp hz)
      have hlt : (z ++ u).length < (y ++ u).length := by
        simp only [List.length_append] at hx ⊢
        omega
      rw [repeated.eq_def, (progress_eq_some hlt).mpr (hp.append hz0 hpx)]
      have he : repeated p (z ++ t) = ((repeated p (z ++ t)).1, r ++ t) := Prod.ext rfl h'
      have := ih z.length (by simp only [List.length_append] at hlt; omega) he rfl
      simp only [this]

/-- A repeated part before something that is read only where that part is not. -/
theorem closed_many {p : Scan α} {q : List α → Scan β} (hp : Local p) (hq : ∀ as, Closed (q as))
    (h : ∀ {as s b r}, q as s = some (b, r) → p s = none) : Closed (many p >>= q) := by
  have hm : ∀ {s as r}, many p s = some (as, r) ↔ repeated p s = (as, r) := by simp [many]
  have hl : ∀ {s as r}, many p s = some (as, r) → r <:+ s := fun {s as r} h => by
    have := suffix_repeated hp.suffix s
    rwa [hm.mp h] at this
  refine ⟨⟨fun h => ?_, fun {y t u b r} h' => ?_⟩, fun h => ?_⟩
  · obtain ⟨as, s, h₁, h₂⟩ := bind_eq_some.mp h
    exact ((hq as).suffix h₂).trans (hl h₁)
  · obtain ⟨as, s, h₁, h₂⟩ := bind_eq_some.mp h'
    obtain ⟨z, rfl, -, -⟩ := exists_between (hl h₁) ((hq as).suffix h₂)
    have h₂' := (hq as).append (u := u) h₂
    exact bind_eq_some.mpr ⟨as, z ++ u,
      hm.mpr (repeated_append hp ((hq as).ne_nil h₂) (h h₂') (hm.mp h₁)), h₂'⟩
  · obtain ⟨as, s, h₁, h₂⟩ := bind_eq_some.mp h
    exact lt_of_lt_of_le ((hq as).shrinks h₂) (hl h₁).length_le

end Scan

end VectorWrap
