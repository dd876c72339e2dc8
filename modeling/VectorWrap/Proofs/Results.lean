import Mathlib.Data.List.Forall2

/-!
# Results of steps that may fail

A step ends well exactly if its parts do (`bind_eq_ok`), and a step for each element of a list
exactly if all of these do, with their results in order (`mapM_eq_ok_iff`).  Otherwise the first
that fails decides (`mapM_eq_error`).

Readings, matchings and emissions are such steps, and their theorems begin by taking a computation
apart with these lemmas.  Nothing else about the order in which failures are found is used than that
the first one counts.
-/

namespace VectorWrap

variable {ε ε' α β γ : Type}

/-- A step and the next one end well exactly if each of them does. -/
theorem bind_eq_ok {x : Except ε α} {f : α → Except ε β} {b : β} :
    (x >>= f) = .ok b ↔ ∃ a, x = .ok a ∧ f a = .ok b := by
  cases x with
  | error e => simp [bind, Except.bind]
  | ok a => simp [bind, Except.bind]

theorem map_eq_ok {x : Except ε α} {f : α → β} {b : β} :
    x.map f = .ok b ↔ ∃ a, x = .ok a ∧ f a = b := by
  cases x <;> simp [Except.map]

theorem mapError_eq_ok {x : Except ε α} {f : ε → ε'} {a : α} :
    x.mapError f = .ok a ↔ x = .ok a := by
  cases x <;> simp [Except.mapError]

/-! ### A step for each element of a list -/

/-- All steps end well exactly if each gives the result at its place. -/
theorem mapM_eq_ok_iff {f : α → Except ε β} {as : List α} {bs : List β} :
    as.mapM f = .ok bs ↔ List.Forall₂ (fun a b => f a = .ok b) as bs := by
  induction as generalizing bs with
  | nil =>
    rw [List.forall₂_nil_left_iff, List.mapM_nil]
    constructor
    · rintro ⟨⟩
      rfl
    · rintro rfl
      rfl
  | cons a as ih =>
    rw [List.mapM_cons, List.forall₂_cons_left_iff, bind_eq_ok]
    constructor
    · rintro ⟨b, hb, h⟩
      obtain ⟨bs', hbs, h⟩ := bind_eq_ok.mp h
      cases h
      exact ⟨b, bs', hb, ih.mp hbs, rfl⟩
    · rintro ⟨b, bs', hb, hbs, rfl⟩
      exact ⟨b, hb, bind_eq_ok.mpr ⟨bs', ih.mpr hbs, rfl⟩⟩

theorem mapM_of_ok {f : α → Except ε β} {g : α → β} {as : List α} (h : ∀ a ∈ as, f a = .ok (g a)) :
    as.mapM f = .ok (as.map g) :=
  mapM_eq_ok_iff.mpr (List.forall₂_map_right_iff.mpr (List.forall₂_same.mpr h))

/-- There are results for a list exactly if there is one for each of its elements. -/
theorem exists_mapM_iff {f : α → Except ε β} {as : List α} :
    (∃ bs, as.mapM f = .ok bs) ↔ ∀ a ∈ as, ∃ b, f a = .ok b := by
  induction as with
  | nil => exact ⟨fun _ => by simp, fun _ => ⟨[], rfl⟩⟩
  | cons a as ih =>
    rw [List.forall_mem_cons, ← ih, List.mapM_cons]
    constructor
    · rintro ⟨bs, h⟩
      obtain ⟨b, hb, h⟩ := bind_eq_ok.mp h
      obtain ⟨bs', hbs, -⟩ := bind_eq_ok.mp h
      exact ⟨⟨b, hb⟩, bs', hbs⟩
    · rintro ⟨⟨b, hb⟩, bs, hbs⟩
      exact ⟨b :: bs, by rw [hb, hbs]; rfl⟩

/-- Every result is that of an element. -/
theorem exists_of_mem_mapM {f : α → Except ε β} {as : List α} {bs : List β}
    (h : as.mapM f = .ok bs) {b : β} (hb : b ∈ bs) : ∃ a ∈ as, f a = .ok b := by
  have results := mapM_eq_ok_iff.mp h
  clear h
  induction results with
  | nil => cases hb
  | @cons a _ _ _ first _ ih =>
    rcases List.mem_cons.mp hb with rfl | hb
    · exact ⟨a, List.mem_cons_self, first⟩
    · obtain ⟨a', ha', h⟩ := ih hb
      exact ⟨a', List.mem_cons_of_mem a ha', h⟩

/-- What is collected from the results of a list is what is collected from the list. -/
theorem flatMap_of_mapM {f : α → Except ε β} {g : β → List γ} {h : α → List γ}
    {as : List α} {bs : List β} (hf : ∀ a ∈ as, ∀ b, f a = .ok b → g b = h a)
    (hm : as.mapM f = .ok bs) : bs.flatMap g = as.flatMap h := by
  have results := mapM_eq_ok_iff.mp hm
  clear hm
  induction results with
  | nil => rfl
  | @cons a b _ _ first _ ih =>
    rw [List.flatMap_cons, List.flatMap_cons, hf a List.mem_cons_self b first,
      ih fun a' ha' => hf a' (List.mem_cons_of_mem a ha')]

/-- The first element that fails decides on the failure. -/
theorem mapM_eq_error {f : α → Except ε β} {as bs : List α} {a : α} {e : ε}
    (hs : ∀ b ∈ as, ∃ c, f b = .ok c) (ha : f a = .error e) :
    (as ++ a :: bs).mapM f = .error e := by
  induction as with
  | nil =>
    rw [List.nil_append, List.mapM_cons, ha]
    rfl
  | cons b as ih =>
    obtain ⟨⟨c, hc⟩, hs⟩ := List.forall_mem_cons.mp hs
    rw [List.cons_append, List.mapM_cons, hc, ih hs]
    rfl

/-- A failure that no step has is none of the whole. -/
theorem mapM_ne_error {f : α → Except ε β} {e : ε} (hf : ∀ a, f a ≠ .error e) (as : List α) :
    as.mapM f ≠ .error e := by
  induction as with
  | nil => simp [pure, Except.pure]
  | cons a as ih =>
    rw [List.mapM_cons]
    cases ha : f a with
    | error e => simpa [bind, Except.bind, ha] using hf a
    | ok b =>
      cases hbs : as.mapM f with
      | error e => simpa [bind, Except.bind, hbs] using ih
      | ok bs => simp [bind, Except.bind, pure, Except.pure]

/-- Steps of which each ends well or not whatever the state is before it. -/
theorem exists_foldlM_iff {f : β → α → Except ε β} {p : α → Prop}
    (h : ∀ b a, (∃ u, f b a = .ok u) ↔ p a) (as : List α) (b : β) :
    (∃ u, as.foldlM f b = .ok u) ↔ ∀ a ∈ as, p a := by
  induction as generalizing b with
  | nil => exact iff_of_true ⟨b, rfl⟩ (by simp)
  | cons a as ih =>
    rw [List.foldlM_cons, List.forall_mem_cons, ← h b a]
    cases f b a with
    | error e => simp [bind, Except.bind]
    | ok u =>
      rw [← ih u]
      simp [bind, Except.bind]

end VectorWrap
