import Mathlib.Data.List.Basic
import VectorWrap.Implementation.Slot

/-!
# The order of slots

Slots are sorted by their numbers, and of several with one number the one found first stays first.
So a sorted list is known from its members with each number (`mergeSort_congr`), and members that no
other shares a number with may change places before the sort (`filter_flatMap_perm`).

The two facts are about any list with numbers; the slots are sorted by a merge sort, which keeps the
order of what has the same number.
-/

namespace VectorWrap

/-! ### Stable sorts -/

section Sorts

variable {α β : Type} {key : α → Nat}

theorem keyLe_trans (key : α → Nat) (a b c : α) (hab : decide (key a ≤ key b) = true)
    (hbc : decide (key b ≤ key c) = true) : decide (key a ≤ key c) = true :=
  decide_eq_true (Nat.le_trans (of_decide_eq_true hab) (of_decide_eq_true hbc))

theorem keyLe_total (key : α → Nat) (a b : α) :
    (decide (key a ≤ key b) || decide (key b ≤ key a)) = true := by
  simpa using Nat.le_total (key a) (key b)

/-- The members with one key keep their order in a sort. -/
theorem filter_mergeSort (key : α → Nat) (l : List α) (k : Nat) :
    (l.mergeSort fun a b => key a ≤ key b).filter (key · == k) = l.filter (key · == k) := by
  have equal : (l.filter (key · == k)).Pairwise fun a b => decide (key a ≤ key b) = true := by
    refine List.pairwise_of_forall_mem_list fun a ha b hb => ?_
    have ka : key a = k := by simpa using (List.mem_filter.mp ha).2
    have kb : key b = k := by simpa using (List.mem_filter.mp hb).2
    rw [ka, kb]
    exact decide_eq_true (Nat.le_refl k)
  have kept : (l.filter (key · == k)).Sublist (l.mergeSort fun a b => key a ≤ key b) :=
    List.sublist_mergeSort (keyLe_trans key) (keyLe_total key) equal List.filter_sublist
  have below := kept.filter (key · == k)
  rw [List.filter_filter] at below
  simp only [Bool.and_self] at below
  have same := ((List.mergeSort_perm l fun a b => key a ≤ key b).filter (key · == k)).length_eq
  exact (below.eq_of_length same.symm).symm

/-- A sorted list is known from its members with each key. -/
theorem eq_of_filter_eq {l m : List α} (hl : l.Pairwise fun a b => key a ≤ key b)
    (hm : m.Pairwise fun a b => key a ≤ key b)
    (h : ∀ k, l.filter (key · == k) = m.filter (key · == k)) : l = m := by
  have mem : ∀ a, a ∈ l ↔ a ∈ m := fun a => by
    simpa using congrArg (a ∈ ·) (h (key a))
  induction l generalizing m with
  | nil =>
    cases m with
    | nil => rfl
    | cons b m => simpa using mem b
  | cons a l ih =>
    cases m with
    | nil => simpa using mem a
    | cons b m =>
      have hl' := List.pairwise_cons.mp hl
      have hm' := List.pairwise_cons.mp hm
      -- each of the two heads has a least key
      have ab : key a ≤ key b := by
        rcases List.mem_cons.mp ((mem b).mpr List.mem_cons_self) with rfl | hb
        · exact Nat.le_refl _
        · exact hl'.1 b hb
      have ba : key b ≤ key a := by
        rcases List.mem_cons.mp ((mem a).mp List.mem_cons_self) with rfl | ha
        · exact Nat.le_refl _
        · exact hm'.1 a ha
      have same : key b = key a := Nat.le_antisymm ba ab
      have heads := h (key a)
      rw [List.filter_cons_of_pos (by simp), List.filter_cons_of_pos (by simp [same])] at heads
      obtain ⟨rfl, -⟩ := List.cons_eq_cons.mp heads
      have rest : ∀ k, l.filter (key · == k) = m.filter (key · == k) := fun k => by
        have hk := h k
        rw [List.filter_cons, List.filter_cons] at hk
        split at hk
        · exact (List.cons_eq_cons.mp hk).2
        · exact hk
      rw [ih hl'.2 hm'.2 rest fun c => by simpa using congrArg (c ∈ ·) (rest (key c))]

theorem pairwise_mergeSort (key : α → Nat) (l : List α) :
    (l.mergeSort fun a b => key a ≤ key b).Pairwise fun a b => key a ≤ key b :=
  (List.pairwise_mergeSort (keyLe_trans key) (keyLe_total key) l).imp fun h => of_decide_eq_true h

/-- A stable sort depends only on the members with each key, in their order. -/
theorem mergeSort_congr {l m : List α} (h : ∀ k, l.filter (key · == k) = m.filter (key · == k)) :
    (l.mergeSort fun a b => key a ≤ key b) = m.mergeSort fun a b => key a ≤ key b := by
  refine eq_of_filter_eq (pairwise_mergeSort key l) (pairwise_mergeSort key m) fun k => ?_
  rw [filter_mergeSort, filter_mergeSort, h]

/-- Members that no key is shared by may change places. -/
theorem filter_flatMap_perm {g : β → List α} {number : β → Nat}
    (hg : ∀ b, ∀ a ∈ g b, key a = number b) {bs cs : List β} (hp : bs.Perm cs)
    (hn : (bs.map number).Nodup) (k : Nat) :
    (bs.flatMap g).filter (key · == k) = (cs.flatMap g).filter (key · == k) := by
  have other : ∀ b, number b ≠ k → (g b).filter (key · == k) = [] := fun b hb => by
    refine List.filter_eq_nil_iff.mpr fun a ha => ?_
    rw [hg b a ha]
    simpa using hb
  induction hp with
  | nil => rfl
  | cons b _ ih =>
    rw [List.flatMap_cons, List.filter_append, List.flatMap_cons, List.filter_append,
      ih (List.nodup_cons.mp hn).2]
  | swap b c bs =>
    simp only [List.flatMap_cons, List.filter_append]
    have apart : number c ≠ number b := by
      intro e
      simp [e] at hn
    by_cases hb : number b = k
    · rw [other c (hb ▸ apart), List.nil_append, List.nil_append]
    · rw [other b hb, List.nil_append, List.nil_append]
  | trans hbc _ ih₁ ih₂ => exact (ih₁ hn).trans (ih₂ ((hbc.map number).nodup_iff.mp hn))

end Sorts

namespace ArgSlot

theorem perm_ofBody (body : Text) : (ofBody body).Perm (found body) :=
  List.mergeSort_perm _ _

theorem pairwise_ofBody (body : Text) : (ofBody body).Pairwise fun a b => a.index ≤ b.index :=
  pairwise_mergeSort ArgSlot.index (found body)

end ArgSlot

end VectorWrap
