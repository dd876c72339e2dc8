import VectorWrap.Proofs.Implementation.CountedOnce
import VectorWrap.Proofs.Wrapper.Bound

/-!
# Arguments that are made once

A slot stands for a binding and not for an argument: where a body fetches one argument in two
places, or binds one variable twice, it has two slots, and a closure has two blocks for them.  So
the numbers of the slots ascend strictly and their variables differ, and the closure makes no
argument and declares no variable twice, exactly if the bindings of the body are apart
(`makes_once_iff`).

Since the slots are sorted, two of them with one number stand next to each other, and that the
numbers ascend strictly is the same as that they differ.
-/

namespace VectorWrap

namespace ArgSlot

variable {name : Text → Text} {slots slots' : List ArgSlot}

/-- Each number is above the one before, and no variable is another's, as `name` writes them. -/
structure Distinct (name : Text → Text) (slots : List ArgSlot) : Prop where
  index : slots.Pairwise fun a b => a.index < b.index
  var : slots.Pairwise fun a b => name a.var ≠ name b.var

/-- Neither the arguments nor the variables are the same. -/
def Apart (name : Text → Text) (a b : ArgSlot) : Prop :=
  a.index ≠ b.index ∧ name a.var ≠ name b.var

instance : DecidableRel (Apart name) := fun a b =>
  inferInstanceAs (Decidable (a.index ≠ b.index ∧ name a.var ≠ name b.var))

/-- The bindings that the search for assignments finds, each of which makes a slot. -/
def bindings (body : Text) : List ArgSlot :=
  (pass assignment body).map Prod.fst

/-- In ascending order the numbers are distinct if they ascend strictly. -/
theorem distinct_iff (sorted : slots.Pairwise fun a b => a.index ≤ b.index) :
    Distinct name slots ↔ slots.Pairwise (Apart name) := by
  constructor
  · intro h
    exact h.index.imp₂ (fun _ _ hi hv => ⟨hi.ne, hv⟩) h.var
  · intro h
    refine ⟨?_, h.imp fun ha => ha.2⟩
    exact sorted.imp₂ (fun _ _ hle ha => lt_of_le_of_ne hle ha.1) h

/-- Slots that are the same but for types and their order are apart or not. -/
theorem pairwise_apart_of_perm (h : (slots.map identity).Perm (slots'.map identity)) :
    slots.Pairwise (Apart name) ↔ slots'.Pairwise (Apart name) := by
  have key (l : List ArgSlot) : l.Pairwise (Apart name) ↔
      (l.map identity).Pairwise fun a b => a.2.2 ≠ b.2.2 ∧ name a.2.1 ≠ name b.2.1 := by
    rw [List.pairwise_map]
    rfl
  rw [key, key]
  exact h.pairwise_iff fun hab => ⟨hab.1.symm, hab.2.symm⟩

/-- The slots of a body are distinct exactly if the bindings are that are found in it. -/
theorem distinct_ofBody_iff (body : Text) :
    Distinct name (ofBody body) ↔ (found body).Pairwise (Apart name) := by
  rw [distinct_iff (pairwise_ofBody body), pairwise_apart_of_perm ((perm_ofBody body).map identity)]

/-- With plain casts those are the bindings that the search for assignments finds. -/
theorem distinct_ofBody_iff_of_plainCasts {body : Text} (plain : PlainCasts body) :
    Distinct name (ofBody body) ↔ (bindings body).Pairwise (Apart name) := by
  rw [distinct_iff (pairwise_ofBody body), pairwise_apart_of_perm (perm_assigned plain)]
  rfl

end ArgSlot

namespace Closure
open ArgSlot

/-- The blocks that a closure begins with, each with the slot that it makes. -/
structure Makes (d : Declaration) (n : Implementation) (c : Closure)
    (blocks : List (ArgSlot × List Text)) : Prop where
  slots : blocks.map Prod.fst = n.slots
  each : ∀ b ∈ blocks,
    Materializes d.params.length d.defaults (outputRenaming n).text b.1 b.2
  body : ∃ rest, c.body = blocks.flatMap Prod.snd ++ rest

/-- A closure that is made begins with a block for each slot. -/
theorem exists_makes {types : TypeTable} {policy : PlaceholderPolicy} {d : Declaration}
    {n : Implementation} {function : Text} {kind : WrapperKind} {c : Closure}
    (h : make types policy d n function kind = .ok c) : ∃ blocks, Makes d n c blocks := by
  obtain ⟨blocks, rest, body, each⟩ := (binds_of_make h).body
  rw [Declaration.types, List.length_map] at each
  have length := each.length_eq
  refine ⟨n.slots.zip blocks, List.map_fst_zip length.le, fun b hb => ?_, rest, ?_⟩
  · exact (List.forall₂_iff_zip.mp each).2 hb
  · rw [body, List.flatMap_def, List.map_snd_zip length.ge]

/-- **A closure makes each argument once exactly if the bindings of the body are apart.**  It has a
block for every binding, in the order of the numbers. -/
theorem makes_once_iff {symbol body : Text} {span : Span} {n : Implementation}
    (h : Implementation.ofBody symbol body span = .ok n) :
    (Distinct id n.slots ↔ (found body).Pairwise (Apart id)) ∧
    (PlainCasts body → (Distinct id n.slots ↔ (bindings body).Pairwise (Apart id))) ∧
    ∀ types policy d function kind c, make types policy d n function kind = .ok c →
      ∃ blocks, Makes d n c blocks ∧ (blocks.map Prod.fst).Perm (found body) ∧
        (Distinct (outputRenaming n).text (blocks.map Prod.fst) ↔
          (found body).Pairwise (Apart (outputRenaming n).text)) := by
  have slots := Implementation.slots_ofBody h
  rw [slots]
  refine ⟨distinct_ofBody_iff body, distinct_ofBody_iff_of_plainCasts,
    fun types policy d function kind c hc => ?_⟩
  obtain ⟨blocks, made⟩ := exists_makes hc
  refine ⟨blocks, made, ?_⟩
  rw [made.slots, slots]
  exact ⟨perm_ofBody body, distinct_ofBody_iff body⟩

/-- A body that fetches two arguments. -/
def pairBody : Text :=
  "text *t = PG_GETARG_TEXT_P(1);\nint32 k = PG_GETARG_INT32(0);\nPG_RETURN_INT32(g(t, k));"

/-- The theorem for that body. -/
theorem makes_once_iff_of_pair : ∃ n, Implementation.ofBody "f" pairBody ⟨none, 0, 0⟩ = .ok n ∧
    PlainCasts pairBody ∧ (bindings pairBody).map (·.index) = [1, 0] ∧ Distinct id n.slots := by
  obtain ⟨n, hn, -⟩ := exists_of_satisfies
    (x := Implementation.ofBody "f" pairBody ⟨none, 0, 0⟩) (p := fun _ => true) (by decide +kernel)
  have plain : PlainCasts pairBody := by decide +kernel
  exact ⟨n, hn, plain, by decide +kernel, ((makes_once_iff hn).2.1 plain).mpr (by decide +kernel)⟩

/-- A body that fetches one argument in two branches. -/
def branchBody : Text :=
  "if (a) n = PG_GETARG_INT32(0);\nif (! a) n = PG_GETARG_INT32(0);\nPG_RETURN_INT32(n);"

/-- An argument that is fetched in two places has two slots. -/
theorem slots_of_branches : ∃ n, Implementation.ofBody "f" branchBody ⟨none, 0, 0⟩ = .ok n ∧
    n.slots.map (·.index) = [0, 0] ∧ ¬ Distinct id n.slots := by
  obtain ⟨n, hn, -⟩ := exists_of_satisfies
    (x := Implementation.ofBody "f" branchBody ⟨none, 0, 0⟩) (p := fun _ => true)
    (by decide +kernel)
  have slots := Implementation.slots_ofBody hn
  have sorted : (n.slots.map (·.index)).Pairwise (· ≤ ·) :=
    List.pairwise_map.mpr (slots ▸ pairwise_ofBody branchBody)
  have numbers : (n.slots.map (·.index)).Perm [0, 0] :=
    slots ▸ ((perm_ofBody branchBody).map (·.index)).trans (by decide +kernel)
  have same : n.slots.map (·.index) = [0, 0] :=
    numbers.eq_of_pairwise (fun a b _ _ => Nat.le_antisymm) sorted (by decide)
  refine ⟨n, hn, same, fun h => ?_⟩
  have strict : (n.slots.map (·.index)).Pairwise (· < ·) := List.pairwise_map.mpr h.index
  rw [same] at strict
  revert strict
  decide

end Closure

end VectorWrap
