import VectorWrap.Proofs.Implementation.Sorted
import VectorWrap.Proofs.Implementation.TwoReadings

/-!
# Each binding is counted once

A binding that both searches find makes one slot: the declaration and the assignment of a sighting
overlap, and those of different sightings do not (`Paired.kept`).  So the slots of a body are
those of its assignments, of which some have been given the type before the variable, and among the
slots of one number these come first.

The two searches are paired in `Implementation/TwoReadings.lean`; here the pairs are counted.  An
entry is the slot of an assignment and the type that stands before its variable, if one does, so
that both searches are read off one list (`exists_entries`).
-/

namespace VectorWrap.ArgSlot
open Scan

variable {s : Text}

/-! ### Overlaps of sightings -/

namespace Sighting

theorem rest_of_declared {f : Sighting} {d : Found Binding} (h : d ∈ f.declared?) :
    d.rest = f.assigned.rest ∧ d.value.digits = f.assigned.value.digits := by
  obtain ⟨x, -, rfl⟩ := Option.map_eq_some_iff.mp h
  exact ⟨rfl, rfl⟩

/-- The two findings of one binding overlap. -/
theorem overlap_own {f : Sighting} {d : Found Binding} (h : d ∈ f.declared?) :
    overlap d f.assigned = true := by
  obtain ⟨x, hx, rfl⟩ := Option.map_eq_some_iff.mp h
  have width := f.ends
  have begins := Text.byteLength_le_of_suffix (f.begins x hx)
  simp only [overlap, Bool.not_eq_true', Bool.or_eq_false_iff, decide_eq_false_iff_not]
  omega

/-- The findings of two bindings do not. -/
theorem Before.overlap {f g : Sighting} (h : f.Before g) :
    (∀ d ∈ f.declared?, overlap d g.assigned = false) ∧
      ∀ d ∈ g.declared?, ArgSlot.overlap d f.assigned = false :=
  ⟨fun _ hd => Fetch.overlap_behind (t := g.assigned.here)
      ((rest_of_declared hd).1.symm ▸ h.1) List.suffix_rfl,
    fun _ hd => Fetch.overlap_before (t := f.assigned.rest) List.suffix_rfl (h.2 _ hd)⟩

end Sighting

/-- An assignment is kept if it is not found as a declaration. -/
theorem Paired.kept {fs : List Sighting} (h : Paired s fs) {f : Sighting} (hf : f ∈ fs) :
    ArgSlot.kept s f.assigned = if f.typed?.isSome then none else ofBinding? f.assigned.value := by
  obtain ⟨xs, ys, rfl⟩ := List.append_of_mem hf
  obtain ⟨-, behind, between⟩ := List.pairwise_append.mp h.before
  have others : ∀ g ∈ xs ++ ys, ∀ d ∈ g.declared?, overlap d f.assigned = false := by
    intro g hg
    rcases List.mem_append.mp hg with hg | hg
    · exact (between g hg f List.mem_cons_self).overlap.1
    · exact ((List.pairwise_cons.mp behind).1 g hg).overlap.2
  have shared : (sweep declaration codeGap s).any (fun d => (ofBinding? d.value).isSome &&
      overlap d f.assigned) = (f.typed?.isSome && (ofBinding? f.assigned.value).isSome) := by
    rw [Bool.eq_iff_iff, List.any_eq_true, Bool.and_eq_true, h.declared]
    constructor
    · rintro ⟨d, hm, hd⟩
      obtain ⟨g, hg, hgd⟩ := List.mem_filterMap.mp hm
      rw [Bool.and_eq_true] at hd
      have own : g = f := by
        by_contra hne
        have other : g ∈ xs ++ ys := by simpa [hne] using hg
        rw [others g other d hgd] at hd
        cases hd.2
      subst own
      obtain ⟨x, hx, -⟩ := Option.map_eq_some_iff.mp hgd
      exact ⟨by rw [hx]; rfl, Fetch.isSome_ofBinding? (Sighting.rest_of_declared hgd).2 ▸ hd.1⟩
    · rintro ⟨ht, hc⟩
      obtain ⟨x, hx⟩ := Option.isSome_iff_exists.mp ht
      obtain ⟨d, hfd⟩ : ∃ d, f.declared? = some d := ⟨_, by rw [Sighting.declared?, hx]; rfl⟩
      refine ⟨d, List.mem_filterMap.mpr ⟨f, hf, hfd⟩, ?_⟩
      rw [Sighting.overlap_own hfd, Fetch.isSome_ofBinding? (Sighting.rest_of_declared hfd).2, hc]
      rfl
  rw [ArgSlot.kept, shared]
  cases f.typed? <;> cases ofBinding? f.assigned.value <;> rfl

/-! ### Entries -/

/-- A slot of the search for assignments, with the type before its variable if that is found. -/
structure Entry where
  slot : ArgSlot
  declared? : Option Text

namespace Entry

/-- The slot with its type, if there is one before its variable. -/
def typed? (e : Entry) : Option ArgSlot :=
  e.declared?.map fun type => { e.slot with type? := e.slot.type? <|> some type }

/-- The slot, if there is no type before its variable. -/
def untyped? (e : Entry) : Option ArgSlot :=
  if e.declared?.isSome then none else some e.slot

end Entry

/-- What of a slot does not depend on types. -/
def identity (slot : ArgSlot) : Text × Text × Nat :=
  (slot.kind, slot.var, slot.index)

/-- The entry of a binding, if its number can be counted. -/
def Sighting.entry? (f : Sighting) : Option Entry :=
  (ofBinding? f.assigned.value).map fun slot => ⟨slot, f.typed?.map Prod.fst⟩

/-- Each entry is typed or untyped. -/
theorem perm_entries (es : List Entry) :
    ((es.filterMap Entry.typed? ++ es.filterMap Entry.untyped?).map identity).Perm
      (es.map fun e => identity e.slot) := by
  induction es with
  | nil => exact .nil
  | cons e es ih =>
    obtain ⟨slot, _ | type⟩ := e
    · have untyped : (⟨slot, none⟩ :: es).filterMap Entry.untyped? =
          slot :: es.filterMap Entry.untyped? := rfl
      have typed : (⟨slot, none⟩ :: es).filterMap Entry.typed? = es.filterMap Entry.typed? := rfl
      rw [untyped, typed, List.map_cons]
      exact (List.perm_middle.map identity).trans (ih.cons _)
    · exact ih.cons _

/-- The slots of a search are those of what it finds. -/
theorem map_fst_pass (form : Scan Binding) (s : Text) :
    (pass form s).map Prod.fst = (sweep form codeGap s).filterMap fun f => ofBinding? f.value := by
  rw [pass, List.map_filterMap]
  refine List.filterMap_congr fun f _ => ?_
  cases ofBinding? f.value <;> rfl

/-- A type makes no difference to the rest of a slot. -/
theorem ofBinding?_typed (b : Binding) (type? : Option Text) :
    ofBinding? { b with type? } = (ofBinding? b).map fun slot => { slot with type? } := by
  rw [ofBinding?, ofBinding?]
  split_ifs <;> rfl

theorem type?_of_ofBinding? {b : Binding} {slot : ArgSlot} (h : ofBinding? b = some slot) :
    slot.type? = b.type? := by
  rw [ofBinding?] at h
  split_ifs at h
  cases h
  rfl

/-- The slot of a declaration is the one of the assignment with its type. -/
theorem Sighting.slot_of_declared (f : Sighting) :
    (f.declared?.bind fun d => ofBinding? d.value) = f.entry?.bind Entry.typed? := by
  rw [declared?, entry?]
  cases f.typed? with
  | none => cases ofBinding? f.assigned.value <;> rfl
  | some x =>
    simp only [Option.map_some, Option.bind_some, ofBinding?_typed]
    cases h : ofBinding? f.assigned.value with
    | none => rfl
    | some slot =>
      simp only [Option.map_some, Option.bind_some, Entry.typed?, type?_of_ofBinding? h]

/-- With plain casts there are entries for the assignments of a body: they are what the search for
assignments finds, and what the two searches report are those with a type and those without. -/
theorem exists_entries {body : Text} (h : PlainCasts body) : ∃ entries : List Entry,
    entries.map Entry.slot = (pass assignment body).map Prod.fst ∧
      entries.filterMap Entry.typed? = declaredSlots body ∧
      entries.filterMap Entry.untyped? = assignedSlots body := by
  obtain ⟨fs, paired⟩ := exists_paired h
  refine ⟨fs.filterMap Sighting.entry?, ?_, ?_, ?_⟩
  · rw [map_fst_pass, paired.assigned, List.filterMap_map, List.map_filterMap]
    refine List.filterMap_congr fun f _ => ?_
    simp only [Sighting.entry?, Option.map_map, Function.comp_def, Option.map_id']
  · rw [declaredSlots, paired.declared, List.filterMap_filterMap, List.filterMap_filterMap]
    exact List.filterMap_congr fun f _ => f.slot_of_declared.symm
  · rw [assignedSlots, paired.assigned, List.filterMap_map, List.filterMap_filterMap]
    refine List.filterMap_congr fun f hf => ?_
    rw [Function.comp_apply, paired.kept hf, Sighting.entry?]
    cases f.typed? <;> cases ofBinding? f.assigned.value <;> rfl

/-- With plain casts the slots are, but for types, what the search for assignments finds. -/
theorem perm_assigned {body : Text} (h : PlainCasts body) :
    ((ofBody body).map identity).Perm (((pass assignment body).map Prod.fst).map identity) := by
  obtain ⟨entries, assigned, declared, untyped⟩ := exists_entries h
  have slots : found body = entries.filterMap Entry.typed? ++ entries.filterMap Entry.untyped? := by
    rw [found_eq_slots, declared, untyped]
  rw [← assigned, List.map_map]
  exact ((perm_ofBody body).map identity).trans (slots ▸ perm_entries _)

/-- The slots of a body are those of its assignments, counted once: `entries` says which of them
are declared. -/
structure CountedOnce (body : Text) (entries : List Entry) : Prop where
  /-- The entries are what the search for assignments alone gives. -/
  assigned : entries.map Entry.slot = (pass assignment body).map Prod.fst
  /-- The search for declarations gives some of them, with types. -/
  declared : entries.filterMap Entry.typed? = (pass declaration body).map Prod.fst
  /-- But for types the slots of the body are those of the search for assignments. -/
  perm : ((ofBody body).map identity).Perm (((pass assignment body).map Prod.fst).map identity)
  sorted : (ofBody body).Pairwise fun a b => a.index ≤ b.index
  /-- Of one number the declared slots come first, in the order of the body. -/
  order : ∀ i, (ofBody body).filter (·.index == i) =
    (entries.filterMap Entry.typed? ++ entries.filterMap Entry.untyped?).filter (·.index == i)

/-- **No binding is lost or counted twice**, if the casts are plain. -/
theorem ofBody_of_plainCasts {body : Text} (h : PlainCasts body) :
    ∃ entries, CountedOnce body entries := by
  obtain ⟨entries, assigned, declared, untyped⟩ := exists_entries h
  refine ⟨entries, assigned, ?_, perm_assigned h, pairwise_ofBody body, fun i => ?_⟩
  · rw [declared, map_fst_pass]
    rfl
  · rw [ofBody, filter_mergeSort ArgSlot.index, found_eq_slots, declared, untyped]

/-- A body with two bindings of one number. -/
def twiceBody : Text :=
  "a = (const char *) PG_GETARG_CSTRING(0);\nSet *b = PG_GETARG_SET_P(0);"

/-- The slots of that body are the two that the search for assignments finds.  The search for
declarations adds the type of the second one, which so comes first. -/
theorem ofBody_of_plainCasts_twice :
    let a : ArgSlot := ⟨"CSTRING".toList, "a".toList, 0, some "const char *".toList⟩
    let b : ArgSlot := ⟨"SET_P".toList, "b".toList, 0, none⟩
    let typed : ArgSlot := { b with type? := some "Set *".toList }
    PlainCasts twiceBody ∧ ofBody twiceBody = [typed, a] ∧
      ∃ entries, CountedOnce twiceBody entries ∧ entries.map Entry.slot = [a, b] ∧
        entries.filterMap Entry.typed? = [typed] := by
  intro a b typed
  have plain : PlainCasts twiceBody := by decide +kernel
  have sorted : ofBody twiceBody = [typed, a] := by
    have order : found twiceBody = [typed, a] := by decide +kernel
    rw [ofBody, order]
    exact List.mergeSort_of_pairwise (by decide)
  obtain ⟨entries, counted⟩ := ofBody_of_plainCasts plain
  exact ⟨plain, sorted, entries, counted, counted.assigned.trans (by decide +kernel),
    counted.declared.trans (by decide +kernel)⟩

example : (found "a = PG_GETARG_INT32(0); int b = PG_GETARG_INT32(0);").map (·.var) =
    ["b".toList, "a".toList] := by
  decide +kernel

end VectorWrap.ArgSlot
