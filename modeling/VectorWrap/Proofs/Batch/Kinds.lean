import VectorWrap.Proofs.Batch.Accounts

/-!
# The kinds of the wrappers of a run

A cast has two keys, a plain one and the cast key behind it.  Which of the two a key is, is not
carried along with it but read off its ending, and a plain key may have that ending too: a symbol
may end like a cast key, and so may the last parameter type of an overload.  Such a key is exempt
from the rules by which a declaration is skipped, and its wrapper is that of a cast.

So the kinds of the wrappers of a run are those of the places of their keys exactly when no first
key ends like a cast key, but for those that no rule would have skipped and for which a wrapper is
refused (`kinds_by_place_iff`).

A place is a key with its index among the keys of its unit (`KeyPlace`).  The statement is about
places since the keys themselves do not tell which of the two they are.
-/

namespace VectorWrap

theorem Key.isCast_cast (key : Text) : Key.isCast (Key.cast key) = true := by
  rw [Key.isCast, List.isSuffixOf_iff_suffix]
  exact List.suffix_append _ _

namespace Emitter

/-- The rule by which a declaration gets no scalar wrapper, if there is one. -/
def rule? (d : Declaration) : Option Skip :=
  if Category.isExcluded d.category then some (.category d.category)
  else if Category.isWire d.symbol then some .wireFunction
  else if d.isCastOnly then some .castOnly
  else none

/-- The rules are for keys that do not end like a cast key. -/
theorem skip?_eq (d : Declaration) (key : Text) :
    skip? d key = if Key.isCast key then none else rule? d := rfl

/-- The kind of a wrapper is read off its key. -/
theorem kind_of_pairEmit {e : Emitter} {x : Match × Text} {w : Wrapper}
    (h : e.pairEmit x = .ok (some w)) : w.kind = kindOf x.2 := by
  obtain ⟨c, -, hc⟩ := bind_eq_ok.mp (wrapper_of_emit h)
  cases hc
  rfl

end Emitter

/-! ### Places -/

/-- A key of a unit with its place among the keys of the unit. -/
structure KeyPlace where
  unit : Match
  index : Nat
  key : Text

namespace KeyPlace

/-- The pair of the unit and the key. -/
def pair (x : KeyPlace) : Match × Text :=
  (x.unit, x.key)

/-- The key is the second one of a cast. -/
def IsCast (x : KeyPlace) : Prop :=
  x.unit.declaration.isCast = true ∧ x.index = 1

end KeyPlace

namespace Matching

/-- Every key with its unit and its place, in order. -/
def places (m : Matching) : List KeyPlace :=
  m.units.flatMap fun u => u.keys.zipIdx.map fun (key, i) => ⟨u, i, key⟩

theorem map_pair_places (m : Matching) : m.places.map KeyPlace.pair = m.keyed := by
  have keys : ∀ u : Match, (u.keys.zipIdx.map fun x => (u, x.1)) = u.keys.map (u, ·) := fun u => by
    conv_rhs => rw [← List.zipIdx_map_fst 0 u.keys, List.map_map]
    rfl
  rw [places, keyed, List.map_flatMap]
  refine List.flatMap_congr fun u _ => ?_
  rw [List.map_map, ← keys]
  rfl

/-- A place is known from its unit and its index. -/
theorem mem_places {m : Matching} {x : KeyPlace} :
    x ∈ m.places ↔ x.unit ∈ m.units ∧ x.unit.keys[x.index]? = some x.key := by
  simp only [places, List.mem_flatMap, List.mem_map, List.mem_zipIdx_iff_getElem?, Prod.exists]
  constructor
  · rintro ⟨u, hu, key, i, h, rfl⟩
    exact ⟨hu, h⟩
  · rintro ⟨hu, h⟩
    exact ⟨x.unit, hu, x.key, x.index, h, rfl⟩

/-- The keys of a unit are its plain key, and behind it the cast key of a cast. -/
theorem place_cases {declarations : List Declaration} {natives : List Implementation}
    {m : Matching} (hm : make declarations natives = .ok m) {x : KeyPlace} (hx : x ∈ m.places) :
    x.index = 0 ∧ x.unit.keys.head? = some x.key ∨ x.IsCast ∧ Key.isCast x.key = true := by
  obtain ⟨hu, hkey⟩ := mem_places.mp hx
  obtain ⟨u, i, key⟩ := x
  cases i with
  | zero => exact .inl ⟨rfl, by rwa [List.head?_eq_getElem?]⟩
  | succ i =>
    rw [keys_of_mem_units hm hu, keysOf] at hkey
    split at hkey
    · next cast =>
      cases i with
      | zero =>
        have second : Key.cast (baseKey declarations u.declaration) = key := Option.some.inj hkey
        exact .inr ⟨⟨cast, rfl⟩, second ▸ Key.isCast_cast _⟩
      | succ i => cases hkey
    · cases hkey

end Matching

namespace Batch
open Outcome

/-- What becomes of the first key of a unit goes by the rules: it is skipped for the rule that
concerns its declaration, and if none does it fails or gets a scalar wrapper. -/
def FirstByRule (e : Emitter) (u : Match) (key : Text) : Prop :=
  (∃ reason, Emitter.rule? u.declaration = some reason ∧ Settles e (u, key) (.skipped reason)) ∨
    Emitter.rule? u.declaration = none ∧
      ((∃ cause, Settles e (u, key) (.failed cause)) ∨
        ∃ w, Settles e (u, key) (.emitted w) ∧ w.kind = .scalar)

/-- The wrappers of the places are casts at the places of casts and there only, and the first key
of every unit goes by the rules. -/
structure KindsByPlace (e : Emitter) (m : Matching) : Prop where
  kinds : ∀ x ∈ m.places, ∀ w, Settles e x.pair (.emitted w) → (w.kind = .cast ↔ x.IsCast)
  first : ∀ u ∈ m.units, ∀ key ∈ u.keys.head?, FirstByRule e u key

/-- A plain key that ends like a cast key does no harm: no rule would have skipped it, and its
wrapper is refused. -/
def Harmless (e : Emitter) (u : Match) (key : Text) : Prop :=
  Emitter.rule? u.declaration = none ∧ ∃ cause, Settles e (u, key) (.failed cause)

/-- The kind of a wrapper is read off its key. -/
theorem Settles.kind_eq {e : Emitter} {x : Match × Text} {w : Wrapper}
    (h : Settles e x (.emitted w)) : w.kind = Emitter.kindOf x.2 := by
  cases h with
  | emitted _ emit => exact Emitter.kind_of_pairEmit emit

/-- The first key goes by the rules unless it ends like a cast key. -/
theorem firstByRule_of_not_isCast {e : Emitter} {u : Match} {key : Text} {o : Outcome}
    (ho : Settles e (u, key) o) (h : Key.isCast key = false) : FirstByRule e u key := by
  have rule : Emitter.pairSkip? (u, key) = Emitter.rule? u.declaration := by
    rw [Emitter.pairSkip?, Emitter.skip?_eq, h]
    rfl
  cases ho with
  | emitted free emit =>
    refine .inr ⟨rule ▸ free, .inr ⟨_, .emitted free emit, ?_⟩⟩
    rw [Emitter.kind_of_pairEmit emit, Emitter.kindOf, h]
    rfl
  | skipped skip => exact .inl ⟨_, rule ▸ skip, .skipped skip⟩
  | failed free emit => exact .inr ⟨rule ▸ free, .inl ⟨_, .failed free emit⟩⟩

/-- A first key that ends like a cast key goes by the rules only if it does no harm. -/
theorem FirstByRule.harmless {e : Emitter} {u : Match} {key : Text} (h : FirstByRule e u key)
    (hc : Key.isCast key = true) : Harmless e u key := by
  rcases h with ⟨reason, -, ho⟩ | ⟨rule, ⟨cause, ho⟩ | ⟨w, ho, hw⟩⟩
  · cases ho with
    | skipped skip =>
      rw [Emitter.pairSkip?, Emitter.skip?_eq, hc] at skip
      cases skip
  · exact ⟨rule, cause, ho⟩
  · rw [Settles.kind_eq ho, Emitter.kindOf, hc] at hw
    cases hw

/-- A harmless key has no wrapper. -/
theorem Harmless.not_emitted {e : Emitter} {u : Match} {key : Text} (h : Harmless e u key)
    (w : Wrapper) : ¬ Settles e (u, key) (.emitted w) := by
  obtain ⟨-, cause, hc⟩ := h
  intro hw
  cases hc with
  | failed _ refused =>
    cases hw with
    | emitted _ emit => cases refused.symm.trans emit

section run

variable {p : Project} {style : Style} {script : Script} {natives : List Implementation}
  {m : Matching}

theorem exists_of_forall₂ {α β : Type} {r : α → β → Prop} {as : List α} {bs : List β} {a : α}
    (h : List.Forall₂ r as bs) (ha : a ∈ as) : ∃ b, r a b := by
  induction h with
  | nil => cases ha
  | cons hab _ ih =>
    rcases List.mem_cons.mp ha with rfl | ha
    · exact ⟨_, hab⟩
    · exact ih ha

/-- **The kinds of the wrappers of a run are those of the places of their keys** exactly when every
first key that ends like a cast key does no harm. -/
theorem kinds_by_place_iff (hm : Matching.make script.declarations natives = .ok m)
    {s s' : Session} {g : Generated}
    (hg : (generate p style script natives).step s = (.ok g, s')) :
    List.Forall₂ (fun x w => Settles (emitterFor p script) (KeyPlace.pair x) (.emitted w))
        (m.places.filter fun x => (emitterFor p script).succeeds x.pair) g.wrappers ∧
      (KindsByPlace (emitterFor p script) m ↔
        ∀ u ∈ m.units, ∀ key ∈ u.keys.head?, Key.isCast key = true →
          Harmless (emitterFor p script) u key) := by
  obtain ⟨os, hos, rfl⟩ := exists_outcomes hm hg
  rw [← Matching.map_pair_places, List.forall₂_map_left_iff] at hos
  refine ⟨forall₂_emitted hos, fun h u hu key hkey hc => (h.first u hu key hkey).harmless hc,
    fun h => ⟨fun x hx w hw => ?_, fun u hu key hkey => ?_⟩⟩
  · rw [Settles.kind_eq hw]
    rcases Matching.place_cases hm hx with ⟨zero, hkey⟩ | ⟨cast, hc⟩
    · have plain : Key.isCast x.key = false := by
        rw [Bool.eq_false_iff]
        intro hc
        exact (h x.unit (Matching.mem_places.mp hx).1 x.key hkey hc).not_emitted w hw
      refine iff_of_false ?_ fun second => absurd (zero.symm.trans second.2) Nat.zero_ne_one
      rw [Emitter.kindOf, KeyPlace.pair, plain]
      exact fun h => by cases h
    · refine iff_of_true ?_ cast
      rw [Emitter.kindOf, KeyPlace.pair, hc]
      rfl
  · cases hc : Key.isCast key with
    | true =>
      obtain ⟨rule, failed⟩ := h u hu key hkey hc
      exact .inr ⟨rule, .inl failed⟩
    | false =>
      have hx : (⟨u, 0, key⟩ : KeyPlace) ∈ m.places :=
        Matching.mem_places.mpr ⟨hu, by rwa [← List.head?_eq_getElem?]⟩
      obtain ⟨o, ho⟩ := exists_of_forall₂ hos hx
      exact firstByRule_of_not_isCast ho hc

end run

/-! ### Fixed runs -/

/-- A script with a cast, a function of the binary form and one of two parameters, whose symbol
alone ends like a cast key. -/
def castScript : Script :=
  { declarations :=
      [{ Declaration.unary "integer" "float" with isCast := true },
        { Declaration.unary "integer" "integer" with symbol := "g_send" },
        { Declaration.unary "integer" "integer" with
          symbol := "h_cast", params := [⟨"integer", "a"⟩, ⟨"integer", "b"⟩] }] }

/-- The implementations for that script. -/
def castNatives : List Implementation :=
  [constant "f" (.call "now()"), constant "g_send" (.call "now()"),
    constant "h_cast" (.call "now()")]

/-- The theorem for a run with a scalar and a cast wrapper, a skipped key, and a failed one that
ends like a cast key. -/
theorem kinds_by_place_iff_of_cast : ∃ m g s',
    Matching.make castScript.declarations castNatives = .ok m ∧
      (generate {} ⟨false, false⟩ castScript castNatives).step {} = (.ok g, s') ∧
      (g.wrappers.map (·.kind), g.skipped, g.failed) = ([.scalar, .cast], 1, 1) ∧
      List.Forall₂ (fun x w => Settles (emitterFor {} castScript) (KeyPlace.pair x) (.emitted w))
        (m.places.filter fun x => (emitterFor {} castScript).succeeds x.pair) g.wrappers ∧
      KindsByPlace (emitterFor {} castScript) m := by
  obtain ⟨m, hm, harmless⟩ := exists_of_satisfies
    (x := Matching.make castScript.declarations castNatives)
    (p := fun m => m.units.all fun u => u.keys.head?.all fun key => !Key.isCast key ||
      ((Emitter.rule? u.declaration).isNone &&
        satisfies (Outcome.ofKey (emitterFor {} castScript) u key) Outcome.isFailed))
    (by decide +kernel)
  obtain ⟨g, s', hg, hp⟩ := @exists_of_endsWith castScript castNatives
    (fun g => (g.wrappers.map (·.kind), g.skipped, g.failed) == ([.scalar, .cast], 1, 1))
    (by decide +kernel)
  obtain ⟨wrappers, agree⟩ := kinds_by_place_iff hm hg
  refine ⟨m, g, s', hm, hg, by simpa using hp, wrappers, agree.mpr fun u hu key hkey hc => ?_⟩
  have here := List.all_eq_true.mp harmless u hu
  rw [Option.mem_def.mp hkey] at here
  simp only [Option.all_some, hc, Bool.not_true, Bool.false_or, Bool.and_eq_true,
    Option.isNone_iff_eq_none] at here
  obtain ⟨o, ho, hf⟩ := exists_of_satisfies here.2
  refine ⟨here.1, ?_⟩
  cases o with
  | failed cause => exact ⟨cause, settles_of_ofKey ho⟩
  | emitted w => cases hf
  | skipped reason => cases hf

/-- A function that is no cast gets a cast wrapper when its symbol ends like a cast key. -/
theorem symbol_taken_for_cast : ∃ m g s',
    Matching.make (scriptOf [("f_cast", "integer")]).declarations
        [constant "f_cast" (.call "now()")] = .ok m ∧
      (generate {} ⟨false, false⟩ (scriptOf [("f_cast", "integer")])
        [constant "f_cast" (.call "now()")]).step {} = (.ok g, s') ∧
      (∀ u ∈ m.units, u.declaration.isCast = false) ∧ g.wrappers.map (·.kind) = [.cast] ∧
      ¬ KindsByPlace (emitterFor {} (scriptOf [("f_cast", "integer")])) m := by
  obtain ⟨m, hm, hcast⟩ := exists_of_satisfies
    (x := Matching.make (scriptOf [("f_cast", "integer")]).declarations
      [constant "f_cast" (.call "now()")])
    (p := fun m => m.units.all (!·.declaration.isCast) && m.units.any fun u =>
      u.keys.head? == some "f_cast".toList &&
        satisfies (Outcome.ofKey (emitterFor {} (scriptOf [("f_cast", "integer")])) u "f_cast")
          fun o => o.wrapper?.isSome) (by decide +kernel)
  obtain ⟨g, s', hg, hp⟩ := @exists_of_endsWith (scriptOf [("f_cast", "integer")])
    [constant "f_cast" (.call "now()")] (fun g => g.wrappers.map (·.kind) == [.cast])
    (by decide +kernel)
  simp only [Bool.and_eq_true, List.all_eq_true, Bool.not_eq_true', List.any_eq_true,
    beq_iff_eq] at hcast
  obtain ⟨plain, u, hu, hkey, made⟩ := hcast
  obtain ⟨o, ho, hw⟩ := exists_of_satisfies made
  refine ⟨m, g, s', hm, hg, plain, by simpa using hp, fun h => ?_⟩
  have harmless := (h.first u hu _ hkey).harmless (by decide)
  cases o with
  | emitted w => exact harmless.not_emitted w (settles_of_ofKey ho)
  | skipped reason => cases hw
  | failed cause => cases hw

end Batch

end VectorWrap
