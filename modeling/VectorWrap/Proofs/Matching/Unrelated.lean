import Mathlib.Data.List.Find
import Mathlib.Data.List.InsertIdx
import VectorWrap.Proofs.Matching.Collisions

/-!
# What a match does not depend on

A declaration looks at the implementations only through the first one of its symbol, and at the
other declarations only through how many of them have its symbol.  So implementations may change
places or be added as long as each declaration finds the same one (`make_congr`), and a declaration
more leaves the keys of those with other symbols as they are (`keysOf_insert`).

A run with one declaration more is then a run with the same steps and one step between them.  If
that step leaves the declaration unmatched nothing else is touched (`make_insert_unmatched`).  If it
makes a unit, the member names of its keys are handed out too, and nothing is matched if one of them
has been given to another unit; otherwise the match has that unit more at its place
(`make_insert_matched`).
-/

namespace VectorWrap.Matching

variable {declarations before after : List Declaration} {natives ns : List Implementation}
  {d : Declaration} {m m' : Matching}

/-! ### Implementations -/

/-- A run looks at the implementations only for the symbols of declarations. -/
theorem make_congr
    (h : ∀ d ∈ declarations, implementation? ns d.symbol = implementation? natives d.symbol) :
    make declarations ns = make declarations natives := by
  suffices run : ∀ all ds : List Declaration, (∀ d ∈ ds, d ∈ declarations) → ∀ p,
      ds.foldlM (step ns all) p = ds.foldlM (step natives all) p by
    rw [make, make, run _ _ fun _ hd => hd]
  intro all ds
  induction ds with
  | nil => exact fun _ _ => rfl
  | cons d ds ih =>
    intro hds p
    obtain ⟨hd, hds⟩ := List.forall_mem_cons.mp hds
    have first : step ns all p d = step natives all p d := by rw [step, h d hd, step]
    rw [List.foldlM_cons, List.foldlM_cons, first]
    exact bind_congr fun q => ih hds q

/-- Of implementations with different symbols the order does not matter. -/
theorem implementation?_perm (h : ns.Perm natives) (hn : (natives.map (·.symbol)).Nodup)
    (symbol : Text) : implementation? ns symbol = implementation? natives symbol := by
  refine (List.find?_eq_find?_of_perm h.symm ?_).symm
  rintro a ⟨ha, hsa⟩ b ⟨hb, hsb⟩
  refine List.inj_on_of_nodup_map hn ha hb ?_
  rw [beq_iff_eq.mp hsa, beq_iff_eq.mp hsb]

/-- The second list is the first with more implementations, at any places, of symbols that no
declaration refers to. -/
inductive Supplied (ds : List Declaration) : List Implementation → List Implementation → Prop where
  | nil : Supplied ds [] []
  | keep {l l'} (n : Implementation) (h : Supplied ds l l') : Supplied ds (n :: l) (n :: l')
  | more {l l'} {n : Implementation} (hn : ∀ d ∈ ds, d.symbol ≠ n.symbol)
      (h : Supplied ds l l') : Supplied ds l (n :: l')

/-- With other implementations each declaration finds the one that it had. -/
theorem Supplied.implementation?_eq (h : Supplied declarations natives ns)
    (hd : d ∈ declarations) : implementation? ns d.symbol = implementation? natives d.symbol := by
  unfold implementation?
  induction h with
  | nil => rfl
  | keep n _ ih => rw [List.find?_cons, List.find?_cons, ih]
  | more hn _ ih => rw [List.find?_cons_of_neg (by simpa using (hn d hd).symm), ih]

/-! ### Keys -/

/-- A declaration of another symbol changes no key. -/
theorem keysOf_insert {e : Declaration} (h : e.symbol ≠ d.symbol) :
    keysOf (before ++ d :: after) e = keysOf (before ++ after) e := by
  have same : (before ++ d :: after).countP (·.symbol == e.symbol) =
      (before ++ after).countP (·.symbol == e.symbol) := by
    rw [List.countP_append, List.countP_cons_of_neg (by simpa using h.symm), List.countP_append]
  rw [keysOf, keysOf, baseKey, baseKey, same]

/-- The keys of a declaration that has its symbol for itself. -/
def ownKeys (d : Declaration) : List Text :=
  d.symbol :: if d.isCast then [Key.cast d.symbol] else []

/-- A declaration that has its symbol for itself has its own keys. -/
theorem keysOf_own (h : ∀ e ∈ before ++ after, e.symbol ≠ d.symbol) :
    keysOf (before ++ d :: after) d = ownKeys d := by
  have none : (before ++ after).countP (·.symbol == d.symbol) = 0 :=
    List.countP_eq_zero.mpr fun e he => by simpa using h e he
  have once : ¬ (before ++ d :: after).countP (·.symbol == d.symbol) > 1 := by
    rw [List.countP_append, List.countP_cons_of_pos (by simp)]
    rw [List.countP_append] at none
    omega
  rw [keysOf, baseKey, if_neg once, ownKeys]
  cases d.isCast <;> rfl

/-! ### A declaration more -/

/-- No declaration of the lists that has an implementation has the symbol of `d`. -/
def Alone (natives : List Implementation) (before after : List Declaration) (d : Declaration) :
    Prop :=
  ∀ e ∈ before ++ after, Implemented natives e → e.symbol ≠ d.symbol

theorem alone_of_not_implemented (h : ¬ Implemented natives d) : Alone natives before after d := by
  intro e _ he same
  rw [Implemented, same] at he
  exact h he

/-- The units of the others stay as they are. -/
theorem unit?_insert (h : Alone natives before after d) {e : Declaration}
    (he : e ∈ before ++ after) :
    unit? natives (before ++ d :: after) e = unit? natives (before ++ after) e := by
  rw [unit?, unit?]
  cases found : implementation? natives e.symbol with
  | none => rfl
  | some n =>
    have implemented : Implemented natives e := isSome_implementation?.mp (by rw [found]; rfl)
    rw [keysOf_insert (h e he implemented)]

/-- The match with the given units, entered one after the other, and unmatched declarations. -/
def ofUnits (units : List Match) (unmatched : List Declaration) : Matching :=
  { units.foldl add {} with unmatched := unmatched }

/-- Units are added whatever is unmatched. -/
theorem foldl_add_unmatched (units : List Match) (m : Matching) (ds : List Declaration) :
    units.foldl add { m with unmatched := ds } = { units.foldl add m with unmatched := ds } := by
  induction units generalizing m with
  | nil => rfl
  | cons u units ih => exact ih (m.add u)

/-- All of a match follows from its units and its unmatched declarations. -/
theorem foldl_take_eq (natives : List Implementation) (all ds : List Declaration) (m : Matching) :
    ds.foldl (take natives all) m =
      { (ds.filterMap (unit? natives all)).foldl add m with
        unmatched := m.unmatched ++ ds.filter (¬ Implemented natives ·) } := by
  induction ds generalizing m with
  | nil => simp
  | cons d ds ih =>
    rw [List.foldl_cons, ih, List.filterMap_cons, List.filter_cons, take, unit?]
    cases found : implementation? natives d.symbol with
    | none =>
      have unimplemented := implementation?_eq_none.mp found
      have more := foldl_add_unmatched (ds.filterMap (unit? natives all)) m (m.unmatched ++ [d])
      simp [leave, unimplemented, more]
    | some n =>
      have implemented : Implemented natives d := isSome_implementation?.mp (by rw [found]; rfl)
      simp [implemented, add]

/-- The member names of the keys of units, in order. -/
def members (units : List Match) : List Text :=
  units.flatMap fun u => u.keys.map Key.member

/-- Matching succeeds when the units have different member names. -/
theorem make_eq_ok_iff_units : make declarations natives = .ok m ↔
    (members (declarations.filterMap (unit? natives declarations))).Nodup ∧
      m = ofUnits (declarations.filterMap (unit? natives declarations))
        (declarations.filter (¬ Implemented natives ·)) := by
  have names : (entries declarations natives).map Entry.member =
      members (declarations.filterMap (unit? natives declarations)) := by
    rw [entries_eq, ← entries_filterMap_unit?, List.map_flatMap, members]
    exact List.flatMap_congr fun u _ => List.map_map
  rw [make_eq_ok_iff, names, foldl_take_eq, List.nil_append, ofUnits]

/-- The units with a declaration more are those of the others, with its own between them. -/
theorem filterMap_insert (h : Alone natives before after d) :
    (before ++ d :: after).filterMap (unit? natives (before ++ d :: after)) =
      before.filterMap (unit? natives (before ++ after)) ++
        ((unit? natives (before ++ d :: after) d).toList ++
          after.filterMap (unit? natives (before ++ after))) := by
  have same : ∀ ds : List Declaration, (∀ e ∈ ds, e ∈ before ++ after) →
      ds.filterMap (unit? natives (before ++ d :: after)) =
        ds.filterMap (unit? natives (before ++ after)) :=
    fun ds hds => List.filterMap_congr fun e he => unit?_insert h (hds e he)
  rw [List.filterMap_append, List.filterMap_cons, same _ fun _ => List.mem_append_left _,
    same _ fun _ => List.mem_append_right _]
  cases unit? natives (before ++ d :: after) d <;> rfl

/-! ### A declaration without an implementation -/

theorem insertIdx_append {α : Type} (l r : List α) (a : α) :
    (l ++ r).insertIdx l.length a = l ++ a :: r := by
  induction l with
  | nil => rfl
  | cons b l ih => simpa using ih

/-- **A declaration without an implementation** is one more unmatched declaration, at its place
among them. -/
theorem make_insert_unmatched (hm : make (before ++ after) natives = .ok m)
    (hd : ¬ Implemented natives d) :
    make (before ++ d :: after) natives = .ok { m with
      unmatched := m.unmatched.insertIdx (before.countP (¬ Implemented natives ·)) d } := by
  obtain ⟨nodup, rfl⟩ := make_eq_ok_iff_units.mp hm
  have none : unit? natives (before ++ d :: after) d = none := by
    rw [unit?, implementation?_eq_none.mpr hd]
    rfl
  have alone : Alone natives before after d := alone_of_not_implemented hd
  have units := filterMap_insert alone
  rw [none, Option.toList_none, List.nil_append, ← List.filterMap_append] at units
  have unmatched : (before ++ d :: after).filter (¬ Implemented natives ·) =
      ((before ++ after).filter (¬ Implemented natives ·)).insertIdx
        (before.countP (¬ Implemented natives ·)) d := by
    rw [List.filter_append, List.filter_append, List.filter_cons_of_pos (by simpa using hd),
      List.countP_eq_length_filter, insertIdx_append]
  rw [make_eq_ok_iff_units, units, unmatched]
  exact ⟨nodup, rfl⟩

/-! ### A declaration of a symbol of its own -/

/-- A match is another with one unit more: at a place among the units, and in both tables under its
symbol. -/
structure OneMore (m : Matching) (place : Nat) (u : Match) (m' : Matching) : Prop where
  units : m'.units = m.units.insertIdx place u
  unmatched : m'.unmatched = m.unmatched
  implementations : ∀ s, m'.implementations.lookup s =
    if s = u.declaration.symbol then some u.implementation else m.implementations.lookup s
  keys : ∀ s, m'.keys.lookup s =
    if s = u.declaration.symbol then some u.keys else m.keys.lookup s

/-- A key of a unit has the member name of one of the keys. -/
def Clashes (m : Matching) (keys : List Text) : Prop :=
  ∃ u ∈ m.units, ∃ k ∈ u.keys, ∃ l ∈ keys, Key.member k = Key.member l

instance (m : Matching) (keys : List Text) : Decidable (Clashes m keys) :=
  inferInstanceAs (Decidable (∃ u ∈ m.units, ∃ k ∈ u.keys, ∃ l ∈ keys,
    Key.member k = Key.member l))

/-- A match that is made of units has these. -/
theorem units_ofUnits (units : List Match) (ds : List Declaration) :
    (ofUnits units ds).units = units := by
  suffices h : ∀ m : Matching, (units.foldl add m).units = m.units ++ units from h {}
  intro m
  induction units generalizing m with
  | nil => rw [List.foldl_nil, List.append_nil]
  | cons u units ih => rw [List.foldl_cons, ih, add, List.append_assoc, List.singleton_append]

theorem length_member (key : Text) : (Key.member key).length = key.length := by
  cases key <;> rfl

/-- The key of a cast is longer than the plain one. -/
theorem nodup_ownKeys (d : Declaration) : ((ownKeys d).map Key.member).Nodup := by
  have longer : Key.member d.symbol ≠ Key.member (Key.cast d.symbol) := fun h => by
    have := congrArg List.length h
    rw [length_member, length_member, Key.cast, List.length_append] at this
    simp [Key.castEnding] at this
  rw [ownKeys]
  split <;> simp [longer]

/-- Keys clash exactly if one of their member names is that of a unit. -/
theorem clashes_iff {keys : List Text} :
    Clashes m keys ↔ ∃ x ∈ keys.map Key.member, x ∈ members m.units := by
  simp only [Clashes, members, List.mem_map, List.mem_flatMap]
  constructor
  · rintro ⟨u, hu, k, hk, l, hl, same⟩
    exact ⟨_, ⟨l, hl, rfl⟩, u, hu, k, hk, same⟩
  · rintro ⟨_, ⟨l, hl, rfl⟩, u, hu, k, hk, same⟩
    exact ⟨u, hu, k, hk, l, hl, same⟩

/-- The member names of a unit more are different from the others, which are different from one
another, unless they clash with them. -/
theorem nodup_members_insert {us vs : List Match} {u : Match}
    (h : (members (us ++ vs)).Nodup) (hu : (u.keys.map Key.member).Nodup) :
    (members (us ++ u :: vs)).Nodup ↔
      ∀ x ∈ u.keys.map Key.member, x ∉ members (us ++ vs) := by
  have apart : members (us ++ u :: vs) = members us ++ (u.keys.map Key.member ++ members vs) := by
    rw [members, List.flatMap_append, List.flatMap_cons]
    rfl
  have joined : members us ++ members vs = members (us ++ vs) := List.flatMap_append.symm
  rw [apart, (List.perm_append_comm_assoc _ _ _).nodup_iff, joined, List.nodup_append]
  constructor
  · rintro ⟨-, -, different⟩ x hx hm
    exact different x hx x hm rfl
  · exact fun different => ⟨hu, h, fun x hx y hy same => different x hx (same ▸ hy)⟩

/-- Where one unit is put in between, the tables get its symbol, which they did not have. -/
theorem oneMore_of_complete {ds : List Declaration} (h : Complete declarations natives m)
    (h' : Complete ds natives m') {us vs : List Match} {u : Match} (hm : m.units = us ++ vs)
    (hm' : m'.units = us ++ u :: vs) (unmatched : m'.unmatched = m.unmatched)
    (first : implementation? natives u.declaration.symbol = some u.implementation)
    (own : ∀ v ∈ us ++ vs, v.declaration.symbol ≠ u.declaration.symbol) :
    m.OneMore us.length u m' where
  units := by rw [hm, hm', insertIdx_append]
  unmatched := unmatched
  implementations s := by
    rw [h.implementations, h'.implementations, hm, hm']
    by_cases same : s = u.declaration.symbol
    · rw [if_pos same, if_pos (by simp [same]), same]
      exact first
    · simp only [List.map_append, List.map_cons, List.mem_append, List.mem_cons, same, false_or,
        if_false]
  keys s := by
    rw [h.keys, h'.keys, hm, hm']
    by_cases same : s = u.declaration.symbol
    · have none : ∀ ws : List Match, (∀ v ∈ ws, v ∈ us ++ vs) →
          ws.filter (·.declaration.symbol == u.declaration.symbol) = [] := fun ws hws =>
        List.filter_eq_nil_iff.mpr fun v hv => by simpa using own v (hws v hv)
      rw [if_pos same, if_pos (by simp [same]), same, List.filter_append,
        List.filter_cons_of_pos (by simp), none _ fun _ => List.mem_append_left _,
        none _ fun _ => List.mem_append_right _]
      simp
    · have other : (u.declaration.symbol == s) = false := beq_false_of_ne (Ne.symm same)
      simp only [List.map_append, List.map_cons, List.mem_append, List.mem_cons, same, false_or,
        if_false, List.filter_append, List.filter_cons, other, Bool.false_eq_true]

theorem length_filterMap_unit? (natives : List Implementation) (all ds : List Declaration) :
    (ds.filterMap (unit? natives all)).length = ds.countP (Implemented natives) := by
  rw [List.countP_eq_length_filter, ← declarations_filterMap_unit? natives all, List.length_map]

/-- **A declaration of a symbol of its own** is one more unit with the plain key of its symbol, or
nothing is matched because a member name of its keys has been given to another unit. -/
theorem make_insert_matched (hm : make (before ++ after) natives = .ok m) {n : Implementation}
    (hn : implementation? natives d.symbol = some n)
    (own : ∀ e ∈ before ++ after, e.symbol ≠ d.symbol) :
    (¬ Clashes m (ownKeys d) → ∃ m', make (before ++ d :: after) natives = .ok m' ∧
        m.OneMore (before.countP (Implemented natives)) ⟨d, n, ownKeys d⟩ m') ∧
      (Clashes m (ownKeys d) → ∃ key first second,
        make (before ++ d :: after) natives = .error (.keyCollision key first second)) := by
  obtain ⟨nodup, hm₀⟩ := make_eq_ok_iff_units.mp hm
  have unit : unit? natives (before ++ d :: after) d = some ⟨d, n, ownKeys d⟩ := by
    rw [unit?, hn, Option.map_some, keysOf_own own]
  have alone : Alone natives before after d := fun e he _ => own e he
  have units := filterMap_insert alone
  rw [unit, Option.toList_some, List.singleton_append] at units
  rw [List.filterMap_append] at nodup hm₀
  have all : m.units = _ := hm₀ ▸ units_ofUnits _ _
  -- the units are the old ones and the new one, so only its members can clash
  have succeeds : (∃ m', make (before ++ d :: after) natives = .ok m') ↔
      ¬ Clashes m (ownKeys d) := by
    rw [clashes_iff, all]
    simp only [make_eq_ok_iff_units, units, exists_and_left, exists_eq, and_true,
      nodup_members_insert (u := ⟨d, n, ownKeys d⟩) nodup (nodup_ownKeys d), not_exists, not_and]
  refine ⟨fun hc => ?_, fun hc => ?_⟩
  · obtain ⟨m', hm'⟩ := succeeds.mpr hc
    refine ⟨m', hm', ?_⟩
    have all' : m'.units = _ := (make_eq_ok_iff_units.mp hm').2 ▸ units_ofUnits _ _
    have unmatched : m'.unmatched = m.unmatched := by
      have implemented : Implemented natives d := isSome_implementation?.mp (by rw [hn]; rfl)
      rw [(complete_of_make hm).unmatched, (complete_of_make hm').unmatched, List.filter_append,
        List.filter_append, List.filter_cons_of_neg (by simpa using implemented)]
    rw [← length_filterMap_unit? natives (before ++ after)]
    refine oneMore_of_complete (complete_of_make hm) (complete_of_make hm') all
      (all'.trans units) unmatched hn fun v hv => own _ ?_
    rw [← List.filterMap_append] at hv
    obtain ⟨e, he, found⟩ := List.mem_filterMap.mp hv
    obtain ⟨_, -, rfl⟩ := Option.map_eq_some_iff.mp found
    exact he
  · cases run : make (before ++ d :: after) natives with
    | ok m' => exact absurd hc (succeeds.mp ⟨m', run⟩)
    | error e =>
      obtain ⟨_, _, _, second, _, -, -, -, rfl⟩ := firstClash_of_make run
      exact ⟨_, _, _, rfl⟩

/-! ### All of it -/

/-- **Unrelated inputs do not influence a match.**  It stays as it is when implementations of
different symbols change places, or when implementations are added that no declaration refers to.  A
declaration without an implementation is one more that is unmatched, at its place, and all else
stays.  A declaration that has its symbol for itself is one more unit at its place with its tables'
entries, all other units staying as they are with their keys, or there is a collision of keys,
namely when a member name of its keys is that of a key of another unit. -/
theorem make_unrelated (h : make declarations natives = .ok m) :
    (∀ ns, ns.Perm natives → (natives.map (·.symbol)).Nodup → make declarations ns = .ok m) ∧
    (∀ ns, Supplied declarations natives ns → make declarations ns = .ok m) ∧
    ∀ before after d, declarations = before ++ after →
      (¬ Implemented natives d → make (before ++ d :: after) natives = .ok { m with
        unmatched := m.unmatched.insertIdx (before.countP (¬ Implemented natives ·)) d }) ∧
      ∀ n, implementation? natives d.symbol = some n → (∀ e ∈ declarations, e.symbol ≠ d.symbol) →
        (¬ Clashes m (ownKeys d) → ∃ m', make (before ++ d :: after) natives = .ok m' ∧
          m.OneMore (before.countP (Implemented natives)) ⟨d, n, ownKeys d⟩ m') ∧
        (Clashes m (ownKeys d) → ∃ key first second,
          make (before ++ d :: after) natives = .error (.keyCollision key first second)) := by
  refine ⟨fun ns perm nodup => ?_, fun ns supplied => ?_, ?_⟩
  · rw [make_congr fun d _ => implementation?_perm perm nodup d.symbol, h]
  · rw [make_congr fun d hd => supplied.implementation?_eq hd, h]
  · rintro before after d rfl
    exact ⟨make_insert_unmatched h, fun n hn own => make_insert_matched h hn own⟩

/-- A declaration of a symbol with parameters of the given types. -/
def declared (symbol : Text) (types : List Text) : Declaration :=
  { name := "f", returnType := "tbox", params := types.map (⟨·, "a"⟩), defaults := []
    symbol, definition := [], category := [], isOperator := false, isAggregate := false
    isCast := true, operator? := none, line := 1, span := ⟨none, 0, 0⟩ }

/-- An implementation of a symbol. -/
def native (symbol : Text) : Implementation :=
  { symbol, slots := [], needsTypeTag := false, delegated? := none, returnKind? := none
    nullable := false, body := [], shape := .unclassified [], span := ⟨none, 0, 0⟩ }

/-- Two overloads, the first of which gets the key `F_integer`. -/
def pair : List Declaration :=
  [declared "F" ["integer"], declared "F" ["float"]]

/-- Implementations for them, and two more. -/
def available : List Implementation :=
  [native "F", native "G", native "F_integer"]

/-- The theorem for the two overloads, with a declaration more between them. -/
theorem make_unrelated_of_pair : ∃ m, make pair available = .ok m ∧
    make pair [native "G", native "F_integer", native "F"] = .ok m ∧
    make pair [native "F", native "H", native "G", native "F_integer"] = .ok m ∧
    make (pair.insertIdx 1 (declared "H" [])) available =
      .ok { m with unmatched := [declared "H" []] } ∧
    (∃ m', make (pair.insertIdx 1 (declared "G" [])) available = .ok m' ∧
      m.OneMore 1 ⟨declared "G" [], native "G", ["G".toList, "G_cast".toList]⟩ m') ∧
    ∃ key first second, make (pair.insertIdx 1 (declared "F_integer" [])) available =
      .error (.keyCollision key first second) := by
  have hm : make pair available = .ok (pair.foldl (take available pair) {}) :=
    make_eq_ok_iff.mpr ⟨by decide +kernel, rfl⟩
  obtain ⟨reordered, supplied, inserted⟩ := make_unrelated hm
  have between := fun d => inserted [declared "F" ["integer"]] [declared "F" ["float"]] d rfl
  refine ⟨_, hm, reordered _ (by decide) (by decide),
    supplied _ (.keep _ (.more (by decide) (.keep _ (.keep _ .nil)))),
    (between (declared "H" [])).1 (by decide), ?_, ?_⟩
  · exact ((between (declared "G" [])).2 (native "G") rfl (by decide)).1 (by decide +kernel)
  · exact ((between (declared "F_integer" [])).2 (native "F_integer") rfl (by decide)).2
      (by decide +kernel)

end VectorWrap.Matching
