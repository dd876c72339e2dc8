import Mathlib.Data.List.Nodup
import Mathlib.Data.List.Perm.Basic
import VectorWrap.Matching.Basic

/-!
# Member names that clash

Matching hands out member names one by one, in the order of the declarations, and stops at the
first name it has handed out before. What it hands out can be said without it: `entries` pairs
each declaration that has an implementation with its keys, in order. Matching succeeds exactly
when no two entries have one member name, and the error it stops with is the first name of the
entries that repeats an earlier one, with the two declarations (`make_total`).

The argument separates the two things a step does. Taking up a declaration extends the units and
the tables whatever the names are (`take`), and hands out the names of its entries whatever the
tables are (`handOut`); `foldlM_step` says that a run is the two side by side. Handing out is then
an induction on the entries with the names handed out so far, and the tables are an induction on
the declarations.
-/

namespace VectorWrap.Matching

/-! ### The keys in order -/

/-- A declaration with one of its keys. -/
abbrev Entry := Declaration × Text

/-- The name of the member function of an entry. -/
def Entry.member (e : Entry) : Text :=
  Key.member e.2

/-- An implementation has the symbol of the declaration. -/
def Implemented (natives : List Implementation) (d : Declaration) : Prop :=
  ∃ n ∈ natives, n.symbol = d.symbol

instance (natives : List Implementation) (d : Declaration) : Decidable (Implemented natives d) :=
  inferInstanceAs (Decidable (∃ n ∈ natives, n.symbol = d.symbol))

/-- The plain key of the declaration at a position: its symbol, with the parameter types when a
declaration at another position has that symbol too. -/
def plainKeyAt (all : List Declaration) (i : Nat) (d : Declaration) : Text :=
  if ∃ e ∈ all.eraseIdx i, e.symbol = d.symbol then Key.overload d.symbol d.types else d.symbol

/-- The keys of the declaration at a position, the plain one first. -/
def keysAt (all : List Declaration) (i : Nat) (d : Declaration) : List Text :=
  plainKeyAt all i d :: if d.isCast then [Key.cast (plainKeyAt all i d)] else []

/-- The keys of all declarations with an implementation, in order. -/
def entries (declarations : List Declaration) (natives : List Implementation) : List Entry :=
  declarations.zipIdx.flatMap fun (d, i) =>
    if Implemented natives d then (keysAt declarations i d).map (d, ·) else []

/-- `error` names the first member name of the entries that repeats an earlier one, with the
declarations of both. -/
def FirstClash (es : List Entry) (error : GenError) : Prop :=
  ∃ before first between second after,
    es = before ++ first :: between ++ second :: after
      ∧ ((before ++ first :: between).map Entry.member).Nodup
      ∧ first.member = second.member
      ∧ error = .keyCollision second.member first.1.display second.1.display

/-- Entries with a clash do not have different member names. -/
theorem FirstClash.not_nodup {es : List Entry} {error : GenError} (h : FirstClash es error) :
    ¬ (es.map Entry.member).Nodup := by
  obtain ⟨before, first, between, second, after, rfl, -, same, -⟩ := h
  intro nodup
  simp only [List.map_append, List.map_cons, List.nodup_append] at nodup
  exact nodup.2.2 first.member (by simp) second.member (by simp) same

/-! ### A position among the declarations -/

/-- A declaration at a position is not the only one of its symbol exactly when the symbol is
counted twice. -/
theorem one_lt_countP_iff {all : List Declaration} {i : Nat} {d : Declaration}
    (h : all[i]? = some d) :
    1 < all.countP (·.symbol == d.symbol) ↔ ∃ e ∈ all.eraseIdx i, e.symbol = d.symbol := by
  obtain ⟨hi, rfl⟩ := List.getElem?_eq_some_iff.mp h
  have perm := List.getElem_cons_eraseIdx_perm hi
  rw [← perm.countP_eq, List.countP_cons_of_pos (by simp), Nat.lt_add_left_iff_pos,
    List.countP_pos_iff]
  simp

/-- The keys of a declaration are those at its position. -/
theorem keysOf_eq_keysAt {all : List Declaration} {i : Nat} {d : Declaration}
    (h : all[i]? = some d) : keysOf all d = keysAt all i d := by
  have base : baseKey all d = plainKeyAt all i d := by
    simp only [baseKey, plainKeyAt, gt_iff_lt, one_lt_countP_iff h]
  simp only [keysOf, keysAt, base]
  cases d.isCast <;> rfl

/-- The entries that one declaration of all adds. -/
def given (natives : List Implementation) (all : List Declaration) (d : Declaration) :
    List Entry :=
  if Implemented natives d then (keysOf all d).map (d, ·) else []

/-- The entries are given by each declaration in turn. -/
theorem entries_eq (declarations : List Declaration) (natives : List Implementation) :
    entries declarations natives = declarations.flatMap (given natives declarations) := by
  have same : ∀ x ∈ declarations.zipIdx,
      (if Implemented natives x.1 then (keysAt declarations x.2 x.1).map (x.1, ·) else [])
        = given natives declarations x.1 := by
    intro x hx
    rw [given, keysOf_eq_keysAt (List.mem_zipIdx_iff_getElem?.mp hx)]
  rw [entries, List.flatMap_congr same, ← List.flatMap_map, List.zipIdx_map_fst]

/-! ### A run is two runs -/

/-- The matching with one more declaration of all taken up, whatever its member names. -/
def take (natives : List Implementation) (all : List Declaration) (m : Matching)
    (d : Declaration) : Matching :=
  match implementation? natives d.symbol with
  | none => m.leave d
  | some n => m.add ⟨d, n, keysOf all d⟩

/-- Hands out the member names of entries. -/
def handOut (owners : Owners) : List Entry → Except GenError Owners
  | [] => .ok owners
  | e :: es =>
      match owners.lookup e.member with
      | some first => .error (.keyCollision e.member first e.1.display)
      | none => handOut ((e.member, e.1.display) :: owners) es

/-- A declaration claims its keys by handing out its entries. -/
theorem claim_eq_handOut (d : Declaration) (owners : Owners) (keys : List Text) :
    claim owners d.display keys = handOut owners (keys.map (d, ·)) := by
  induction keys generalizing owners with
  | nil => rfl
  | cons k ks ih =>
    simp only [claim, List.map_cons, handOut, Entry.member]
    cases owners.lookup (Key.member k) with
    | some first => rfl
    | none => exact ih _

/-- Entries are handed out one after the other. -/
theorem handOut_append (owners : Owners) (es fs : List Entry) :
    handOut owners (es ++ fs) = handOut owners es >>= (handOut · fs) := by
  induction es generalizing owners with
  | nil => rfl
  | cons e es ih =>
    simp only [List.cons_append, handOut]
    cases owners.lookup e.member with
    | some first => rfl
    | none => exact ih _

theorem implementation?_eq_none {natives : List Implementation} {d : Declaration} :
    implementation? natives d.symbol = none ↔ ¬ Implemented natives d := by
  simp [implementation?, Implemented]

theorem isSome_implementation? {natives : List Implementation} {d : Declaration} :
    (implementation? natives d.symbol).isSome ↔ Implemented natives d := by
  rw [← not_iff_not, ← implementation?_eq_none, Option.not_isSome_iff_eq_none]

/-- A step takes up its declaration and hands out the entries of that. -/
theorem step_eq (natives : List Implementation) (all : List Declaration) (p : Progress)
    (d : Declaration) :
    step natives all p d = (handOut p.owners (given natives all d)).map
      fun owners => ⟨take natives all p.matching d, owners⟩ := by
  cases found : implementation? natives d.symbol with
  | none =>
    have none_given : given natives all d = [] := if_neg (implementation?_eq_none.mp found)
    simp only [step, take, found, none_given]
    rfl
  | some n =>
    have all_given : given natives all d = (keysOf all d).map (d, ·) :=
      if_pos (isSome_implementation?.mp (by rw [found]; rfl))
    simp only [step, take, found, all_given, claim_eq_handOut]
    rfl

/-- **A run** over declarations hands out the names of their entries, and where that succeeds has
taken up all of them. -/
theorem foldlM_step (natives : List Implementation) (all ds : List Declaration) (p : Progress) :
    ds.foldlM (step natives all) p = (handOut p.owners (ds.flatMap (given natives all))).map
      fun owners => ⟨ds.foldl (take natives all) p.matching, owners⟩ := by
  induction ds generalizing p with
  | nil => rfl
  | cons d ds ih =>
    rw [List.foldlM_cons, step_eq, List.flatMap_cons, handOut_append]
    cases handOut p.owners (given natives all d) with
    | error e => rfl
    | ok owners => exact ih _

/-- A match takes up all declarations if all entries can be handed out. -/
theorem make_eq (declarations : List Declaration) (natives : List Implementation) :
    make declarations natives = (handOut [] (entries declarations natives)).map
      fun _ => declarations.foldl (take natives declarations) {} := by
  rw [make, foldlM_step, entries_eq]
  cases handOut [] (declarations.flatMap (given natives declarations)) <;> rfl

/-! ### Handing out -/

/-- The owners after the names of entries have been handed out. -/
def ownersOf (es : List Entry) : Owners :=
  (es.map fun e => (e.member, e.1.display)).reverse

theorem ownersOf_append (es : List Entry) (e : Entry) :
    ownersOf (es ++ [e]) = (e.member, e.1.display) :: ownersOf es := by
  simp [ownersOf]

/-- A name without an owner has not been handed out. -/
theorem lookup_ownersOf_eq_none {es : List Entry} {name : Text}
    (h : (ownersOf es).lookup name = none) : name ∉ es.map Entry.member := by
  rw [List.lookup_eq_none_iff] at h
  intro hmem
  obtain ⟨e, he, rfl⟩ := List.mem_map.mp hmem
  have := h (e.member, e.1.display) (by simpa [ownersOf] using ⟨e.1, e.2, he, rfl, rfl⟩)
  simp at this

/-- A name with an owner has been handed out to it. -/
theorem exists_of_lookup_ownersOf {es : List Entry} {name owner : Text}
    (h : (ownersOf es).lookup name = some owner) :
    ∃ e ∈ es, e.member = name ∧ e.1.display = owner := by
  obtain ⟨l₁, l₂, split, -⟩ := List.lookup_eq_some_iff.mp h
  have hmem : (name, owner) ∈ ownersOf es := by rw [split]; simp
  simpa [ownersOf] using hmem

/-- With the names of `done` handed out, the names of `es` can be handed out when none of them
repeats an earlier one, and otherwise the first that does is the error. -/
theorem handOut_spec (done es : List Entry) (h : (done.map Entry.member).Nodup) :
    match handOut (ownersOf done) es with
    | .ok _ => ((done ++ es).map Entry.member).Nodup
    | .error error => FirstClash (done ++ es) error := by
  induction es generalizing done with
  | nil => simpa [handOut] using h
  | cons e es ih =>
    rw [handOut]
    cases found : (ownersOf done).lookup e.member with
    | some owner =>
      obtain ⟨first, hfirst, same, rfl⟩ := exists_of_lookup_ownersOf found
      obtain ⟨before, between, rfl⟩ := List.append_of_mem hfirst
      exact ⟨before, first, between, e, es, by simp, h, same, rfl⟩
    | none =>
      have nodup : ((done ++ [e]).map Entry.member).Nodup := by
        rw [List.map_append, List.map_singleton, ← List.concat_eq_append, List.nodup_concat]
        exact ⟨lookup_ownersOf_eq_none found, h⟩
      have rest := ih (done ++ [e]) nodup
      rwa [ownersOf_append, List.append_assoc] at rest

/-! ### The tables -/

/-- A value is entered only where the key has none. -/
theorem lookup_enter {α : Type} (key : Text) (value : α) (table : List (Text × α)) (s : Text) :
    (enter key value table).lookup s
      = (table.lookup s).or (if s = key then some value else none) := by
  unfold enter
  split
  case isTrue known =>
    by_cases same : s = key
    · subst same
      obtain ⟨v, hv⟩ := Option.isSome_iff_exists.mp known
      simp [hv]
    · simp [same]
  case isFalse =>
    rw [List.lookup_append, List.lookup_cons]
    by_cases same : s = key
    · simp [same]
    · simp [same, beq_false_of_ne same]

/-- Keys are added to those that the symbol has. -/
theorem lookup_extend (key : Text) (keys : List Text) (table : List (Text × List Text))
    (s : Text) :
    (extend key keys table).lookup s
      = if s = key then some ((table.lookup key).getD [] ++ keys) else table.lookup s := by
  induction table with
  | nil =>
    rw [extend, List.lookup_cons]
    by_cases same : s = key
    · simp [same]
    · simp [same, beq_false_of_ne same]
  | cons row table ih =>
    obtain ⟨t, ks⟩ := row
    rw [extend]
    by_cases here : t = key
    · subst here
      rw [if_pos rfl, List.lookup_cons, List.lookup_cons, List.lookup_cons]
      by_cases same : s = t
      · simp [same]
      · simp [same, beq_false_of_ne same]
    · have other : (key == t) = false := beq_false_of_ne (Ne.symm here)
      rw [if_neg here, List.lookup_cons, ih, List.lookup_cons, List.lookup_cons, other]
      by_cases same : s = key
      · subst same
        simp [other]
      · simp [same]

/-- No key is entered twice. -/
theorem nodup_enter {α : Type} {table : List (Text × α)} (key : Text) (value : α)
    (h : (table.map Prod.fst).Nodup) : ((enter key value table).map Prod.fst).Nodup := by
  unfold enter
  split
  case isTrue => exact h
  case isFalse unknown =>
    rw [Option.not_isSome_iff_eq_none, List.lookup_eq_none_iff] at unknown
    rw [List.map_append, List.map_singleton, ← List.concat_eq_append, List.nodup_concat]
    refine ⟨fun hmem => ?_, h⟩
    obtain ⟨row, hrow, rfl⟩ := List.mem_map.mp hmem
    simpa using unknown row hrow

/-- Extending a table enters the key if it is new. -/
theorem map_fst_extend (key : Text) (keys : List Text) (table : List (Text × List Text)) :
    (extend key keys table).map Prod.fst = (enter key keys table).map Prod.fst := by
  induction table with
  | nil => rfl
  | cons row table ih =>
    obtain ⟨t, ks⟩ := row
    unfold enter at ih ⊢
    rw [extend, List.lookup_cons]
    by_cases here : t = key
    · simp [here]
    · rw [if_neg here, List.map_cons, ih, beq_false_of_ne (Ne.symm here)]
      split <;> simp

/-- The tables of a matching say what its units say: each symbol of a unit is entered once, with
the first implementation of that symbol and with the keys of the units of that symbol in order,
and no other symbol is. -/
structure Tabulated (natives : List Implementation) (m : Matching) : Prop where
  implementations : ∀ symbol, m.implementations.lookup symbol
    = if symbol ∈ m.units.map (·.declaration.symbol)
      then natives.find? (·.symbol == symbol) else none
  implementations_nodup : (m.implementations.map Prod.fst).Nodup
  keys : ∀ symbol, m.keys.lookup symbol
    = if symbol ∈ m.units.map (·.declaration.symbol)
      then some ((m.units.filter (·.declaration.symbol == symbol)).flatMap (·.keys)) else none
  keys_nodup : (m.keys.map Prod.fst).Nodup

/-- Without units the tables are empty. -/
theorem tabulated_empty (natives : List Implementation) : Tabulated natives {} where
  implementations _ := rfl
  implementations_nodup := List.nodup_nil
  keys _ := rfl
  keys_nodup := List.nodup_nil

/-- The tables are right with one unit more. -/
theorem Tabulated.add {natives : List Implementation} {m : Matching} (h : Tabulated natives m)
    {u : Match}
    (first : implementation? natives u.declaration.symbol = some u.implementation) :
    Tabulated natives (m.add u) where
  implementations symbol := by
    simp only [Matching.add, lookup_enter, h.implementations, List.map_append, List.mem_append,
      List.map_singleton, List.mem_singleton]
    by_cases known : symbol ∈ m.units.map (·.declaration.symbol)
    · by_cases same : symbol = u.declaration.symbol
      · subst same
        rw [implementation?] at first
        simp [known, first]
      · simp [known, same]
    · by_cases same : symbol = u.declaration.symbol
      · subst same
        rw [implementation?] at first
        rw [if_neg known, if_pos rfl, Option.none_or, if_pos (Or.inr rfl), first]
      · simp [known, same]
  implementations_nodup := nodup_enter _ _ h.implementations_nodup
  keys symbol := by
    simp only [Matching.add, lookup_extend, h.keys, List.map_append, List.mem_append,
      List.map_singleton, List.mem_singleton, List.filter_append, List.flatMap_append]
    by_cases same : symbol = u.declaration.symbol
    · subst same
      by_cases known : u.declaration.symbol ∈ m.units.map (·.declaration.symbol)
      · simp [known]
      · have unseen : m.units.filter (·.declaration.symbol == u.declaration.symbol) = [] := by
          rw [List.filter_eq_nil_iff]
          intro v hv same
          exact known (List.mem_map.mpr ⟨v, hv, by simpa using same⟩)
        simp [known, unseen]
    · simp [same, beq_false_of_ne (Ne.symm same)]
  keys_nodup := by
    rw [Matching.add, map_fst_extend]
    exact nodup_enter _ _ h.keys_nodup

theorem Tabulated.leave {natives : List Implementation} {m : Matching} (h : Tabulated natives m)
    (d : Declaration) : Tabulated natives (m.leave d) :=
  ⟨h.implementations, h.implementations_nodup, h.keys, h.keys_nodup⟩

/-- The tables are right behind every declaration. -/
theorem Tabulated.take {natives : List Implementation} {m : Matching} (h : Tabulated natives m)
    (all : List Declaration) (d : Declaration) : Tabulated natives (take natives all m d) := by
  unfold Matching.take
  cases found : implementation? natives d.symbol with
  | none => exact h.leave d
  | some n => exact h.add found

/-- The tables are right behind all of them. -/
theorem Tabulated.foldl_take {natives : List Implementation} {m : Matching}
    (h : Tabulated natives m) (all ds : List Declaration) :
    Tabulated natives (ds.foldl (Matching.take natives all) m) := by
  induction ds generalizing m with
  | nil => exact h
  | cons d ds ih => exact ih (h.take all d)

/-! ### Units and unmatched declarations -/

/-- The unit of a declaration among all, if it has an implementation. -/
def unit? (natives : List Implementation) (all : List Declaration) (d : Declaration) :
    Option Match :=
  (implementation? natives d.symbol).map (⟨d, ·, keysOf all d⟩)

/-- The units are those of the declarations that have an implementation, in order. -/
theorem units_foldl_take (natives : List Implementation) (all ds : List Declaration)
    (m : Matching) :
    (ds.foldl (take natives all) m).units = m.units ++ ds.filterMap (unit? natives all) := by
  induction ds generalizing m with
  | nil => simp
  | cons d ds ih =>
    rw [List.foldl_cons, ih, List.filterMap_cons, unit?, take]
    cases implementation? natives d.symbol with
    | none => rfl
    | some n => simp [add]

/-- The unmatched are the declarations that have none, in order. -/
theorem unmatched_foldl_take (natives : List Implementation) (all ds : List Declaration)
    (m : Matching) :
    (ds.foldl (take natives all) m).unmatched
      = m.unmatched ++ ds.filter (¬ Implemented natives ·) := by
  induction ds generalizing m with
  | nil => simp
  | cons d ds ih =>
    rw [List.foldl_cons, ih, List.filter_cons, take]
    cases found : implementation? natives d.symbol with
    | none =>
      have unimplemented := implementation?_eq_none.mp found
      simp [leave, unimplemented]
    | some n =>
      have implemented : Implemented natives d := isSome_implementation?.mp (by rw [found]; rfl)
      simp [add, implemented]

/-- The units are of the declarations with an implementation. -/
theorem declarations_filterMap_unit? (natives : List Implementation) (all ds : List Declaration) :
    (ds.filterMap (unit? natives all)).map (·.declaration) = ds.filter (Implemented natives) := by
  rw [List.map_filterMap, ← List.filterMap_eq_filter]
  congr 1
  funext d
  rw [unit?, Option.map_map]
  cases found : implementation? natives d.symbol with
  | none => simp [Option.guard, implementation?_eq_none.mp found]
  | some n =>
    have implemented : Implemented natives d := isSome_implementation?.mp (by rw [found]; rfl)
    simp [Option.guard, implemented]

/-- The entries of the units are those of the declarations. -/
theorem entries_filterMap_unit? (natives : List Implementation) (all ds : List Declaration) :
    (ds.filterMap (unit? natives all)).flatMap (fun u => u.keys.map (u.declaration, ·))
      = ds.flatMap (given natives all) := by
  induction ds with
  | nil => rfl
  | cons d ds ih =>
    rw [List.filterMap_cons, List.flatMap_cons, unit?, given]
    cases found : implementation? natives d.symbol with
    | none => simp [implementation?_eq_none.mp found, ih]
    | some n =>
      have implemented : Implemented natives d := isSome_implementation?.mp (by rw [found]; rfl)
      simp [implemented, ih]

/-! ### What matching comes to -/

/-- A matching is all that its declarations and implementations give: the declarations are split
into units and unmatched ones, both in order; a unit has the first implementation of its symbol
and the keys of its position; the keys of the units are the entries; and the tables say what the
units say. -/
structure Complete (declarations : List Declaration) (natives : List Implementation)
    (m : Matching) : Prop extends Tabulated natives m where
  units : m.units = declarations.zipIdx.filterMap fun (d, i) =>
    (natives.find? (·.symbol == d.symbol)).map (⟨d, ·, keysAt declarations i d⟩)
  matched : m.units.map (·.declaration) = declarations.filter (Implemented natives)
  unmatched : m.unmatched = declarations.filter (¬ Implemented natives ·)
  entries : m.units.flatMap (fun u => u.keys.map (u.declaration, ·))
    = Matching.entries declarations natives

/-- What is taken up is complete. -/
theorem complete_foldl_take (declarations : List Declaration) (natives : List Implementation) :
    Complete declarations natives (declarations.foldl (take natives declarations) {}) where
  toTabulated := (tabulated_empty natives).foldl_take declarations declarations
  units := by
    have same : ∀ x ∈ declarations.zipIdx,
        (natives.find? (·.symbol == x.1.symbol)).map (⟨x.1, ·, keysAt declarations x.2 x.1⟩)
          = unit? natives declarations x.1 := by
      intro x hx
      rw [unit?, keysOf_eq_keysAt (List.mem_zipIdx_iff_getElem?.mp hx)]
      rfl
    have positions : declarations.filterMap (unit? natives declarations)
        = declarations.zipIdx.filterMap (unit? natives declarations ∘ Prod.fst) := by
      rw [← List.filterMap_map, List.zipIdx_map_fst]
    rw [units_foldl_take, List.filterMap_congr same]
    exact positions
  matched := by
    rw [units_foldl_take]
    exact declarations_filterMap_unit? natives declarations declarations
  unmatched := unmatched_foldl_take natives declarations declarations {}
  entries := by
    rw [units_foldl_take, entries_eq]
    exact entries_filterMap_unit? natives declarations declarations

/-- Matching succeeds when no two entries have one member name, and has then taken up all
declarations. -/
theorem make_eq_ok_iff {declarations : List Declaration} {natives : List Implementation}
    {m : Matching} : make declarations natives = .ok m ↔
      ((entries declarations natives).map Entry.member).Nodup ∧
        m = declarations.foldl (take natives declarations) {} := by
  have spec := handOut_spec [] (entries declarations natives) List.nodup_nil
  rw [make_eq]
  simp only [ownersOf, List.map_nil, List.reverse_nil, List.nil_append] at spec
  cases run : handOut [] (entries declarations natives) with
  | error error =>
    simp only [run] at spec
    exact iff_of_false (fun h => by cases h) fun h => spec.not_nodup h.1
  | ok owners =>
    simp only [run] at spec
    exact ⟨fun h => ⟨spec, (Except.ok.inj h).symm⟩, fun h => congrArg Except.ok h.2.symm⟩

theorem complete_of_make {declarations : List Declaration} {natives : List Implementation}
    {m : Matching} (h : make declarations natives = .ok m) : Complete declarations natives m :=
  (make_eq_ok_iff.mp h).2 ▸ complete_foldl_take declarations natives

/-- A unit has the keys of its declaration. -/
theorem keys_of_mem_units {declarations : List Declaration} {natives : List Implementation}
    {m : Matching} (h : make declarations natives = .ok m) {u : Match} (hu : u ∈ m.units) :
    u.keys = keysOf declarations u.declaration := by
  rw [(make_eq_ok_iff.mp h).2, units_foldl_take, List.nil_append] at hu
  obtain ⟨d, -, hd⟩ := List.mem_filterMap.mp hu
  obtain ⟨n, -, rfl⟩ := Option.map_eq_some_iff.mp hd
  rfl

/-- What stops a matching is the first clash of its entries. -/
theorem firstClash_of_make {declarations : List Declaration} {natives : List Implementation}
    {error : GenError} (h : make declarations natives = .error error) :
    FirstClash (entries declarations natives) error := by
  have spec := handOut_spec [] (entries declarations natives) List.nodup_nil
  rw [make_eq] at h
  simp only [ownersOf, List.map_nil, List.reverse_nil, List.nil_append] at spec
  cases run : handOut [] (entries declarations natives) with
  | error e =>
    rw [run] at h
    cases h
    simpa only [run] using spec
  | ok owners =>
    rw [run] at h
    cases h

/-- **Matching fails exactly on a clash of member names.** It succeeds exactly when no two entries
have one member name; then it is complete; and otherwise it names the first clash. -/
theorem make_total (declarations : List Declaration) (natives : List Implementation) :
    ((∃ m, make declarations natives = .ok m) ↔
        ((entries declarations natives).map Entry.member).Nodup)
      ∧ match make declarations natives with
        | .ok m => Complete declarations natives m
        | .error error => FirstClash (entries declarations natives) error := by
  constructor
  · constructor
    · rintro ⟨m, h⟩
      exact (make_eq_ok_iff.mp h).1
    · intro nodup
      exact ⟨_, make_eq_ok_iff.mpr ⟨nodup, rfl⟩⟩
  · split
    · next m h => exact complete_of_make h
    · next error h => exact firstClash_of_make h

end VectorWrap.Matching
