import VectorWrap.Proofs.Matching.Collisions
import VectorWrap.Proofs.Text.Words

/-!
# Keys of overloads

The key of an overload is its symbol and then the runs of letters and digits of its parameter types,
each behind an underscore (`overload_eq`).  Where one type ends and the next begins is not in the
key, nor which characters stood between two runs.  So two overloads of a symbol have one member name
exactly when their types have the same runs in the same order (`member_overload_eq_iff`), and the
overloads of a symbol are told apart exactly when no two of them do (`overloads_apart_iff`).

Different types are not enough: the type `a_b` has the runs of the types `a` and `b`.
-/

namespace VectorWrap

namespace Key

/-! ### The runs of a type -/

/-- The maximal runs of letters and digits. -/
def letterRuns (s : Text) : List Text :=
  (Text.splitBy (!Char.isAlphanum ·) s).filter (!·.isEmpty)

/-- The runs of a type name.  A name without letters and digits has one empty run. -/
def runs (type : Text) : List Text :=
  if letterRuns type = [] then [[]] else letterRuns type

/-- A character that is no letter or digit divides the runs. -/
theorem letterRuns_append {c : Char} (hc : c.isAlphanum = false) (s t : Text) :
    letterRuns (s ++ c :: t) = letterRuns s ++ letterRuns t := by
  rw [letterRuns, Text.splitBy_append_sep (by simpa using hc), List.filter_append]
  rfl

theorem letterRuns_run {w : Text} (hw : w ≠ []) (h : ∀ c ∈ w, c.isAlphanum = true) :
    letterRuns w = [w] := by
  rw [letterRuns, Text.splitBy_of_none (by simpa using h)]
  simp [hw]

/-- A text without letters and digits has no run. -/
theorem letterRuns_of_none {s : Text} (h : ∀ c ∈ s, c.isAlphanum = false) :
    letterRuns s = [] := by
  induction s with
  | nil => rfl
  | cons c s ih =>
    obtain ⟨hc, hs⟩ := List.forall_mem_cons.mp h
    rw [← List.nil_append (c :: s), letterRuns_append hc, ih hs]
    rfl

/-- Other characters at its ends have no part in the runs of a text. -/
theorem letterRuns_around {a b : Text} (ha : ∀ c ∈ a, c.isAlphanum = false)
    (hb : ∀ c ∈ b, c.isAlphanum = false) (s : Text) :
    letterRuns (a ++ s ++ b) = letterRuns s := by
  have right : letterRuns (s ++ b) = letterRuns s := by
    cases b with
    | nil => rw [List.append_nil]
    | cons c b =>
      obtain ⟨hc, hb⟩ := List.forall_mem_cons.mp hb
      rw [letterRuns_append hc, letterRuns_of_none hb, List.append_nil]
  rw [List.append_assoc]
  induction a with
  | nil => exact right
  | cons c a ih =>
    obtain ⟨hc, ha⟩ := List.forall_mem_cons.mp ha
    rw [List.cons_append, ← List.nil_append (c :: _), letterRuns_append hc, ih ha]
    rfl

theorem isAlphanum_of_isBlank {c : Char} (h : Text.isBlank c = true) : c.isAlphanum = false := by
  rw [Bool.eq_false_iff]
  intro hc
  have : Text.inName c = true := by rw [Text.inName, hc, Bool.true_or]
  rw [Text.isBlank_of_inName this] at h
  cases h

/-- Trimming changes no run. -/
theorem letterRuns_trim (s : Text) : letterRuns (Text.trim s) = letterRuns s := by
  obtain ⟨a, b, hs, ha, hb⟩ := Text.exists_trim s
  conv_rhs => rw [hs]
  exact (letterRuns_around (fun c hc => isAlphanum_of_isBlank (ha c hc))
    (fun c hc => isAlphanum_of_isBlank (hb c hc)) _).symm

/-! ### Squashing -/

/-- A run is kept as it is. -/
theorem squash_run {w : Text} (hw : w ≠ []) (h : ∀ c ∈ w, c.isAlphanum = true) (joined : Bool)
    (s : Text) : squash joined (w ++ s) = w ++ squash false s := by
  induction w generalizing joined with
  | nil => exact absurd rfl hw
  | cons c w ih =>
    obtain ⟨hc, hw'⟩ := List.forall_mem_cons.mp h
    rw [List.cons_append, squash, if_pos hc, List.cons_append]
    cases w with
    | nil => rfl
    | cons d w => rw [ih (by simp) hw']

/-- What is no letter or digit becomes an underscore, one for all of them in a row. -/
theorem squash_other {c : Char} (hc : c.isAlphanum = false) (joined : Bool) (s : Text) :
    squash joined (c :: s) = (if joined then [] else ['_']) ++ squash true s := by
  rw [squash, if_neg (by simp [hc])]
  cases joined <;> rfl

/-- Behind an underscore a squashed text is its runs with an underscore between each two, and at
most one underscore more. -/
theorem squash_true (s : Text) :
    ∃ e : Text, (∀ c ∈ e, c = '_') ∧ squash true s = ['_'].intercalate (letterRuns s) ++ e := by
  induction hk : s.length using Nat.strong_induction_on generalizing s with
  | _ k ih =>
    obtain ⟨w, hw, rfl | ⟨c, r, rfl, hc⟩⟩ := Text.exists_run_of Char.isAlphanum s
    · by_cases hs0 : s = []
      · subst hs0
        exact ⟨[], by simp, rfl⟩
      · refine ⟨[], by simp, ?_⟩
        rw [letterRuns_run hs0 hw, ← List.append_nil s, squash_run hs0 hw]
        simp [squash]
    · have hlen : r.length < k := by
        rw [← hk, List.length_append, List.length_cons]
        omega
      obtain ⟨e, he, hr⟩ := ih r.length hlen r rfl
      by_cases hw0 : w = []
      · subst hw0
        refine ⟨e, he, ?_⟩
        rw [letterRuns_append hc, List.nil_append, squash_other hc, if_pos rfl, List.nil_append, hr]
        rfl
      · rw [letterRuns_append hc, letterRuns_run hw0 hw, squash_run hw0 hw, squash_other hc, hr,
          List.singleton_append]
        by_cases hrest : letterRuns r = []
        · refine ⟨'_' :: e, by simpa using he, ?_⟩
          simp [hrest]
        · refine ⟨e, he, ?_⟩
          rw [List.intercalate_cons_of_ne_nil hrest]
          simp

/-- A squashed text is its runs with an underscore between each two, between underscores. -/
theorem squash_false (s : Text) : ∃ b e : Text, (∀ c ∈ b, c = '_') ∧ (∀ c ∈ e, c = '_') ∧
    squash false s = b ++ ['_'].intercalate (letterRuns s) ++ e := by
  obtain ⟨e, he, h⟩ := squash_true s
  cases s with
  | nil => exact ⟨[], e, by simp, he, h⟩
  | cons c s =>
    by_cases hc : c.isAlphanum = true
    · refine ⟨[], e, by simp, he, ?_⟩
      rw [squash, if_pos hc, List.nil_append, ← h, squash, if_pos hc]
    · refine ⟨['_'], e, by simp, he, ?_⟩
      rw [squash_other (by simpa using hc), List.append_assoc, ← h,
        squash_other (by simpa using hc)]
      rfl

/-! ### Keys -/

/-- A run has letters and digits only, and at least one. -/
theorem mem_letterRuns {s w : Text} (h : w ∈ letterRuns s) :
    w ≠ [] ∧ ∀ c ∈ w, c.isAlphanum = true := by
  induction hk : s.length using Nat.strong_induction_on generalizing s with
  | _ k ih =>
    obtain ⟨v, hv, rfl | ⟨c, r, rfl, hc⟩⟩ := Text.exists_run_of Char.isAlphanum s
    · by_cases hs0 : s = []
      · subst hs0
        cases h
      · rw [letterRuns_run hs0 hv, List.mem_singleton] at h
        exact h ▸ ⟨hs0, hv⟩
    · have hlen : r.length < k := by
        rw [← hk, List.length_append, List.length_cons]
        omega
      rw [letterRuns_append hc, List.mem_append] at h
      rcases h with h | h
      · by_cases hv0 : v = []
        · subst hv0
          cases h
        · rw [letterRuns_run hv0 hv, List.mem_singleton] at h
          exact h ▸ ⟨hv0, hv⟩
      · exact ih r.length hlen h rfl

theorem ne_underscore {c : Char} (h : c.isAlphanum = true) : (c == '_') = false := by
  rw [beq_eq_false_iff_ne]
  rintro rfl
  cases h

/-- Runs with an underscore between each two neither begin nor end with one. -/
theorem ends_intercalate {ws : List Text} (h : ∀ w ∈ ws, w ≠ [] ∧ ∀ c ∈ w, c.isAlphanum = true) :
    (∀ c, (['_'].intercalate ws).head? = some c → c.isAlphanum = true) ∧
      ∀ c, (['_'].intercalate ws).getLast? = some c → c.isAlphanum = true := by
  induction ws with
  | nil => simp
  | cons w ws ih =>
    obtain ⟨⟨hw0, hw⟩, hws⟩ := List.forall_mem_cons.mp h
    cases ws with
    | nil =>
      rw [List.intercalate_singleton]
      exact ⟨fun c hc => hw c (List.mem_of_mem_head? hc),
        fun c hc => hw c (List.mem_of_getLast? hc)⟩
    | cons v ws =>
      have hne : ['_'].intercalate (v :: ws) ≠ [] := by
        obtain ⟨c, v, rfl⟩ := List.exists_cons_of_ne_nil (hws v List.mem_cons_self).1
        cases ws <;> simp
      rw [List.intercalate_cons_cons, List.append_assoc]
      refine ⟨fun c hc => hw c ?_, fun c hc => (ih hws).2 c ?_⟩
      · rw [List.head?_append_of_ne_nil _ hw0] at hc
        exact List.mem_of_mem_head? hc
      · rwa [List.getLast?_append_of_ne_nil _ (by simp), List.getLast?_append_of_ne_nil _ hne] at hc

/-- A type name is written as its runs with an underscore between each two. -/
theorem ofType_eq (type : Text) : ofType type = ['_'].intercalate (runs type) := by
  obtain ⟨b, e, hb, he, h⟩ := squash_false (Text.trim type)
  obtain ⟨head, last⟩ := ends_intercalate fun w (hw : w ∈ letterRuns type) => mem_letterRuns hw
  rw [ofType, h, letterRuns_trim, Text.trimBy_append (fun c hc => by simp [hb c hc])
    (fun c hc => by simp [he c hc]) (fun c hc => ne_underscore (head c hc))
    (fun c hc => ne_underscore (last c hc)), runs]
  split
  · next none => simp [none]
  · rfl

/-- Runs that are joined by underscores, and one in front. -/
theorem underscore_intercalate {ws : List Text} (h : ws ≠ []) :
    '_' :: ['_'].intercalate ws = ws.flatMap ('_' :: ·) := by
  induction ws with
  | nil => exact absurd rfl h
  | cons w ws ih =>
    by_cases hws : ws = []
    · simp [hws]
    · rw [List.intercalate_cons_of_ne_nil hws, List.flatMap_cons, ← ih hws]
      simp

theorem runs_ne_nil (type : Text) : runs type ≠ [] := by
  rw [runs]
  split <;> simp_all

/-- **The key of an overload** is its symbol and the runs of its types, each behind an
underscore. -/
theorem overload_eq (symbol : Text) (types : List Text) :
    overload symbol types = symbol ++ (types.flatMap runs).flatMap ('_' :: ·) := by
  have part : ∀ t, ('_' :: ofType t) = (runs t).flatMap ('_' :: ·) := fun t => by
    rw [ofType_eq, underscore_intercalate (runs_ne_nil t)]
  rw [overload, List.flatMap_assoc, List.flatMap_congr fun t _ => (part t).symm]
  split
  · next none => simp [List.isEmpty_iff.mp none]
  · next some =>
    have hne : types.map ofType ≠ [] := by simpa using some
    rw [Text.joinWith, List.append_assoc, ← List.flatMap_map, ← underscore_intercalate hne]
    rfl

/-- Runs behind underscores can be taken apart. -/
theorem splitBy_underscores {ws : List Text} (h : ∀ w ∈ ws, ∀ c ∈ w, c.isAlphanum = true) :
    Text.splitBy (· == '_') (ws.flatMap ('_' :: ·)) = [] :: ws := by
  induction ws with
  | nil => rfl
  | cons w ws ih =>
    obtain ⟨hw, hws⟩ := List.forall_mem_cons.mp h
    have none : ∀ c ∈ w, (c == '_') = false := fun c hc => ne_underscore (hw c hc)
    rw [List.flatMap_cons, List.cons_append, ← List.nil_append ('_' :: _),
      Text.splitBy_append (by simp) rfl]
    cases ws with
    | nil => rw [List.flatMap_nil, List.append_nil, Text.splitBy_of_none none]
    | cons v ws =>
      have rest := ih hws
      rw [List.flatMap_cons, List.cons_append, ← List.nil_append ('_' :: _),
        Text.splitBy_append (by simp) rfl] at rest
      rw [List.flatMap_cons, List.cons_append, Text.splitBy_append none rfl,
        (List.cons_eq_cons.mp rest).2]

/-- The runs of types have letters and digits only. -/
theorem isAlphanum_of_mem_runs {types : List Text} :
    ∀ w ∈ types.flatMap runs, ∀ c ∈ w, c.isAlphanum = true := by
  intro w hw c hc
  obtain ⟨t, -, hw⟩ := List.mem_flatMap.mp hw
  rw [runs] at hw
  split at hw
  · rw [List.mem_singleton.mp hw] at hc
    cases hc
  · exact (mem_letterRuns hw).2 c hc

/-- The member name keeps the runs behind the symbol as they are. -/
theorem member_append_underscores (symbol : Text) (ws : List Text) :
    member (symbol ++ ws.flatMap ('_' :: ·)) = member symbol ++ ws.flatMap ('_' :: ·) := by
  cases symbol with
  | nil => cases ws <;> rfl
  | cons c symbol => rfl

/-- **Two overloads of a symbol have one member name** exactly when their types have the same runs
in the same order. -/
theorem member_overload_eq_iff {symbol : Text} {ts us : List Text} :
    member (overload symbol ts) = member (overload symbol us) ↔
      ts.flatMap runs = us.flatMap runs := by
  rw [overload_eq, overload_eq, member_append_underscores, member_append_underscores]
  constructor
  · intro h
    have split := congrArg (Text.splitBy (· == '_')) (List.append_cancel_left h)
    rw [splitBy_underscores isAlphanum_of_mem_runs,
      splitBy_underscores isAlphanum_of_mem_runs] at split
    exact (List.cons_eq_cons.mp split).2
  · intro h
    rw [h]

end Key

namespace Matching

/-! ### The overloads of a symbol -/

/-- Several declarations of one symbol that has an implementation, none of them a cast and no two
with the same parameter types. -/
structure Overloads (natives : List Implementation) (symbol : Text) (ds : List Declaration) :
    Prop where
  implemented : ∃ n ∈ natives, n.symbol = symbol
  several : 1 < ds.length
  symbol_eq : ∀ d ∈ ds, d.symbol = symbol
  types_nodup : (ds.map Declaration.types).Nodup
  isCast_eq : ∀ d ∈ ds, d.isCast = false

variable {natives : List Implementation} {symbol : Text} {ds : List Declaration}

/-- An overload has the one key of its types. -/
theorem Overloads.keysOf_eq (h : Overloads natives symbol ds) {d : Declaration} (hd : d ∈ ds) :
    keysOf ds d = [Key.overload symbol d.types] := by
  have all : ds.countP (·.symbol == symbol) = ds.length :=
    List.countP_eq_length.mpr fun e he => by simp [h.symbol_eq e he]
  have several : ds.countP (·.symbol == symbol) > 1 := all ▸ h.several
  simp [keysOf, baseKey, several, h.symbol_eq d hd, h.isCast_eq d hd]

theorem Overloads.of_mem (h : Overloads natives symbol ds) {d : Declaration} (hd : d ∈ ds) :
    Implemented natives d := by
  rw [Implemented, h.symbol_eq d hd]
  exact h.implemented

/-- The entries are one for each overload. -/
theorem Overloads.entries_eq_map (h : Overloads natives symbol ds) :
    entries ds natives = ds.map fun d => (d, Key.overload symbol d.types) := by
  have one : ∀ d ∈ ds, given natives ds d = [(d, Key.overload symbol d.types)] := fun d hd => by
    rw [given, if_pos (h.of_mem hd), h.keysOf_eq hd]
    rfl
  rw [entries_eq, List.flatMap_congr one, List.map_eq_flatMap]

/-- No two overloads have one member name exactly when no two have the same runs. -/
theorem Overloads.nodup_member_iff (h : Overloads natives symbol ds) :
    ((entries ds natives).map Entry.member).Nodup ↔
      (ds.map fun d => d.types.flatMap Key.runs).Nodup := by
  rw [h.entries_eq_map, List.map_map, List.Nodup, List.Nodup, List.pairwise_map, List.pairwise_map]
  exact List.Pairwise.iff fun d e => not_congr Key.member_overload_eq_iff

/-- What matching gives the overloads of a symbol: a key for each of them, no two the same, that
begins with the symbol. -/
structure KeyedApart (symbol : Text) (ds : List Declaration) (m : Matching) : Prop where
  units : m.units.map (·.declaration) = ds
  unmatched : m.unmatched = []
  keys : m.keysFor symbol = m.units.flatMap (·.keys)
  length : (m.keysFor symbol).length = ds.length
  nodup : (m.keysFor symbol).Nodup
  symbol_prefix : ∀ k ∈ m.keysFor symbol, symbol <+: k

/-- Overloads that are matched have keys of their own, all of them with the symbol in front. -/
theorem Overloads.keyedApart (h : Overloads natives symbol ds) {m : Matching}
    (hm : make ds natives = .ok m) : KeyedApart symbol ds m := by
  have complete := complete_of_make hm
  have units : m.units.map (·.declaration) = ds := by
    rw [complete.matched, List.filter_eq_self]
    exact fun d hd => by simpa using h.of_mem hd
  have symbols : m.units.map (·.declaration.symbol) = ds.map (·.symbol) := by
    rw [← units, List.map_map]
    rfl
  have same : ∀ u ∈ m.units, u.declaration.symbol = symbol := fun u hu =>
    h.symbol_eq _ (units ▸ List.mem_map_of_mem hu)
  -- all units are of the one symbol, so its keys are the keys of all
  have known : symbol ∈ m.units.map (·.declaration.symbol) := by
    obtain ⟨d, hd⟩ := List.exists_mem_of_length_pos (Nat.zero_lt_of_lt h.several)
    rw [symbols]
    exact List.mem_map.mpr ⟨d, hd, h.symbol_eq d hd⟩
  have whole : m.units.filter (·.declaration.symbol == symbol) = m.units :=
    List.filter_eq_self.mpr fun u hu => by simpa using same u hu
  have keys : m.keysFor symbol = m.units.flatMap (·.keys) := by
    rw [keysFor, complete.keys, if_pos known, whole]
    rfl
  have listed : m.keysFor symbol = ds.map fun d => Key.overload symbol d.types := by
    have := congrArg (List.map Prod.snd) (complete.entries.trans h.entries_eq_map)
    rw [List.map_flatMap, List.map_map] at this
    rw [keys]
    simpa [Function.comp_def] using this
  have members := (make_eq_ok_iff.mp hm).1
  rw [h.entries_eq_map, List.map_map] at members
  exact {
    units
    unmatched := by
      rw [complete.unmatched, List.filter_eq_nil_iff]
      exact fun d hd => by simpa using h.of_mem hd
    keys
    length := by rw [listed, List.length_map]
    nodup := by
      rw [listed]
      refine List.Nodup.of_map Key.member ?_
      rw [List.map_map]
      exact members
    symbol_prefix := by
      rw [listed]
      intro k hk
      obtain ⟨d, -, rfl⟩ := List.mem_map.mp hk
      rw [Key.overload_eq]
      exact List.prefix_append _ _ }

/-- **The overloads of a symbol get keys of their own** exactly when no two of them have types with
the same runs in the same order. -/
theorem overloads_apart_iff (h : Overloads natives symbol ds) :
    (∃ m, make ds natives = .ok m ∧ KeyedApart symbol ds m) ↔
      (ds.map fun d => d.types.flatMap Key.runs).Nodup := by
  rw [← h.nodup_member_iff]
  constructor
  · rintro ⟨m, hm, -⟩
    exact (make_eq_ok_iff.mp hm).1
  · intro nodup
    have hm := make_eq_ok_iff.mpr ⟨nodup, rfl⟩
    exact ⟨_, hm, h.keyedApart hm⟩

/-! ### Fixed overloads -/

/-- A declaration of the symbol `F` with parameters of the given types. -/
def overload (types : List Text) : Declaration :=
  { name := "f", returnType := "tbox", params := types.map (⟨·, "a"⟩), defaults := []
    symbol := "F", definition := [], category := [], isOperator := false, isAggregate := false
    isCast := false, operator? := none, line := 1, span := ⟨none, 0, 0⟩ }

/-- An implementation of the symbol `F`. -/
def overloaded : Implementation :=
  { symbol := "F", slots := [], needsTypeTag := false, delegated? := none, returnKind? := none
    nullable := false, body := [], shape := .unclassified [], span := ⟨none, 0, 0⟩ }

/-- The theorem for overloads with a type in parentheses, with several types and without any. -/
theorem overloads_apart_iff_of_three :
    Overloads [overloaded] "F"
        [overload ["numeric(10,2)"], overload ["float", "timestamptz"], overload []] ∧
      ∃ m, make [overload ["numeric(10,2)"], overload ["float", "timestamptz"], overload []]
          [overloaded] = .ok m ∧
        KeyedApart "F"
          [overload ["numeric(10,2)"], overload ["float", "timestamptz"], overload []] m := by
  have h : Overloads [overloaded] "F"
      [overload ["numeric(10,2)"], overload ["float", "timestamptz"], overload []] :=
    ⟨by decide, by decide, by decide, by decide, by decide⟩
  exact ⟨h, (overloads_apart_iff h).mpr (by decide +kernel)⟩

/-- The type `a_b` and the types `a` and `b` are not the same, and have one key. -/
theorem underscored_type_clashes :
    Overloads [overloaded] "F" [overload ["a_b"], overload ["a", "b"]] ∧
      ¬ ∃ m, make [overload ["a_b"], overload ["a", "b"]] [overloaded] = .ok m := by
  refine ⟨⟨by decide, by decide, by decide, by decide, by decide⟩, ?_⟩
  rintro ⟨m, hm⟩
  have nodup := (make_eq_ok_iff.mp hm).1
  revert nodup
  decide +kernel

end Matching

end VectorWrap
