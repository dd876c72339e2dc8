import VectorWrap.Proofs.Batch.Unplaced
import VectorWrap.Proofs.Declaration.Sections

/-!
# Flags and the boundaries of files

What the casts and operators of a script say is put into its declarations when the script is parsed.
Loading several scripts puts their casts and operators together, but not those of one into the
declarations of another.  So declarations are flagged by all statements that were given, wherever
they stand, exactly if no declaration has to get its flag from another file
(`flagged_by_all_iff`).

A cast and an operator are compared with a declaration by the name of the function and the types of
its parameters.  The flags are therefore known from the statements that fit, whichever file these
are in.
-/

namespace VectorWrap

/-! ### Flags -/

/-- The cast calls the function. -/
def Cast.Fits (c : Cast) (d : Declaration) : Prop :=
  c.function = d.name ∧ c.args = d.types

instance (c : Cast) (d : Declaration) : Decidable (c.Fits d) :=
  inferInstanceAs (Decidable (_ ∧ _))

/-- The function stands behind the operator. -/
def Operator.Fits (op : Operator) (d : Declaration) : Prop :=
  op.procedure = d.name ∧ op.args = d.types

instance (op : Operator) (d : Declaration) : Decidable (op.Fits d) :=
  inferInstanceAs (Decidable (_ ∧ _))

namespace Script

variable {file : Option Nat} {source : Text} {d : Declaration}

/-- A list of types is compared with those of the parameters. -/
theorem takes_iff (d : Declaration) (args : List Text) :
    takes d.params args = true ↔ args = d.types := by
  rw [takes, beq_iff_eq]
  rfl

/-- A cast is declared by a statement that fits, or has a symbol of a text function. -/
theorem isCast_iff (casts : List Cast) (d : Declaration) :
    isCast casts d.name d.symbol d.params = true ↔
      (∃ c ∈ casts, c.Fits d) ∨ Category.isTextual d.symbol = true := by
  simp only [isCast, Bool.or_eq_true, List.any_eq_true, Bool.and_eq_true, beq_iff_eq, takes_iff,
    Cast.Fits]

/-- The first operator that fits. -/
theorem operatorOf?_eq_some {operators : List Operator} {symbol : Text}
    (h : operatorOf? operators d.name d.params = some symbol) :
    ∃ op ∈ operators, op.Fits d ∧ symbol = op.symbol := by
  obtain ⟨op, found, rfl⟩ := Option.map_eq_some_iff.mp h
  have fits := List.find?_some found
  rw [Bool.and_eq_true, beq_iff_eq, takes_iff] at fits
  exact ⟨op, List.mem_of_find?_eq_some found, fits, rfl⟩

/-- With an operator that fits there is one to be found. -/
theorem operatorOf?_ne_none {operators : List Operator} {op : Operator} (hop : op ∈ operators)
    (fits : op.Fits d) : operatorOf? operators d.name d.params ≠ none := by
  intro h
  have none := List.find?_eq_none.mp (Option.map_eq_none_iff.mp h) op hop
  rw [Bool.and_eq_true, beq_iff_eq, takes_iff] at none
  exact none fits

/-- A declaration has the flags that parsing a script gives it. -/
structure ParsedFlags (own : Script) (d : Declaration) : Prop where
  isCast : d.isCast = isCast own.casts d.name d.symbol d.params
  operator : d.operator? = operatorOf? own.operators d.name d.params

/-- A declaration is flagged by its own script, whatever number that has. -/
theorem flags_of_mem_declarations (h : d ∈ (parse file source).declarations) :
    ParsedFlags (parse none source) d := by
  obtain ⟨f, -, h⟩ := List.mem_filterMap.mp h
  obtain ⟨_, _, _, _, -, rfl⟩ := exists_of_declaration? h
  exact ⟨rfl, rfl⟩

/-- The declaration stands in a script of any number, but for its place. -/
theorem exists_mem_parse (file' : Option Nat) (h : d ∈ (parse file source).declarations) :
    ∃ d' ∈ (parse file' source).declarations, d'.unplaced = d.unplaced := by
  have same := congrArg Script.declarations (unplaced_parse file file' source)
  have mem : d.unplaced ∈ (parse file source).unplaced.declarations := List.mem_map_of_mem h
  rw [same] at mem
  exact List.mem_map.mp mem

/-- A declaration is flagged by the statements of a script: as a cast if a cast calls it or its
symbol is one of a text form, and with the symbol of an operator that it stands behind, if there is
one. -/
structure FlaggedBy (all : Script) (d : Declaration) : Prop where
  isCast : d.isCast = true ↔ (∃ c ∈ all.casts, c.Fits d) ∨ Category.isTextual d.symbol = true
  operator : (∃ op ∈ all.operators, op.Fits d) →
    ∃ op ∈ all.operators, op.Fits d ∧ d.operator? = some op.symbol

/-- Every declaration is flagged by the statements that were given, wherever they stand. -/
structure FlaggedByAll (u : Script) : Prop where
  flags : ∀ d ∈ u.declarations, FlaggedBy u d
  /-- So a cast has the key of one, and nothing else has. -/
  castKey : ∀ natives m, Matching.make u.declarations natives = .ok m → ∀ x ∈ m.units,
    (Key.cast (Matching.baseKey u.declarations x.declaration) ∈ x.keys ↔
      (∃ c ∈ u.casts, c.Fits x.declaration) ∨ Category.isTextual x.declaration.symbol = true)

/-- What flags a declaration of a script stands in that script too. -/
structure SelfContained (own all : Script) (d : Declaration) : Prop where
  cast : (∃ c ∈ all.casts, c.Fits d) → (∃ c ∈ own.casts, c.Fits d) ∨
    Category.isTextual d.symbol = true
  operator : (∃ op ∈ all.operators, op.Fits d) → ∃ op ∈ own.operators, op.Fits d

instance (own all : Script) (d : Declaration) : Decidable (SelfContained own all d) :=
  decidable_of_iff
    (((∃ c ∈ all.casts, c.Fits d) → (∃ c ∈ own.casts, c.Fits d) ∨
        Category.isTextual d.symbol = true) ∧
      ((∃ op ∈ all.operators, op.Fits d) → ∃ op ∈ own.operators, op.Fits d))
    ⟨fun ⟨cast, operator⟩ => ⟨cast, operator⟩, fun h => ⟨h.cast, h.operator⟩⟩

/-- Places have no part in it. -/
theorem SelfContained.congr {own all : Script} {d d' : Declaration} (h : d'.unplaced = d.unplaced)
    (hd : SelfContained own all d') : SelfContained own all d := by
  have unplaced : SelfContained own all d.unplaced := h ▸ ⟨hd.cast, hd.operator⟩
  exact ⟨unplaced.cast, unplaced.operator⟩

/-- A declaration that is flagged by its own script is flagged by all of the statements exactly if
it is self-contained. -/
theorem ParsedFlags.selfContained_iff {own all : Script} (h : ParsedFlags own d)
    (hc : own.casts ⊆ all.casts) (ho : own.operators ⊆ all.operators) :
    SelfContained own all d ↔ FlaggedBy all d := by
  have parsed := isCast_iff own.casts d
  rw [← h.isCast] at parsed
  constructor
  · rintro ⟨cast, operator⟩
    refine ⟨⟨fun flag => ?_, ?_⟩, fun fits => ?_⟩
    · rcases parsed.mp flag with ⟨c, mem, fits⟩ | textual
      · exact .inl ⟨c, hc mem, fits⟩
      · exact .inr textual
    · rintro (fits | textual)
      · exact parsed.mpr (cast fits)
      · exact parsed.mpr (.inr textual)
    · obtain ⟨op, mem, fits⟩ := operator fits
      obtain ⟨symbol, found⟩ := Option.ne_none_iff_exists'.mp (operatorOf?_ne_none mem fits)
      obtain ⟨op', mem', fits', rfl⟩ := operatorOf?_eq_some found
      exact ⟨op', ho mem', fits', h.operator.trans found⟩
  · rintro ⟨cast, operator⟩
    refine ⟨fun fits => parsed.mp (cast.mpr (.inl fits)), fun fits => ?_⟩
    obtain ⟨op, -, -, flag⟩ := operator fits
    obtain ⟨op', mem', fits', -⟩ := operatorOf?_eq_some (h.operator.symm.trans flag)
    exact ⟨op', mem', fits'⟩

/-- A declaration has a cast key just if it is a cast. -/
theorem mem_keysOf_cast {all : List Declaration} {d : Declaration} :
    Key.cast (Matching.baseKey all d) ∈ Matching.keysOf all d ↔ d.isCast = true := by
  have longer : Key.cast (Matching.baseKey all d) ≠ Matching.baseKey all d := by
    intro e
    have := congrArg List.length e
    simp [Key.cast, Key.castEnding] at this
  rw [Matching.keysOf]
  split_ifs with h
  · simp [h]
  · simp [h, longer]

end Script

namespace Batch

variable {style : Style} {inputs : List Input} {s s' : Session} {u : Script}

/-- What all of the files give has the statements of each. -/
theorem subset_scriptFrom {n : Nat} {xs : List Source} {x : Source} (hx : x ∈ xs) :
    (Script.parse none x.text).casts ⊆ (scriptFrom n xs).casts ∧
      (Script.parse none x.text).operators ⊆ (scriptFrom n xs).operators :=
  ⟨fun _ hc => mem_casts_scriptFrom.mpr ⟨x, hx, hc⟩,
    fun _ ho => mem_operators_scriptFrom.mpr ⟨x, hx, ho⟩⟩

/-- **Files have no part in the flags** exactly if no declaration has to get its flag from another
file. -/
theorem flagged_by_all_iff (h : (loadDeclarations style inputs).step s = (.ok u, s')) :
    u.FlaggedByAll ↔ ∀ x ∈ Input.sources inputs, ∀ d ∈ (Script.parse none x.text).declarations,
      Script.SelfContained (Script.parse none x.text) u d := by
  obtain ⟨s₁, loaded, -⟩ := step_loadDeclarations style inputs s
  cases loaded.symm.trans h
  constructor
  · intro flagged x hx d hd
    obtain ⟨i, hi⟩ := List.mem_iff_getElem?.mp hx
    obtain ⟨d', hd', same⟩ := Script.exists_mem_parse (some (s.sources.length + i)) hd
    have mem := mem_declarations_scriptFrom.mpr ⟨i, x, hi, hd'⟩
    obtain ⟨casts, operators⟩ := subset_scriptFrom hx
    exact Script.SelfContained.congr same
      (((Script.flags_of_mem_declarations hd').selfContained_iff casts operators).mpr
        (flagged.flags d' mem))
  · intro selfContained
    -- a declaration comes from one source, whose script holds what it is flagged by
    have flags : ∀ d ∈ (scriptFrom s.sources.length (Input.sources inputs)).declarations,
        Script.FlaggedBy (scriptFrom s.sources.length (Input.sources inputs)) d := by
      intro d hd
      obtain ⟨i, x, hi, hd⟩ := mem_declarations_scriptFrom.mp hd
      have hx := List.mem_of_getElem? hi
      obtain ⟨d', hd', same⟩ := Script.exists_mem_parse none hd
      obtain ⟨casts, operators⟩ := @subset_scriptFrom s.sources.length _ x hx
      exact ((Script.flags_of_mem_declarations hd).selfContained_iff casts operators).mp
        (.congr same (selfContained x hx d' hd'))
    refine ⟨flags, fun natives m hm x hx => ?_⟩
    have mem := (mem_of_mem_units hm hx).1
    rw [Matching.keys_of_mem_units hm hx, Script.mem_keysOf_cast, (flags _ mem).isCast]

/-! ### A cast in a file of its own -/

/-- A function. -/
def functionText : Text :=
  "CREATE FUNCTION f(integer) RETURNS bigint AS 'm', 'f' LANGUAGE C;\n"

/-- A cast that calls it. -/
def castText : Text :=
  "CREATE CAST (integer AS bigint) WITH FUNCTION f(integer);\n"

/-- Two scripts that can be read. -/
def twoScripts (first second : Text) : List Input :=
  [⟨"a.sql", .ok first⟩, ⟨"b.sql", .ok second⟩]

/-- The theorem for a script that holds the cast of its function, and an empty one. -/
theorem flagged_by_all_iff_of_one : ∃ u s',
    (loadDeclarations ⟨false, false⟩ (twoScripts (functionText ++ castText) [])).step {} =
      (.ok u, s') ∧ u.declarations.map (·.isCast) = [true] ∧ u.FlaggedByAll := by
  obtain ⟨s', loaded, -⟩ := step_loadDeclarations ⟨false, false⟩
    (twoScripts (functionText ++ castText) []) {}
  exact ⟨_, s', loaded, by decide +kernel, (flagged_by_all_iff loaded).mpr (by decide +kernel)⟩

/-- A cast in the other script does not flag the function that it calls. -/
theorem cast_of_other_file_ignored : ∃ u s',
    (loadDeclarations ⟨false, false⟩ (twoScripts functionText castText)).step {} = (.ok u, s') ∧
      ¬ u.FlaggedByAll := by
  obtain ⟨s', loaded, -⟩ := step_loadDeclarations ⟨false, false⟩
    (twoScripts functionText castText) {}
  refine ⟨_, s', loaded, fun flagged => ?_⟩
  have missed :
      ∃ d ∈ (scriptFrom 0 (Input.sources (twoScripts functionText castText))).declarations,
        d.isCast = false ∧
          ∃ c ∈ (scriptFrom 0 (Input.sources (twoScripts functionText castText))).casts,
            c.Fits d := by
    decide +kernel
  obtain ⟨d, hd, plain, fits⟩ := missed
  cases plain.symm.trans ((flagged.flags d hd).isCast.mpr (.inl fits))

end Batch

end VectorWrap
