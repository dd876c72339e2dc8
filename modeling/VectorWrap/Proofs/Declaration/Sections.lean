import VectorWrap.Declaration.Script
import VectorWrap.Proofs.Declaration.Whole
import VectorWrap.Proofs.Scan.Sweep

/-!
# The sections of a script

The category of a declaration should be the title it stands under: that of the last section mark
before it in the text.  What stands before what is gone by in lines, though, and lines end at line
feeds only.  A mark behind the declaration but on its line then counts as well, and takes the
place of all marks before it; where lines end otherwise, every mark of the script is on one line.

So each declaration has the title that it stands under exactly when no mark behind it on its line
says otherwise (`categories_by_place_iff`).

Titles are said of any property of marks (`Titled`), so that the title by place and the title by
line are one notion with two properties.  The two agree on every mark but those behind the
declaration on its line, since places and lines are in one order (`before_or_behind`).
-/

namespace VectorWrap

namespace Text

/-- A shorter rest has fewer bytes. -/
theorem byteLength_lt_of_suffix {s t : Text} (h : s <:+ t) (hl : s.length < t.length) :
    byteLength s < byteLength t := by
  obtain ⟨w, rfl⟩ := h
  cases w with
  | nil => exact absurd hl (lt_irrefl _)
  | cons c w =>
    rw [byteLength_append, byteLength]
    have := Char.utf8Size_pos c
    omega

/-- Line numbers do not go down within a text. -/
theorem nextLine_upTo_le {s t source : Text} (h : s.length ≤ t.length) :
    nextLine (upTo source t) ≤ nextLine (upTo source s) := by
  refine Nat.add_le_add_right (List.Sublist.count_le _ ?_) 1
  exact (List.take_prefix_take_left (by omega)).sublist

end Text

namespace Scan

variable {α : Type} {item : Scan α} {gap : Scan Unit}

/-- What a sweep finds is left of the text, if all that is read leaves a part of it. -/
theorem suffix_of_mem_sweep (hi : ∀ {s a r}, item s = some (a, r) → r <:+ s)
    (hg : ∀ {s u r}, gap s = some (u, r) → r <:+ s) {s : Text} {f : Found α}
    (h : f ∈ sweep item gap s) : f.here <:+ s := by
  fun_induction sweep item gap s with
  | case1 => cases h
  | case2 s c r e a rest hr hp ih =>
    have hs : c :: r <:+ s := e ▸ List.dropWhile_suffix _
    rcases List.mem_cons.mp h with rfl | h
    · exact hs
    · exact (ih h).trans ((hi ((progress_eq_some _).mp hp)).trans hs)
  | case3 s c r e _ u rest hr hp ih =>
    have hs : c :: r <:+ s := e ▸ List.dropWhile_suffix _
    exact (ih h).trans ((hg ((progress_eq_some _).mp hp)).trans hs)
  | case4 s c r e _ _ ih =>
    have hs : c :: r <:+ s := e ▸ List.dropWhile_suffix _
    exact (ih h).trans ((List.suffix_cons c r).trans hs)

/-- **A sweep finds things in the order of the text**, each behind all that was read before. -/
theorem pairwise_sweep (hi : ∀ {s a r}, item s = some (a, r) → r <:+ s)
    (hg : ∀ {s u r}, gap s = some (u, r) → r <:+ s) (s : Text) :
    (sweep item gap s).Pairwise fun f g => g.here <:+ f.rest := by
  fun_induction sweep item gap s with
  | case1 => exact .nil
  | case2 _ _ _ _ _ _ _ _ ih => exact .cons (fun _ h => suffix_of_mem_sweep hi hg h) ih
  | case3 _ _ _ _ _ _ _ _ _ ih => exact ih
  | case4 _ _ _ _ _ _ ih => exact ih

end Scan

open Scan

/-- A gap leaves a part of the text. -/
theorem Statement.suffix_gap {s r : Text} {u : Unit} (h : gap s = some (u, r)) : r <:+ s := by
  have enclosed {opening closing : Text} (hc : closing ≠ []) :
      Local (do exactly opening; let _ ← upTo closing : Scan Unit) :=
    (rigid_exactly opening).toLocal.bind fun _ =>
      (closed_upTo hc).toLocal.bind fun _ => (rigid_pure _).toLocal
  have line : Local (lineComment "--" .free) :=
    (rigid_exactly _).toLocal.bind fun _ => (local_run _).bind fun _ => (rigid_pure _).toLocal
  have word : Local (do let _ ← name : Scan Unit) :=
    local_name.bind fun _ => (rigid_pure _).toLocal
  refine suffix_orElse (enclosed (by decide)).suffix ?_ h
  refine suffix_orElse line.suffix ?_
  refine suffix_orElse (enclosed (by decide)).suffix ?_
  exact suffix_orElse (enclosed (by decide)).suffix word.suffix

/-! ### Marks and their places -/

/-- A section mark and the byte at which its comment begins. -/
structure PlacedMark extends SectionMark where
  start : Nat
  deriving DecidableEq, Repr

namespace Script

/-- Where a statement begins, in bytes. -/
def startOf (source : Text) (f : Found Statement) : Nat :=
  (f.span none source).start

/-- The section marks of a script with their places, in order. -/
def placedMarks (source : Text) : List PlacedMark :=
  (statements source).filterMap fun f => (mark? source f).map (⟨·, startOf source f⟩)

/-- The last mark of a script that satisfies `p`: of all that do, it begins at the greatest
byte. -/
structure LastMark (source : Text) (p : PlacedMark → Prop) (m : PlacedMark) : Prop where
  mem : m ∈ placedMarks source
  holds : p m
  last : ∀ m' ∈ placedMarks source, p m' → m'.start ≤ m.start

/-- The title of the last mark that satisfies `p` is `title`; without one it is unknown. -/
inductive Titled (source : Text) (p : PlacedMark → Prop) : Text → Prop where
  | marked {m : PlacedMark} (h : LastMark source p m) : Titled source p m.key
  | unmarked (h : ∀ m ∈ placedMarks source, ¬ p m) : Titled source p Category.unknown

/-- The title under which a declaration stands. -/
abbrev StandsUnder (source : Text) (d : Declaration) (title : Text) : Prop :=
  Titled source (·.start < d.span.start) title

/-- The last mark that begins on the line of a declaration, but behind it. -/
abbrev LastBehind (source : Text) (d : Declaration) (m : PlacedMark) : Prop :=
  LastMark source (fun m => m.line = d.line ∧ d.span.start < m.start) m

/-- The marks of a script are the placed ones without their places. -/
theorem map_placedMarks (file : Option Nat) (source : Text) :
    (placedMarks source).map PlacedMark.toSectionMark = (parse file source).marks := by
  rw [placedMarks, List.map_filterMap]
  refine List.filterMap_congr fun f _ => ?_
  rw [Option.map_map]
  exact Option.map_id_fun' ▸ rfl

/-! ### Order -/

/-- In an ordered list one of two elements is before the other. -/
theorem rel_or_rel_of_pairwise {α : Type} {r : α → α → Prop} {l : List α} (h : l.Pairwise r)
    {a b : α} (ha : a ∈ l) (hb : b ∈ l) (hne : a ≠ b) : r a b ∨ r b a :=
  List.Pairwise.forall_of_forall_of_flip (R := fun a b => a ≠ b → r a b ∨ r b a)
    (fun _ _ h => absurd rfl h) (h.imp fun h _ => .inl h) (h.imp fun h _ => .inr h) ha hb hne

/-- One statement begins before the other, and not on a later line. -/
theorem pairwise_statements (source : Text) : (statements source).Pairwise fun f g =>
    startOf source f < startOf source g ∧ lineOf source f ≤ lineOf source g := by
  have hi : ∀ {s a r}, Statement.form s = some (a, r) → r <:+ s := Statement.closed_form.suffix
  refine (pairwise_sweep hi Statement.suffix_gap source).imp_of_mem fun {f g} hf hg h => ?_
  have left := item_of_mem_sweep hf
  have behind : g.here <:+ f.here := h.trans (hi left)
  have shorter : g.here.length < f.here.length :=
    h.length_le.trans_lt (Statement.closed_form.shrinks left)
  have whole : f.here <:+ source := suffix_of_mem_sweep hi Statement.suffix_gap hf
  refine ⟨?_, Text.nextLine_upTo_le shorter.le⟩
  have := Text.byteLength_lt_of_suffix behind shorter
  have := Text.byteLength_le_of_suffix whole
  show Text.byteLength source - _ < Text.byteLength source - _
  omega

/-- A placed mark is a statement of the script. -/
theorem exists_of_mem_placedMarks {source : Text} {m : PlacedMark} (h : m ∈ placedMarks source) :
    ∃ g ∈ statements source, (∃ label, g.value = .mark label) ∧ m.line = lineOf source g ∧
      m.start = startOf source g := by
  obtain ⟨g, hg, h⟩ := List.mem_filterMap.mp h
  unfold mark? at h
  split at h
  · next label e =>
    cases h
    exact ⟨g, hg, ⟨label, e⟩, rfl, rfl⟩
  · cases h

/-- A declaration is that of a function, written with its name, its list and its types. -/
theorem exists_of_declaration? {file : Option Nat} {source : Text} {marks : List SectionMark}
    {casts : List Cast} {operators : List Operator} {f : Found Statement} {d : Declaration}
    (h : declaration? file source marks casts operators f = some d) :
    ∃ name list returnType quoted, f.value = .function name list returnType quoted ∧
      d = { name, returnType
            params := (Param.parseList list).1
            defaults := (Param.parseList list).2
            symbol := Text.trim quoted
            definition := f.text
            category := categoryAt marks (lineOf source f)
            isOperator := Category.isOperator (categoryAt marks (lineOf source f))
            isAggregate := Category.isAggregate (categoryAt marks (lineOf source f))
            isCast := isCast casts name (Text.trim quoted) (Param.parseList list).1
            operator? := operatorOf? operators name (Param.parseList list).1
            line := lineOf source f
            span := f.span file source } := by
  unfold declaration? at h
  split at h
  · next name list returnType quoted e =>
    simp only at h
    split_ifs at h
    cases h
    exact ⟨name, list, returnType, quoted, e, rfl⟩
  · cases h

/-- A declaration is a statement that is no mark, with its place and the category at its line. -/
theorem exists_of_mem_declarations {file : Option Nat} {source : Text} {d : Declaration}
    (h : d ∈ (parse file source).declarations) :
    ∃ f ∈ statements source, (∀ label, f.value ≠ .mark label) ∧ d.line = lineOf source f ∧
      d.span.start = startOf source f ∧
      d.category = categoryAt (parse file source).marks d.line := by
  obtain ⟨f, hf, h⟩ := List.mem_filterMap.mp h
  obtain ⟨name, list, returnType, quoted, e, rfl⟩ := exists_of_declaration? h
  refine ⟨f, hf, fun label => ?_, rfl, rfl, rfl⟩
  rw [e]
  exact Statement.noConfusion

/-- A mark begins before a declaration, or behind it and on no earlier line. -/
theorem before_or_behind {file : Option Nat} {source : Text} {d : Declaration} {m : PlacedMark}
    (hd : d ∈ (parse file source).declarations) (hm : m ∈ placedMarks source) :
    m.start < d.span.start ∧ m.line ≤ d.line ∨ d.span.start < m.start ∧ d.line ≤ m.line := by
  obtain ⟨g, hg, ⟨label, mark⟩, hml, hms⟩ := exists_of_mem_placedMarks hm
  obtain ⟨f, hf, other, hdl, hds, -⟩ := exists_of_mem_declarations hd
  have apart : g ≠ f := fun e => other label (e ▸ mark)
  rw [hml, hms, hdl, hds]
  exact rel_or_rel_of_pairwise (pairwise_statements source) hg hf apart

/-! ### The last mark -/

/-- The marks are in order. -/
theorem pairwise_placedMarks (source : Text) :
    (placedMarks source).Pairwise fun m m' => m.start < m'.start ∧ m.line ≤ m'.line := by
  refine (pairwise_statements source).filterMap _ fun f g h m hm m' hm' => ?_
  unfold mark? at hm hm'
  split at hm <;> cases hm
  split at hm' <;> cases hm'
  exact h

/-- There is one last mark at most. -/
theorem LastMark.unique {source : Text} {p : PlacedMark → Prop} {m m' : PlacedMark}
    (h : LastMark source p m) (h' : LastMark source p m') : m = m' := by
  have : m.start = m'.start :=
    le_antisymm (h'.last m h.mem h.holds) (h.last m' h'.mem h'.holds)
  by_contra hne
  rcases rel_or_rel_of_pairwise (pairwise_placedMarks source) h.mem h'.mem hne with h | h <;> omega

/-- There is one title. -/
theorem Titled.unique {source : Text} {p : PlacedMark → Prop} {t t' : Text}
    (h : Titled source p t) (h' : Titled source p t') : t = t' := by
  cases h with
  | marked h =>
    cases h' with
    | marked h' => rw [h.unique h']
    | unmarked none => exact absurd h.holds (none _ h.mem)
  | unmarked none =>
    cases h' with
    | marked h' => exact absurd h'.holds (none _ h'.mem)
    | unmarked => rfl

/-- Only which marks of the script satisfy the predicate matters. -/
theorem Titled.congr {source : Text} {p q : PlacedMark → Prop} {t : Text}
    (h : ∀ m ∈ placedMarks source, (p m ↔ q m)) (ht : Titled source p t) : Titled source q t := by
  cases ht with
  | marked ht =>
    exact .marked ⟨ht.mem, (h _ ht.mem).mp ht.holds, fun m hm hq => ht.last m hm ((h m hm).mpr hq)⟩
  | unmarked none => exact .unmarked fun m hm hq => none m hm ((h m hm).mpr hq)

/-- The last of the marks that satisfy a predicate is the last in their order. -/
theorem lastMark_of_getLast? {source : Text} {p : PlacedMark → Bool} {m : PlacedMark}
    (h : ((placedMarks source).filter p).getLast? = some m) : LastMark source (p ·) m := by
  obtain ⟨init, e⟩ := List.getLast?_eq_some_iff.mp h
  obtain ⟨hm, hp⟩ := List.mem_filter.mp (List.mem_of_getLast? h)
  refine ⟨hm, hp, fun m' hm' hp' => ?_⟩
  have sorted := (pairwise_placedMarks source).filter p
  rw [e] at sorted
  have : m' ∈ init ++ [m] := e ▸ List.mem_filter.mpr ⟨hm', hp'⟩
  rcases List.mem_append.mp this with h | h
  · exact ((List.pairwise_append.mp sorted).2.2 m' h m (List.mem_singleton_self m)).1.le
  · exact List.mem_singleton.mp h ▸ le_rfl

/-- If there is a mark of some kind there is a last one. -/
theorem exists_lastMark {source : Text} {p : PlacedMark → Bool} {m : PlacedMark}
    (hm : m ∈ placedMarks source) (hp : p m = true) : ∃ m, LastMark source (p ·) m := by
  cases e : ((placedMarks source).filter p).getLast? with
  | none =>
    rw [List.getLast?_eq_none_iff] at e
    exact absurd (e ▸ List.mem_filter.mpr ⟨hm, hp⟩) (List.not_mem_nil)
  | some m' => exact ⟨m', lastMark_of_getLast? e⟩

/-- In a list of marks whose lines do not go down the latest is the last. -/
theorem latest?_eq_getLast? {marks : List SectionMark}
    (h : marks.Pairwise fun m m' => m.line ≤ m'.line) :
    SectionMark.latest? marks = marks.getLast? := by
  induction marks using List.reverseRecOn with
  | nil => rfl
  | append_singleton marks m ih =>
    obtain ⟨init, -, le⟩ := List.pairwise_append.mp h
    rw [SectionMark.latest?, List.foldl_append, ← SectionMark.latest?, ih init,
      List.getLast?_concat]
    cases e : marks.getLast? with
    | none => rfl
    | some b => exact if_pos (le b (List.mem_of_getLast? e) m (List.mem_singleton_self m))

/-- The category on a line is the title of the last mark up to the end of the line. -/
theorem titled_categoryAt (file : Option Nat) (source : Text) (line : Nat) :
    Titled source (·.line ≤ line) (categoryAt (parse file source).marks line) := by
  have sorted : (((placedMarks source).filter (·.line ≤ line)).map
      PlacedMark.toSectionMark).Pairwise fun m m' => m.line ≤ m'.line :=
    List.pairwise_map.mpr (((pairwise_placedMarks source).filter _).imp And.right)
  rw [categoryAt, ← map_placedMarks, List.filter_map, Function.comp_def,
    latest?_eq_getLast? sorted, List.getLast?_map]
  cases e : ((placedMarks source).filter (·.line ≤ line)).getLast? with
  | none =>
    rw [List.getLast?_eq_none_iff, List.filter_eq_nil_iff] at e
    exact .unmarked fun m hm => by simpa using e m hm
  | some m =>
    have := lastMark_of_getLast? e
    exact .marked (m := m) ⟨this.mem, by simpa using this.holds, by simpa using this.last⟩

/-! ### Sections by place and by line -/

variable {file : Option Nat} {source : Text} {d : Declaration}

/-- The category of a declaration is the title by its line. -/
theorem titled_category (hd : d ∈ (parse file source).declarations) :
    Titled source (·.line ≤ d.line) d.category := by
  obtain ⟨-, -, -, -, -, h⟩ := exists_of_mem_declarations hd
  rw [h]
  exact titled_categoryAt file source d.line

/-- A mark behind a declaration on its line takes the place of all marks before it. -/
theorem category_of_lastBehind (hd : d ∈ (parse file source).declarations) {m : PlacedMark}
    (h : LastBehind source d m) : d.category = m.key := by
  obtain ⟨line, behind⟩ := h.holds
  refine (titled_category hd).unique (.marked ⟨h.mem, line.le, fun m' hm' le => ?_⟩)
  rcases before_or_behind hd hm' with ⟨before, -⟩ | ⟨after, ge⟩
  · exact (before.trans behind).le
  · exact h.last m' hm' ⟨le_antisymm le ge, after⟩

/-- Without such a mark the category is the title that the declaration stands under. -/
theorem standsUnder_of_none (hd : d ∈ (parse file source).declarations)
    (h : ∀ m, ¬ LastBehind source d m) : StandsUnder source d d.category := by
  refine (titled_category hd).congr fun m hm => ?_
  rcases before_or_behind hd hm with ⟨before, le⟩ | ⟨after, ge⟩
  · exact iff_of_true le before
  · refine iff_of_false (fun le => ?_) after.not_gt
    obtain ⟨m', h'⟩ := exists_lastMark (p := fun m => m.line = d.line ∧ d.span.start < m.start) hm
      (by simpa using ⟨le_antisymm le ge, after⟩)
    exact h m' (by simpa using h')

/-- **Every declaration has the title that it stands under as its category** exactly when no mark
behind a declaration on its line says otherwise: the last of them has the title that the
declaration stands under. -/
theorem categories_by_place_iff (file : Option Nat) (source : Text) :
    (∀ d ∈ (parse file source).declarations, StandsUnder source d d.category) ↔
      ∀ d ∈ (parse file source).declarations, ∀ m, LastBehind source d m →
        StandsUnder source d m.key := by
  refine forall₂_congr fun d hd => ⟨fun h m hm => category_of_lastBehind hd hm ▸ h, fun h => ?_⟩
  by_cases behind : ∃ m, LastBehind source d m
  · obtain ⟨m, hm⟩ := behind
    exact (category_of_lastBehind hd hm).symm ▸ h m hm
  · exact standsUnder_of_none hd (not_exists.mp behind)

/-- A script whose lines end at carriage returns: a section with a function, and one after it. -/
def returnsScript : Text :=
  "/***\r * Conversion\r ***/\rCREATE FUNCTION f(integer) RETURNS integer AS 'm', 'f';\r".toList ++
    "/***\r * Comparison\r ***/\r".toList

/-- The function of that script has the title of the section after it as its category. -/
theorem category_of_section_behind :
    ∃ d ∈ (parse none returnsScript).declarations, d.category = "comparison".toList ∧
      StandsUnder returnsScript d "conversion" ∧ ¬ StandsUnder returnsScript d d.category := by
  have found : (parse none returnsScript).declarations.map (fun d => (d.category, d.span.start)) =
      [("comparison".toList, 25)] := by decide +kernel
  have marks : placedMarks returnsScript =
      [⟨⟨"Conversion".toList, 1⟩, 0⟩, ⟨⟨"Comparison".toList, 1⟩, 81⟩] := by decide +kernel
  obtain ⟨d, hd, h⟩ := List.exists_of_mem_map (found ▸ List.mem_singleton_self _)
  obtain ⟨category, start⟩ := Prod.mk.inj h
  have conversion : StandsUnder returnsScript d "conversion" := by
    refine .marked (m := ⟨⟨"Conversion".toList, 1⟩, 0⟩) ⟨?_, ?_, ?_⟩
    · rw [marks]
      decide
    · rw [start]
      decide
    · rw [marks, start]
      decide
  refine ⟨d, hd, category, conversion, fun h => ?_⟩
  have := category ▸ h.unique conversion
  revert this
  decide

end Script

end VectorWrap
