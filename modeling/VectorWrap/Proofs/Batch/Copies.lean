import VectorWrap.Batch.Run
import VectorWrap.Proofs.Files.Actions
import VectorWrap.Proofs.Wrapper.Anatomy

/-!
# What the written files hold

Header and source are written to the directory for output and copied from there.  They never meet,
since their names end differently (`EndsIn`), so each stays as it was written until it is copied.
A copy that leads to another place holds what was copied.  One that leads to the same place empties
the file: so every file that is said to be written holds the generated text unless a destination is
the directory for output, however it is reached (`holds_generated_iff`).

Each step is followed with one statement on the tree: a path leads to a place, and the file there
holds a text (`Holds`).  Directories made behind it and files put elsewhere leave that as it is; a
copy takes it to another place or, onto itself, to the empty text.
-/

namespace VectorWrap

namespace FileTree

variable {t t' t₁ t₂ : FileTree} {p dir source target : Path} {q : Place} {a : FileAction}
  {as : List FileAction}

/-! ### Endings of names -/

/-- The name at a place has an ending. -/
def EndsIn (ending : Text) (q : Place) : Prop :=
  ∃ name, q.getLast? = some name ∧ ending <:+ name

/-- A file is written under the last segment of its path. -/
theorem endsIn_of_placeToWrite {ending : Text} (he : ∀ c ∈ ending, (c == '/') = false)
    (hp : ending <:+ p.text) (h : t.placeToWrite p = .ok q) : EndsIn ending q := by
  obtain ⟨-, place, -⟩ := placeToWrite_eq_ok.mp h
  obtain ⟨name, d, last, -, -, -, -, rfl⟩ := placeFor_eq_ok.mp place
  exact ⟨name, List.getLast?_concat, Text.suffix_of_getLast?_splitBy he hp last⟩

/-- Names with different endings of one length are different. -/
theorem EndsIn.ne {ending ending' : Text} {q' : Place} (h : EndsIn ending q)
    (h' : EndsIn ending' q') (hl : ending.length = ending'.length) (hne : ending ≠ ending') :
    q ≠ q' := by
  rintro rfl
  obtain ⟨name, last, hs⟩ := h
  obtain ⟨name', last', hs'⟩ := h'
  cases last.symm.trans last'
  exact hne ((List.suffix_of_suffix_length_le hs hs' hl.le).eq_of_length hl)

/-! ### One copy -/

/-- Actions succeed one after the other. -/
theorem performAll_cons_eq_ok : (system.performAll (a :: as)).run t = (.ok (), t') ↔
    ∃ t₁, t.perform a = (.ok (), t₁) ∧ (system.performAll as).run t₁ = (.ok (), t') := by
  rw [performAll_cons]
  rcases t.perform a with ⟨e | _, t₁⟩
  · exact iff_of_false nofun nofun
  · simp

/-- The path leads to a place, and the file there holds a text. -/
structure Holds (t : FileTree) (p : Path) (q : Place) (text : Text) : Prop where
  leads : t.locate p = .ok q
  file : t.node? q = some (.file (some text))

namespace Holds

variable {text : Text}

theorem read (h : Holds t p q text) : t.read p = .ok text :=
  read_eq_ok.mpr ⟨q, h.leads, h.file⟩

/-- Making directories leaves files as they are. -/
theorem makeDirs (h : Holds t p q text) (hm : t.perform (.makeDirs dir) = (.ok (), t')) :
    Holds t' p q text := by
  have changes := (changes_makeDirsWithin hm).1
  refine ⟨changes.grows.locate h.leads, ?_⟩
  rcases changes.kept q id with e | ⟨none, -⟩
  · rw [e, h.file]
  · rw [h.file] at none
    cases none

/-- Writing a file leaves the others as they are. -/
theorem put (h : Holds t p q text) {r : Place} {text? : Option Text}
    (hr : t.placeToWrite target = .ok r) (hne : q ≠ r) :
    Holds (t.put r (.file text?)) p q text :=
  ⟨(grows_put hr text?).locate h.leads, (node?_put_ne t _ hne).trans h.file⟩

end Holds

theorem holds_put {text : Text} (hq : t.placeToWrite p = .ok q) :
    Holds (t.put q (.file (some text))) p q text :=
  ⟨(grows_put hq _).locate (locate_of_placeToWrite hq),
    node?_put_self t _ (ne_nil_of_placeToWrite hq)⟩

/-- A file holds what it held after it has been copied, and so does the copy, unless it is the file
itself: then it is empty. -/
theorem holds_copy {text : Text} (h : t.perform (.copy source target) = (.ok (), t'))
    (hs : Holds t source q text) :
    ∃ r, t.placeToWrite target = .ok r ∧ t' = t.put r (.file (some (if q = r then [] else text))) ∧
      Holds t' source q (if q = r then [] else text) ∧
      Holds t' target r (if q = r then [] else text) := by
  obtain ⟨q', r, text?, leads, file, hr, rfl⟩ := perform_copy_eq_ok.mp h
  cases hs.leads.symm.trans leads
  cases hs.file.symm.trans file
  have content : (if q = r then some [] else some text) = some (if q = r then [] else text) := by
    split_ifs <;> rfl
  rw [content]
  refine ⟨r, hr, rfl, ?_, holds_put hr⟩
  by_cases same : q = r
  · rw [if_pos same]
    refine ⟨(grows_put hr _).locate hs.leads, ?_⟩
    rw [same, node?_put_self t _ (ne_nil_of_placeToWrite hr)]
  · rw [if_neg same]
    exact hs.put hr same

end FileTree

/-! ### Both files -/

namespace Project

open FileTree

variable {p : Project} {g : Generated} {dir : Path} {t t' : FileTree}

theorem suffix_join (dir name : Path) : name.text <:+ (dir.join name).text := by
  rw [Path.join]
  split_ifs
  · exact List.suffix_rfl
  · exact List.suffix_append dir.text name.text
  · exact List.suffix_append_of_suffix (List.suffix_cons '/' name.text)

/-- The copy of a generated file is that file itself. -/
def OntoItself (p : Project) (dest name dir : Path) (t : FileTree) : Prop :=
  ∃ root ∈ p.projectRoot?, t.locate ((root.join dest).join name) = t.locate (dir.join name)

/-- What a path reads is a text, unless its file was copied onto itself. -/
def ReadsUnless (onto : Prop) (t : FileTree) (path : Path) (text : Text) : Prop :=
  (onto → t.read path = .ok []) ∧ (¬ onto → t.read path = .ok text)

/-- The text is read exactly if it is not lost. -/
theorem ReadsUnless.read_iff {onto : Prop} {path : Path} {text : Text}
    (h : ReadsUnless onto t path text) : t.read path = .ok text ↔ (onto → text = []) := by
  constructor
  · intro reads lost
    exact Except.ok.inj (reads.symm.trans (h.1 lost))
  · intro empty
    by_cases lost : onto
    · rw [h.1 lost, empty lost]
    · exact h.2 lost

/-- The header is at a place with its ending. -/
theorem endsIn_header {t : FileTree} {q : Place}
    (h : t.placeToWrite (dir.join p.headerName) = .ok q) : EndsIn ".hpp" q := by
  have plain : ∀ c ∈ (".hpp" : Text), (c == '/') = false := by simp
  have ends : (".hpp" : Text) <:+ p.headerName.text := List.suffix_append p.moduleName _
  exact endsIn_of_placeToWrite plain (ends.trans (suffix_join dir p.headerName)) h

/-- The source is at a place with its ending. -/
theorem endsIn_source {t : FileTree} {q : Place}
    (h : t.placeToWrite (dir.join p.sourceName) = .ok q) : EndsIn ".cpp" q := by
  have plain : ∀ c ∈ (".cpp" : Text), (c == '/') = false := by simp
  have ends : (".cpp" : Text) <:+ p.sourceName.text := List.suffix_append p.moduleName _
  exact endsIn_of_placeToWrite plain (ends.trans (suffix_join dir p.sourceName)) h

theorem place_ne {q r : Place} (hq : EndsIn ".hpp" q) (hr : EndsIn ".cpp" r) : q ≠ r := by
  have length : (".hpp" : Text).length = (".cpp" : Text).length := by simp
  exact hq.ne hr length (by decide)

/-- Without a project for the copies both files hold what was written. -/
theorem holds_written_of_none (hp : p.projectRoot? = none)
    (h : (system.performAll (p.writing g dir)).run t = (.ok (), t')) :
    ∃ a b, Holds t' (p.headerIn dir) a g.header ∧ Holds t' (p.sourceIn dir) b g.source := by
  rw [writing, placements, hp] at h
  obtain ⟨t₁, made, h⟩ := performAll_cons_eq_ok.mp h
  obtain ⟨t₂, header, h⟩ := performAll_cons_eq_ok.mp h
  obtain ⟨t₃, source, h⟩ := performAll_cons_eq_ok.mp h
  obtain ⟨a, ha, rfl⟩ := perform_write_eq_ok.mp header
  obtain ⟨b, hb, rfl⟩ := perform_write_eq_ok.mp source
  cases h
  exact ⟨a, b, (holds_put ha).put hb (place_ne (endsIn_header ha) (endsIn_source hb)), holds_put hb⟩

/-- With one, a file and its copy hold what was written if they are at different places. -/
theorem holds_written_of_some {root : Path} (hp : p.projectRoot? = some root)
    (h : (system.performAll (p.writing g dir)).run t = (.ok (), t')) :
    ∃ a a' b b',
      Holds t' (p.headerIn dir) a (if a = a' then [] else g.header) ∧
      Holds t' (p.headerIn (root.join p.headerDest)) a' (if a = a' then [] else g.header) ∧
      Holds t' (p.sourceIn dir) b (if b = b' then [] else g.source) ∧
      Holds t' (p.sourceIn (root.join p.sourceDest)) b' (if b = b' then [] else g.source) := by
  rw [writing, placements, hp] at h
  obtain ⟨t₁, made, h⟩ := performAll_cons_eq_ok.mp h
  obtain ⟨t₂, header, h⟩ := performAll_cons_eq_ok.mp h
  obtain ⟨t₃, source, h⟩ := performAll_cons_eq_ok.mp h
  obtain ⟨t₄, made', h⟩ := performAll_cons_eq_ok.mp h
  obtain ⟨t₅, header', h⟩ := performAll_cons_eq_ok.mp h
  obtain ⟨t₆, made'', h⟩ := performAll_cons_eq_ok.mp h
  obtain ⟨t₇, source', h⟩ := performAll_cons_eq_ok.mp h
  cases h
  obtain ⟨a, ha, rfl⟩ := perform_write_eq_ok.mp header
  obtain ⟨b, hb, rfl⟩ := perform_write_eq_ok.mp source
  have ends := endsIn_header ha
  have ends' := endsIn_source hb
  have held := ((holds_put ha).put hb (place_ne ends ends')).makeDirs made'
  have held' := (holds_put hb).makeDirs made'
  obtain ⟨a', ha', rfl, first, copied⟩ := holds_copy header' held
  have kept := (held'.put ha' (place_ne (endsIn_header ha') ends').symm).makeDirs made''
  obtain ⟨b', hb', rfl, second, copied'⟩ := holds_copy source' kept
  exact ⟨a, a', b, b', (first.makeDirs made'').put hb' (place_ne ends (endsIn_source hb')),
    (copied.makeDirs made'').put hb' (place_ne (endsIn_header ha') (endsIn_source hb')),
    second, copied'⟩

/-- A file and its copy read alike, for they are one place or hold one text. -/
theorem readsUnless_of_holds {root dest name : Path} {a a' : Place} {text : Text}
    (hp : p.projectRoot? = some root) (h : Holds t (dir.join name) a (if a = a' then [] else text))
    (h' : Holds t ((root.join dest).join name) a' (if a = a' then [] else text)) :
    ReadsUnless (p.OntoItself dest name dir t) t (dir.join name) text ∧
      ReadsUnless (p.OntoItself dest name dir t) t ((root.join dest).join name) text := by
  have onto : p.OntoItself dest name dir t ↔ a = a' := by
    rw [OntoItself, hp]
    simp [h.leads, h'.leads, eq_comm]
  have reads := h.read
  have reads' := h'.read
  rw [ReadsUnless, ReadsUnless, onto]
  split_ifs at reads reads' with same
  · exact ⟨⟨fun _ => reads, absurd same⟩, fun _ => reads', absurd same⟩
  · exact ⟨⟨fun e => absurd e same, fun _ => reads⟩, fun e => absurd e same, fun _ => reads'⟩

/-- No path ends in both names. -/
theorem name_ne {path : Path} (h : p.headerName.text <:+ path.text)
    (h' : p.sourceName.text <:+ path.text) : False := by
  have length : p.headerName.text.length = p.sourceName.text.length := by
    simp [headerName, sourceName]
  have same : p.moduleName ++ ".hpp" = p.moduleName ++ ".cpp" :=
    (List.suffix_of_suffix_length_le h h' length.le).eq_of_length length
  have ends : (".hpp" : Text) ≠ ".cpp" := by decide
  exact ends (List.append_cancel_left same)

/-- A file that is said to be written holds the generated text, unless it was copied onto itself. -/
structure Told (p : Project) (g : Generated) (dir : Path) (t : FileTree) (path : Path) : Prop where
  header : p.headerName.text <:+ path.text →
    ReadsUnless (p.OntoItself p.headerDest p.headerName dir t) t path g.header
  source : p.sourceName.text <:+ path.text →
    ReadsUnless (p.OntoItself p.sourceDest p.sourceName dir t) t path g.source

theorem told_header {d : Path} (h : ReadsUnless (p.OntoItself p.headerDest p.headerName dir t) t
    (p.headerIn d) g.header) : p.Told g dir t (p.headerIn d) where
  header _ := h
  source hs := (name_ne (suffix_join d p.headerName) hs).elim

theorem told_source {d : Path} (h : ReadsUnless (p.OntoItself p.sourceDest p.sourceName dir t) t
    (p.sourceIn d) g.source) : p.Told g dir t (p.sourceIn d) where
  header hs := (name_ne hs (suffix_join d p.sourceName)).elim
  source _ := h

/-- Every path that is named as written reads what it should. -/
theorem told_of_mem_written (h : (system.performAll (p.writing g dir)).run t = (.ok (), t')) :
    ∀ path ∈ p.written dir, p.Told g dir t' path := by
  cases hp : p.projectRoot? with
  | none =>
    obtain ⟨a, b, header, source⟩ := holds_written_of_none hp h
    have apart (dest name : Path) : ¬ p.OntoItself dest name dir t' := by simp [OntoItself, hp]
    rw [written, placements, hp]
    simp only [List.map_nil, List.forall_mem_cons]
    exact ⟨told_header ⟨fun e => absurd e (apart _ _), fun _ => header.read⟩,
      told_source ⟨fun e => absurd e (apart _ _), fun _ => source.read⟩, nofun⟩
  | some root =>
    obtain ⟨a, a', b, b', header, header', source, source'⟩ := holds_written_of_some hp h
    obtain ⟨first, copied⟩ := readsUnless_of_holds hp header header'
    obtain ⟨second, copied'⟩ := readsUnless_of_holds hp source source'
    rw [written, placements, hp]
    simp only [List.map_cons, List.map_nil, List.forall_mem_cons]
    exact ⟨told_header first, told_source second, told_header copied, told_source copied', nofun⟩

/-- The files that are said to be written hold the generated texts, each by its name. -/
def HoldsGenerated (p : Project) (g : Generated) (dir : Path) (t : FileTree) : Prop :=
  ∀ path ∈ p.written dir, (p.headerName.text <:+ path.text → t.read path = .ok g.header) ∧
    (p.sourceName.text <:+ path.text → t.read path = .ok g.source)

/-- **The files that are said to be written hold the generated texts** exactly if no text is lost by
copying its file onto itself. -/
theorem holds_generated_iff (h : (system.performAll (p.writing g dir)).run t = (.ok (), t')) :
    p.HoldsGenerated g dir t' ↔
      (p.OntoItself p.headerDest p.headerName dir t' → g.header = []) ∧
      (p.OntoItself p.sourceDest p.sourceName dir t' → g.source = []) := by
  have told := told_of_mem_written h
  constructor
  · intro holds
    have header : p.headerIn dir ∈ p.written dir := List.mem_cons_self
    have source : p.sourceIn dir ∈ p.written dir := List.mem_cons_of_mem _ List.mem_cons_self
    have named := suffix_join dir p.headerName
    have named' := suffix_join dir p.sourceName
    exact ⟨((told _ header).header named).read_iff.mp ((holds _ header).1 named),
      ((told _ source).source named').read_iff.mp ((holds _ source).2 named')⟩
  · rintro ⟨header, source⟩ path hw
    exact ⟨fun named => ((told path hw).header named).read_iff.mpr header,
      fun named => ((told path hw).source named).read_iff.mpr source⟩

instance (p : Project) (dest name dir : Path) (t : FileTree) :
    Decidable (p.OntoItself dest name dir t) :=
  match h : p.projectRoot? with
  | none => .isFalse (by simp [OntoItself, h])
  | some root =>
      decidable_of_iff (t.locate ((root.join dest).join name) = t.locate (dir.join name))
        (by simp [OntoItself, h])

/-! ### A small tree -/

/-- Two texts. -/
def shortTexts : Generated :=
  { header := "h", source := "s", wrappers := [], skipped := 0, failed := 0 }

/-- A project for the copies, with its directory for the header and the one for the source. -/
def copying (dest : Path) : Project :=
  { projectRoot? := some ".", headerDest := dest, sourceDest := dest }

/-- Writing the texts to `out` and copying them ends well, with a property of the tree. -/
def writesWith (dest : Path) (check : FileTree → Bool) : Bool :=
  satisfies ((system.performAll ((copying dest).writing shortTexts "out")).run (.bare ["w"])).1
    fun _ => check
      ((system.performAll ((copying dest).writing shortTexts "out")).run (.bare ["w"])).2

/-- Writing that is seen to succeed succeeds. -/
theorem exists_of_writesWith {dest : Path} {check : FileTree → Bool}
    (h : writesWith dest check = true) : ∃ t',
    (system.performAll ((copying dest).writing shortTexts "out")).run (.bare ["w"]) =
      (.ok (), t') ∧ check t' = true := by
  obtain ⟨_, hr, hc⟩ := exists_of_satisfies h
  exact ⟨_, Prod.ext hr rfl, hc⟩

/-- The theorem for copies in another directory. -/
theorem holds_generated_iff_of_apart : ∃ t',
    (system.performAll ((copying "gen").writing shortTexts "out")).run (.bare ["w"]) =
      (.ok (), t') ∧ (copying "gen").HoldsGenerated shortTexts "out" t' := by
  obtain ⟨t', h, hc⟩ := @exists_of_writesWith "gen" (fun t' =>
    !decide ((copying "gen").OntoItself "gen" (copying "gen").headerName "out" t') &&
      !decide ((copying "gen").OntoItself "gen" (copying "gen").sourceName "out" t'))
    (by decide +kernel)
  simp only [Bool.and_eq_true, Bool.not_eq_true', decide_eq_false_iff_not] at hc
  exact ⟨t', h, (holds_generated_iff h).mpr ⟨fun e => absurd e hc.1, fun e => absurd e hc.2⟩⟩

/-- A destination that is the directory for output loses the header. -/
theorem header_lost_in_place : ∃ t',
    (system.performAll ((copying "out").writing shortTexts "out")).run (.bare ["w"]) =
      (.ok (), t') ∧ ¬ (copying "out").HoldsGenerated shortTexts "out" t' := by
  obtain ⟨t', h, hc⟩ := @exists_of_writesWith "out"
    (fun t' => decide (t'.read ((copying "out").headerIn "out") = .ok [])) (by decide +kernel)
  refine ⟨t', h, fun holds => ?_⟩
  have held := (holds _ List.mem_cons_self).1 (suffix_join "out" (copying "out").headerName)
  cases (of_decide_eq_true hc).symm.trans held

end Project

end VectorWrap
