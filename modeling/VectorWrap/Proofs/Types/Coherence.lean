import Mathlib
import VectorWrap.Batch.Generate
import VectorWrap.Proofs.Declaration.Cuts
import VectorWrap.Proofs.Text.Words

/-!
# The type table under every history

A table is what a history of additions makes of the first table.  All queries about a name read two
entries, those of its key in the two lists (`answers_congr`), so what an addition does to the
answers is what it does to these entries: a scalar or a pointer type is entered under one key, and a
declaration of names enters exactly the keys that have neither (`lookup_declare`).

What one addition does is stated for each kind of addition (`blob?_apply`, `knows_apply`) and then,
by induction on the list, for all of them (`blob?_after`, `knows_after`).  Nothing is ever taken
out, so what is known stays known; only a later pointer type of the same key changes an answer.
-/

namespace VectorWrap

/-! ### Names that are spelled differently -/

/-- A trim that does not see the case of a letter may be done before or after lowering it. -/
theorem Text.lower_trimBy {p : Char → Bool} (hp : ∀ c : Char, p c.toLower = p c) (s : Text) :
    Text.lower (Text.trimBy p s) = Text.trimBy p (Text.lower s) := by
  have same : p ∘ Char.toLower = p := funext hp
  simp only [Text.trimBy, Text.lower, List.dropWhile_map, same, ← List.map_reverse]

/-- Blanks have no case, so it does not matter whether a text is trimmed before it is lowered. -/
theorem Text.lower_trim (s : Text) : Text.lower (Text.trim s) = Text.trim (Text.lower s) :=
  lower_trimBy isBlank_toLower s

namespace TypeTable
open Text

/-- Blanks around a name and the case of its letters make no other key of it. -/
theorem key_spelling {a b sql sql' : Text} (ha : ∀ c ∈ a, isBlank c = true)
    (hb : ∀ c ∈ b, isBlank c = true) (same : lower sql' = lower sql) :
    key (a ++ sql' ++ b) = key sql := by
  have bare : trim (a ++ sql' ++ b) = trim sql' := by
    obtain ⟨x, y, whole, hx, hy⟩ := exists_trim sql'
    have : a ++ sql' ++ b = (a ++ x) ++ trim sql' ++ (y ++ b) := by
      conv_lhs => rw [whole]
      simp only [List.append_assoc]
    rw [this]
    exact trim_append (List.forall_mem_append.mpr ⟨ha, hx⟩) (List.forall_mem_append.mpr ⟨hy, hb⟩)
      (trimmed_trim sql')
  rw [key, key, bare, lower_trim, lower_trim, same]

/-! ### Queries -/

/-- What the queries say about one name. -/
structure Answers where
  blob? : Option BlobType
  isBlob : Bool
  executorType? : Option Text
  argForm : ArgForm
  resultForm : ResultForm
  deriving DecidableEq

/-- All that a table says about a name. -/
def answers (t : TypeTable) (sql : Text) : Answers where
  blob? := t.blob? sql
  isBlob := t.isBlob sql
  executorType? := t.executorType? sql
  argForm := t.argForm sql
  resultForm := t.resultForm sql

/-- What is said about a name that is entered as bytes. -/
def Answers.ofBlob (type : BlobType) : Answers where
  blob? := some type
  isBlob := true
  executorType? := some "string_t"
  argForm := .bytes
  resultForm := .blob

variable {t t' : TypeTable} {sql sql' : Text} {type : BlobType} {names names' : List Text}

/-- The queries read the two entries of the key, and the key. -/
theorem answers_congr (hk : key sql = key sql')
    (hb : t.blobs.lookup (key sql') = t'.blobs.lookup (key sql'))
    (hs : t.scalars.lookup (key sql') = t'.scalars.lookup (key sql')) :
    t.answers sql = t'.answers sql' := by
  have blob : t.blob? sql = t'.blob? sql' := by rw [blob?, blob?, hk, hb]
  have bytes : t.isBlob sql = t'.isBlob sql' := congrArg Option.isSome blob
  have element : t.executorType? sql = t'.executorType? sql' := by
    rw [executorType?, executorType?, bytes, hk, hs]
  have argument : t.argForm sql = t'.argForm sql' := by rw [argForm, argForm, bytes, hk]
  have result : t.resultForm sql = t'.resultForm sql' := by rw [resultForm, resultForm, bytes, hk]
  rw [answers, blob, bytes, element, argument, result, ← answers]

/-- The scalar entry of a name that is entered as bytes is not looked at. -/
theorem answers_of_blob (h : t.blob? sql = some type) : t.answers sql = .ofBlob type := by
  simp only [answers, executorType?, argForm, resultForm, isBlob, h, Option.isSome_some, if_true,
    Answers.ofBlob]

/-- An argument is passed as bytes exactly if its type is one of pointers. -/
theorem argForm_eq_bytes_iff : t.argForm sql = .bytes ↔ t.isBlob sql = true := by
  refine ⟨fun h => ?_, fun h => by simp only [argForm, h, if_true]⟩
  by_contra hn
  simp only [argForm, hn, if_false] at h
  split_ifs at h

/-- A result is returned as a blob exactly if its type is one of pointers. -/
theorem resultForm_eq_blob_iff : t.resultForm sql = .blob ↔ t.isBlob sql = true := by
  refine ⟨fun h => ?_, fun h => by simp only [resultForm, h, if_true]⟩
  by_contra hn
  simp only [resultForm, hn, if_false] at h
  split_ifs at h

/-- The known names are those with an element type. -/
theorem isSome_executorType? : (t.executorType? sql).isSome = t.knows sql := by
  cases h : t.blobs.lookup (key sql) <;> simp [executorType?, knows, isBlob, blob?, h]

/-! ### Entries -/

/-- A pointer to bytes that know their size: what a declared name is entered as. -/
def declaredType : BlobType := ⟨"void *", .varlena⟩

@[simp] theorem blob?_addScalar (host : Text) : (t.addScalar sql host).blob? sql' = t.blob? sql' :=
  rfl

theorem blob?_addBlob (h : key sql' = key sql) : (t.addBlob sql type).blob? sql' = some type := by
  rw [blob?, h, addBlob, List.lookup_cons_self]

theorem blob?_addBlob_of_ne (h : key sql' ≠ key sql) :
    (t.addBlob sql type).blob? sql' = t.blob? sql' := by
  rw [blob?, addBlob, List.lookup_cons, beq_false_of_ne h, blob?]

/-- What is known stays known when a scalar is added. -/
theorem knows_addScalar (host : Text) (h : t.knows sql' = true) :
    (t.addScalar sql host).knows sql' = true := by
  rw [knows, Bool.or_eq_true] at h ⊢
  refine h.imp_left fun h => ?_
  rw [addScalar, List.lookup_cons]
  split
  · rfl
  · exact h

/-- What is known stays known when a pointer type is added. -/
theorem knows_addBlob (h : t.knows sql' = true) : (t.addBlob sql type).knows sql' = true := by
  rw [knows, Bool.or_eq_true] at h ⊢
  refine h.imp_right fun h => ?_
  rw [addBlob, List.lookup_cons]
  split
  · rfl
  · exact h

/-! ### Declared names -/

/-- The first name is entered unless it is known, and then the others. -/
theorem declare_cons (n : Text) : t.declare (n :: names) =
    (if t.knows n then t else t.addBlob n declaredType).declare names :=
  rfl

@[simp] theorem scalars_declare (t : TypeTable) (names : List Text) :
    (t.declare names).scalars = t.scalars := by
  induction names generalizing t with
  | nil => rfl
  | cons n names ih =>
    rw [declare_cons, ih]
    split <;> rfl

/-- A declaration enters the declared names that have no entry, and no others. -/
theorem lookup_declare (t : TypeTable) (names : List Text) (sql : Text) :
    (t.declare names).blobs.lookup (key sql) =
      if t.knows sql = false ∧ key sql ∈ names.map key then some declaredType
      else t.blobs.lookup (key sql) := by
  induction names generalizing t with
  | nil => simp [declare]
  | cons n names ih =>
    rw [declare_cons, ih]
    simp only [List.map_cons, List.mem_cons]
    by_cases same : key sql = key n
    · -- the key is entered at the latest by this name
      have known : t.knows n = t.knows sql := by simp only [knows, same]
      cases h : t.knows sql with
      | true => simp [known, h]
      | false =>
        have entered : (t.addBlob n declaredType).blobs.lookup (key sql) = some declaredType :=
          blob?_addBlob same
        have now : (t.addBlob n declaredType).knows sql = true := by
          rw [knows, entered, Option.isSome_some, Bool.or_true]
        rw [known, h, if_neg Bool.false_ne_true, now, if_neg (by simp), if_pos ⟨rfl, .inl same⟩,
          entered]
    · have other : (if t.knows n then t else t.addBlob n declaredType).blobs.lookup (key sql) =
          t.blobs.lookup (key sql) := by
        split
        · rfl
        · exact blob?_addBlob_of_ne same
      have known : (if t.knows n then t else t.addBlob n declaredType).knows sql = t.knows sql := by
        rw [knows, other, knows]
        split <;> rfl
      rw [other, known]
      simp only [same, false_or]

theorem answers_declare_of_knows (names : List Text) (h : t.knows sql = true) :
    (t.declare names).answers sql = t.answers sql :=
  answers_congr rfl (by rw [lookup_declare, h]; simp) (by rw [scalars_declare])

/-- A declared name is known. -/
theorem knows_declare_of_mem {n : Text} (h : n ∈ names) : (t.declare names).knows n = true := by
  have entered := lookup_declare t names n
  cases known : t.knows n with
  | true =>
    rw [known, if_neg (by simp)] at entered
    rw [knows, entered, scalars_declare, ← known, knows]
  | false =>
    rw [if_pos ⟨known, List.mem_map_of_mem h⟩] at entered
    rw [knows, entered, Option.isSome_some, Bool.or_true]

/-- What is known stays known when names are declared. -/
theorem knows_declare (names : List Text) (h : t.knows sql = true) :
    (t.declare names).knows sql = true := by
  rw [← isSome_executorType?] at h ⊢
  rwa [show (t.declare names).executorType? sql = t.executorType? sql from
    congrArg Answers.executorType? (answers_declare_of_knows names (isSome_executorType? ▸ h))]

/-- The order of the names makes no difference. -/
theorem answers_declare_perm (h : names.Perm names') (sql : Text) :
    (t.declare names).answers sql = (t.declare names').answers sql := by
  refine answers_congr rfl ?_ (by rw [scalars_declare, scalars_declare])
  rw [lookup_declare, lookup_declare]
  simp only [(h.map key).mem_iff]

/-- Declaring names that are known changes nothing. -/
theorem declare_of_knows (h : ∀ n ∈ names, t.knows n = true) : t.declare names = t := by
  induction names with
  | nil => rfl
  | cons n names ih =>
    obtain ⟨hn, h⟩ := List.forall_mem_cons.mp h
    rw [declare_cons, if_pos hn, ih h]

theorem declare_declare (t : TypeTable) (names : List Text) :
    (t.declare names).declare names = t.declare names :=
  declare_of_knows fun _ hn => knows_declare_of_mem hn

/-! ### Histories -/

/-- An addition to a table. -/
inductive Step where
  | scalar (sql host : Text)
  | blob (sql : Text) (type : BlobType)
  | declare (names : List Text)

/-- The table after an addition. -/
def Step.apply (t : TypeTable) : Step → TypeTable
  | .scalar sql host => t.addScalar sql host
  | .blob sql type => t.addBlob sql type
  | .declare names => t.declare names

/-- The table after a history. -/
def after (t : TypeTable) (steps : List Step) : TypeTable :=
  steps.foldl Step.apply t

/-- Enters a name as bytes, whatever it was. -/
def Step.Replaces (sql : Text) : Step → Prop
  | .blob sql' _ => key sql' = key sql
  | _ => False

/-- An addition forgets no name. -/
theorem knows_apply (s : Step) (h : t.knows sql = true) : (s.apply t).knows sql = true := by
  cases s with
  | scalar _ host => exact knows_addScalar host h
  | blob => exact knows_addBlob h
  | declare names => exact knows_declare names h

/-- An addition keeps an entry as bytes, unless it is replaced by another. -/
theorem blob?_apply {s : Step} (hs : ¬ s.Replaces sql) (h : t.blob? sql = some type) :
    (s.apply t).blob? sql = some type := by
  cases s with
  | scalar => exact h
  | blob sql' type' =>
    rw [Step.apply, blob?_addBlob_of_ne fun same => hs same.symm]
    exact h
  | declare names =>
    have known : t.knows sql = true := by
      rw [knows, show t.blobs.lookup (key sql) = some type from h, Option.isSome_some, Bool.or_true]
    exact (congrArg Answers.blob? (answers_declare_of_knows names known)).trans h

/-- What is known stays known. -/
theorem knows_after (steps : List Step) (h : t.knows sql = true) :
    (t.after steps).knows sql = true := by
  induction steps generalizing t with
  | nil => exact h
  | cons s steps ih => exact ih (knows_apply s h)

/-- A pointer type stays as it is until it is added again. -/
theorem blob?_after {steps : List Step} (hs : ∀ s ∈ steps, ¬ s.Replaces sql)
    (h : t.blob? sql = some type) : (t.after steps).blob? sql = some type := by
  induction steps generalizing t with
  | nil => exact h
  | cons s steps ih =>
    obtain ⟨hs, rest⟩ := List.forall_mem_cons.mp hs
    exact ih rest (blob?_apply hs h)

theorem after_append (steps steps' : List Step) :
    t.after (steps ++ steps') = (t.after steps).after steps' :=
  List.foldl_append

/-! ### Coherence -/

/-- The five queries agree with each other and with the history. -/
structure Coherent (t : TypeTable) : Prop where
  /-- To be bytes is one thing, by whatever query. -/
  bytes : ∀ sql, [(t.blob? sql).isSome = true, t.isBlob sql = true, t.argForm sql = .bytes,
    t.resultForm sql = .blob].TFAE
  /-- Bytes have one element type. -/
  element : ∀ sql, t.isBlob sql = true → t.executorType? sql = some "string_t".toList
  /-- The spelling of a name makes no difference. -/
  spelling : ∀ a b sql sql', (∀ c ∈ a, isBlank c = true) → (∀ c ∈ b, isBlank c = true) →
    lower sql' = lower sql → t.answers (a ++ sql' ++ b) = t.answers sql
  /-- A known name stays known. -/
  known : ∀ sql steps, (t.executorType? sql).isSome = true →
    ((t.after steps).executorType? sql).isSome = true
  /-- Declared names are known. -/
  declared : ∀ names, ∀ n ∈ names, ((t.declare names).executorType? n).isSome = true
  /-- A declaration changes nothing about a known name. -/
  unchanged : ∀ names sql, (t.executorType? sql).isSome = true →
    (t.declare names).answers sql = t.answers sql
  /-- To declare names again does nothing. -/
  again : ∀ names, (t.declare names).declare names = t.declare names
  /-- The order of the declared names makes no difference. -/
  order : ∀ names names', names.Perm names' →
    ∀ sql, (t.declare names).answers sql = (t.declare names').answers sql
  /-- What was entered as bytes last decides, whatever scalars and declarations came before it or
  come after it. -/
  precedence : ∀ sql type sql' steps, key sql' = key sql → (∀ s ∈ steps, ¬ s.Replaces sql') →
    ((t.addBlob sql type).after steps).answers sql' = .ofBlob type
  /-- A name that is bytes for whatever reason stays so with the same type, and its scalar entries
  do not matter. -/
  shadowing : ∀ sql type steps, t.blob? sql = some type → (∀ s ∈ steps, ¬ s.Replaces sql) →
    (t.after steps).answers sql = .ofBlob type

/-- **The table is coherent after every history.** -/
theorem coherent_after (steps : List Step) : Coherent (base.after steps) where
  bytes sql := by
    tfae_have 1 ↔ 2 := Iff.rfl
    tfae_have 3 ↔ 2 := argForm_eq_bytes_iff
    tfae_have 4 ↔ 2 := resultForm_eq_blob_iff
    tfae_finish
  element sql h := by rw [executorType?, if_pos h]
  spelling a b sql sql' ha hb same := answers_congr (key_spelling ha hb same) rfl rfl
  known sql later h := by
    rw [isSome_executorType?] at h ⊢
    exact knows_after later h
  declared names n hn := by
    rw [isSome_executorType?]
    exact knows_declare_of_mem hn
  unchanged names sql h := answers_declare_of_knows names (isSome_executorType? ▸ h)
  again names := declare_declare _ names
  order names names' h sql := answers_declare_perm h sql
  precedence sql type sql' later same hs :=
    answers_of_blob (blob?_after hs (blob?_addBlob same))
  shadowing sql type later h hs := answers_of_blob (blob?_after hs h)

end TypeTable

/-! ### The tables in use -/

/-- The additions that settings describe: the types that are bytes, then the scalars. -/
def Settings.steps (s : Settings) : List TypeTable.Step :=
  s.blobs.map (fun (name, b) => .blob name ⟨b.cType, Project.sizeOf b⟩) ++
    s.scalars.map fun (name, host) => .scalar name host

/-- The types of a project are what its settings make of the first table. -/
theorem Project.typesOf_eq_after (s : Settings) :
    Project.typesOf s = TypeTable.base.after s.steps := by
  simp only [Project.typesOf, TypeTable.after, Settings.steps, List.foldl_append, List.foldl_map,
    TypeTable.Step.apply]

/-- A script is wrapped with the table that its settings and then its own types make. -/
theorem Batch.types_emitterFor (root : Path) (sqlDir? sourceDir? : Option Path) (s : Settings)
    (script : Script) :
    (Batch.emitterFor (.ofSettings root sqlDir? sourceDir? s) script).types =
      TypeTable.base.after (s.steps ++ [.declare script.types]) := by
  rw [TypeTable.after_append, ← Project.typesOf_eq_after]
  rfl

end VectorWrap
