import Mathlib
import VectorWrap.Files.Tree
import VectorWrap.Proofs.Text.Words

/-!
# Ways through a tree

A walk that arrives somewhere has found a directory before every step.  So what leads to a place
leads there still when there are more directories (`Grows.locate`): the place of a file that has
been written is where its path leads ever after.

The directories on the way of a path are where its first segments lead.  Those of the directory that
holds it are on its way as well (`OnWay.of_parent?`), so making a directory with all it lies in
makes directories on its way only.

A tree that keeps its directories, and may have more of them, `Grows`.  All later modules use this
relation alone to say that a path means the same before and after a run; what became of files is
said apart.
-/

namespace VectorWrap

namespace Text

/-! ### Pieces of a text -/

/-- What ends a text without a separator in it ends its last piece. -/
theorem suffix_of_getLast?_splitBy {p : Char → Bool} {w s last : Text}
    (hw : ∀ c ∈ w, p c = false) (h : w <:+ s) (hl : (splitBy p s).getLast? = some last) :
    w <:+ last := by
  induction s generalizing last with
  | nil =>
    rw [List.suffix_nil.mp h]
    exact List.nil_suffix
  | cons c s ih =>
    rcases List.suffix_cons_iff.mp h with rfl | h
    · rw [splitBy_of_none hw] at hl
      cases hl
      exact List.suffix_rfl
    · obtain ⟨x, xs, e, hcons⟩ := splitBy_cons_of_neg p s
      cases hc : p c with
      | true =>
        rw [splitBy, if_pos hc, e, List.getLast?_cons_cons, ← e] at hl
        exact ih h hl
      | false =>
        rw [hcons c hc] at hl
        cases xs with
        | nil =>
          cases hl
          exact (ih h (by rw [e]; rfl)).trans (List.suffix_cons c x)
        | cons y ys =>
          rw [List.getLast?_cons_cons] at hl
          exact ih h (by rw [e, List.getLast?_cons_cons, hl])

end Text

namespace Path

/-! ### Directories that hold a path -/

theorem withoutFiller_isPrefix (segments : List Text) : withoutFiller segments <+: segments := by
  rw [withoutFiller, ← List.reverse_suffix, List.reverse_reverse]
  exact List.dropWhile_suffix isFiller

variable {p dir : Path} {first : Text} {others kept : List Text}

/-- A path is absolute if its first segment is empty and not the only one. -/
theorem isAbsolute_iff (h : p.segments = first :: others) :
    p.isAbsolute = true ↔ first = [] ∧ others ≠ [] := by
  obtain ⟨text⟩ := p
  cases text with
  | nil =>
    cases h
    simp [isAbsolute]
  | cons c r =>
    obtain ⟨x, xs, more, hcons⟩ := Text.splitBy_cons_of_neg (· == '/') r
    by_cases hc : c = '/'
    · subst hc
      have split : segments ⟨'/' :: r⟩ = [] :: x :: xs := more ▸ rfl
      cases split.symm.trans h
      simp [isAbsolute]
    · cases (hcons c (by simp [hc])).symm.trans h
      simp [isAbsolute, hc]

/-- Segments that begin a path can be joined and split again. -/
theorem segments_joinWith (h : p.segments = first :: others) (hk : kept <+: others) :
    segments ⟨Text.joinWith ['/'] (first :: kept)⟩ = first :: kept := by
  have part : first :: kept <+: p.segments := h ▸ List.cons_prefix_cons.mpr ⟨rfl, hk⟩
  exact Text.splitBy_joinWith rfl (List.cons_ne_nil first kept) fun _ hw =>
    Text.not_sep_of_mem_splitBy (part.subset hw)

/-- The path of the directory is the root's, or joined from the first segments. -/
theorem parent?_eq_some (h : p.parent? = some dir) : dir.text = [] ∨
    ∃ first others kept, p.segments = first :: others ∧ others ≠ [] ∧ kept <+: others ∧
      dir = if first = [] ∧ kept = [] then ⟨['/']⟩ else ⟨Text.joinWith ['/'] (first :: kept)⟩ := by
  unfold parent? at h
  split at h
  · cases h
  · next first others hs =>
    split at h
    · split_ifs at h
      cases h
      exact .inl rfl
    · next o os ho =>
      have solid := withoutFiller_isPrefix others
      rw [ho] at solid
      have short := List.dropLast_prefix (o :: os)
      have some_other : others ≠ [] := fun e => by
        rw [e] at ho
        cases ho
      refine .inr ⟨first, others, withoutFiller (o :: os).dropLast, hs, some_other,
        (withoutFiller_isPrefix (o :: os).dropLast).trans (short.trans solid), ?_⟩
      split at h
      · next none =>
        cases h
        rw [none, Text.joinWith, List.intercalate_singleton]
        simp [List.isEmpty_iff]
      · next more =>
        cases h
        rw [if_neg fun e => more e.2]

/-- The directory that holds a path is the one where relative paths begin, the root, or reached by
its first segments. -/
theorem parent?_cases (h : p.parent? = some dir) :
    dir.text = [] ∨ dir.text = ['/'] ∧ p.isAbsolute = true ∨
      dir.isAbsolute = p.isAbsolute ∧ dir.segments <+: p.segments := by
  rcases parent?_eq_some h with empty | ⟨first, others, kept, hs, more, part, rfl⟩
  · exact .inl empty
  · split_ifs with root
    · exact .inr (.inl ⟨rfl, (isAbsolute_iff hs).mpr ⟨root.1, more⟩⟩)
    · have split := segments_joinWith hs part
      refine .inr (.inr ⟨Bool.eq_iff_iff.mpr ?_, ?_⟩)
      · rw [isAbsolute_iff hs, isAbsolute_iff split]
        exact and_congr_right fun empty =>
          iff_of_true (fun none => root ⟨empty, none⟩) more
      · rw [split, hs]
        exact List.cons_prefix_cons.mpr ⟨rfl, part⟩

end Path

namespace FileTree

variable {t t' t'' : FileTree} {p dir : Path} {place q : Place} {segments : List Text}

/-! ### Walking -/

/-- Where a segment leads from a directory. -/
def stepTo (place : Place) (segment : Text) : Place :=
  if Path.isFiller segment then place
  else if isUp segment then place.dropLast
  else place ++ [segment]

/-- A walk goes one step from a directory, and on from there. -/
theorem walk_cons_eq_ok {s : Text} : t.walk place (s :: segments) = .ok q ↔
    t.node? place = some .dir ∧ t.walk (stepTo place s) segments = .ok q := by
  rw [walk, stepTo]
  cases t.node? place with
  | none => simp
  | some n =>
    cases n with
    | file text? => simp
    | dir => split_ifs <;> simp

/-- A walk by two lists of segments goes by the first and then by the second. -/
theorem walk_append_eq_ok {a b : List Text} : t.walk place (a ++ b) = .ok q ↔
    ∃ r, t.walk place a = .ok r ∧ t.walk r b = .ok q := by
  induction a generalizing place with
  | nil => simp [walk]
  | cons s a ih =>
    rw [List.cons_append, walk_cons_eq_ok, ih]
    simp only [walk_cons_eq_ok, and_assoc, exists_and_left]

/-- Segments that lead nowhere do not leave a directory. -/
theorem walk_filler (hd : t.node? place = some .dir)
    (h : ∀ s ∈ segments, Path.isFiller s = true) : t.walk place segments = .ok place := by
  induction segments with
  | nil => rfl
  | cons s segments ih =>
    obtain ⟨hs, h⟩ := List.forall_mem_cons.mp h
    refine walk_cons_eq_ok.mpr ⟨hd, ?_⟩
    rw [stepTo, if_pos hs, ih h]

/-- A path leads somewhere exactly if it has a text and the walk by its segments does. -/
theorem locate_eq_ok : t.locate p = .ok q ↔
    p.text ≠ [] ∧ t.walk (t.startOf p) p.segments = .ok q := by
  rw [locate]
  split_ifs with h
  · simp [List.isEmpty_iff.mp h]
  · simp [List.isEmpty_iff.not.mp h]

theorem isDir_iff : t.isDir p = true ↔ ∃ q, t.locate p = .ok q ∧ t.node? q = some .dir := by
  rw [isDir]
  cases t.locate p <;> simp

/-- What is new gets a name in a directory that is there. -/
theorem placeFor_eq_ok {special : FileError} : t.placeFor p segments special = .ok q ↔
    ∃ name d, segments.getLast? = some name ∧ t.walk (t.startOf p) segments.dropLast = .ok d ∧
      t.node? d = some .dir ∧ Path.isFiller name = false ∧ isUp name = false ∧
      q = d ++ [name] := by
  rw [placeFor]
  cases segments.getLast? with
  | none => simp
  | some name =>
    cases t.walk (t.startOf p) segments.dropLast with
    | error e => simp [bind, Except.bind]
    | ok d =>
      simp only [bind, Except.bind]
      rcases hd : t.node? d with _ | _ | text?
      · simp [hd]
      · have taken : ∀ {r : Place}, r = q ↔ q = r := eq_comm
        cases hf : Path.isFiller name <;> cases hu : isUp name <;> simp [hd, hf, hu, taken]
      · simp [hd]

/-- The place that something new gets is where its segments lead. -/
theorem walk_of_placeFor {special : FileError} (h : t.placeFor p segments special = .ok q) :
    t.walk (t.startOf p) segments = .ok q := by
  obtain ⟨name, d, last, walk, isDir, filler, up, rfl⟩ := placeFor_eq_ok.mp h
  rw [← List.dropLast_append_getLast? name last]
  refine walk_append_eq_ok.mpr ⟨d, walk, walk_cons_eq_ok.mpr ⟨isDir, ?_⟩⟩
  simp [stepTo, filler, up, FileTree.walk]

theorem ne_nil_of_placeFor {special : FileError} (h : t.placeFor p segments special = .ok q) :
    q ≠ [] := by
  obtain ⟨name, d, -, -, -, -, -, rfl⟩ := placeFor_eq_ok.mp h
  exact List.append_ne_nil_of_right_ne_nil d (List.cons_ne_nil name [])

/-- A file is written where its path leads, unless a directory is there. -/
theorem placeToWrite_eq_ok : t.placeToWrite p = .ok q ↔ p.text ≠ [] ∧
    t.placeFor p p.segments .isADirectory = .ok q ∧ t.node? q ≠ some .dir := by
  rw [placeToWrite]
  split_ifs with h
  · simp [List.isEmpty_iff.mp h]
  · have text : p.text ≠ [] := List.isEmpty_iff.not.mp h
    cases t.placeFor p p.segments .isADirectory with
    | error e => simp [bind, Except.bind]
    | ok place =>
      simp only [bind, Except.bind, Except.ok.injEq]
      split
      · next hd =>
        refine iff_of_false (fun e => nomatch e) ?_
        rintro ⟨-, rfl, other⟩
        exact other hd
      · next hd =>
        constructor
        · rintro ⟨⟩
          exact ⟨text, rfl, hd⟩
        · rintro ⟨-, rfl, -⟩
          rfl

theorem locate_of_placeToWrite (h : t.placeToWrite p = .ok q) : t.locate p = .ok q := by
  obtain ⟨text, place, -⟩ := placeToWrite_eq_ok.mp h
  exact locate_eq_ok.mpr ⟨text, walk_of_placeFor place⟩

/-! ### Growing trees -/

/-- All directories of `t` are directories of `t'`, and relative paths begin where they did. -/
structure Grows (t t' : FileTree) : Prop where
  here : t'.here = t.here
  dir : ∀ {place}, t.node? place = some .dir → t'.node? place = some .dir

namespace Grows

theorem refl (t : FileTree) : Grows t t :=
  ⟨rfl, id⟩

theorem trans (h : Grows t t') (h' : Grows t' t'') : Grows t t'' :=
  ⟨h'.here.trans h.here, fun hd => h'.dir (h.dir hd)⟩

theorem startOf (h : Grows t t') (p : Path) : t'.startOf p = t.startOf p := by
  rw [FileTree.startOf, FileTree.startOf, h.here]

/-- A walk goes the same way in a tree that has grown. -/
theorem walk (h : Grows t t') (hw : t.walk place segments = .ok q) :
    t'.walk place segments = .ok q := by
  induction segments generalizing place with
  | nil => exact hw
  | cons s segments ih =>
    obtain ⟨isDir, hw⟩ := walk_cons_eq_ok.mp hw
    exact walk_cons_eq_ok.mpr ⟨h.dir isDir, ih hw⟩

/-- **A path leads where it did.** -/
theorem locate (h : Grows t t') (hl : t.locate p = .ok q) : t'.locate p = .ok q := by
  obtain ⟨text, hw⟩ := locate_eq_ok.mp hl
  exact locate_eq_ok.mpr ⟨text, h.startOf p ▸ h.walk hw⟩

theorem isDir (h : Grows t t') (hd : t.isDir p = true) : t'.isDir p = true := by
  obtain ⟨q, hl, hq⟩ := isDir_iff.mp hd
  exact isDir_iff.mpr ⟨q, h.locate hl, h.dir hq⟩

theorem placeFor (h : Grows t t') {special : FileError}
    (hp : t.placeFor p segments special = .ok q) : t'.placeFor p segments special = .ok q := by
  obtain ⟨name, d, last, hw, hd, rest⟩ := placeFor_eq_ok.mp hp
  exact placeFor_eq_ok.mpr ⟨name, d, last, h.startOf p ▸ h.walk hw, h.dir hd, rest⟩

/-- A file is written where it was, unless there is a directory now. -/
theorem placeToWrite (h : Grows t t') (hp : t.placeToWrite p = .ok q)
    (hq : t'.node? q ≠ some .dir) : t'.placeToWrite p = .ok q := by
  obtain ⟨text, hp, -⟩ := placeToWrite_eq_ok.mp hp
  exact placeToWrite_eq_ok.mpr ⟨text, h.placeFor hp, hq⟩

end Grows

/-! ### On the way -/

/-- The first segments of the path lead to the place. -/
def OnWay (t : FileTree) (p : Path) (place : Place) : Prop :=
  ∃ front, front <+: p.segments ∧ t.walk (t.startOf p) front = .ok place

theorem Grows.onWay (h : Grows t t') (hw : OnWay t p place) : OnWay t' p place := by
  obtain ⟨front, hf, hw⟩ := hw
  exact ⟨front, hf, h.startOf p ▸ h.walk hw⟩

/-- What is on the way to the directory that holds a path is on the way of the path. -/
theorem OnWay.of_parent? (h : p.parent? = some dir) (hd : dir.text ≠ [])
    (hw : OnWay t dir place) : OnWay t p place := by
  obtain ⟨front, hf, hw⟩ := hw
  rcases Path.parent?_cases h with e | ⟨e, absolute⟩ | ⟨same, part⟩
  · exact absurd e hd
  · -- the root is where a path that is absolute begins
    have start : t.startOf dir = [] := by rw [startOf, Path.isAbsolute, e]; rfl
    have slash : dir.segments = [[], []] := by rw [Path.segments, e]; rfl
    have fillers : ∀ s ∈ front, Path.isFiller s = true := fun s hs => by
      rw [slash] at hf
      rw [List.eq_of_mem_replicate (n := 2) (hf.subset hs)]
      rfl
    rw [start, walk_filler rfl fillers] at hw
    cases hw
    exact ⟨[], List.nil_prefix, by rw [startOf, if_pos absolute, FileTree.walk]⟩
  · have start : t.startOf dir = t.startOf p := by rw [startOf, startOf, same]
    exact ⟨front, hf.trans part, start ▸ hw⟩

end FileTree

end VectorWrap
