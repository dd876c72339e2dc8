import VectorWrap.Proofs.Files.Ways

/-!
# What actions change

An action makes directories on the way of one path, or writes the file that one path leads to, and
leaves everything else as it is (`changes_perform`).  So do actions one after the other
(`changes_performAll`), also when one of them fails.  A text is then read as before, unless its file
was written (`Changes.read`).

A change is described by two sets of places, those at which directories may have been made and those
at which a file has been written (`Changes`), and by nothing about its order, so changes are
composed by joining the sets (`Changes.trans`).  An action that fails has made directories at most,
which is why a failure in the middle needs no case of its own.
-/

namespace VectorWrap

namespace FileAction

/-- The directory that is made. -/
def dir? : FileAction → Option Path
  | .makeDirs p => some p
  | .write .. => none
  | .copy .. => none

/-- The file that is written. -/
def target? : FileAction → Option Path
  | .makeDirs _ => none
  | .write p _ => some p
  | .copy _ b => some b

end FileAction

namespace FileTree

variable {t t' t'' u : FileTree} {p : Path} {q : Place} {a : FileAction} {as : List FileAction}

/-! ### Changes -/

/-- From `t` to `t'` nothing is changed but that places in `made` may have become directories, if
nothing was there, and that those in `wrote` hold files now. -/
structure Changes (made wrote : Place → Prop) (t t' : FileTree) : Prop where
  here : t'.here = t.here
  kept : ∀ place, ¬ wrote place → t'.node? place = t.node? place ∨
    t.node? place = none ∧ t'.node? place = some .dir ∧ made place
  written : ∀ place, wrote place →
    t.node? place ≠ some .dir ∧ ∃ text?, t'.node? place = some (.file text?)

/-- Nothing. -/
abbrev Nowhere : Place → Prop := fun _ => False

namespace Changes

variable {made made' wrote wrote' : Place → Prop}

theorem refl (made : Place → Prop) (t : FileTree) : Changes made Nowhere t t :=
  ⟨rfl, fun _ _ => .inl rfl, fun _ h => h.elim⟩

/-- What changes a tree in this way keeps its directories. -/
theorem grows (h : Changes made wrote t t') : Grows t t' where
  here := h.here
  dir {place} hd := by
    by_cases hw : wrote place
    · exact absurd hd (h.written place hw).1
    · rcases h.kept place hw with e | ⟨none, -⟩
      · rw [e, hd]
      · rw [hd] at none
        cases none

/-- A file stays a file. -/
theorem file (h : Changes made wrote t t') {text? : Option Text}
    (hf : t.node? q = some (.file text?)) : ∃ text?, t'.node? q = some (.file text?) := by
  by_cases hw : wrote q
  · exact (h.written q hw).2
  · rcases h.kept q hw with e | ⟨none, -⟩
    · exact ⟨text?, e.trans hf⟩
    · rw [hf] at none
      cases none

theorem mono (h : Changes made wrote t t') (hm : ∀ place, made place → made' place) :
    Changes made' wrote t t' :=
  ⟨h.here, fun place hw => (h.kept place hw).imp_right fun ⟨n, d, m⟩ => ⟨n, d, hm place m⟩,
    h.written⟩

theorem congr (h : Changes made wrote t t') (hw : ∀ place, wrote place ↔ wrote' place) :
    Changes made wrote' t t' := by
  obtain rfl : wrote = wrote' := funext fun place => propext (hw place)
  exact h

/-- One change after another changes what both change. -/
theorem trans (h : Changes made wrote t t') (h' : Changes made wrote' t' t'') :
    Changes made (fun place => wrote place ∨ wrote' place) t t'' where
  here := h'.here.trans h.here
  kept place hw := by
    obtain ⟨hw, hw'⟩ := not_or.mp hw
    rcases h'.kept place hw' with e' | ⟨none', dir', m'⟩
    · rw [e']
      exact h.kept place hw
    · rcases h.kept place hw with e | ⟨-, dir, -⟩
      · exact .inr ⟨e ▸ none', dir', m'⟩
      · rw [dir] at none'
        cases none'
  written place hw := by
    by_cases hw' : wrote' place
    · exact ⟨fun hd => (h'.written place hw').1 (h.grows.dir hd), (h'.written place hw').2⟩
    · obtain ⟨other, text?, hf⟩ := h.written place (hw.resolve_right hw')
      exact ⟨other, h'.file hf⟩

end Changes

/-! ### Making directories -/

/-- The segments of a path without the empty ones at its end. -/
def solidSegments (p : Path) : List Text :=
  (p.segments.reverse.dropWhile List.isEmpty).reverse

theorem exists_solidSegments (p : Path) : ∃ rest, p.segments = solidSegments p ++ rest ∧
    ∀ s ∈ rest, Path.isFiller s = true := by
  refine ⟨(p.segments.reverse.takeWhile List.isEmpty).reverse, ?_, fun s hs => ?_⟩
  · rw [solidSegments, ← List.reverse_append, List.takeWhile_append_dropWhile,
      List.reverse_reverse]
  · rw [Path.isFiller, List.mem_takeWhile_imp (List.mem_reverse.mp hs), Bool.true_or]

/-- A directory is made exactly where its path leads and nothing is. -/
theorem makeDir_eq_ok : t.makeDir p = .ok t' ↔ p.text ≠ [] ∧
    ∃ q, t.placeFor p (solidSegments p) .occupied = .ok q ∧ t.node? q = none ∧
      t' = t.put q .dir := by
  rw [makeDir, ← solidSegments]
  split_ifs with h
  · simp [List.isEmpty_iff.mp h]
  · have text : p.text ≠ [] := List.isEmpty_iff.not.mp h
    cases t.placeFor p (solidSegments p) .occupied with
    | error e => simp [bind, Except.bind]
    | ok place =>
      cases hn : t.node? place <;>
        simp [bind, Except.bind, text, hn, eq_comm (a := t')]

/-- A directory that is put where nothing is changes that place. -/
theorem changes_put_dir (h : t.node? q = none) (hq : q ≠ []) :
    Changes (· = q) Nowhere t (t.put q .dir) where
  here := rfl
  kept place _ := by
    by_cases e : place = q
    · subst e
      exact .inr ⟨h, node?_put_self t .dir hq, rfl⟩
    · exact .inl (node?_put_ne t .dir e)
  written _ h := h.elim

/-- A directory is made at the end of its path. -/
theorem changes_makeDir (h : t.makeDir p = .ok t') :
    Changes (OnWay t' p) Nowhere t t' ∧ t'.isDir p = true := by
  obtain ⟨text, q, place, none, rfl⟩ := makeDir_eq_ok.mp h
  obtain ⟨rest, whole, fillers⟩ := exists_solidSegments p
  have nonempty : q ≠ [] := ne_nil_of_placeFor place
  have made := changes_put_dir none nonempty
  have there := node?_put_self t .dir nonempty
  have leads := made.grows.startOf p ▸ made.grows.walk (walk_of_placeFor place)
  refine ⟨made.mono ?_, isDir_iff.mpr ⟨q, locate_eq_ok.mpr ⟨text, ?_⟩, there⟩⟩
  · rintro _ rfl
    exact ⟨solidSegments p, whole ▸ List.prefix_append _ rest, leads⟩
  · rw [whole]
    exact walk_append_eq_ok.mpr ⟨q, leads, walk_filler there fillers⟩

/-- No directory is made where there is one. -/
theorem makeDir_of_isDir (h : t.isDir p = true) : ∃ e, t.makeDir p = .error e := by
  cases hm : t.makeDir p with
  | error e => exact ⟨e, rfl⟩
  | ok t' =>
    obtain ⟨-, q, place, none, -⟩ := makeDir_eq_ok.mp hm
    obtain ⟨rest, whole, -⟩ := exists_solidSegments p
    obtain ⟨q', leads, isDir⟩ := isDir_iff.mp h
    obtain ⟨r, front, back⟩ := walk_append_eq_ok.mp (whole ▸ (locate_eq_ok.mp leads).2)
    cases (walk_of_placeFor place).symm.trans front
    cases rest with
    | nil =>
      cases back
      rw [isDir] at none
      cases none
    | cons s rest =>
      rw [(walk_cons_eq_ok.mp back).1] at none
      cases none

/-- A directory that is there is left as it is. -/
theorem ensureDir_of_isDir (h : t.isDir p = true) : t.ensureDir p = .ok t := by
  obtain ⟨e, he⟩ := makeDir_of_isDir h
  rw [ensureDir, he]
  simp [h]

/-- A directory is made if it is not there, and is there then. -/
theorem changes_ensureDir (h : t.ensureDir p = .ok t') :
    Changes (OnWay t' p) Nowhere t t' ∧ t'.isDir p = true := by
  rw [ensureDir] at h
  split at h
  · next hm =>
    cases h
    exact changes_makeDir hm
  · split_ifs at h with hd
    cases h
    exact ⟨.refl _ t, hd⟩

/-- What is done to make a directory: nothing, or the directory is made where it belongs, possibly
after the one that holds it. -/
theorem makeDirsWithin_cases {bound : Nat} {r : Except FileError Unit}
    (h : makeDirsWithin bound p t = (r, t')) :
    t' = t ∧ (r = .ok () → p.text = []) ∨ t.ensureDir p = .ok t' ∨
      ∃ n dir r₁ t₁, bound = n + 1 ∧ p.parent? = some dir ∧ makeDirsWithin n dir t = (r₁, t₁) ∧
        (t₁.ensureDir p = .ok t' ∨ t' = t₁ ∧ r ≠ .ok ()) := by
  rw [makeDirsWithin.eq_def] at h
  split_ifs at h with text
  · cases h
    exact .inl ⟨rfl, fun _ => List.isEmpty_iff.mp text⟩
  · split at h
    · next made =>
      cases h
      exact .inr (.inl made)
    · split at h
      · next _ n dir holds =>
        refine .inr (.inr ?_)
        split at h
        · next t₁ holder =>
          cases h
          exact ⟨n, dir, _, _, rfl, holds, holder, .inr ⟨rfl, nofun⟩⟩
        · next t₁ holder =>
          split at h
          · next t₂ made =>
            cases h
            exact ⟨n, dir, _, _, rfl, holds, holder, .inl made⟩
          · cases h
            exact ⟨n, dir, _, _, rfl, holds, holder, .inr ⟨rfl, nofun⟩⟩
      · cases h
        exact .inl ⟨rfl, nofun⟩
    · cases h
      exact .inl ⟨rfl, nofun⟩

/-- Directories are made on the way of their path, which leads to one if all goes well. -/
theorem changes_makeDirsWithin {bound : Nat} {r : Except FileError Unit}
    (h : makeDirsWithin bound p t = (r, t')) :
    Changes (OnWay t' p) Nowhere t t' ∧ (r = .ok () → p.text = [] ∨ t'.isDir p = true) := by
  induction bound using Nat.strong_induction_on generalizing p t t' r with
  | _ bound ih =>
    rcases makeDirsWithin_cases h with ⟨rfl, empty⟩ | made |
      ⟨n, dir, r₁, t₁, rfl, holds, holder, rest⟩
    · exact ⟨.refl _ _, fun hr => .inl (empty hr)⟩
    · obtain ⟨changes, isDir⟩ := changes_ensureDir made
      exact ⟨changes, fun _ => .inr isDir⟩
    · -- what the holder of the directory made necessary is on the way of the directory
      have before : Changes (OnWay t₁ p) Nowhere t t₁ := by
        by_cases text : dir.text = []
        · have : t₁ = t := by
            rw [makeDirsWithin.eq_def, if_pos (List.isEmpty_iff.mpr text)] at holder
            exact (congrArg Prod.snd holder).symm
          exact this ▸ .refl _ _
        · exact (ih n n.lt_succ_self holder).1.mono fun _ => OnWay.of_parent? holds text
      rcases rest with made | ⟨rfl, stopped⟩
      · obtain ⟨changes, isDir⟩ := changes_ensureDir made
        exact ⟨((before.mono fun _ => changes.grows.onWay).trans changes).congr (by simp),
          fun _ => .inr isDir⟩
      · exact ⟨before, fun hr => absurd hr stopped⟩

/-- There is nothing to make on the way to a directory that is there. -/
theorem makeDirs_of_isDir (h : t.isDir p = true) : t.makeDirs p = (.ok (), t) := by
  obtain ⟨_, leads, -⟩ := isDir_iff.mp h
  have text : ¬ p.text.isEmpty = true := List.isEmpty_iff.not.mpr (locate_eq_ok.mp leads).1
  rw [makeDirs, makeDirsWithin.eq_def, if_neg text, ensureDir_of_isDir h]

theorem makeDirs_of_text_eq_nil (h : p.text = []) : t.makeDirs p = (.ok (), t) := by
  rw [makeDirs, makeDirsWithin.eq_def, if_pos (List.isEmpty_iff.mpr h)]

/-! ### Writing files -/

theorem ne_nil_of_placeToWrite (h : t.placeToWrite p = .ok q) : q ≠ [] :=
  ne_nil_of_placeFor (placeToWrite_eq_ok.mp h).2.1

/-- A file that is put where no directory is changes that place. -/
theorem changes_put_file {text? : Option Text} (h : t.node? q ≠ some .dir) (hq : q ≠ []) :
    Changes Nowhere (· = q) t (t.put q (.file text?)) where
  here := rfl
  kept _ hw := .inl (node?_put_ne t _ hw)
  written place hw := by
    subst hw
    exact ⟨h, text?, node?_put_self t _ hq⟩

theorem grows_put (hq : t.placeToWrite p = .ok q) (text? : Option Text) :
    Grows t (t.put q (.file text?)) :=
  (changes_put_file (placeToWrite_eq_ok.mp hq).2.2 (ne_nil_of_placeToWrite hq)).grows

theorem orUnchanged_eq_ok {r : Except FileError FileTree} :
    t.orUnchanged r = (.ok (), t') ↔ r = .ok t' := by
  cases r <;> simp [orUnchanged]

/-- A text is written exactly where its path leads to a file or to nothing. -/
theorem perform_write_eq_ok {text : Text} : t.perform (.write p text) = (.ok (), t') ↔
    ∃ q, t.placeToWrite p = .ok q ∧ t' = t.put q (.file (some text)) := by
  rw [perform, orUnchanged_eq_ok, write]
  cases t.placeToWrite p <;> simp [bind, Except.bind, pure, Except.pure, eq_comm (a := t')]

/-- The content of a place is that of the file there. -/
theorem contentAt_eq_ok {text? : Option Text} :
    t.contentAt q = .ok text? ↔ t.node? q = some (.file text?) := by
  rw [contentAt]
  rcases t.node? q with _ | _ | _ <;> simp

theorem put_put (t : FileTree) (q : Place) (node node' : Node) :
    (t.put q node).put q node' = t.put q node' := by
  simp [put]

/-- What is copied is what the file holds, but nothing if the file is copied onto itself: it is
emptied first. -/
theorem perform_copy_eq_ok {source target : Path} :
    t.perform (.copy source target) = (.ok (), t') ↔ ∃ a b text?, t.locate source = .ok a ∧
      t.node? a = some (.file text?) ∧ t.placeToWrite target = .ok b ∧
      t' = t.put b (.file (if a = b then some [] else text?)) := by
  simp only [perform, orUnchanged_eq_ok, copy, ← contentAt_eq_ok]
  cases t.locate source with
  | error e => simp [bind, Except.bind]
  | ok a =>
    cases hc : t.contentAt a with
    | error e => simp [bind, Except.bind, hc]
    | ok text? =>
      cases ht : t.placeToWrite target with
      | error e => simp [bind, Except.bind, hc]
      | ok b =>
        have read : (t.put b (.file (some []))).contentAt a =
            .ok (if a = b then some [] else text?) := by
          rw [contentAt_eq_ok]
          split_ifs with same
          · rw [same, node?_put_self t _ (ne_nil_of_placeToWrite ht)]
          · rw [node?_put_ne t _ same, contentAt_eq_ok.mp hc]
        simp [bind, Except.bind, pure, Except.pure, hc, read, put_put, eq_comm (a := t')]

/-! ### Reading files -/

/-- A text is read exactly where its path leads to a file with it. -/
theorem read_eq_ok {text : Text} : t.read p = .ok text ↔
    ∃ q, t.locate p = .ok q ∧ t.node? q = some (.file (some text)) := by
  rw [read]
  cases t.locate p with
  | error e => simp [bind, Except.bind]
  | ok q =>
    simp only [bind, Except.bind, Except.ok.injEq, exists_eq_left', ← contentAt_eq_ok]
    rcases t.contentAt q with e | _ | _ <;> simp

/-- Reading changes nothing, and each path gives what it leads to. -/
theorem run_readAll (ps : List Path) (t : FileTree) :
    (system.readAll ps).run t = (ps.map fun p => ⟨p, t.read p⟩, t) := by
  induction ps with
  | nil => rfl
  | cons p ps ih =>
    exact congrArg (fun r : List Input × FileTree => (⟨p, t.read p⟩ :: r.1, r.2)) ih

/-- A text that can be read is read after changes too, unless its file was written. -/
theorem Changes.read {made wrote : Place → Prop} (h : Changes made wrote t t') {text : Text}
    (hr : t.read p = .ok text) (hw : ∀ place, t'.locate p = .ok place → ¬ wrote place) :
    t'.read p = .ok text := by
  obtain ⟨q, leads, file⟩ := read_eq_ok.mp hr
  have leads' := h.grows.locate leads
  refine read_eq_ok.mpr ⟨q, leads', ?_⟩
  rcases h.kept q (hw q leads') with e | ⟨none, -⟩
  · rw [e, file]
  · rw [file] at none
    cases none

/-! ### Actions -/

/-- The place is on the way of a directory that is made. -/
def Made (as : List FileAction) (t : FileTree) (place : Place) : Prop :=
  ∃ dir ∈ as.filterMap FileAction.dir?, OnWay t dir place

/-- The place is where a file is written. -/
def Wrote (as : List FileAction) (t : FileTree) (place : Place) : Prop :=
  ∃ target ∈ as.filterMap FileAction.target?, t.locate target = .ok place

/-- An action that fails to write its file changes nothing. -/
theorem perform_target {r : Except FileError Unit} (h : t.perform a = (r, t'))
    (ht : a.target? = some p) :
    t' = t ∨ ∃ q text?, t.placeToWrite p = .ok q ∧ t' = t.put q (.file text?) := by
  cases a with
  | makeDirs _ => cases ht
  | write _ text =>
    cases ht
    cases r with
    | ok =>
      obtain ⟨q, there, e⟩ := perform_write_eq_ok.mp h
      exact .inr ⟨q, some text, there, e⟩
    | error e =>
      rw [perform] at h
      cases hw : t.write p text <;> rw [hw] at h <;> cases h
      exact .inl rfl
  | copy source _ =>
    cases ht
    cases r with
    | ok =>
      obtain ⟨_, q, _, -, -, there, e⟩ := perform_copy_eq_ok.mp h
      exact .inr ⟨q, _, there, e⟩
    | error e =>
      rw [perform] at h
      cases hw : t.copy source p <;> rw [hw] at h <;> cases h
      exact .inl rfl

/-- **One action** makes directories on the way of its directory, or writes its file. -/
theorem changes_perform {r : Except FileError Unit} (h : t.perform a = (r, t')) :
    ∃ wrote, Changes (Made [a] t') wrote t t' ∧ ∀ place, wrote place → Wrote [a] t' place := by
  cases ht : a.target? with
  | none =>
    cases a with
    | makeDirs p =>
      exact ⟨Nowhere, (changes_makeDirsWithin h).1.mono
        fun _ hm => ⟨p, List.mem_singleton_self p, hm⟩, fun _ => False.elim⟩
    | write p text => cases ht
    | copy source p => cases ht
  | some p =>
    rcases perform_target h ht with rfl | ⟨q, text?, there, rfl⟩
    · exact ⟨Nowhere, .refl _ _, fun _ => False.elim⟩
    · have wrote : Changes Nowhere (· = q) t (t.put q (.file text?)) :=
        changes_put_file (placeToWrite_eq_ok.mp there).2.2 (ne_nil_of_placeToWrite there)
      refine ⟨(· = q), wrote.mono fun _ => False.elim, ?_⟩
      rintro _ rfl
      exact ⟨p, by simp [ht], wrote.grows.locate (locate_of_placeToWrite there)⟩

/-! ### One after the other -/

/-- The first action, and the others if it succeeds. -/
theorem performAll_cons (a : FileAction) (as : List FileAction) (t : FileTree) :
    (system.performAll (a :: as)).run t = match t.perform a with
      | (.error e, t') => (.error (a, e), t')
      | (.ok (), t') => (system.performAll as).run t' := by
  rw [FileSystem.performAll, StateT.run_bind]
  have performed : (system.perform a).run t = t.perform a := rfl
  rw [performed]
  rcases t.perform a with ⟨_ | _, t'⟩ <;> rfl

theorem Made.mono {as bs : List FileAction} (h : as ⊆ bs) (hg : Grows t t')
    (hm : Made as t q) : Made bs t' q := by
  obtain ⟨dir, hd, way⟩ := hm
  exact ⟨dir, List.filterMap_subset _ h hd, hg.onWay way⟩

theorem Wrote.mono {as bs : List FileAction} (h : as ⊆ bs) (hg : Grows t t')
    (hm : Wrote as t q) : Wrote bs t' q := by
  obtain ⟨target, ht, leads⟩ := hm
  exact ⟨target, List.filterMap_subset _ h ht, hg.locate leads⟩

/-- **Actions** change nothing but that directories on the way of those to be made may be there, and
that files are written where their paths lead. -/
theorem changes_performAll {r : Except (FileAction × FileError) Unit}
    (h : (system.performAll as).run t = (r, t')) :
    ∃ wrote, Changes (Made as t') wrote t t' ∧ ∀ place, wrote place → Wrote as t' place := by
  induction as generalizing t with
  | nil =>
    cases h
    exact ⟨Nowhere, .refl _ _, fun _ => False.elim⟩
  | cons a as ih =>
    have first : [a] ⊆ a :: as := by simp
    rw [performAll_cons] at h
    rcases hp : t.perform a with ⟨e | _, t₁⟩
    · rw [hp] at h
      cases h
      obtain ⟨wrote, changes, target⟩ := changes_perform hp
      exact ⟨wrote, changes.mono fun _ => .mono first (.refl _),
        fun place hw => (target place hw).mono first (.refl _)⟩
    · rw [hp] at h
      obtain ⟨wrote, changes, target⟩ := changes_perform hp
      obtain ⟨wrote', changes', target'⟩ := ih h
      refine ⟨_, (changes.mono fun _ => .mono first changes'.grows).trans
        (changes'.mono fun _ => .mono (List.subset_cons_self a as) (.refl _)), ?_⟩
      rintro place (hw | hw)
      · exact (target place hw).mono first changes'.grows
      · exact (target' place hw).mono (List.subset_cons_self a as) (.refl _)

end FileTree

end VectorWrap
