import VectorWrap.Proofs.Files.Actions

/-!
# Actions once more

Actions that were all carried out can be carried out again, and change nothing then
(`performAll_again`), if no file is copied but one that was written before: the directories are
there, and every file gets the text that it got.  On the way there are files with other texts than
in the end, but they are the ones that the actions met the first time (`Replays`).

The relation has three trees: the one that the actions have led to so far the first time, the one
that they led to in the end, and the one that they have led to the second time.  What has been
written is in the third as it was in the first, and all else is as in the second.  Each action keeps
this (`perform`); behind the last one the first two trees are one, and so is the third.
-/

namespace VectorWrap

namespace FileAction

/-- The file that is copied. -/
def source? : FileAction → Option Path
  | .makeDirs _ => none
  | .write .. => none
  | .copy a _ => some a

/-- Every file that is copied was written before, or is one of those that are done. -/
def Sourced (done : List Path) : List FileAction → Prop
  | [] => True
  | a :: as => (∀ path ∈ a.source?, path ∈ done) ∧ Sourced (done ++ a.target?.toList) as

end FileAction

namespace FileTree

variable {t t' u : FileTree} {p : Path} {q : Place} {a : FileAction} {as : List FileAction}

/-! ### Side by side -/

/-- Some actions that led from one tree to `t`, and will have led to `t'` with those after them,
have led from `t'` to `u`: what was written is in `u` as it was in `t`, all else is as in `t'`. -/
structure Replays (done : List Path) (wrote : Place → Prop) (t t' u : FileTree) : Prop where
  here : u.here = t'.here
  again : ∀ place, wrote place →
    u.node? place = t.node? place ∧ ∃ text?, t.node? place = some (.file text?)
  kept : ∀ place, ¬ wrote place → u.node? place = t'.node? place
  found : ∀ path ∈ done, ∃ place, t.locate path = .ok place ∧ wrote place

namespace Replays

variable {done : List Path} {wrote made wrote' : Place → Prop} {t₁ : FileTree}

theorem start (t t' : FileTree) : Replays [] Nowhere t t' t' :=
  ⟨rfl, fun _ => False.elim, fun _ _ => rfl, nofun⟩

/-- On the way the tree has the directories that it has in the end. -/
theorem grows (h : Replays done wrote t t' u) (hg : Grows t t') : Grows t u where
  here := h.here.trans hg.here
  dir {place} hd := by
    by_cases hw : wrote place
    · obtain ⟨same, -⟩ := h.again place hw
      exact same.trans hd
    · exact (h.kept place hw).trans (hg.dir hd)

/-- Making directories matters to the first time only. -/
theorem of_makeDirs (h : Replays done wrote t t' u) (hc : Changes made Nowhere t t₁) :
    Replays done wrote t₁ t' u where
  here := h.here
  again place hw := by
    obtain ⟨same, text?, hf⟩ := h.again place hw
    rcases hc.kept place id with e | ⟨none, -⟩
    · rw [e]
      exact ⟨same, text?, hf⟩
    · rw [hf] at none
      cases none
  kept := h.kept
  found path hp := by
    obtain ⟨place, leads, hw⟩ := h.found path hp
    exact ⟨place, hc.grows.locate leads, hw⟩

/-- A file is written where it was, with what it was. -/
theorem put (h : Replays done wrote t t' u) {text? : Option Text} (hp : t.placeToWrite p = .ok q)
    (hc : Changes made wrote' (t.put q (.file text?)) t') :
    u.placeToWrite p = .ok q ∧ Replays (done ++ [p]) (fun place => wrote place ∨ place = q)
      (t.put q (.file text?)) t' (u.put q (.file text?)) := by
  have nonempty := ne_nil_of_placeToWrite hp
  have step := grows_put hp text?
  refine ⟨(h.grows (step.trans hc.grows)).placeToWrite hp ?_, h.here, fun place hw => ?_,
    fun place hw => ?_, fun path hd => ?_⟩
  · by_cases hw : wrote q
    · obtain ⟨same, text?, hf⟩ := h.again q hw
      rw [same, hf]
      nofun
    · obtain ⟨text?, hf⟩ := hc.file (node?_put_self t (.file text?) nonempty)
      rw [h.kept q hw, hf]
      nofun
  · by_cases e : place = q
    · rw [e, node?_put_self u _ nonempty, node?_put_self t _ nonempty]
      exact ⟨rfl, text?, rfl⟩
    · rw [node?_put_ne u _ e, node?_put_ne t _ e]
      exact h.again place (hw.resolve_right e)
  · obtain ⟨hw, e⟩ := not_or.mp hw
    rw [node?_put_ne u _ e]
    exact h.kept place hw
  · rcases List.mem_append.mp hd with hd | hd
    · obtain ⟨place, leads, hw⟩ := h.found path hd
      exact ⟨place, step.locate leads, .inl hw⟩
    · rw [List.mem_singleton.mp hd]
      exact ⟨q, step.locate (locate_of_placeToWrite hp), .inr rfl⟩

/-- **One action** goes the second time as it went the first time. -/
theorem perform (h : Replays done wrote t t' u) (ha : t.perform a = (.ok (), t₁))
    (hc : Changes made wrote' t₁ t') (hs : ∀ path ∈ a.source?, path ∈ done) :
    ∃ wrote₁ u₁, u.perform a = (.ok (), u₁) ∧
      Replays (done ++ a.target?.toList) wrote₁ t₁ t' u₁ := by
  cases a with
  | makeDirs p =>
    obtain ⟨changes, isDir⟩ := changes_makeDirsWithin ha
    have next := h.of_makeDirs changes
    refine ⟨wrote, u, ?_, by rwa [FileAction.target?, Option.toList_none, List.append_nil]⟩
    rcases isDir rfl with text | isDir
    · exact makeDirs_of_text_eq_nil text
    · exact makeDirs_of_isDir ((next.grows hc.grows).isDir isDir)
  | write p text =>
    obtain ⟨q, hp, rfl⟩ := perform_write_eq_ok.mp ha
    obtain ⟨there, next⟩ := h.put hp hc
    exact ⟨_, _, perform_write_eq_ok.mpr ⟨q, there, rfl⟩, next⟩
  | copy source target =>
    obtain ⟨from', to', text?, leads, file, hp, rfl⟩ := perform_copy_eq_ok.mp ha
    obtain ⟨there, next⟩ := h.put hp hc
    -- the file was written before, so it is what it was the first time
    obtain ⟨place, leads', hw⟩ := h.found source (hs source rfl)
    cases leads.symm.trans leads'
    have file' : u.node? from' = some (.file text?) := (h.again from' hw).1.trans file
    have begins : Grows t u := h.grows ((grows_put hp _).trans hc.grows)
    exact ⟨_, _, perform_copy_eq_ok.mpr ⟨from', to', text?, begins.locate leads, file', there, rfl⟩,
      next⟩

/-- **Actions** go the second time as they went the first time. -/
theorem performAll (h : Replays done wrote t t' u)
    (ha : (system.performAll as).run t = (.ok (), t')) (hs : FileAction.Sourced done as) :
    ∃ u', (system.performAll as).run u = (.ok (), u') ∧ u'.here = t'.here ∧
      ∀ place, u'.node? place = t'.node? place := by
  induction as generalizing done wrote t u with
  | nil =>
    cases ha
    refine ⟨u, rfl, h.here, fun place => ?_⟩
    by_cases hw : wrote place
    · exact (h.again place hw).1
    · exact h.kept place hw
  | cons a as ih =>
    rw [performAll_cons] at ha
    rcases hp : t.perform a with ⟨e | _, t₁⟩
    · rw [hp] at ha
      cases ha
    · rw [hp] at ha
      obtain ⟨wrote', changes, -⟩ := changes_performAll ha
      obtain ⟨wrote₁, u₁, again, next⟩ := h.perform hp changes hs.1
      obtain ⟨u', rest, same⟩ := ih next ha hs.2
      refine ⟨u', ?_, same⟩
      rw [performAll_cons, again]
      exact rest

end Replays

/-- **Once more.** Actions that were carried out can be carried out again, and then change nothing,
if no file is copied but one that they wrote before. -/
theorem performAll_again (h : (system.performAll as).run t = (.ok (), t'))
    (hs : FileAction.Sourced [] as) :
    ∃ u, (system.performAll as).run t' = (.ok (), u) ∧ u.here = t'.here ∧
      ∀ place, u.node? place = t'.node? place :=
  (Replays.start t t').performAll h hs

end FileTree

end VectorWrap
