import VectorWrap.Proofs.Implementation.Comments

/-!
# Places of a text without comments

The places of a stripped text are those of the text, comments left out (`mem_walk_stripFrom`), so
no comment begins in it and every literal is closed (`bared_strip`).  In such a text a sweep comes
to every place of the code where a word may begin, unless something that is found goes over it
(`mem_sweep_of_place`).

A place is a region and the text from there on (`walk`); it belongs to the code if its region
does.  What stripping leaves of the text at a place is the stripped text at that place, which is why
places can be compared at all although the text gets shorter.
-/

namespace VectorWrap
open Scan

namespace Line

/-! ### Stripped texts -/

/-- What a place of a comment is when the comment has been taken out. -/
def Region.shown : Region → Region
  | .block _ | .line => .code
  | g => g

/-- Behind a character of the code there is no comment to hide it. -/
theorem shown_afterCode (c : Char) : (afterCode c).shown = afterCode c := by
  unfold afterCode
  split <;> rfl

theorem shown_afterLiteral (q : Char) (escaped : Bool) (c : Char) :
    (afterLiteral q escaped c).shown = afterLiteral q escaped c := by
  unfold afterLiteral
  split <;> rfl

theorem shown_afterBlock (star : Bool) (c : Char) : (afterBlock star c).shown = .code := by
  unfold afterBlock
  split_ifs <;> rfl

theorem not_opensComment_of_ne {c : Char} {s : Text} (h₁ : ∀ r, c = '/' → s = '*' :: r → False)
    (h₂ : ∀ r, c = '/' → s = '/' :: r → False) : ¬ opensComment c s := by
  rintro ⟨rfl, h⟩
  cases s with
  | nil => rcases h with h | h <;> cases h
  | cons d s =>
    rw [List.head?_cons, Option.some.injEq, Option.some.injEq] at h
    rcases h with rfl | rfl
    · exact h₁ _ rfl rfl
    · exact h₂ _ rfl rfl

/-- Where no comment begins, none begins once the rest is stripped. -/
theorem not_opensComment_stripFrom {c : Char} {s : Text} (h : ¬ opensComment c s) :
    ¬ opensComment c (stripFrom (afterCode c) s) := by
  by_cases hc : c = '/'
  · subst hc
    exact not_opensComment_strip h
  · exact fun ho => hc ho.1

/-- **The places of a stripped text are those of the text.** -/
theorem mem_walk_stripFrom {g : Region} {s : Text} {p : Region × Text} :
    p ∈ walk g.shown (stripFrom g s) ↔ ∃ q ∈ walk g s, p = (q.1.shown, stripFrom q.1 q.2) := by
  -- one place more in the text, at the same place of the stripped text
  have skip : ∀ {g g' : Region} {s r : Text}, g.shown = g'.shown →
      stripFrom g s = stripFrom g' r →
      (p ∈ walk g'.shown (stripFrom g' r) ↔
        ∃ q ∈ walk g' r, p = (q.1.shown, stripFrom q.1 q.2)) →
      (p ∈ walk g.shown (stripFrom g s) ↔
        ∃ q ∈ (g, s) :: walk g' r, p = (q.1.shown, stripFrom q.1 q.2)) := by
    intro g g' s r hg hs ih
    rw [List.exists_mem_cons_iff, ← ih, hg, hs]
    exact ⟨.inr, fun h => h.elim (fun h => h ▸ mem_walk _ _) id⟩
  -- one place more in both
  have keep : ∀ {g g' : Region} {s r : Text},
      walk g.shown (stripFrom g s) = (g.shown, stripFrom g s) :: walk g'.shown (stripFrom g' r) →
      (p ∈ walk g'.shown (stripFrom g' r) ↔
        ∃ q ∈ walk g' r, p = (q.1.shown, stripFrom q.1 q.2)) →
      (p ∈ walk g.shown (stripFrom g s) ↔
        ∃ q ∈ (g, s) :: walk g' r, p = (q.1.shown, stripFrom q.1 q.2)) := by
    intro g g' s r hs ih
    rw [hs, List.mem_cons, ih, List.exists_mem_cons_iff]
  fun_induction walk g s with
  | case1 g =>
    rw [stripFrom, walk]
    simp [stripFrom]
  | case2 r ih => exact skip rfl (by rw [stripFrom]) ih
  | case3 r ih => exact skip rfl (by rw [stripFrom]) ih
  | case4 c r h₁ h₂ ih =>
    have ho := not_opensComment_of_ne h₁ h₂
    refine keep ?_ ih
    rw [stripFrom_code ho, shown_afterCode]
    exact walk_code (not_opensComment_stripFrom ho)
  | case5 q escaped c r ih =>
    refine keep ?_ ih
    rw [stripFrom_literal, shown_afterLiteral]
    exact walk_literal q escaped c _
  | case6 star c r ih =>
    by_cases hc : c = '\n'
    · subst hc
      refine keep ?_ ih
      rw [stripFrom_block, if_pos rfl, shown_afterBlock]
      exact walk_code (by rintro ⟨h, -⟩; cases h)
    · refine skip (shown_afterBlock star c).symm ?_ ih
      rw [stripFrom_block, if_neg hc, List.nil_append]
  | case7 c r ih =>
    by_cases hc : c = '\n'
    · subst hc
      refine keep ?_ ih
      rw [stripFrom, if_pos rfl]
      exact walk_code (by rintro ⟨h, -⟩; cases h)
    · refine skip (by rw [if_neg hc]) ?_ ih
      rw [stripFrom, if_neg hc, if_neg hc]

/-- A text in which no comment begins, every literal is closed, and no backslash in a literal
escapes layout. -/
structure Bared (s : Text) : Prop where
  uncommented : ∀ {c r}, (.code, c :: r) ∈ walk .code s → ¬ opensComment c r
  terminated : Terminated s
  escapes : ∀ p ∈ walk .code s, p.1.escapes → p.2.head?.any Text.isLayout = false

/-- A comment is stripped from its opening on. -/
theorem exists_stripFrom_comment {c : Char} {s : Text} (h : opensComment c s) :
    ∃ g r, g.shown = .code ∧ r.length < s.length ∧
      stripFrom .code (c :: s) = stripFrom g r := by
  obtain ⟨rfl, h⟩ := h
  cases s with
  | nil => rcases h with h | h <;> cases h
  | cons d s =>
    rw [List.head?_cons, Option.some.injEq, Option.some.injEq] at h
    rcases h with rfl | rfl
    · exact ⟨.block false, s, rfl, by simp, by rw [stripFrom]⟩
    · exact ⟨.line, s, rfl, by simp, by rw [stripFrom]⟩

/-- In a stripped text no comment begins. -/
theorem not_opensComment_of_stripFrom {g : Region} {s r : Text} {c : Char} (hg : g.shown = .code)
    (h : stripFrom g s = c :: r) : ¬ opensComment c r := by
  induction hk : s.length using Nat.strong_induction_on generalizing g s with
  | _ k ih =>
    -- a line feed of a comment opens no other one
    have feed : ¬ opensComment '\n' r := by
      rintro ⟨e, -⟩
      cases e
    cases s with
    | nil =>
      rw [stripFrom] at h
      cases h
    | cons d s =>
      have onward : ∀ {g' : Region} {z : Text}, g'.shown = .code → z.length ≤ s.length →
          stripFrom g' z = c :: r → ¬ opensComment c r := fun hg' hz h' =>
        ih _ (by rw [← hk, List.length_cons]; omega) hg' h' rfl
      cases g with
      | code =>
        by_cases ho : opensComment d s
        · obtain ⟨g', z, hg', hz, e⟩ := exists_stripFrom_comment ho
          exact onward hg' hz.le (e ▸ h)
        · rw [stripFrom_code ho] at h
          cases h
          exact not_opensComment_stripFrom ho
      | literal => cases hg
      | block star =>
        rw [stripFrom_block] at h
        by_cases hd : d = '\n'
        · subst hd
          cases h
          exact feed
        · rw [if_neg hd, List.nil_append] at h
          exact onward (shown_afterBlock star d) le_rfl h
      | line =>
        rw [stripFrom] at h
        split_ifs at h with hd
        · subst hd
          cases h
          exact feed
        · exact onward rfl le_rfl h

/-- Stripping takes the comments out and leaves the literals as they are. -/
theorem bared_strip {body : Text} (ht : Terminated body) (hc : Clear body) :
    Bared (stripComments body) where
  uncommented {c r} h := by
    obtain ⟨q, -, hq⟩ := mem_walk_stripFrom (g := .code).mp h
    obtain ⟨hg, hs⟩ := Prod.mk.inj hq
    exact not_opensComment_of_stripFrom hg.symm hs.symm
  terminated p hp hnil := by
    obtain ⟨⟨g, z⟩, hq, rfl⟩ := mem_walk_stripFrom (g := .code).mp hp
    cases g with
    | code | block | line => rfl
    | literal q escaped =>
      cases z with
      | nil => exact ht _ hq rfl
      | cons c z =>
        rw [stripFrom_literal] at hnil
        cases hnil
  escapes p hp he := by
    obtain ⟨⟨g, z⟩, hq, rfl⟩ := mem_walk_stripFrom (g := .code).mp hp
    cases g with
    | code | block | line => cases he
    | literal q escaped =>
      have := hc.escapes _ hq he
      cases z with
      | nil => rfl
      | cons c z =>
        rw [stripFrom_literal]
        exact this

/-- A place of the code is one of the stripped text. -/
theorem code_strip {body z : Text} (h : (.code, z) ∈ walk .code body) :
    (.code, stripComments z) ∈ walk .code (stripComments body) :=
  mem_walk_stripFrom (g := .code).mpr ⟨_, h, rfl⟩

/-! ### Places of the code -/

variable {s : Text}

/-- Of two places of the code the one behind is reached from the other. -/
theorem code_of_suffix {x y : Text} (hx : (.code, x) ∈ walk .code s)
    (hy : (.code, y) ∈ walk .code s) (h : x <:+ y) : (.code, x) ∈ walk .code y := by
  rcases walk_total hy hx with h' | h'
  · exact h'
  · have e := (suffix_of_mem_walk h').1.eq_of_length_le h.length_le
    rw [e]
    exact mem_walk _ _

/-- Code goes on until a literal begins. -/
theorem code_append (hs : Bared s) {w t : Text} (hw : ∀ c ∈ w, isQuote c = false)
    (h : (.code, w ++ t) ∈ walk .code s) : (.code, t) ∈ walk .code s := by
  induction w with
  | nil => exact h
  | cons c w ih =>
    obtain ⟨hc, hw⟩ := List.forall_mem_cons.mp hw
    exact ih hw (walk_subset h (kept hc (hs.uncommented h)).2)

/-- The code behind a literal begins where the literal ends for the scans. -/
theorem code_of_closeQuote {q : Char} {escaped : Bool} {t r x : Text}
    (hesc : ∀ p ∈ walk (.literal q escaped) t, p.1.escapes →
      p.2.head?.any Text.isLayout = false)
    (h : closeQuote? .free q escaped t = some r) (hx : (.code, x) ∈ walk (.literal q escaped) t) :
    (.code, x) ∈ walk .code r := by
  induction t generalizing escaped with
  | nil => cases escaped <;> cases h
  | cons c t ih =>
    rw [walk_literal] at hx hesc
    replace hx := (List.mem_cons.mp hx).resolve_left (by simp)
    have behind : ∀ p ∈ walk (afterLiteral q escaped c) t, p.1.escapes →
        p.2.head?.any Text.isLayout = false := fun p hp => hesc p (List.mem_cons_of_mem _ hp)
    cases escaped with
    | true =>
      have hc : Text.isLayout c = false := by simpa using hesc _ List.mem_cons_self rfl
      have ha : afterLiteral q true c = .literal q false := by simp [afterLiteral]
      rw [ha] at hx behind
      exact ih behind (by simpa [closeQuote?, hc] using h) hx
    | false =>
      rw [closeQuote?] at h
      split_ifs at h with hq
      · cases h
        have ha : afterLiteral q false c = .code := by simp [afterLiteral, hq]
        rwa [ha] at hx
      · have ha : afterLiteral q false c = .literal q (c == '\\') := by simp [afterLiteral, hq]
        rw [ha] at hx behind
        exact ih behind h hx

/-- Every place of a text without comments has a region. -/
theorem exists_region (hs : Bared s) {z : Text} (hz : z <:+ s) :
    ∃ g, g.isComment = false ∧ (g, z) ∈ walk .code s := by
  have reach : ∀ (g : Region) (y : Text), g.isComment = false → (g, y) ∈ walk .code s → z <:+ y →
      ∃ g', g'.isComment = false ∧ (g', z) ∈ walk .code s := by
    intro g y
    induction y generalizing g with
    | nil =>
      intro hg hy hz
      rw [List.suffix_nil.mp hz]
      exact ⟨g, hg, hy⟩
    | cons c y ih =>
      intro hg hy hz
      rcases List.suffix_cons_iff.mp hz with rfl | hz
      · exact ⟨g, hg, hy⟩
      · obtain ⟨g', hg', hw, -⟩ := step_text hg
          fun ⟨e, ho⟩ => (hs.uncommented (e ▸ hy)) ho
        refine ih g' hg' (walk_subset hy ?_) hz
        rw [hw]
        exact List.mem_cons_of_mem _ (mem_walk _ _)
  exact reach .code s rfl (mem_walk _ _) hz

/-! ### Sweeping to a place -/

/-- No word of `s` goes over the place `x`. -/
def Begins (s x : Text) : Prop :=
  ∃ before, s = before ++ x ∧ ∀ c, before.getLast? = some c → Text.inName c = false

end Line

namespace Scan
open Line

variable {α : Type} {item : Scan α}

/-- A sweep goes on from `z` at a later place of the code, and that place is not behind `x`. -/
def GoesOn (item : Scan α) (s z x : Text) : Prop :=
  ∃ y : Text, y.length < z.length ∧ (.code, y) ∈ walk .code s ∧ x <:+ y ∧
    sweep item codeGap z = sweep item codeGap y

section GoesOn

variable {s x t : Text} {c : Char}

/-- One character of the code is passed over. -/
theorem goesOn_one (hs : Bared s) (hz : (.code, c :: t) ∈ walk .code s) (hq : isQuote c = false)
    (hxt : x <:+ t) (e : sweep item codeGap (c :: t) = sweep item codeGap t) :
    GoesOn item s (c :: t) x :=
  ⟨t, by simp, code_append hs (w := [c]) (by simpa using hq) hz, hxt, e⟩

/-- The code behind a literal begins where it is closed. -/
theorem goesOn_literal (hs : Bared s) (hz : (.code, c :: t) ∈ walk .code s)
    (hx : (.code, x) ∈ walk .code s) (hxt : x <:+ t) (hlay : Text.isLayout c = false)
    (hq : isQuote c = true) (e : item (c :: t) = none) : GoesOn item s (c :: t) x := by
  have ha : afterCode c = .literal c false := if_pos (by simpa [isQuote] using hq)
  have hwalk := walk_code (hs.uncommented hz)
  rw [ha] at hwalk
  have behind : walk (.literal c false) t ⊆ walk .code (c :: t) := by
    rw [hwalk]
    exact List.subset_cons_self _ _
  have hesc : ∀ p ∈ walk (.literal c false) t, p.1.escapes →
      p.2.head?.any Text.isLayout = false := fun p hp =>
    hs.escapes p (walk_subset hz (behind hp))
  obtain ⟨w, y, rfl, -, hy, -, hclose⟩ := literal_parts
    (fun p hp => hs.terminated p (walk_subset hz (behind hp))) hesc
  have hxl : (.code, x) ∈ walk (.literal c false) (w ++ y) := by
    have reached := code_of_suffix hx hz (hxt.trans (List.suffix_cons c _))
    rw [hwalk] at reached
    refine (List.mem_cons.mp reached).resolve_left fun same => ?_
    have := hxt.length_le
    rw [(Prod.mk.inj same).2, List.length_cons] at this
    omega
  have shorter := Text.length_lt_cons_append c w y
  exact ⟨y, shorter, walk_subset hz (behind hy),
    (suffix_of_mem_walk (code_of_closeQuote hesc (hclose y) hxl)).1,
    sweep_gap hlay e (codeGap_literal hq (hclose y)) shorter⟩

/-- A place where a word may begin is not inside another word. -/
theorem suffix_dropWhile_of_begins {z : Text} (hw : Begins s x) (hz : z <:+ s) (hxz : x <:+ z)
    (hne : x ≠ z) : x <:+ z.dropWhile Text.inName := by
  have parts := List.takeWhile_append_dropWhile (p := Text.inName) (l := z)
  refine (List.suffix_or_suffix_of_suffix hxz (List.dropWhile_suffix _)).elim id ?_
  rintro ⟨v, rfl⟩
  obtain ⟨u, hu⟩ := hxz
  rw [← List.append_assoc] at hu
  have word := List.append_cancel_right (hu.trans parts.symm)
  obtain ⟨before, hbefore, hend⟩ := hw
  obtain ⟨p, rfl⟩ := hz
  have hu0 : u ≠ [] := by
    rintro rfl
    exact hne (by rwa [List.nil_append] at hu)
  have hp : before = p ++ u := by
    refine List.append_cancel_right (hbefore.symm.trans ?_)
    conv_lhs => rw [← hu]
    simp only [List.append_assoc]
  -- the character before the place is one of the word
  rw [hp, List.getLast?_append_of_ne_nil _ hu0] at hend
  have last := hend _ (List.getLast?_eq_getLast_of_ne_nil hu0)
  have inside : u.getLast hu0 ∈ z.takeWhile Text.inName :=
    word ▸ List.mem_append_left v (List.getLast_mem hu0)
  rw [List.mem_takeWhile_imp inside] at last
  cases last

/-- A word is passed over as a whole. -/
theorem goesOn_word (hs : Bared s) (hz : (.code, c :: t) ∈ walk .code s) (hw : Begins s x)
    (hxt : x <:+ t) (hlay : Text.isLayout c = false) (hq : isQuote c = false)
    (hn : Text.startsName c = true) (e : item (c :: t) = none) : GoesOn item s (c :: t) x := by
  have shorter : ((c :: t).dropWhile Text.inName).length < (c :: t).length := by
    rw [List.dropWhile_cons_of_pos (Text.inName_of_startsName hn)]
    exact Nat.lt_succ_of_le (Text.length_dropWhile_le _ _)
  have hplace : (.code, (c :: t).dropWhile Text.inName) ∈ walk .code s := by
    refine code_append hs (w := (c :: t).takeWhile Text.inName) (fun d hd => ?_)
      (by rwa [List.takeWhile_append_dropWhile])
    exact isQuote_of_inName (List.mem_takeWhile_imp hd)
  have hne : x ≠ c :: t := by
    rintro rfl
    have := hxt.length_le
    simp at this
  exact ⟨_, shorter, hplace,
    suffix_dropWhile_of_begins hw (suffix_of_mem_walk hz).1 (hxt.trans (List.suffix_cons c t)) hne,
    sweep_gap hlay e (codeGap_name hq (hs.uncommented hz) hn) shorter⟩

/-- Where nothing is found a sweep goes on. -/
theorem goesOn_of_none (hs : Bared s) (hz : (.code, c :: t) ∈ walk .code s)
    (hx : (.code, x) ∈ walk .code s) (hw : Begins s x) (hxt : x <:+ t)
    (hlay : Text.isLayout c = false) (e : item (c :: t) = none) : GoesOn item s (c :: t) x := by
  cases hq : isQuote c with
  | true => exact goesOn_literal hs hz hx hxt hlay hq e
  | false =>
    cases hn : Text.startsName c with
    | true => exact goesOn_word hs hz hw hxt hlay hq hn e
    | false =>
      exact goesOn_one hs hz hq hxt (sweep_char hlay e (codeGap_eq_none hq (hs.uncommented hz) hn))

end GoesOn

/-- **A sweep comes to every place of the code where a word may begin**, unless something that is
found goes over it. -/
theorem mem_sweep_of_place (hcl : Closed item) {s x r : Text} {a : α} (hs : Bared s)
    (hrest : ∀ f ∈ sweep item codeGap s, (.code, f.rest) ∈ walk .code s)
    (hover : ∀ f ∈ sweep item codeGap s, x.length < f.here.length → x.length ≤ f.rest.length)
    (hx : (.code, x) ∈ walk .code s) (hw : Begins s x)
    (hl : ∀ c, x.head? = some c → Text.isLayout c = false) (hi : item x = some (a, r)) :
    ⟨a, x, r⟩ ∈ sweep item codeGap s := by
  have xs : x <:+ s := (suffix_of_mem_walk hx).1
  have shrinks := hcl.shrinks hi
  -- from a place before `x` the sweep comes to a later one that is not behind `x`
  have reach : ∀ z : Text, (.code, z) ∈ walk .code s → x <:+ z →
      sweep item codeGap z ⊆ sweep item codeGap s → ⟨a, x, r⟩ ∈ sweep item codeGap s := by
    intro z
    induction hk : z.length using Nat.strong_induction_on generalizing z with
    | _ k ih =>
      intro hz hxz hsub
      have onward : GoesOn item s z x → ⟨a, x, r⟩ ∈ sweep item codeGap s :=
        fun ⟨y, hy, hp, hxy, e⟩ => ih y.length (hk ▸ hy) y rfl hp hxy (e ▸ hsub)
      cases z with
      | nil =>
        rw [List.suffix_nil.mp hxz] at shrinks
        cases shrinks
      | cons c t =>
        rcases List.suffix_cons_iff.mp hxz with rfl | hxt
        · refine hsub ?_
          rw [sweep_item (hl c rfl) hi shrinks]
          exact List.mem_cons_self
        cases hlay : Text.isLayout c with
        | true =>
          exact onward (goesOn_one hs hz (isQuote_of_isLayout hlay) hxt (sweep_layout hlay t))
        | false =>
          cases e : item (c :: t) with
          | none => exact onward (goesOn_of_none hs hz hx hw hxt hlay e)
          | some found =>
            obtain ⟨b, y⟩ := found
            have hy := hcl.shrinks e
            have hsweep : sweep item codeGap (c :: t) = ⟨b, c :: t, y⟩ :: sweep item codeGap y :=
              sweep_item hlay e hy
            have hf : (⟨b, c :: t, y⟩ : Found α) ∈ sweep item codeGap s :=
              hsub (hsweep ▸ List.mem_cons_self)
            have ys : y <:+ s := (hcl.suffix e).trans (suffix_of_mem_walk hz).1
            have before := hover _ hf (Nat.lt_succ_of_le hxt.length_le)
            refine ih y.length (hk ▸ hy) y rfl (hrest _ hf)
              (List.suffix_of_suffix_length_le xs ys before) ?_
            exact fun f hm => hsub (hsweep ▸ List.mem_cons_of_mem _ hm)
  exact reach s (mem_walk _ _) xs (List.Subset.refl _)

/-- What a sweep finds in a text begins there. -/
theorem length_here_le {item : Scan α} {gap : Scan Unit} {s : Text} {f : Found α}
    (h : f ∈ sweep item gap s) : f.here.length ≤ s.length := by
  fun_induction sweep item gap s with
  | case1 => cases h
  | case2 s c r e a rest hr hp ih =>
    have hs := Text.length_dropWhile_le Text.isLayout s
    rw [e] at hs
    rcases List.mem_cons.mp h with rfl | h
    · exact hs
    · exact (ih h).trans (hr.le.trans hs)
  | case3 s c r e _ _ rest hr _ ih =>
    have hs := Text.length_dropWhile_le Text.isLayout s
    rw [e] at hs
    exact (ih h).trans (hr.le.trans hs)
  | case4 s c r e _ _ ih =>
    have hs := Text.length_dropWhile_le Text.isLayout s
    rw [e, List.length_cons] at hs
    exact (ih h).trans (by omega)

/-- What a sweep finds begins behind layout. -/
theorem isLayout_of_mem_sweep {item : Scan α} {gap : Scan Unit} {s : Text} {f : Found α}
    (h : f ∈ sweep item gap s) {c : Char} (hc : f.here.head? = some c) :
    Text.isLayout c = false := by
  fun_induction sweep item gap s with
  | case1 => cases h
  | case2 s d r e a rest hr hp ih =>
    rcases List.mem_cons.mp h with rfl | h
    · cases hc
      have := List.head?_dropWhile_not Text.isLayout s
      rw [e] at this
      simpa using this
    · exact ih h
  | case3 _ _ _ _ _ _ _ _ _ ih => exact ih h
  | case4 _ _ _ _ _ _ ih => exact ih h

/-- Of two things that a sweep finds one ends before the other begins. -/
theorem apart_of_mem_sweep {item : Scan α} {gap : Scan Unit} {s : Text} {f g : Found α}
    (hf : f ∈ sweep item gap s) (hg : g ∈ sweep item gap s) (hne : f ≠ g) :
    f.here.length ≤ g.rest.length ∨ g.here.length ≤ f.rest.length := by
  fun_induction sweep item gap s with
  | case1 => cases hf
  | case2 _ _ _ _ _ _ _ _ ih =>
    rcases List.mem_cons.mp hf with rfl | hf <;> rcases List.mem_cons.mp hg with rfl | hg
    · exact absurd rfl hne
    · exact .inr (length_here_le hg)
    · exact .inl (length_here_le hf)
    · exact ih hf hg
  | case3 _ _ _ _ _ _ _ _ _ ih => exact ih hf hg
  | case4 _ _ _ _ _ _ ih => exact ih hf hg

end Scan

end VectorWrap
