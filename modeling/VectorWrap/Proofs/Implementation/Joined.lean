import VectorWrap.Proofs.Implementation.Rows
import VectorWrap.Proofs.Scan.Blind

/-!
# Where a logical line stands

A logical line is put together from trimmed lines, so it need not occur in the body as it is.  In a
body whose blanks are all layout it does but for the amount of layout: some part of the body
collapses to the same text (`stands_of_mem_joinFrom`).  A binding of a row is read at the place of
the body where it stands there, for assignments are read however their text is broken
(`exists_place_of_isRow`).

The invariant of the joining is `Pending`: what has been joined so far stands in the body, but for
the amount of layout, right before the lines that are still to come.  A line is appended to it with
the line feed that was between (`Pending.line`), and a blank line is passed (`Pending.blank`).
-/

namespace VectorWrap.Line
open Scan Text

/-! ### The parts of a body that lines are made from -/

/-- No literal goes over the end of a line. -/
def EndsInCode (s : Text) : Prop :=
  ∀ p ∈ walk .code s, p.2.head? = some '\n' → p.1.shown = .code

/-- No blank is anything but layout. -/
def PlainBlanks (s : Text) : Prop :=
  ∀ c ∈ s, isBlank c = true → isLayout c = true

instance {s : Text} : Decidable (EndsInCode s) :=
  inferInstanceAs (Decidable (∀ p ∈ walk .code s, _))

instance {s : Text} : Decidable (PlainBlanks s) :=
  decidable_of_iff (s.all (fun c => !isBlank c || isLayout c) = true) <| by
    simp [PlainBlanks, Decidable.imp_iff_not_or]

/-- The line `l` stands in `s` before `rest`, but for the amount of layout. -/
def StandsBefore (s l rest : Text) : Prop :=
  ∃ before part, s = before ++ (part ++ rest) ∧ collapse part = collapse l ∧
    (.code, part ++ rest) ∈ walk .code s ∧ ∀ c, before.getLast? = some c → inName c = false

/-- What has been joined of a line is nothing yet, or stands before layout. -/
def Pending (s l rest : Text) : Prop :=
  l = [] ∧ (∃ before, s = before ++ rest ∧ ∀ c, before.getLast? = some c → inName c = false) ∨
    l ≠ [] ∧ ∃ gap, gap ≠ [] ∧ (∀ c ∈ gap, isLayout c = true) ∧ StandsBefore s l (gap ++ rest)

variable {s : Text}

/-- Layout goes on. -/
theorem Pending.append {l g rest : Text} (h : Pending s l (g ++ rest))
    (hg : ∀ c ∈ g, isLayout c = true) : Pending s l rest := by
  rcases h with ⟨hl, before, e, hend⟩ | ⟨hl, gap, hne, hgap, hstands⟩
  · refine .inl ⟨hl, before ++ g, by rw [List.append_assoc, e], fun c hc => ?_⟩
    by_cases hg0 : g = []
    · subst hg0
      exact hend c (by simpa using hc)
    · rw [List.getLast?_append_of_ne_nil _ hg0] at hc
      exact inName_of_isLayout (hg c (List.mem_of_getLast? hc))
  · refine .inr ⟨hl, gap ++ g, by simp [hne], fun c hc => ?_, by rwa [List.append_assoc]⟩
    exact (List.mem_append.mp hc).elim (hgap c) (hg c)

/-- A trimmed line is joined to what is pending. -/
theorem Pending.join {l t rest : Text} {c : Char} (h : Pending s l (c :: t ++ rest))
    (hplace : (.code, c :: t ++ rest) ∈ walk .code s) (hc : isLayout c = false) :
    StandsBefore s (if l.isEmpty then c :: t else l ++ ' ' :: c :: t) rest := by
  rcases h with ⟨rfl, before, e, hend⟩ | ⟨hl, gap, hne, hgap, before, part, e, hpart, hcode, hend⟩
  · exact ⟨before, c :: t, e, rfl, hplace, hend⟩
  · refine ⟨before, part ++ gap ++ c :: t, by simp [e], ?_, by simpa using hcode, hend⟩
    rw [if_neg (by simp [hl])]
    calc collapse (part ++ gap ++ c :: t)
        = collapse (part ++ gap) ++ c :: collapse t := collapse_append_cons hc _ _
      _ = collapse (collapse part ++ [' ']) ++ c :: collapse t := by
        rw [collapse_append_layout hgap hne, collapse_append]
      _ = collapse (l ++ [' ']) ++ c :: collapse t := by rw [hpart, collapse_append]
      _ = collapse (l ++ ' ' :: c :: t) := by
        rw [← collapse_append_cons hc]
        simp

/-! ### Joining -/

/-- A stripped body ends in the code if the body does. -/
theorem endsInCode_strip {body : Text} (h : EndsInCode body) :
    EndsInCode (stripComments body) := by
  intro p hp hhead
  obtain ⟨⟨g, z⟩, hq, rfl⟩ := mem_walk_stripFrom (g := .code).mp hp
  cases g with
  | code | block | line => rfl
  | literal q escaped =>
    refine absurd (h _ hq ?_) nofun
    cases z with
    | nil => cases hhead
    | cons c z =>
      rw [stripFrom_literal] at hhead
      exact hhead

/-- The code of the next line begins behind a line feed. -/
theorem code_of_lineFeed (hs : Bared s) (hn : EndsInCode s) {before rest : Text}
    (h : s = before ++ '\n' :: rest) : (.code, rest) ∈ walk .code s := by
  obtain ⟨g, hg, hplace⟩ := exists_region hs (h ▸ List.suffix_append _ _)
  have shown := hn _ hplace rfl
  cases g with
  | code => exact code_append hs (w := ['\n']) (by simp [isQuote]) hplace
  | literal => cases shown
  | block | line => cases hg

/-- The lines of a text that are joined. -/
def physical (s : Text) : List Text :=
  ((splitBy (· == '\n') s).map trim).filter (!·.isEmpty)

/-- The lines of a body are those up to a line feed and those behind it. -/
theorem physical_append {p : Text} (hp : ∀ c ∈ p, (c == '\n') = false) (rest : Text) :
    physical (p ++ '\n' :: rest) = physical p ++ physical rest := by
  rw [physical, splitBy_append hp rfl, physical, splitBy_of_none hp, physical,
    ← List.singleton_append, List.map_append, List.filter_append]

/-- A text without a line feed is one line, or none if it is blank. -/
theorem physical_line {p : Text} (hp : ∀ c ∈ p, (c == '\n') = false) :
    physical p = if (trim p).isEmpty then [] else [trim p] := by
  rw [physical, splitBy_of_none hp, List.map_singleton, List.filter_singleton]
  cases (trim p).isEmpty <;> rfl

/-- A text is one line, or a line feed follows its first line. -/
theorem exists_line (s : Text) : ∃ p : Text, (∀ c ∈ p, (c == '\n') = false) ∧
    (s = p ∨ ∃ rest, s = p ++ '\n' :: rest) := by
  obtain ⟨p, hp, h⟩ := exists_run_of (!· == '\n') s
  refine ⟨p, fun c hc => by simpa using hp c hc, h.imp_right ?_⟩
  rintro ⟨c, rest, rfl, hc⟩
  have feed : c = '\n' := by simpa using hc
  exact ⟨rest, by rw [feed]⟩

/-- A line of blanks leaves what is pending. -/
theorem Pending.blank (hb : PlainBlanks s) {l p rest : Text} (h : Pending s l (p ++ rest))
    (hs : p ++ rest <:+ s) (hp : trim p = []) : Pending s l rest := by
  obtain ⟨a, b, hab, ha, hb'⟩ := exists_trim p
  refine h.append fun c hc => hb c (hs.subset (List.mem_append_left _ hc)) ?_
  rw [hab, hp, List.append_nil] at hc
  exact (List.mem_append.mp hc).elim (ha c) (hb' c)

/-- Any other line is joined, and stands before layout. -/
theorem Pending.line (hs : Bared s) (hb : PlainBlanks s) {l p rest : Text}
    (h : Pending s l (p ++ rest)) (hplace : (.code, p ++ rest) ∈ walk .code s)
    (hp : trim p ≠ []) : ∃ gap, (∀ c ∈ gap, isLayout c = true) ∧
      StandsBefore s (if l.isEmpty then trim p else l ++ ' ' :: trim p) (gap ++ rest) := by
  obtain ⟨a, b, hab, ha, hb'⟩ := exists_trim p
  have layout : ∀ c ∈ p, isBlank c = true → isLayout c = true := fun c hc =>
    hb c ((suffix_of_mem_walk hplace).1.subset (List.mem_append_left _ hc))
  have hal : ∀ c ∈ a, isLayout c = true := fun c hc =>
    layout c (by rw [hab]; exact List.mem_append_left _ (List.mem_append_left _ hc)) (ha c hc)
  refine ⟨b, fun c hc => layout c (by rw [hab]; exact List.mem_append_right _ hc) (hb' c hc), ?_⟩
  obtain ⟨c, t, ht⟩ := List.exists_cons_of_ne_nil hp
  have hc : isLayout c = false := by
    rw [Bool.eq_false_iff]
    intro hc
    have := (trimmed_trim p).head c (by rw [ht]; rfl)
    rw [isBlank_of_isLayout hc] at this
    cases this
  have whole : p ++ rest = a ++ (c :: t ++ (b ++ rest)) := by
    conv_lhs => rw [hab, ht]
    simp only [List.append_assoc]
  rw [whole] at h hplace
  rw [ht]
  exact (h.append hal).join (code_append hs (fun d hd => isQuote_of_isLayout (hal d hd)) hplace) hc

/-- What stands before a line feed is pending behind it. -/
theorem StandsBefore.pending {l gap rest : Text} (h : StandsBefore s l (gap ++ '\n' :: rest))
    (hl : l ≠ []) (hgap : ∀ c ∈ gap, isLayout c = true) : Pending s l rest := by
  refine .inr ⟨hl, gap ++ ['\n'], by simp, fun c hc => ?_, by simpa using h⟩
  rcases List.mem_append.mp hc with hc | hc
  · exact hgap c hc
  · rw [List.mem_singleton.mp hc]
    rfl

/-- Behind a line feed nothing may be pending. -/
theorem pending_nil {before rest : Text} (h : s = before ++ '\n' :: rest) : Pending s [] rest := by
  refine .inl ⟨rfl, before ++ ['\n'], by simp [h], fun c hc => ?_⟩
  rw [List.getLast?_concat] at hc
  cases hc
  rfl

/-- A line that is joined to others is not empty. -/
theorem joined_ne_nil {l t : Text} (ht : t ≠ []) :
    (if l.isEmpty then t else l ++ ' ' :: t) ≠ [] := by
  split_ifs
  · exact ht
  · simp

/-- The last of the lines ends what is joined. -/
theorem joinFrom_singleton {l t : Text} (ht : t ≠ []) (depth : Int) :
    joinFrom l depth [t] = [if l.isEmpty then t else l ++ ' ' :: t] := by
  have hj := joined_ne_nil (l := l) ht
  rw [joinFrom]
  generalize (if l.isEmpty then t else l ++ ' ' :: t) = joined at hj ⊢
  split_ifs
  · rfl
  · rw [joinFrom, if_neg (by simpa using hj)]

/-- At the end of the lines what is pending is a line. -/
theorem Pending.stands {l line : Text} {depth : Int} (hl : Pending s l [])
    (h : line ∈ joinFrom l depth []) : ∃ after, StandsBefore s line after := by
  rw [joinFrom] at h
  rcases hl with ⟨rfl, -⟩ | ⟨hl, gap, -, -, hstands⟩
  · cases h
  · rw [if_neg (by simpa using hl), List.mem_singleton] at h
    exact ⟨_, h ▸ hstands⟩

/-- **What is joined stands in the text.** -/
theorem stands_of_mem_joinFrom (hs : Bared s) (hn : EndsInCode s) (hb : PlainBlanks s)
    {rest l line : Text} {depth : Int} (hplace : (.code, rest) ∈ walk .code s)
    (hl : Pending s l rest) (h : line ∈ joinFrom l depth (physical rest)) :
    ∃ after, StandsBefore s line after := by
  -- line by line: what is joined up to a line stands before the layout behind it
  induction hk : rest.length using Nat.strong_induction_on generalizing rest l depth with
  | _ k ih =>
    have rs : rest <:+ s := (suffix_of_mem_walk hplace).1
    obtain ⟨p, hp, hrest | ⟨r, rfl⟩⟩ := exists_line rest
    · rw [hrest, physical_line hp] at h
      rw [hrest, ← List.append_nil p] at hl hplace rs
      by_cases ht : trim p = []
      · rw [ht] at h
        exact (hl.blank hb rs ht).stands h
      · obtain ⟨gap, -, standing⟩ := hl.line hs hb hplace ht
        rw [if_neg (by simpa using ht), joinFrom_singleton ht, List.mem_singleton] at h
        exact ⟨_, h ▸ standing⟩
    · obtain ⟨x, hx⟩ := rs
      have split : s = (x ++ p) ++ '\n' :: r := by rw [← hx, List.append_assoc]
      have hr := code_of_lineFeed hs hn split
      have shorter : r.length < k := by
        rw [← hk, List.length_append, List.length_cons]
        omega
      rw [physical_append hp, physical_line hp] at h
      by_cases ht : trim p = []
      · rw [ht] at h
        have behind := (hl.blank hb ⟨x, hx⟩ ht).append (g := ['\n']) (by simp [isLayout])
        exact ih r.length shorter hr behind h rfl
      · obtain ⟨gap, hgap, standing⟩ := hl.line hs hb hplace ht
        rw [if_neg (by simpa using ht), List.singleton_append, joinFrom] at h
        split at h
        · rcases List.mem_cons.mp h with rfl | h
          · exact ⟨_, standing⟩
          · exact ih r.length shorter hr (pending_nil split) h rfl
        · exact ih r.length shorter hr (standing.pending (joined_ne_nil ht) hgap) h rfl

/-- **A logical line stands in the body.** -/
theorem stands_of_mem_logical {body line : Text} (hs : Bared (stripComments body))
    (hn : EndsInCode body) (hb : PlainBlanks body) (h : line ∈ logical body) :
    ∃ after, StandsBefore (stripComments body) line after := by
  refine stands_of_mem_joinFrom hs (endsInCode_strip hn)
    (fun c hc => hb c (stripFrom_subset _ _ hc)) (mem_walk _ _) (.inl ⟨rfl, [], rfl, ?_⟩) h
  simp

/-! ### Rows in the body -/

/-- The braces at the beginning of a text. -/
def lead (s : Text) : Text :=
  s.takeWhile isBrace

/-- The braces at the end of a text, if it is not all braces. -/
def trail (s : Text) : Text :=
  ((s.dropWhile isBrace).reverse.takeWhile isBrace).reverse

theorem lead_append_trail (s : Text) : lead s ++ (trimBy isBrace s ++ trail s) = s := by
  rw [lead, trail, trimBy, ← List.reverse_append, List.takeWhile_append_dropWhile,
    List.reverse_reverse, List.takeWhile_append_dropWhile]

theorem isBrace_of_mem_lead {s : Text} : ∀ c ∈ lead s, isBrace c = true :=
  fun _ hc => List.mem_takeWhile_imp hc

theorem isBrace_of_mem_trail {s : Text} : ∀ c ∈ trail s, isBrace c = true :=
  fun _ hc => List.mem_takeWhile_imp (List.mem_reverse.mp hc)

/-- A line is braces and blanks around the line without the braces at its ends. -/
theorem exists_unbrace (line : Text) : ∃ a z, line = a ++ (unbrace line ++ z) ∧
    ∀ c ∈ a, isBrace c = true ∨ isBlank c = true := by
  obtain ⟨x, y, hxy, hx, -⟩ := Text.exists_trim (trimBy isBrace line)
  refine ⟨lead line ++ x, y ++ trail line, ?_, fun c hc => ?_⟩
  · conv_lhs => rw [← lead_append_trail line, hxy]
    simp [unbrace]
  · exact (List.mem_append.mp hc).imp (isBrace_of_mem_lead c) (hx c)

/-- What is dropped at the ends of a line is no part of a word. -/
theorem inName_of_edge {c : Char} (h : isBrace c = true ∨ isBlank c = true) :
    inName c = false := by
  rcases h with h | h
  · simp only [isBrace, Bool.or_eq_true, beq_iff_eq] at h
    rcases h with rfl | rfl <;> decide
  · rw [Bool.eq_false_iff]
    intro hn
    rw [isBlank_of_inName hn] at h
    cases h

theorem isQuote_of_edge {c : Char} (h : isBrace c = true ∨ isBlank c = true) :
    isQuote c = false :=
  isQuote_of_class (fun c => isBrace c || isBlank c) (by decide) (by decide) (by simpa using h)

/-- An assignment is read up to its parenthesis, with other layout as well. -/
theorem assignment_of_collapse {c : Char} {w w' t : Text} {b : ArgSlot.Binding}
    (hc : isLayout c = false) (h : ArgSlot.assignment (c :: (w ++ ')' :: t)) = some (b, t))
    (hw : collapse w' = collapse w) (u : Text) :
    ArgSlot.assignment (c :: (w' ++ ')' :: u)) = some (b, u) := by
  have alone : ArgSlot.assignment (c :: (w ++ [')'])) = some (b, []) := by
    have := ArgSlot.closed_assignment.append (y := c :: (w ++ [')'])) (t := t) (r := []) (u := [])
      (by simpa using h)
    simpa using this
  have same : collapse (c :: (w' ++ [')'])) = collapse (c :: (w ++ [')'])) := by
    rw [collapse_cons hc, collapse_cons hc, collapse_append_cons (by decide),
      collapse_append_cons (by decide), hw]
  have read : ArgSlot.assignment (c :: (w' ++ [')'])) = some (b, []) := by
    have blind := ArgSlot.blind_assignment (c :: (w ++ [')']))
    rw [alone, ← same, ArgSlot.blind_assignment] at blind
    obtain ⟨⟨b', r⟩, h', e⟩ := Option.map_eq_some_iff.mp blind
    obtain ⟨rfl, hr⟩ := Prod.mk.inj e
    have none_left : r = [] := collapse_eq_nil.mp hr
    rw [h', none_left]
  have := ArgSlot.closed_assignment.append (y := c :: (w' ++ [')'])) (t := []) (r := []) (u := u)
    (by simpa using read)
  simpa using this

/-- A text that does not end inside a word does so with no other layout. -/
theorem inName_of_collapse {u u' : Text} (h : collapse u' = collapse u)
    (hu : ∀ c, u.getLast? = some c → inName c = false) :
    ∀ c, u'.getLast? = some c → inName c = false := by
  intro c hc
  cases hl : isLayout c with
  | true => exact inName_of_isLayout hl
  | false => exact hu c (getLast?_of_collapse hl h hc)

/-- **A binding of a row is read where the row stands.** -/
theorem exists_place_of_isRow (hs : Bared s) {line after : Text} {bs : List ArgSlot.Binding}
    (hl : StandsBefore s line after) (hr : ArgSlot.IsRow (unbrace line) bs)
    {b : ArgSlot.Binding} (hb : b ∈ bs) : ∃ x r, (.code, x) ∈ walk .code s ∧ Begins s x ∧
      ArgSlot.StartsName x ∧ ArgSlot.assignment x = some (b, r) := by
  obtain ⟨u, x₀, r₀, hu, ⟨c, x₁, rfl, hc⟩, hend, hread⟩ := hr.exists_start hb
  obtain ⟨z, hz⟩ := ArgSlot.exists_paren hread
  obtain ⟨a, y, hline, ha⟩ := exists_unbrace line
  obtain ⟨before, part, hs', hpart, hcode, hbefore⟩ := hl
  have hcl : isLayout c = false := isLayout_of_startsName hc
  -- the assignment as it is written in the line, from its variable to its parenthesis
  obtain ⟨w, hw⟩ : ∃ w, c :: x₁ = c :: (w ++ ')' :: r₀) := by
    cases z with
    | nil =>
      cases hz
      cases hc
    | cons d z =>
      rw [List.cons_append] at hz
      obtain ⟨rfl, hz⟩ := List.cons_eq_cons.mp hz
      exact ⟨z, by rw [hz]⟩
  rw [hw] at hread hu
  -- the same in the body, with other layout
  have hfront : ∀ d ∈ a ++ u, isQuote d = false := fun d hd =>
    (List.mem_append.mp hd).elim (fun hd => isQuote_of_edge (ha d hd)) fun hd =>
      by simpa using List.any_eq_false.mp hr.quoteless d (hu ▸ List.mem_append_left _ hd)
  have collapsed : collapse part =
      collapse (a ++ u) ++ c :: (collapse w ++ ')' :: collapse (r₀ ++ y)) := by
    rw [hpart, hline, hu, ← collapse_append_cons (by decide), ← collapse_append_cons hcl]
    simp
  obtain ⟨u', v', rfl, hu', hv'⟩ := exists_of_collapse hcl collapsed
  obtain ⟨w', r', rfl, hw', -⟩ := exists_of_collapse (by decide) hv'
  have read := assignment_of_collapse hcl hread hw' (r' ++ after)
  refine ⟨_, _, ?_, ?_, ⟨c, _, rfl, hc⟩, read⟩
  · refine code_append hs (w := u') (fun d hd => ?_) (by simpa using hcode)
    cases hdl : isLayout d with
    | true => exact isQuote_of_isLayout hdl
    | false =>
      have hm : d ∈ a ++ u := (mem_collapse hdl).mp (hu' ▸ (mem_collapse hdl).mpr hd)
      exact hfront d hm
  · refine ⟨before ++ u', by rw [hs']; simp, fun d hd => ?_⟩
    by_cases hu0 : u' = []
    · subst hu0
      exact hbefore d (by simpa using hd)
    · rw [List.getLast?_append_of_ne_nil _ hu0] at hd
      refine inName_of_collapse hu' (fun d hd => ?_) d hd
      by_cases hu0 : u = []
      · subst hu0
        rw [List.append_nil] at hd
        exact inName_of_edge (ha d (List.mem_of_getLast? hd))
      · rw [List.getLast?_append_of_ne_nil _ hu0] at hd
        exact hend d hd

end VectorWrap.Line
