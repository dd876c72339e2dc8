import VectorWrap.Proofs.Implementation.FetchOrder

/-!
# The two readings of bindings

The search for declarations and the search for assignments go through a body in step, as long as a
cast holds nothing but a type.  Where one of them reads a binding the other one comes to the same
end: a declaration is passed over up to its variable and read from there
(`sweep_assignment_of_declaration`), an assignment without a type is passed over as a whole
(`sweep_declaration_of_assignment`).  So each binding is an assignment, and some have types before
their variables (`exists_paired`).

The scanners of one form read the characters of one class (`Within`), so a sweep that finds nothing
at such characters goes on behind the form as it stood before it.  What such a form may hold is
neither a quote nor a slash, and no equals sign: it is quiet.
-/

namespace VectorWrap

/-! ### What is passed over -/

namespace Text

/-- What is no blank stands in a word. -/
theorem exists_word_of_mem {c : Char} (hc : isBlank c = false) {s : Text} (h : c ∈ s) :
    ∃ w ∈ words s, c ∈ w := by
  induction hk : s.length using Nat.strong_induction_on generalizing s with
  | _ k ih =>
    obtain ⟨w, hw, rfl | ⟨b, r, rfl, hb⟩⟩ := exists_run s
    · exact ⟨s, by rw [words_of_not_blank (List.ne_nil_of_mem h) hw]; exact .head _, h⟩
    · have shorter : r.length < k := by
        rw [← hk, List.length_append, List.length_cons]
        omega
      have behind : c ∈ r → ∃ w ∈ words r, c ∈ w := fun hr => ih _ shorter hr rfl
      have other : c ≠ b := by
        rintro rfl
        rw [hc] at hb
        cases hb
      simp only [List.mem_append, List.mem_cons, other, false_or] at h
      by_cases hw0 : w = []
      · subst hw0
        rw [List.nil_append, words_blank hb]
        exact behind (h.resolve_left List.not_mem_nil)
      · rw [words_append hw0 hw hb]
        rcases h with h | h
        · exact ⟨w, .head _, h⟩
        · obtain ⟨v, hv, hcv⟩ := behind h
          exact ⟨v, .tail _ hv, hcv⟩

/-- A squeeze drops blanks alone. -/
theorem mem_squeeze {c : Char} (hc : isBlank c = false) {s : Text} (h : c ∈ s) : c ∈ squeeze s := by
  obtain ⟨w, hw, hcw⟩ := exists_word_of_mem hc h
  rw [squeeze]
  generalize words s = ws at hw
  induction ws with
  | nil => cases hw
  | cons v ws ih =>
    cases ws with
    | nil =>
      rw [List.mem_singleton.mp hw] at hcw
      simpa using hcw
    | cons u us =>
      have parts : [' '].intercalate (v :: u :: us) = v ++ ' ' :: [' '].intercalate (u :: us) := by
        simp [List.intercalate]
      rw [parts, List.mem_append, List.mem_cons]
      rcases List.mem_cons.mp hw with rfl | hw
      · exact .inl hcw
      · exact .inr (.inr (ih hw))

end Text

namespace Scan

variable {α β : Type} {P : Char → Bool}

/-- Reads characters of one class. -/
def Within (P : Char → Bool) (p : Scan α) : Prop :=
  ∀ s r a, p s = some (a, r) → ∃ w, s = w ++ r ∧ ∀ c ∈ w, P c = true

theorem within_pure (a : α) : Within P (pure a : Scan α) := fun s r b h => by
  obtain ⟨-, rfl⟩ := pure_eq_some.mp h
  exact ⟨[], rfl, by simp⟩

/-- One after the other, two readings of a class read within it. -/
theorem Within.bind {p : Scan α} {q : α → Scan β} (hp : Within P p) (hq : ∀ a, Within P (q a)) :
    Within P (p >>= q) := fun _ _ _ h => by
  obtain ⟨a, s, h₁, h₂⟩ := bind_eq_some.mp h
  obtain ⟨v, rfl, hv⟩ := hp _ _ _ h₁
  obtain ⟨w, rfl, hw⟩ := hq a _ _ _ h₂
  exact ⟨v ++ w, by rw [List.append_assoc], List.forall_mem_append.mpr ⟨hv, hw⟩⟩

theorem within_layout (hP : ∀ c, Text.isLayout c = true → P c = true) : Within P layout := by
  intro s r _ h
  refine ⟨s.takeWhile Text.isLayout, ?_, fun c hc => hP c (List.mem_takeWhile_imp hc)⟩
  conv_lhs => rw [← List.takeWhile_append_dropWhile (p := Text.isLayout) (l := s),
    layout_eq_some.mp h]

theorem within_exactly {w : Text} (hw : w.all P = true) : Within P (exactly w) := fun _ _ _ h =>
  ⟨w, exactly_eq_some.mp h, List.all_eq_true.mp hw⟩

theorem within_symbol (hP : ∀ c, Text.isLayout c = true → P c = true) {w : Text}
    (hw : w.all P = true) : Within P (symbol w) :=
  (within_layout hP).bind fun _ => within_exactly hw

theorem within_run1 {p : Char → Bool} (hP : ∀ c, p c = true → P c = true) :
    Within P (run1 p) := by
  intro s r w h
  obtain ⟨-, rfl, rfl⟩ := run1_eq_some.mp h
  exact ⟨_, List.takeWhile_append_dropWhile.symm, fun c hc => hP c (List.mem_takeWhile_imp hc)⟩

/-- Where nothing is read every search goes on in the same place. -/
theorem exists_next (gap : Scan Unit) {c : Char} (hc : Text.isLayout c = false) (t : Text) :
    ∃ r : Text, r.length < (c :: t).length ∧ ∀ {item : Scan α}, item (c :: t) = none →
      sweep item gap (c :: t) = sweep item gap r := by
  have front : (c :: t).dropWhile Text.isLayout = c :: t :=
    List.dropWhile_cons_of_neg (by simp [hc])
  cases h : progress gap (c :: t) with
  | none => exact ⟨t, by simp, fun hi => by rw [sweep_of_cons front, progress_of_none hi, h]⟩
  | some x =>
    obtain ⟨_, r, less⟩ := x
    exact ⟨r, less, fun hi => by rw [sweep_of_cons front, progress_of_none hi, h]⟩

end Scan

namespace ArgSlot
open Scan

variable {s r t : Text} {b : Binding} {α : Type} {item : Scan α}

/-- What begins a literal or a comment, or stands between a variable and its value. -/
def loud : Text :=
  ['"', '\'', '/', '=']

/-- Begins no comment and no literal, and is no equals sign. -/
def isQuiet (c : Char) : Bool :=
  loud.all (· != c)

/-- May stand in a cast that is a type. -/
def inCast (c : Char) : Bool :=
  Text.inName c || c == '*' || c == ':' || Text.isBlank c

/-- A class of characters without quotes, slashes and equals signs is quiet. -/
theorem isQuiet_of_class (p : Char → Bool) (hp : loud.all (!p ·) = true) {c : Char}
    (h : p c = true) : isQuiet c = true := by
  refine List.all_eq_true.mpr fun d hd => bne_iff_ne.mpr ?_
  rintro rfl
  have := List.all_eq_true.mp hp d hd
  rw [h] at this
  cases this

theorem isQuiet_of_isLayout {c : Char} (h : Text.isLayout c = true) : isQuiet c = true :=
  isQuiet_of_class Text.isLayout (by decide) h

/-- **A text that comes to its parenthesis with neither comments, literals nor equals signs is
passed over.** -/
theorem sweep_quiet (h : Leads '=' item) {w : Text} (hw : ∀ c ∈ w, isQuiet c = true) (t : Text) :
    sweep item codeGap (w ++ ')' :: t) = sweep item codeGap t := by
  induction hk : w.length using Nat.strong_induction_on generalizing w with
  | _ k ih =>
    cases w with
    | nil => exact Fetch.sweep_close h t
    | cons c w =>
      obtain ⟨hc, hw'⟩ := List.forall_mem_cons.mp hw
      have shorter : w.length < k := by simp [← hk]
      have unread : item (c :: (w ++ ')' :: t)) = none := by
        refine h.blocked (a := c :: w) (fun hm => ?_) rfl (by decide)
        cases hw '=' hm
      obtain ⟨hq, hs⟩ : isQuote c = false ∧ c ≠ '/' := by
        simp only [isQuiet, loud, List.all_cons, Bool.and_eq_true, bne_iff_ne] at hc
        exact ⟨by simp [isQuote, hc.1.symm, hc.2.1.symm], hc.2.2.1.symm⟩
      rw [List.cons_append]
      cases hl : Text.isLayout c with
      | true => rw [sweep_layout hl, ih _ shorter hw' rfl]
      | false =>
        cases hn : Text.startsName c with
        | true =>
          have passed := codeGap_name (s := w ++ ')' :: t) hq (not_opensComment_of_ne hs _) hn
          rw [List.dropWhile_cons_of_pos (Text.inName_of_startsName hn),
            dropWhile_bounded (by decide)] at passed
          have less := Text.length_dropWhile_le Text.inName w
          have shrinks : (w.dropWhile Text.inName ++ ')' :: t).length <
              (c :: (w ++ ')' :: t)).length := by
            simp only [List.length_append, List.length_cons]
            omega
          rw [sweep_gap hl unread passed shrinks]
          exact ih _ (by omega) (fun d hd => hw' d ((List.dropWhile_sublist _).subset hd)) rfl
        | false => rw [sweep_mark hl hq hs hn unread, ih _ shorter hw' rfl]

/-! ### Casts -/

/-- The macro that fetches an argument is quiet. -/
theorem within_fetch : Within isQuiet fetch := by
  have lay : ∀ c, Text.isLayout c = true → isQuiet c = true := fun _ => isQuiet_of_isLayout
  have mark : Within isQuiet (exactly "PG_GETARG_") := within_exactly (by decide)
  exact mark.bind fun _ =>
    (within_run1 fun _ h => isQuiet_of_class inKind (by decide) h).bind fun _ =>
      (within_symbol lay (by decide)).bind fun _ => (within_layout lay).bind fun _ =>
        (within_run1 fun _ h => isQuiet_of_class Char.isDigit (by decide) h).bind fun _ =>
          (within_symbol lay (by decide)).bind fun _ => within_pure _

/-- A cast that holds nothing but a type is quiet. -/
theorem quiet_of_castForm {type : Text} (h : castForm s = some (type, r))
    (ht : type.all inCast = true) : ∃ w, s = w ++ r ∧ ∀ c ∈ w, isQuiet c = true := by
  have lay : ∀ c, Text.isLayout c = true → isQuiet c = true := fun _ => isQuiet_of_isLayout
  obtain ⟨_, s₁, h₁, h⟩ := bind_eq_some.mp h
  obtain ⟨_, s₂, h₂, h⟩ := bind_eq_some.mp h
  obtain ⟨raw, s₃, h₃, h⟩ := bind_eq_some.mp h
  obtain ⟨_, s₄, h₄, h⟩ := bind_eq_some.mp h
  obtain ⟨rfl, rfl⟩ := pure_eq_some.mp h
  obtain ⟨-, hraw, hs₃⟩ := run1_eq_some.mp h₃
  have between : s₂ = raw ++ s₃ := by
    rw [← hraw, ← hs₃, List.takeWhile_append_dropWhile]
  have quiet : ∀ c ∈ raw, isQuiet c = true := by
    intro c hc
    refine isQuiet_of_class inCast (by decide) ?_
    cases hb : Text.isBlank c with
    | true => simp [inCast, hb]
    | false => exact List.all_eq_true.mp ht c (Text.mem_squeeze hb hc)
  obtain ⟨u, rfl, hu⟩ := within_symbol lay (by decide) _ _ _ h₁
  obtain ⟨v, rfl, hv⟩ := within_layout lay _ _ _ h₂
  obtain ⟨w, rfl, hw⟩ := within_symbol lay (by decide) _ _ _ h₄
  refine ⟨u ++ (v ++ (raw ++ w)), by rw [between]; simp, ?_⟩
  simp only [List.forall_mem_append]
  exact ⟨hu, hv, quiet, hw⟩

/-- An assignment is quiet behind its equals sign. -/
theorem exists_quiet (h : assignment s = some (b, r)) (hb : b.type?.all (·.all inCast) = true) :
    ∃ lay gap w : Text, s = lay ++ (b.var ++ (gap ++ '=' :: (w ++ ')' :: r))) ∧
      (∀ c ∈ lay, Text.isLayout c = true) ∧ (∀ c ∈ gap, Text.isLayout c = true) ∧
      ∀ c ∈ w, isQuiet c = true := by
  obtain ⟨lay, gap, t, u, rfl, hlay, hgap, hcast, hfetch⟩ := value_of_assignment h
  -- the cast and the fetch behind it are quiet
  obtain ⟨v, rfl, hv⟩ : ∃ v, t = v ++ u ∧ ∀ c ∈ v, isQuiet c = true := by
    rcases orNone_eq_some hcast with ⟨type, e, h⟩ | ⟨-, -, rfl⟩
    · rw [e] at hb
      exact quiet_of_castForm h hb
    · exact ⟨[], rfl, by simp⟩
  have quiet := (within_layout fun _ => isQuiet_of_isLayout).bind fun _ => within_fetch
  obtain ⟨w, rfl, hw⟩ := quiet _ _ _ hfetch
  -- and end with the parenthesis
  obtain ⟨z, hz⟩ := exists_paren h
  have whole : (lay ++ (b.var ++ gap)) ++ '=' :: (v ++ w) = z ++ [')'] := by
    refine List.append_cancel_right (?_ : _ ++ r = _ ++ r)
    simpa using hz
  rcases List.eq_nil_or_concat (v ++ w) with e | ⟨x, c, e⟩
  · rw [e] at whole
    cases (List.append_inj' whole rfl).2
  · rw [e, List.concat_eq_append, ← List.cons_append, ← List.append_assoc] at whole
    cases (List.append_inj' whole rfl).2
    rw [List.concat_eq_append] at e
    have parts : v ++ (w ++ r) = x ++ ')' :: r := by
      rw [← List.append_assoc, e, List.append_assoc]
      rfl
    refine ⟨lay, gap, x, by rw [parts], hlay, hgap, fun c hc => ?_⟩
    have both : ∀ c ∈ v ++ w, isQuiet c = true := List.forall_mem_append.mpr ⟨hv, hw⟩
    exact both c (e ▸ List.mem_append_left _ hc)

/-! ### The two searches go in step -/

/-- The search for declarations passes over an assignment that begins with its variable. -/
theorem sweep_declaration_of_assignment {c : Char} (hc : Text.isLayout c = false)
    (h : assignment (c :: t) = some (b, r)) (hb : b.type?.all (·.all inCast) = true) :
    sweep declaration codeGap (c :: t) = sweep declaration codeGap r := by
  obtain ⟨lay, gap, w, e, hlay, hgap, hw⟩ := exists_quiet h hb
  have name := isName_of_assignment h
  obtain rfl : lay = [] := by
    cases lay with
    | nil => rfl
    | cons d lay =>
      obtain ⟨rfl, -⟩ := List.cons_eq_cons.mp e
      rw [hlay c (.head _)] at hc
      cases hc
  rw [List.nil_append] at e
  -- a type before the variable would hold the equals sign
  have unread : declaration (c :: t) = none := by
    rw [Option.eq_none_iff_forall_ne_some]
    rintro ⟨d, r'⟩ hd
    obtain ⟨type, s₁, htype, hd⟩ := bind_eq_some.mp hd
    obtain ⟨b', s₂, hassign, -⟩ := bind_eq_some.mp hd
    obtain ⟨p, x, hx, hp, chars, hend, hname, -⟩ := exists_start_of_typed htype hassign
    have first : ∀ d, p.head? = some d → Text.isLayout d = false := fun d hd => by
      have := congrArg List.head? hx
      rw [List.head?_append_of_ne_nil _ hp, hd] at this
      cases this
      exact hc
    cases chars '=' (equals_mem_front hp (hx ▸ h) first hname hend)
  have ends : ∀ d, (gap ++ '=' :: (w ++ ')' :: r)).head? = some d → Text.inName d = false := by
    intro d hd
    cases gap with
    | nil =>
      cases hd
      decide
    | cons g gap =>
      cases hd
      exact Text.inName_of_isLayout (hgap _ (.head _))
  rw [e, sweep_word name ends (e ▸ unread), sweep_blanks hgap,
    sweep_mark rfl rfl (by decide) rfl (leads_declaration.head_none rfl),
    sweep_quiet leads_declaration hw]

/-- The search for assignments passes over the type of a declaration and finds the rest. -/
theorem sweep_assignment_of_declaration {d : Binding} (h : declaration s = some (d, r)) :
    ∃ x b type, x <:+ s ∧ assignment x = some (b, r) ∧
      d = { b with type? := b.type? <|> some type } ∧
      sweep assignment codeGap s = ⟨b, x, r⟩ :: sweep assignment codeGap r := by
  obtain ⟨type, s₁, htype, h⟩ := bind_eq_some.mp h
  obtain ⟨b, s₂, hassign, h⟩ := bind_eq_some.mp h
  obtain ⟨rfl, rfl⟩ := pure_eq_some.mp h
  obtain ⟨p, x, e, hp, chars, hend, hx, hread⟩ := exists_start_of_typed htype hassign
  have before : TypeBefore x p := ⟨chars, fun e _ he _ hn => by
    rw [hend e he] at hn
    cases hn⟩
  have passed : sweep assignment codeGap (p ++ x) = sweep assignment codeGap x := by
    refine sweep_type before fun z c hz hl => ?_
    rw [Option.eq_none_iff_forall_ne_some]
    rintro ⟨b', r'⟩ hb'
    have sign := equals_mem_front (List.cons_ne_nil c z) hb' (fun d hd => by cases hd; exact hl) hx
      fun d hd => by
        obtain ⟨u, hu⟩ := hz
        refine hend d ?_
        rw [← hu, List.getLast?_append_of_ne_nil _ (List.cons_ne_nil c z), hd]
    cases chars '=' (hz.subset sign)
  refine ⟨x, b, type, ⟨p, e.symm⟩, hread, rfl, ?_⟩
  obtain ⟨c', x', rfl, hc'⟩ := hx
  rw [e, passed, sweep_item (Text.isLayout_of_startsName hc') hread
    (closed_assignment.shrinks hread)]

/-- Every cast of an assignment holds nothing but a type. -/
def PlainCasts (s : Text) : Prop :=
  ∀ f ∈ sweep assignment codeGap s, f.value.type?.all (·.all inCast) = true

instance : Decidable (PlainCasts s) :=
  inferInstanceAs (Decidable (∀ f ∈ sweep assignment codeGap s, _))

/-- A binding that is found: as an assignment, and with the type before its variable and the text
from there on if it is found as a declaration. -/
structure Sighting where
  assigned : Found Binding
  typed? : Option (Text × Text)
  begins : ∀ x ∈ typed?, assigned.here <:+ x.2
  ends : Text.byteLength assigned.rest < Text.byteLength assigned.here

namespace Sighting

/-- What the search for declarations finds of a binding. -/
def declared? (f : Sighting) : Option (Found Binding) :=
  f.typed?.map fun (type, here) =>
    ⟨{ f.assigned.value with type? := f.assigned.value.type? <|> some type }, here,
      f.assigned.rest⟩

/-- The second binding stands behind the first one. -/
def Before (f g : Sighting) : Prop :=
  g.assigned.here <:+ f.assigned.rest ∧ ∀ d ∈ g.declared?, d.here <:+ f.assigned.rest

end Sighting

/-- An assignment takes some of the text. -/
theorem byteLength_lt_of_assignment (h : assignment s = some (b, r)) :
    Text.byteLength r < Text.byteLength s := by
  obtain ⟨z, rfl⟩ := exists_paren h
  have paren : 0 < (')' : Char).utf8Size := Char.utf8Size_pos _
  rw [Text.byteLength_append, Text.byteLength]
  omega

/-- The bindings are what both searches find in the text, one behind the other. -/
structure Paired (s : Text) (fs : List Sighting) : Prop where
  assigned : sweep assignment codeGap s = fs.map Sighting.assigned
  declared : sweep declaration codeGap s = fs.filterMap Sighting.declared?
  before : fs.Pairwise Sighting.Before

/-- A binding stands before those that are found behind it. -/
theorem Paired.cons {f : Sighting} {fs : List Sighting} (h : Paired f.assigned.rest fs)
    (ha : sweep assignment codeGap s = f.assigned :: sweep assignment codeGap f.assigned.rest)
    (hd : sweep declaration codeGap s =
      f.declared?.toList ++ sweep declaration codeGap f.assigned.rest) : Paired s (f :: fs) where
  assigned := by rw [ha, h.assigned, List.map_cons]
  declared := by
    rw [hd, h.declared, List.filterMap_cons]
    cases f.declared? <;> rfl
  before := List.pairwise_cons.mpr ⟨fun g hg =>
    ⟨suffix_of_mem_assigned (h.assigned ▸ List.mem_map_of_mem hg), fun _ hd =>
      suffix_of_mem_declared (h.declared ▸ List.mem_filterMap.mpr ⟨g, hg, hd⟩)⟩, h.before⟩

/-- **The two searches find the same bindings**, if the casts are plain. -/
theorem exists_paired (h : PlainCasts s) : ∃ fs, Paired s fs := by
  induction hk : s.length using Nat.strong_induction_on generalizing s with
  | _ k ih =>
    cases e : s.dropWhile Text.isLayout with
    | nil => exact ⟨[], sweep_of_nil e, sweep_of_nil e, .nil⟩
    | cons c t =>
      have hc : Text.isLayout c = false := by
        have := List.head?_dropWhile_not Text.isLayout s
        rw [e] at this
        simpa using this
      have same {item : Scan Binding} : sweep item codeGap s = sweep item codeGap (c :: t) :=
        sweep_congr (by rw [e, List.dropWhile_cons_of_neg (by simp [hc])])
      have shorter : (c :: t).length ≤ k := by
        rw [← hk, ← e]
        exact Text.length_dropWhile_le _ _
      -- the casts behind the first assignment are plain as well
      have behind {b : Binding} {x r : Text} (less : r.length < (c :: t).length)
          (read : sweep assignment codeGap (c :: t) =
            ⟨b, x, r⟩ :: sweep assignment codeGap r) : ∃ fs, Paired r fs :=
        ih r.length (less.trans_le shorter)
          (fun f hf => h f (same.trans read ▸ List.mem_cons_of_mem _ hf)) rfl
      cases ha : assignment (c :: t) with
      | some x =>
        obtain ⟨b, r⟩ := x
        have less := closed_assignment.shrinks ha
        have read : sweep assignment codeGap (c :: t) = _ := sweep_item hc ha less
        have plain := h _ (same.trans read ▸ List.mem_cons_self)
        obtain ⟨fs, paired⟩ := behind less read
        let f : Sighting := ⟨⟨b, c :: t, r⟩, none, (fun _ hx => by cases hx),
          byteLength_lt_of_assignment ha⟩
        exact ⟨f :: fs, paired.cons (same.trans read)
          (same.trans (sweep_declaration_of_assignment hc ha plain))⟩
      | none =>
        cases hd : declaration (c :: t) with
        | some x =>
          obtain ⟨d, r⟩ := x
          have less := closed_declaration.shrinks hd
          obtain ⟨x, b, type, hx, hread, rfl, read⟩ := sweep_assignment_of_declaration hd
          obtain ⟨fs, paired⟩ := behind less read
          let f : Sighting := ⟨⟨b, x, r⟩, some (type, c :: t), (fun y hy => by cases hy; exact hx),
            byteLength_lt_of_assignment hread⟩
          exact ⟨f :: fs, paired.cons (same.trans read) (same.trans (sweep_item hc hd less))⟩
        | none =>
          obtain ⟨r, less, next⟩ := exists_next codeGap hc t
          have plain : PlainCasts r := by rwa [PlainCasts, same, next ha] at h
          obtain ⟨fs, assigned, declared, before⟩ := ih r.length (less.trans_le shorter) plain rfl
          exact ⟨fs, same.trans ((next ha).trans assigned), same.trans ((next hd).trans declared),
            before⟩

end ArgSlot
end VectorWrap
