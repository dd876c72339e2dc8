import VectorWrap.Code.Trivia
import VectorWrap.Proofs.Grammar.Agreement
import VectorWrap.Proofs.Scan.Written

/-!
# The scanners that grammars are built from

Fixed texts, runs of characters, words, and what stands before the next occurrence of a text: each
agrees with the expression that a grammar has for it.  A word is an expression and the absence of
another character of a name, where the scanner reads a run of such characters and compares it
(`agrees_word`).  The characters before a text are read one by one, each after a look for that text;
where layout is skipped between them, the text must not begin with layout (`agrees_upTo`).

A leaf is compared on every text, also where it fails; so the lemmas give what is left as an option
and not only in the good case.  That layout is skipped between two characters matters for the last
two: a line comment of the grammar then has no end, which the scanner has as its free spacing.
-/

namespace VectorWrap

open Grammar

variable {ρ : Type} {g : Grammar ρ} {t : Bool}

/-! ### Fixed texts -/

theorem Scan.rest_exactly (w s : Text) : (Scan.exactly w s).map Prod.snd = Text.after? w s := by
  simp [Scan.exactly, Function.comp_def]

theorem Scan.rest_symbol (w s : Text) :
    (Scan.symbol w s).map Prod.snd = Text.after? w (s.dropWhile Text.isLayout) :=
  Scan.rest_exactly w _

theorem agrees_exactly (w : Text) : Agrees g true (Scan.exactly w) (.text w) := by
  intro s
  rw [Scan.rest_exactly]
  exact .text w s

/-- A mark agrees with its expression where layout is skipped. -/
theorem agrees_symbol (w : Text) : Agrees g false (Scan.symbol w) (.text w) := by
  intro s
  rw [Scan.rest_symbol]
  exact .text w _

/-! ### Characters -/

/-- An expression reads one character, which satisfies `p`. -/
def ReadsOne (g : Grammar ρ) (t : Bool) (e : Peg ρ) (p : Char → Bool) : Prop :=
  ∀ s, gap t s = s → Ends g t e s ((Scan.one p s).map Prod.snd)

/-- A class of characters reads one of them. -/
theorem readsOne_one (p : Char → Bool) : ReadsOne g t (.one p) p := by
  intro s _
  cases s with
  | nil => exact .no_one (by simp)
  | cons c s =>
    cases hc : p c with
    | true => simpa [Scan.one, hc] using Ends.one hc s
    | false => simpa [Scan.one, hc] using Ends.no_one (by simp [hc])

/-- An expression can be read exactly before the characters that satisfy `p`. -/
structure Detects (g : Grammar ρ) (t : Bool) (e : Peg ρ) (p : Char → Bool) : Prop where
  yes : ∀ {c}, p c = true → ∀ s, ∃ r, Ends g t e (c :: s) (some r)
  no : ∀ {s : Text}, (∀ c, s.head? = some c → p c = false) → Ends g t e s none

namespace Detects

variable {a b : Peg ρ} {p q : Char → Bool}

/-- A character is detected by a text of it alone. -/
theorem char (d : Char) : Detects g t (.text [d]) (· == d) where
  yes h s := by
    obtain rfl := beq_iff_eq.mp h
    exact ⟨s, .char _ s⟩
  no {s} h := by
    cases s with
    | nil => exact .text [d] []
    | cons c s => exact .no_text (Ne.symm (ne_of_beq_false (h c rfl))) s

theorem one (p : Char → Bool) : Detects g t (.one p) p where
  yes h s := ⟨s, .one h s⟩
  no h := .no_one h

/-- Of two alternatives the classes are joined. -/
theorem alt (ha : Detects g t a p) (hb : Detects g t b q) :
    Detects g t (.alt a b) (fun c => p c || q c) where
  yes {c} h s := by
    cases hc : p c with
    | true =>
      obtain ⟨r, k⟩ := ha.yes hc s
      exact ⟨r, k.alt_left⟩
    | false =>
      obtain ⟨r, k⟩ := hb.yes (by simpa [hc] using h) s
      exact ⟨r, (ha.no (by simpa using hc)).alt_right k⟩
  no h := by
    refine (ha.no fun c hc => ?_).alt_right (hb.no fun c hc => ?_)
    · exact (Bool.or_eq_false_iff.mp (h c hc)).1
    · exact (Bool.or_eq_false_iff.mp (h c hc)).2

/-- Any character where `a` cannot be read. -/
theorem readsOne (ha : Detects g t a p) (hq : ∀ c, q c = !p c) :
    ReadsOne g t (.inOrder [.absent a, .any]) q := by
  intro s hs
  cases s with
  | nil =>
    have none : Ends g t a [] none := ha.no (by simp)
    exact none.absent.both (hs.symm ▸ .no_one (by simp))
  | cons c s =>
    cases hc : p c with
    | true =>
      obtain ⟨r, k⟩ := ha.yes hc s
      rw [Scan.one, if_neg (by simp [hq, hc])]
      exact k.no_absent.no_first
    | false =>
      have none : Ends g t a (c :: s) none := ha.no (by simpa using hc)
      rw [Scan.one, if_pos (by simp [hq, hc])]
      exact none.absent.both (hs.symm ▸ .one rfl s)

end Detects

section Runs

variable {e : Peg ρ} {p : Char → Bool}

/-- A run agrees with the repetition of its class. -/
theorem agrees_run (he : ReadsOne g true e p) : Agrees g true (Scan.run p) (.star e) := by
  have turn : ∀ s : Text, Ends g true e s none ∧ s = s.dropWhile p ∨
      ∃ r, Ends g true e s (some r) ∧ r.length < s.length ∧
        ∀ z, z = r.dropWhile p → z = s.dropWhile p := by
    intro s
    have one := he s rfl
    cases s with
    | nil => exact .inl ⟨one, rfl⟩
    | cons c s =>
      cases hc : p c with
      | true =>
        rw [Scan.one, if_pos hc] at one
        exact .inr ⟨s, one, Nat.lt_succ_self _, by simp [hc]⟩
      | false =>
        rw [Scan.one, if_neg (by simp [hc])] at one
        exact .inl ⟨one, by simp [hc]⟩
  intro s
  obtain ⟨z, run, rfl⟩ := Ends.star_of_step (t := true) (P := fun s z => z = s.dropWhile p)
    (fun s _ _ => turn s) (s := s) rfl
  exact run

/-- A character of one class before a run of another. -/
theorem agrees_run_after {d : Peg ρ} {f : Char → Bool} {q : Scan Text}
    (hd : ReadsOne g true d f) (he : ReadsOne g true e p)
    (hq : q = fun s => match s with
      | [] => none
      | c :: r => if f c then some (c :: r.takeWhile p, r.dropWhile p) else none) :
    Agrees g true q (.inOrder [d, .star e]) := by
  subst hq
  intro s
  have one := hd s rfl
  cases s with
  | nil => exact .no_first one
  | cons c s =>
    cases hc : f c with
    | true =>
      rw [Scan.one, if_pos hc] at one
      dsimp only
      rw [if_pos hc]
      exact one.both (agrees_run he s)
    | false =>
      rw [Scan.one, if_neg (by simp [hc])] at one
      simpa [hc] using one.no_first

/-- A run that must have a character agrees with the repetition that must have a turn. -/
theorem agrees_run1 (he : ReadsOne g true e p) : Agrees g true (Scan.run1 p) (.plus e) :=
  agrees_run_after he he rfl

end Runs

/-- An identifier. -/
def Peg.identifier : Peg ρ :=
  .inOrder [.one Text.startsName, .star (.one Text.inName)]

theorem agrees_name : Agrees g true Scan.name .identifier :=
  agrees_run_after (readsOne_one _) (readsOne_one _) rfl

/-! ### Line breaks -/

/-- A line break. -/
def Peg.newline : Peg ρ :=
  .oneOf [.text ['\n'], .text ['\r', '\n'], .text ['\r']]

/-- The expression of a line break detects the two characters that are one. -/
theorem detects_newline : Detects g t .newline Scan.isLineBreak where
  yes h s := by
    simp only [Scan.isLineBreak, Bool.or_eq_true, beq_iff_eq] at h
    rcases h with rfl | rfl
    · exact ⟨s, (Ends.char _ s).alt_left⟩
    · have other : Ends g t (.text ['\n']) ('\r' :: s) none := .no_text (by decide) s
      cases h : Text.after? ['\r', '\n'] ('\r' :: s) with
      | some r => exact ⟨r, other.alt_right (.alt_left (h ▸ .text _ _))⟩
      | none => exact ⟨s, other.alt_right (.alt_right (h ▸ .text _ _) (.char _ s))⟩
  no {s} h := by
    have absent {c : Char} {w : Text} (hc : Scan.isLineBreak c = true) :
        Ends g t (.text (c :: w)) s none := by
      cases s with
      | nil => exact .text (c :: w) []
      | cons d s =>
        refine .no_text ?_ s
        rintro rfl
        rw [h c rfl] at hc
        cases hc
    exact .alt_right (absent rfl) (.alt_right (absent rfl) (absent rfl))

/-! ### Words -/

/-- A text begins with letters exactly if its front, made lower case, is these. -/
theorem Text.afterLetters?_eq_some {w s r : Text} :
    Text.afterLetters? w s = some r ↔ ∃ u, s = u ++ r ∧ Text.lower u = w := by
  induction w generalizing s with
  | nil => simp [Text.afterLetters?, Text.lower, eq_comm]
  | cons p w ih =>
    cases s with
    | nil => simp [Text.afterLetters?, Text.lower]
    | cons c s =>
      rw [Text.afterLetters?]
      split_ifs with h
      · rw [ih]
        constructor
        · rintro ⟨u, rfl, rfl⟩
          exact ⟨c :: u, rfl, by rw [← h]; rfl⟩
        · rintro ⟨u, hs, hu⟩
          cases u with
          | nil => cases hu
          | cons d u =>
            obtain ⟨rfl, rfl⟩ := List.cons_eq_cons.mp hs
            exact ⟨u, rfl, (List.cons_eq_cons.mp hu).2⟩
      · simp only [false_iff, not_exists, not_and]
        rintro (_ | ⟨d, u⟩) hs hu
        · cases hu
        · obtain ⟨rfl, rfl⟩ := List.cons_eq_cons.mp hs
          exact h (List.cons_eq_cons.mp hu).1

/-- A letter of a name in the other case is one too. -/
theorem Text.inName_of_toLower {c : Char} (h : Text.inName c.toLower = true) :
    Text.inName c = true := by
  rw [Char.toLower] at h
  split_ifs at h with hc
  · have upper : c.isUpper = true := by simpa [Char.isUpper] using hc
    simp [Text.inName, Char.isAlphanum, Char.isAlpha, upper]
  · exact h

/-- A word of a name's characters is read where the run of such characters is that word. -/
theorem agrees_word {e : Peg ρ} {f : Text → Option Text} {p : Text → Prop} [DecidablePred p]
    (he : ∀ s, Ends g true e s (f s))
    (hf : ∀ {s r}, f s = some r ↔ ∃ u, s = u ++ r ∧ p u)
    (hp : ∀ {u}, p u → ∀ c ∈ u, Text.inName c = true) :
    Agrees g true (do let u ← Scan.run Text.inName; guard (p u))
      (.inOrder [e, .absent (.one Text.inName)]) := by
  intro s
  have parts := List.takeWhile_append_dropWhile (p := Text.inName) (l := s)
  have first := List.head?_dropWhile_not Text.inName s
  by_cases h : p (s.takeWhile Text.inName)
  · have read : f s = some (s.dropWhile Text.inName) := hf.mpr ⟨_, parts.symm, h⟩
    have stop : Ends g true (.one Text.inName) (s.dropWhile Text.inName) none := by
      refine .no_one fun c hc => ?_
      simpa [hc] using first
    have outcome : (do let u ← Scan.run Text.inName; guard (p u) : Scan Unit) s =
        some ((), s.dropWhile Text.inName) :=
      Scan.bind_eq_some.mpr ⟨_, _, rfl, Scan.guard_eq_some.mpr ⟨h, rfl⟩⟩
    rw [outcome]
    exact (read ▸ he s).next stop.absent
  · have outcome : (do let u ← Scan.run Text.inName; guard (p u) : Scan Unit) s = none := by
      simp [Scan.run, bind, StateT.bind, guard, h, failure, StateT.failure]
    rw [outcome]
    cases hr : f s with
    | none => exact .no_first (hr ▸ he s)
    | some r =>
      refine (hr ▸ he s).next ?_
      -- the word that is read goes on, or the run would be that word
      obtain ⟨u, rfl, hu⟩ := hf.mp hr
      cases r with
      | nil =>
        rw [List.append_nil, List.takeWhile_eq_self_iff.mpr (hp hu)] at h
        exact absurd hu h
      | cons c r =>
        cases hc : Text.inName c with
        | true => exact (Ends.one hc r).no_absent
        | false =>
          have run := Text.takeWhile_append_of_head (hp hu) (s := c :: r) fun d hd => by
            cases hd
            exact hc
          rw [run] at h
          exact absurd hu h

variable {r : ρ} {w : Text}

/-- A keyword agrees with its rule. -/
theorem agrees_keyword (hb : g.body r = .inOrder [.letters w, .absent (.one Text.inName)])
    (ht : g.tight r = true) (hw : w.all Text.inName = true) :
    Agrees g false (Scan.keyword w) (.rule r) := by
  have name : ∀ {u}, Text.lower u = w → ∀ c ∈ u, Text.inName c = true := by
    intro u hu c hc
    refine Text.inName_of_toLower (List.all_eq_true.mp hw _ ?_)
    rw [← hu]
    exact List.mem_map_of_mem hc
  have word := agrees_word (g := g) (Ends.letters w) (p := (Text.lower · = w))
    Text.afterLetters?_eq_some name
  rw [← hb] at word
  exact word.layout ht

/-- A word in one case agrees with its rule. -/
theorem agrees_exactWord (hb : g.body r = .inOrder [.text w, .absent (.one Text.inName)])
    (ht : g.tight r = true) (hw : w.all Text.inName = true) :
    Agrees g false (Scan.exactWord w) (.rule r) := by
  have name : ∀ {u}, u = w → ∀ c ∈ u, Text.inName c = true := by
    rintro u rfl
    exact List.all_eq_true.mp hw
  have text : ∀ {s r}, Text.after? w s = some r ↔ ∃ u, s = u ++ r ∧ u = w := by
    intro s r
    rw [Text.after?_eq_some]
    simp
  have word := agrees_word (g := g) (Ends.text w) (p := (· = w)) text name
  rw [← hb] at word
  exact word.layout ht

theorem agrees_ident (hb : g.body r = .identifier) (ht : g.tight r = true) :
    Agrees g false Scan.ident (.rule r) :=
  Agrees.layout (hb ▸ agrees_name) ht

/-! ### Reading up to a fixed text -/

namespace Scan

/-- Where a reading up to the next `w` comes to a stop. -/
def upToEnd (w s : Text) : Text :=
  match splitAt? w s with
  | some (_, r) => w ++ r
  | none => []

variable {c : Char} {w s : Text}

/-- Where the text stands its occurrence begins. -/
theorem upToEnd_of_some {r : Text} (h : Text.after? w s = some r) : upToEnd w s = s := by
  cases s with
  | nil =>
    cases w with
    | nil => rfl
    | cons d w => cases h
  | cons c s =>
    rw [upToEnd, splitAt?, h]
    exact (Text.after?_eq_some.mp h).symm

/-- Where the text does not stand it is looked for behind the next character. -/
theorem upToEnd_of_none (h : Text.after? w (c :: s) = none) : upToEnd w (c :: s) = upToEnd w s := by
  rw [upToEnd, splitAt?, h, upToEnd]
  cases splitAt? w s <;> rfl

/-- Layout may be dropped before the text is looked for. -/
theorem upToEnd_dropWhile (hc : Text.isLayout c = false) (s : Text) :
    upToEnd (c :: w) (s.dropWhile Text.isLayout) = upToEnd (c :: w) s := by
  induction s with
  | nil => rfl
  | cons d s ih =>
    cases hd : Text.isLayout d with
    | false => rw [List.dropWhile_cons_of_neg (by simp [hd])]
    | true =>
      have other : c ≠ d := by
        rintro rfl
        rw [hc] at hd
        cases hd
      rw [List.dropWhile_cons_of_pos hd, ih, upToEnd_of_none (by rw [Text.after?, if_neg other])]

/-- What is left behind an occurrence. -/
theorem rest_upTo (hw : w ≠ []) (s : Text) :
    (upTo w s).map Prod.snd = Text.after? w (upToEnd w s) := by
  rw [upTo, upToEnd]
  cases splitAt? w s with
  | none =>
    cases w with
    | nil => exact absurd rfl hw
    | cons c w => rfl
  | some p => exact (Text.after?_eq_some.mpr rfl).symm

theorem gap_upToEnd (hc : Text.isLayout c = false) (s : Text) :
    gap t (upToEnd (c :: w) s) = upToEnd (c :: w) s := by
  cases t with
  | true => rfl
  | false =>
    rw [upToEnd, gap_loose]
    cases splitAt? (c :: w) s with
    | none => rfl
    | some p => exact List.dropWhile_cons_of_neg (by simp [hc])

end Scan

/-- Characters up to the next `w`. -/
def Peg.before (w : Text) : Peg ρ :=
  .star (.inOrder [.absent (.text w), .any])

section UpTo

variable {c : Char} (hc : Text.isLayout c = false)
include hc

/-- The characters before a text are read up to its first occurrence. -/
theorem ends_before {s : Text} (hs : gap t s = s) :
    ∃ z, Ends g t (.before (c :: w)) s (some z) ∧ gap t z = Scan.upToEnd (c :: w) s := by
  refine Ends.star_of_step (P := fun s z => z = Scan.upToEnd (c :: w) s) ?_ hs
  intro s hs _
  cases h : Text.after? (c :: w) s with
  | some r =>
    have here : Ends g t (.text (c :: w)) s (some r) := h ▸ .text _ s
    exact .inl ⟨.no_first here.no_absent, (Scan.upToEnd_of_some h).symm⟩
  | none =>
    have absent : Ends g t (.absent (.text (c :: w))) s (some s) := .absent (h ▸ .text _ s)
    cases s with
    | nil => exact .inl ⟨absent.next (.no_one (by cases t <;> simp)), rfl⟩
    | cons d s =>
      refine .inr ⟨s, absent.next (hs.symm ▸ .one rfl s), Nat.lt_succ_self _, ?_⟩
      rintro z rfl
      rw [Scan.upToEnd_of_none h]
      cases t with
      | true => rfl
      | false => exact Scan.upToEnd_dropWhile hc s

theorem rest_upTo_gap (s : Text) : (Scan.upTo (c :: w) s).map Prod.snd =
    Text.after? (c :: w) (Scan.upToEnd (c :: w) (gap t s)) := by
  rw [Scan.rest_upTo (by simp)]
  cases t with
  | true => rfl
  | false => rw [gap_loose, Scan.upToEnd_dropWhile hc]

/-- What is read up to a text agrees with its characters and the text. -/
theorem agrees_upTo :
    Agrees g t (Scan.upTo (c :: w)) (.inOrder [.before (c :: w), .text (c :: w)]) := by
  intro s
  obtain ⟨z, he, hz⟩ := ends_before (g := g) (w := w) hc (gap_gap t s)
  rw [rest_upTo_gap (t := t) hc s]
  refine he.next ?_
  rw [hz]
  exact .text _ _

/-- The characters may be those of a rule that skips no layout. -/
theorem agrees_upTo_rule (hb : g.body r = .before (c :: w)) (ht : g.tight r = true) :
    Agrees g t (Scan.upTo (c :: w)) (.inOrder [.rule r, .text (c :: w)]) := by
  intro s
  obtain ⟨z, he, hz⟩ := ends_before (g := g) (t := true) (w := w) hc (gap_tight (gap t s))
  rw [gap_tight] at hz
  have called : Ends g t (.rule r) (gap t s) (some z) := .call ht (hb ▸ he)
  rw [rest_upTo_gap (t := t) hc s]
  refine called.next ?_
  rw [hz, Scan.gap_upToEnd hc]
  exact .text _ _

end UpTo

/-! ### Comments and quoted texts -/

namespace Peg

/-- A text between an opening and a closing one. -/
def enclosed (left right : Text) : Peg ρ :=
  inOrder [.text left, before right, .text right]

/-- A group by the rule `r`, or a character that is no closing parenthesis. -/
def groupOrChar (r : ρ) : Peg ρ :=
  oneOf [.rule r, inOrder [.absent (.text ")"), any]]

/-- A comment up to the end of the line. -/
def lineComment (opening : Text) : Peg ρ :=
  inOrder [.text opening, star (inOrder [.absent newline, any])]

end Peg

theorem agrees_enclosed (left : Text) {c : Char} {w : Text} (hc : Text.isLayout c = false) :
    Agrees g false (do Scan.layout; Scan.exactly left; let _ ← Scan.upTo (c :: w))
      (.enclosed left (c :: w)) :=
  Agrees.behind ((agrees_symbol left).next fun _ => (agrees_upTo hc).map _)

theorem agrees_enclosed_tight (left : Text) {c : Char} {w : Text} (hc : Text.isLayout c = false) :
    Agrees g true (do Scan.exactly left; let _ ← Scan.upTo (c :: w)) (.enclosed left (c :: w)) :=
  (agrees_exactly left).next fun _ => (agrees_upTo hc).map _

/-- A character that does not break the line. -/
theorem readsOne_line : ReadsOne g true (.inOrder [.absent .newline, .any]) (!Scan.isLineBreak ·) :=
  detects_newline.readsOne fun _ => rfl

theorem agrees_lineComment (opening : Text) :
    Agrees g true (Scan.lineComment opening .exact) (.lineComment opening) :=
  (agrees_exactly opening).both fun _ => (agrees_run readsOne_line).map _

/-- Where layout is skipped, no line break is seen. -/
theorem ends_all {s : Text} (hs : gap false s = s) :
    ∃ z, Ends g false (.star (.inOrder [.absent .newline, .any])) s (some z) ∧
      gap false z = [] := by
  refine Ends.star_of_step (P := fun _ z => z = []) (fun s hs _ => ?_) hs
  cases s with
  | nil => exact .inl ⟨(detects_newline.no (by simp)).absent.both (.no_one (by simp)), rfl⟩
  | cons c r =>
    have first := List.head?_dropWhile_not Text.isLayout (c :: r)
    rw [show (c :: r).dropWhile Text.isLayout = c :: r from hs] at first
    replace first : Text.isLayout c = false := first
    have plain : Scan.isLineBreak c = false := by
      rw [Bool.eq_false_iff]
      intro h
      simp only [Scan.isLineBreak, Bool.or_eq_true, beq_iff_eq] at h
      rcases h with rfl | rfl <;> exact absurd first (by decide)
    have absent : Ends g false (.absent .newline) (c :: r) (some (c :: r)) :=
      (detects_newline.no (by simp [plain])).absent
    exact .inr ⟨r, absent.both (hs.symm ▸ .one rfl r), Nat.lt_succ_self _, fun z hz => hz⟩

/-- Where layout is skipped, a line comment takes the rest of the text in the grammar too. -/
theorem follows_lineComment (opening : Text) :
    Follows g false (do Scan.layout; Scan.lineComment opening .free) (.lineComment opening) := by
  have rest : Follows g false (Scan.run fun _ => true)
      (.star (.inOrder [.absent .newline, .any])) := by
    intro s
    obtain ⟨z, he, hz⟩ := ends_all (g := g) (gap_gap false s)
    have all : s.dropWhile (fun _ => true) = [] := List.dropWhile_eq_nil_iff.mpr (by simp)
    exact ⟨some z, he, by simp [hz, Scan.run, all]⟩
  exact Follows.behind ((agrees_symbol opening).follows.both_follows fun _ => rest.map _)

end VectorWrap
