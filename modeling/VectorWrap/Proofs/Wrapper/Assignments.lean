import VectorWrap.Proofs.Implementation.Lines
import VectorWrap.Proofs.Wrapper.NullGuard

/-!
# Assignments, read and written

`Assignment.ofLine` reads an assignment from a line, `Fragment.bind` writes one.  The reading
divides the line at its first equals sign that is no part of a comparison, and cuts the text before
it one byte behind the last character before the variable.  That is all that can fault in it: it
does where that character has several bytes (`ofLine_eq_error_iff`).

The two agree on the space before the variable (none behind an asterisk), on the equals sign, and on
the name at the end of the target, so a written line is read back (`ofLine_bind`).  Only the end of
the value may change: of the semicolons behind it those next to each other go, and blanks with them.
So a line that gets a cast can be read again, as before but for the value (`ofLine_cast`).

Whether an equals sign is part of a comparison is decided by its two neighbours (`IsSign`).  This is
why a blank put before a sign or taken away there does not change what is found, as long as no other
sign comes to stand next to it.
-/

namespace VectorWrap

namespace Text

/-! ### Texts that begin without a blank -/

/-- Trimming at the end goes no further than what is kept. -/
theorem trimEndBy_append {p : Char → Bool} {c : Char} (hc : p c = false) (x y : Text) :
    ∃ z, trimEndBy p (x ++ c :: y) = x ++ c :: z := by
  have stop : (c :: x.reverse).dropWhile p = c :: x.reverse :=
    List.dropWhile_cons_of_neg (by simp [hc])
  have split : (x ++ c :: y).reverse = y.reverse ++ c :: x.reverse := by simp
  rw [trimEndBy, split, List.dropWhile_append]
  split_ifs
  · exact ⟨[], by rw [stop]; simp⟩
  · exact ⟨(y.reverse.dropWhile p).reverse, by simp⟩

/-- A trim takes nothing from between two characters that are no blanks. -/
theorem trim_flush_append {x : Text} {c : Char} (hx : Flush (x ++ [c])) (hc : isBlank c = false)
    (y : Text) : ∃ z, trim (x ++ c :: y) = x ++ c :: z := by
  have start : (x ++ c :: y).dropWhile isBlank = x ++ c :: y := by
    cases x with
    | nil => exact List.dropWhile_cons_of_neg (by simp [hc])
    | cons d x => exact List.dropWhile_cons_of_neg (by simp [hx d rfl])
  rw [trim, trimBy, start]
  exact trimEndBy_append hc x y

variable {p : Char → Bool} {x y : Text}

theorem trimEndBy_append_of_ne_nil (h : trimEndBy p y ≠ []) (x : Text) :
    trimEndBy p (x ++ y) = x ++ trimEndBy p y := by
  have kept : y.reverse.dropWhile p ≠ [] := by simpa [trimEndBy] using h
  rw [trimEndBy, List.reverse_append, List.dropWhile_append, if_neg (by simpa using kept)]
  simp [trimEndBy]

/-- A text that begins without a blank is trimmed at its end. -/
theorem trim_of_flush (h : Flush y) : trim y = trimEndBy isBlank y := by
  have front : y.dropWhile isBlank = y := by
    cases y with
    | nil => rfl
    | cons c y => exact List.dropWhile_cons_of_neg (by simp [h c rfl])
  rw [trim, trimBy, front, trimEndBy]

/-- Where something is left of the second text, the first one stays. -/
theorem trim_append_of_ne_nil (hx : Flush x) (hn : x ≠ []) (hy : Flush y) (h : trim y ≠ []) :
    trim (x ++ y) = x ++ trim y := by
  rw [trim_of_flush (hx.append hn y), trim_of_flush hy] at *
  exact trimEndBy_append_of_ne_nil h x

theorem Flush.of_isPrefix (hy : Flush y) (h : x <+: y) : Flush x := fun c hc => by
  obtain ⟨z, rfl⟩ := h
  exact hy c (by rw [List.head?_append, hc]; rfl)

/-- A text that begins without a blank is not squeezed to nothing. -/
theorem squeeze_ne_nil {s : Text} (hf : Flush s) (hn : s ≠ []) : squeeze s ≠ [] := by
  obtain ⟨w, hw, rfl | ⟨b, r, rfl, hb⟩⟩ := exists_run s
  · rwa [squeeze_word hw]
  · have ne_nil : w ≠ [] := by
      rintro rfl
      rw [hf b rfl] at hb
      cases hb
    rcases squeeze_append ne_nil hw hb r with e | e <;> simp [e, ne_nil]

end Text

namespace Assignment

/-! ### Signs -/

/-- An equals sign between the two texts is no part of a comparison. -/
def IsSign (u v : Text) : Prop :=
  v.head? ≠ some '=' ∧ ∀ c, u.getLast? = some c → c ∉ ['=', '!', '<', '>']

/-- Only what stands next to it decides on a sign, and no blank does. -/
theorem isSign_of_neighbours {u v u' v' : Text}
    (hu : Text.neighbour u.getLast? = Text.neighbour u'.getLast?)
    (hv : Text.neighbour v.head? = Text.neighbour v'.head?) (h : IsSign u v) : IsSign u' v' := by
  have to_other : ∀ {a b : Option Char} {c : Char}, Text.neighbour b = Text.neighbour a →
      Text.isBlank c = false → a = some c → b = some c := by
    intro a b c hab hc ha
    have : Text.neighbour b = some c := by
      rw [hab, ha]
      simp [Text.neighbour, hc]
    exact (Option.filter_eq_some_iff.mp this).1
  have blank : ∀ d ∈ ['=', '!', '<', '>'], Text.isBlank d = false := by
    intro d hd
    simp only [List.mem_cons, List.not_mem_nil, or_false] at hd
    rcases hd with rfl | rfl | rfl | rfl <;> decide
  refine ⟨fun h' => h.1 (to_other hv (blank '=' List.mem_cons_self) h'), fun c hc hm => ?_⟩
  exact h.2 c (to_other hu (blank c hm) hc) hm

theorem isSign_singleton {d : Char} {r : Text} :
    IsSign [d] r ↔ r.head? ≠ some '=' ∧ d ∉ ['=', '!', '<', '>'] := by
  simp [IsSign]

theorem isSign_cons_cons {b c : Char} {u v : Text} :
    IsSign (b :: c :: u) v ↔ IsSign (c :: u) v := by
  rw [IsSign, IsSign, List.getLast?_cons_cons]

/-- Behind a character that is no sign itself there is none earlier than what is one without it. -/
theorem no_earlier_cons_iff {before c : Char} {l r : Text}
    (hc : ¬ (c = '=' ∧ IsSign [before] (l ++ '=' :: r))) :
    (∀ u v, l = u ++ '=' :: v → ¬ IsSign (c :: u) (v ++ '=' :: r)) ↔
      ∀ u v, c :: l = u ++ '=' :: v → ¬ IsSign (before :: u) (v ++ '=' :: r) := by
  constructor
  · intro hn u v e
    cases u with
    | nil =>
      obtain ⟨rfl, rfl⟩ := List.cons_eq_cons.mp e
      exact fun h => hc ⟨rfl, h⟩
    | cons d u =>
      obtain ⟨rfl, hl⟩ := List.cons_eq_cons.mp e
      rw [isSign_cons_cons]
      exact hn u v hl
  · intro hn u v e
    rw [← isSign_cons_cons]
    exact hn (c :: u) v (by rw [e]; rfl)

theorem map_cons_eq_some_iff {o : Option (Text × Text)} {c d : Char} {l r : Text} :
    o.map (fun p => (c :: p.1, p.2)) = some (d :: l, r) ↔ c = d ∧ o = some (l, r) := by
  simp only [Option.map_eq_some_iff, Prod.mk.injEq, Prod.exists, List.cons.injEq]
  constructor
  · rintro ⟨_, _, h, ⟨rfl, rfl⟩, rfl⟩
    exact ⟨rfl, h⟩
  · rintro ⟨hd, h⟩
    exact ⟨_, _, h, ⟨hd, rfl⟩, rfl⟩

/-- A text is split at its first sign. -/
theorem atEquals?_eq_some_iff {before : Char} {s l r : Text} :
    atEquals? before s = some (l, r) ↔ s = l ++ '=' :: r ∧ IsSign (before :: l) r ∧
      ∀ u v, l = u ++ '=' :: v → ¬ IsSign (before :: u) (v ++ '=' :: r) := by
  induction s generalizing before l with
  | nil => simp [atEquals?]
  | cons c s ih =>
    rw [atEquals?]
    split_ifs with hc <;> rw [← isSign_singleton] at hc
    · obtain ⟨rfl, hs⟩ := hc
      constructor
      · intro h
        cases h
        exact ⟨rfl, hs, by simp⟩
      · rintro ⟨h, -, hn⟩
        cases l with
        | nil =>
          cases h
          rfl
        | cons d l =>
          -- the first character is an earlier sign
          obtain ⟨rfl, rfl⟩ := List.cons_eq_cons.mp h
          exact absurd hs (hn [] l rfl)
    · cases l with
      | nil =>
        simp only [Option.map_eq_some_iff, Prod.mk.injEq, reduceCtorEq, false_and, and_false,
          exists_const, List.nil_append, List.cons.injEq, false_iff]
        rintro ⟨⟨rfl, rfl⟩, hs, -⟩
        exact hc ⟨rfl, hs⟩
      | cons d l =>
        rw [map_cons_eq_some_iff, @ih c l, List.cons_append, List.cons.injEq, and_assoc]
        refine and_congr_right fun hd => and_congr_right fun hs => ?_
        subst hd
        rw [isSign_cons_cons, no_earlier_cons_iff (hs ▸ hc)]

/-! ### Cut characters -/

/-- The reading of a line as an assignment cuts a character: one of several bytes stands directly
before the variable. -/
def CutsCharacter (line : Text) : Prop :=
  ∃ l r x c v, atEquals? ' ' (body line) = some (l, r) ∧ Text.trim r ≠ [] ∧ '(' ∉ Text.trim l ∧
    Text.trim l = x ++ c :: v ∧ Text.inName c = false ∧ (∀ d ∈ v, Text.inName d = true) ∧
    c.utf8Size ≠ 1

/-- The variable and the character before it. -/
theorem target_append {x v : Text} {c : Char} (hc : Text.inName c = false)
    (hv : ∀ d ∈ v, Text.inName d = true) : target (x ++ c :: v) =
      if c.utf8Size = 1 then .ok (x ++ [c], v) else .error .insideCharacter := by
  have last : ∀ d, (x ++ [c]).getLast? = some d → Text.inName d = false := by
    simp [hc]
  obtain ⟨hvar, hbefore⟩ := Closure.takeWhile_reverse hv last
  rw [List.append_assoc, List.singleton_append] at hvar hbefore
  simp only [target, hvar, hbefore, List.getLast?_append_cons, List.getLast?_singleton]

/-- A text is a run of a name, or such a run stands behind a character that is in no name. -/
theorem exists_last_run (left : Text) : (∀ d ∈ left, Text.inName d = true) ∨
    ∃ x c v, left = x ++ c :: v ∧ Text.inName c = false ∧ ∀ d ∈ v, Text.inName d = true := by
  induction left with
  | nil => exact .inl (by simp)
  | cons d left ih =>
    rcases ih with h | ⟨x, c, v, rfl, hc, hv⟩
    · cases hd : Text.inName d with
      | true => exact .inl (List.forall_mem_cons.mpr ⟨hd, h⟩)
      | false => exact .inr ⟨[], d, left, rfl, hd, h⟩
    · exact .inr ⟨d :: x, c, v, rfl, hc, hv⟩

/-- The cut before the variable faults behind a character of several bytes. -/
theorem target_eq_error_iff {left : Text} : (∃ f, target left = .error f) ↔
    ∃ x c v, left = x ++ c :: v ∧ Text.inName c = false ∧ (∀ d ∈ v, Text.inName d = true) ∧
      c.utf8Size ≠ 1 := by
  constructor
  · rintro ⟨f, h⟩
    rcases exists_last_run left with hv | ⟨x, c, v, rfl, hc, hv⟩
    · have := (Closure.takeWhile_reverse (x := []) hv (by simp)).2
      rw [List.nil_append] at this
      rw [target, this] at h
      cases h
    · rw [target_append hc hv] at h
      split_ifs at h with hs
      exact ⟨x, c, v, rfl, hc, hv, hs⟩
  · rintro ⟨x, c, v, rfl, hc, hv, hs⟩
    exact ⟨_, by rw [target_append hc hv, if_neg hs]⟩

/-- Nothing else can go wrong in the reading of a line as an assignment. -/
theorem ofLine_eq_error_iff {line : Text} : (∃ f, ofLine line = .error f) ↔ CutsCharacter line := by
  rw [ofLine]
  cases hs : atEquals? ' ' (body line) with
  | none => simp [CutsCharacter, hs]
  | some p =>
    obtain ⟨l, r⟩ := p
    have cuts : CutsCharacter line ↔ Text.trim r ≠ [] ∧ '(' ∉ Text.trim l ∧
        ∃ f, target (Text.trim l) = .error f := by
      simp [CutsCharacter, hs, target_eq_error_iff]
    rw [cuts]
    dsimp only
    split_ifs with hc
    · simp only [exists_false, false_iff, not_and]
      rintro hr hl -
      rcases hc with hc | hc
      · exact hr (List.isEmpty_iff.mp hc)
      · exact hl hc
    · simp only [List.isEmpty_iff, not_or] at hc
      cases ht : target (Text.trim l) with
      | error f => simp [bind, Except.bind, hc]
      | ok q =>
        simp only [bind, Except.bind, reduceCtorEq, exists_false, and_false, iff_false]
        split_ifs <;> simp [pure, Except.pure]

/-! ### What is read of a line -/

/-- The type that is read from a line holds no sign. -/
theorem not_isSign_of_ofLine {line type var value u v : Text}
    (h : ofLine line = .ok (some ⟨some type, var, value⟩)) (e : type = u ++ '=' :: v) :
    ¬ IsSign u v := by
  intro hsign
  obtain ⟨l, r, before, hs, -, -, -, ht, name, type_eq⟩ := exists_parts h
  dsimp only at ht name type_eq
  split_ifs at type_eq
  cases type_eq
  have names := Text.all_inName_of_isName name
  obtain ⟨u', v', hb, hu, hw⟩ := Text.exists_of_squeeze e (by decide)
  -- the equals sign stands before the first sign of the line
  obtain ⟨a, b, ha, hblank, hblank'⟩ := Text.exists_trim before
  obtain ⟨a', b', ha', hblank'', -⟩ := Text.exists_trim l
  have hl : l = (a' ++ a ++ u') ++ '=' :: (v' ++ (b ++ var ++ b')) := by
    rw [ha', append_of_target ht]
    conv_lhs => rw [ha, hb]
    simp
  refine (atEquals?_eq_some_iff.mp hs).2.2 _ _ hl ?_
  have inner : IsSign u' v' := isSign_of_neighbours hu hw hsign
  have outer : Text.neighbour u'.getLast? =
      Text.neighbour (' ' :: (a' ++ a ++ u')).getLast? := by
    rw [Text.neighbour_getLast?_cons (by decide), List.append_assoc,
      Text.neighbour_getLast?_append hblank'', Text.neighbour_getLast?_append hblank]
  have left := isSign_of_neighbours (v := v') outer rfl inner
  refine ⟨fun hh => ?_, left.2⟩
  cases v' with
  | cons d v' => exact left.1 hh
  | nil =>
    have equals : '=' ∉ b ++ var := fun hm => (List.mem_append.mp hm).elim
      (fun hm => absurd (hblank' _ hm) (by decide)) (fun hm => absurd (names _ hm) (by decide))
    have : b ++ var ≠ [] := fun hn => Text.ne_nil_of_isName name (List.append_eq_nil_iff.mp hn).2
    obtain ⟨d, t, ht⟩ := List.exists_cons_of_ne_nil this
    rw [List.nil_append, ht] at hh
    cases hh
    exact equals (by rw [ht]; exact List.mem_cons_self)

/-- The value that is read is trimmed. -/
theorem trimmed_of_ofLine {line : Text} {a : Assignment} (h : ofLine line = .ok (some a)) :
    Text.Trimmed a.value := by
  obtain ⟨-, r, -, -, hv, -⟩ := exists_parts h
  rw [hv]
  exact Text.trimmed_trim r

/-! ### Types as they are read -/

/-- A text that is read as it is written where it stands before a variable. -/
structure TypeText (type : Text) : Prop where
  ne_nil : type ≠ []
  trimmed : Text.Trimmed type
  squeezed : Text.squeeze type = type
  paren : '(' ∉ type
  sign : ∀ u v, type = u ++ '=' :: v → ¬ IsSign u v

/-- The type that is read is the text of a type. -/
theorem typeText_of_ofLine {line type var value : Text}
    (h : ofLine line = .ok (some ⟨some type, var, value⟩)) : TypeText type := by
  obtain ⟨l, -, before, -, -, -, paren, ht, -, type_eq⟩ := exists_parts h
  dsimp only at type_eq
  split_ifs at type_eq with he
  obtain rfl : type = Text.squeeze (Text.trim before) := Option.some.inj type_eq
  have inside : ∀ c ∈ Text.squeeze (Text.trim before), Text.isBlank c = false →
      c ∈ Text.trim l := by
    intro c hc hb
    obtain ⟨u, w, hu⟩ := List.append_of_mem hc
    obtain ⟨u', w', hu', -, -⟩ := Text.exists_of_squeeze hu hb
    rw [append_of_target ht]
    exact List.mem_append_left _ ((Text.trim_isInfix before).subset (by rw [hu']; simp))
  exact {
    ne_nil := Text.squeeze_ne_nil (Text.flush_trim before) (by simpa using he)
    trimmed := Text.trimmed_squeeze _
    squeezed := Text.squeeze_squeeze _
    paren := fun hm => paren (inside '(' hm (by decide))
    sign := fun _ _ => not_isSign_of_ofLine h }

/-- Words joined by blanks are the text of a type. -/
theorem typeText_joinWith {ws : List Text} (hn : ws ≠ [])
    (h : ∀ w ∈ ws, w ≠ [] ∧ ∀ c ∈ w, Text.isBlank c = false) (he : '=' ∉ Text.joinWith [' '] ws)
    (hp : '(' ∉ Text.joinWith [' '] ws) : TypeText (Text.joinWith [' '] ws) where
  ne_nil e := by
    have := Text.words_joinWith h
    rw [e] at this
    exact hn this.symm
  trimmed := Text.trimmed_joinWith h
  squeezed := Text.squeeze_joinWith h
  paren := hp
  sign u v e := absurd (by rw [e]; simp) he

/-! ### Lines as they are written -/

variable {type var value : Text}

theorem isBlank_of_mem_gap {c : Char} (h : c ∈ Fragment.gap type) : c = ' ' := by
  rcases Closure.gap_eq type with ⟨-, e⟩ | ⟨-, e⟩ <;> rw [e] at h
  · cases h
  · exact List.mem_singleton.mp h

/-- A written line is divided at its own sign. -/
theorem atEquals?_bind (hs : ∀ u v, type = u ++ '=' :: v → ¬ IsSign u v)
    (hv : ∀ d ∈ var, Text.inName d = true) {r : Text} (hr : r.head? ≠ some '=') :
    atEquals? ' ' (type ++ (Fragment.gap type ++ var ++ [' ']) ++ '=' :: r) =
      some (type ++ (Fragment.gap type ++ var ++ [' ']), r) := by
  have equals : '=' ∉ Fragment.gap type ++ var ++ [' '] := by
    simp only [List.mem_append, List.mem_singleton, not_or]
    exact ⟨⟨fun hm => absurd (isBlank_of_mem_gap hm) (by decide),
      fun hm => absurd (hv _ hm) (by decide)⟩, by decide⟩
  rw [atEquals?_eq_some_iff]
  refine ⟨rfl, ⟨hr, fun c hc => ?_⟩, fun u v e hsign => ?_⟩
  · rw [← List.append_assoc, ← List.cons_append, List.getLast?_append_cons] at hc
    cases hc
    decide
  · rcases List.append_eq_append_iff.mp e with ⟨w, -, hw⟩ | ⟨w, rfl, hw⟩
    · exact equals (by rw [hw]; simp)
    · cases w with
      | nil => exact equals (by rw [← List.nil_append (Fragment.gap _ ++ _ ++ _), ← hw]; simp)
      | cons d w =>
        obtain ⟨rfl, rfl⟩ := List.cons_eq_cons.mp hw
        refine hs u w rfl (isSign_of_neighbours ?_ ?_ hsign)
        · exact Text.neighbour_getLast?_cons (by decide) u
        · cases w with
          | cons d w => rfl
          | nil =>
            -- behind the equals sign of a comparison stands the space before the variable
            have gap : Fragment.gap (u ++ ['=']) = [' '] := by simp [Fragment.gap]
            rw [gap]
            exact Text.neighbour_blank (by decide)

/-- The left side of a written line is divided as it was put together. -/
theorem target_bind (hv : ∀ d ∈ var, Text.inName d = true) :
    target (type ++ (Fragment.gap type ++ var)) = .ok (type ++ Fragment.gap type, var) := by
  rcases Closure.gap_eq type with ⟨last, gap⟩ | ⟨-, gap⟩
  · obtain ⟨t, rfl⟩ := List.getLast?_eq_some_iff.mp last
    rw [gap, List.append_nil, List.nil_append, List.append_assoc, List.singleton_append,
      target_append (by decide) hv, if_pos (by decide)]
  · rw [gap, List.singleton_append, target_append (by decide) hv, if_pos (by decide)]

/-- What ends a line is stripped no further than what is kept. -/
theorem body_append {x : Text} {c : Char} (hx : Text.Flush (x ++ [c])) (hc : Text.isBlank c = false)
    (hs : c ≠ ';') (y : Text) : ∃ z, body (x ++ c :: y) = x ++ c :: z := by
  obtain ⟨y₁, h₁⟩ := Text.trim_flush_append hx hc y
  obtain ⟨y₂, h₂⟩ := Text.trimEndBy_append (p := (· == ';')) (c := c) (by simp [hs]) x y₁
  obtain ⟨y₃, h₃⟩ := Text.trim_flush_append hx hc y₂
  exact ⟨y₃, by rw [body, h₁, h₂, h₃]⟩

theorem body_append_of_ne_nil {x y : Text} (hx : Text.Flush x) (hn : x ≠ []) (hy : Text.Flush y)
    (h : body y ≠ []) : body (x ++ y) = x ++ body y := by
  have inner : Text.trimEndBy (· == ';') (Text.trim y) ≠ [] := fun e => h (by rw [body, e]; rfl)
  have outer : Text.trim y ≠ [] := fun e => inner (by rw [e]; rfl)
  have flush : Text.Flush (Text.trimEndBy (· == ';') (Text.trim y)) :=
    (Text.flush_trim y).of_isPrefix (Text.trimEndBy_prefix _ _)
  rw [body, Text.trim_append_of_ne_nil hx hn hy outer, Text.trimEndBy_append_of_ne_nil inner,
    Text.trim_append_of_ne_nil hx hn flush h, body]

/-- **A line that is written is read back**, its value up to the semicolons and blanks at its
end. -/
theorem ofLine_bind (ht : TypeText type) (hv : Text.isName var = true) (he : Text.Flush value)
    (hb : body (value ++ [';']) ≠ []) : ofLine (Fragment.bind type var value) =
      .ok (some ⟨some type, var, body (value ++ [';'])⟩) := by
  have names := Text.all_inName_of_isName hv
  have flush : Text.Flush type := ht.trimmed.head
  have space : ∀ c ∈ [' '], Text.isBlank c = true := List.forall_mem_singleton.mpr (by decide)
  have line : Fragment.bind type var value =
      type ++ (Fragment.gap type ++ var ++ [' ']) ++ '=' :: ' ' :: (value ++ [';']) := by
    simp [Fragment.bind]
  have front : Text.Flush (type ++ (Fragment.gap type ++ var ++ [' '] ++ ['=', ' '])) :=
    flush.append ht.ne_nil _
  have closed : Text.Flush (value ++ [';']) := fun c hc => by
    cases value with
    | nil =>
      cases hc
      decide
    | cons d value => exact he c hc
  -- the trims take nothing but what is behind the value
  have bodied : body (Fragment.bind type var value) =
      type ++ (Fragment.gap type ++ var ++ [' ']) ++ '=' :: ' ' :: body (value ++ [';']) := by
    have parts := body_append_of_ne_nil front (by simp) (y := value ++ [';']) closed hb
    rw [line]
    simpa using parts
  have left : Text.trim (type ++ (Fragment.gap type ++ var ++ [' '])) =
      type ++ (Fragment.gap type ++ var) := by
    have last : ∀ c, (type ++ (Fragment.gap type ++ var)).getLast? = some c →
        Text.isBlank c = false := fun c hc => by
      rw [← List.append_assoc, List.getLast?_append_of_ne_nil _ (Text.ne_nil_of_isName hv)] at hc
      exact Text.isBlank_of_isName hv c (List.mem_of_getLast? hc)
    rw [← List.append_assoc, Text.trim_append_blanks space]
    exact Text.trim_of_trimmed ⟨flush.append ht.ne_nil _, last⟩
  have before : Text.trim (type ++ Fragment.gap type) = type := by
    rw [Text.trim_append_blanks fun c hc => by rw [isBlank_of_mem_gap hc]; decide]
    exact Text.trim_of_trimmed ht.trimmed
  have read : Text.trim (' ' :: body (value ++ [';'])) = body (value ++ [';']) := by
    rw [← List.singleton_append, Text.trim_blank_append space]
    exact Text.trim_of_trimmed (Text.trimmed_trim _)
  have paren : '(' ∉ type ++ (Fragment.gap type ++ var) := by
    simp only [List.mem_append, not_or]
    exact ⟨ht.paren, fun hm => absurd (isBlank_of_mem_gap hm) (by decide),
      fun hm => absurd (names _ hm) (by decide)⟩
  rw [ofLine, bodied, atEquals?_bind ht.sign names (by simp)]
  dsimp only
  rw [left, read, if_neg (not_or.mpr ⟨by simpa using hb, paren⟩), target_bind names]
  simp [bind, Except.bind, pure, Except.pure, hv, before, ht.ne_nil, ht.squeezed]

/-! ### A cast in front -/

theorem plain_malloc : ∀ c ∈ "malloc(".toList, Text.isBlank c = false ∧ (c == ';') = false := by
  have plain : ("malloc(".toList.all fun c => !Text.isBlank c && !(c == ';')) = true := by
    decide +kernel
  intro c hc
  simpa using List.all_eq_true.mp plain c hc

theorem infix_body_malloc (h : "malloc(".toList <+: value) :
    "malloc(".toList <:+: body (value ++ [';']) :=
  infix_body plain_malloc (h.isInfix.trans (List.prefix_append value _).isInfix)

/-- With a cast in front of its value a line is read as before, with the cast in front of what is
left of the value. -/
theorem ofLine_cast {line : Text} (hm : "malloc(".toList <+: value)
    (h : ofLine line = .ok (some ⟨some type, var, value⟩)) :
    ofLine (Fragment.bind type var ("(" ++ type ++ ")" ++ value)) =
      .ok (some ⟨some type, var, "(" ++ type ++ ")" ++ body (value ++ [';'])⟩) := by
  obtain ⟨-, r, -, -, hv, -, -, -, name, -⟩ := exists_parts h
  have front : Text.Flush ("(" ++ type ++ ")") := fun c hc => by
    cases hc
    decide
  have flush : Text.Flush value := (show value = Text.trim r from hv) ▸ Text.flush_trim r
  have ne_nil : value ≠ [] := by
    rintro rfl
    simp at hm
  have left : body (value ++ [';']) ≠ [] := fun e => by
    have := infix_body_malloc hm
    rw [e] at this
    simp at this
  have parts : body ("(" ++ type ++ ")" ++ value ++ [';']) =
      "(" ++ type ++ ")" ++ body (value ++ [';']) := by
    rw [List.append_assoc]
    exact body_append_of_ne_nil front (by simp) (flush.append ne_nil _) left
  have read : body ("(" ++ type ++ ")" ++ value ++ [';']) ≠ [] := by
    rw [parts]
    simp
  rw [ofLine_bind (typeText_of_ofLine h) name (front.append (by simp) value) read, parts]

end Assignment

namespace Closure

/-- A copied line can be read as an assignment after the cast has been put in. -/
theorem exists_ofLine_castAlloc {line copy : Text} (h : castAlloc line = .ok copy) :
    ∃ a, Assignment.ofLine copy = .ok a := by
  obtain ⟨a?, ha, -⟩ := bind_eq_ok.mp h
  rcases castAlloc_cases ha with same | ⟨type, var, value, rfl, -, hm, put⟩
  · rw [Except.ok.inj (h.symm.trans same)]
    exact ⟨a?, ha⟩
  · rw [Except.ok.inj (h.symm.trans put)]
    exact ⟨_, Assignment.ofLine_cast hm ha⟩

/-- What is allocated is told by the variable and by a call in the value. -/
theorem allocates_of_ofLine {line : Text} {a? : Option Assignment}
    (h : Assignment.ofLine line = .ok a?) (x : Text) : allocates line x =
      .ok (a?.any fun a => a.var == x && Text.contains "malloc(" a.value) := by
  rw [allocates, h]
  cases a? <;> rfl

/-- A cast changes nothing in what is allocated. -/
theorem allocates_castAlloc {line copy : Text} (h : castAlloc line = .ok copy) (x : Text) :
    allocates copy x = allocates line x := by
  obtain ⟨a?, ha, -⟩ := bind_eq_ok.mp h
  rcases castAlloc_cases ha with same | ⟨type, var, value, rfl, -, hm, put⟩
  · rw [Except.ok.inj (h.symm.trans same)]
  · have first : Text.contains "malloc(" value = true := Text.contains_iff.mpr hm.isInfix
    have second : Text.contains "malloc("
        ("(" ++ type ++ ")" ++ Assignment.body (value ++ [';'])) = true :=
      Text.contains_iff.mpr
        ((Assignment.infix_body_malloc hm).trans (List.suffix_append _ _).isInfix)
    rw [Except.ok.inj (h.symm.trans put), allocates_of_ofLine (Assignment.ofLine_cast hm ha),
      allocates_of_ofLine ha, Option.any_some, Option.any_some, first, second]

end Closure

end VectorWrap
