import VectorWrap.Proofs.Declaration.Cuts
import VectorWrap.Proofs.Implementation.LineComment
import VectorWrap.Proofs.Wrapper.Faults

/-!
# A body read by byte offsets

An `if` with its statement is split, and an assignment is read, by cuts of the line at byte
offsets.  The offsets of the `if` are those of a parenthesis and of what follows one, so no line is
cut inside a character (`cutIf?_eq`).  The equals sign of an assignment is searched among the bytes
of the line, and found where the character is; of the three cuts only the one before the variable
can fall inside a character, and the reading by characters faults just then (`cutLine_eq`).

A source has a reading exactly when no body of two lines is cut there (`exists_parse_iff`).

From the line up the condition is carried through each reading: lines before a return
(`exists_ofLines?_iff`), the lines of a body (`exists_classify_iff`), the body, and all bodies of a
source, so that at the end it is a condition on the text of one line.
-/

namespace VectorWrap

namespace Text

/-! ### ASCII bytes -/

/-- The byte of an ASCII character is a byte of no other character. -/
theorem eq_toUInt8_iff {c d : Char} {b : UInt8} (hb : b ∈ String.utf8EncodeChar c)
    (hd : d.utf8Size = 1) : b = d.toUInt8 ↔ c = d := by
  have small {e : Char} (he : e.utf8Size = 1) : e.val.toNat ≤ 127 := by
    have := Char.utf8Size_eq_one_iff.mp he
    rwa [UInt32.le_iff_toNat_le] at this
  have value {e : Char} (he : e.utf8Size = 1) : e.toUInt8.toNat = e.val.toNat := by
    have := small he
    rw [Char.toUInt8, UInt32.toNat_toUInt8]
    omega
  by_cases hc : c.utf8Size = 1
  · rw [utf8EncodeChar_of_one hc, List.mem_singleton] at hb
    subst hb
    constructor
    · intro h
      have := congrArg UInt8.toNat h
      rw [value hc, value hd] at this
      exact Char.ext (UInt32.toNat_inj.mp this)
    · rintro rfl
      rfl
  · constructor
    · intro h
      have := le_of_mem_utf8EncodeChar hc hb
      have := small hd
      rw [h, value hd] at *
      omega
    · rintro rfl
      exact absurd hd hc

theorem bytes_cons (c : Char) (s : Text) : bytes (c :: s) = String.utf8EncodeChar c ++ bytes s :=
  rfl

theorem utf8EncodeChar_ne_nil (c : Char) : String.utf8EncodeChar c ≠ [] := by
  intro h
  have := congrArg List.length h
  have := Char.utf8Size_pos c
  rw [String.length_utf8EncodeChar, List.length_nil] at *
  omega

/-- An ASCII byte begins a text whose first character it is. -/
theorem head?_bytes {d : Char} (s : Text) (hd : d.utf8Size = 1) :
    (bytes s).head? = some d.toUInt8 ↔ s.head? = some d := by
  cases s with
  | nil => simp [bytes]
  | cons c s =>
    obtain ⟨b, bs, h⟩ := List.exists_cons_of_ne_nil (utf8EncodeChar_ne_nil c)
    have hb : b ∈ String.utf8EncodeChar c := by
      rw [h]
      exact List.mem_cons_self
    rw [bytes_cons, h, List.cons_append, List.head?_cons, List.head?_cons, Option.some.injEq,
      Option.some.injEq, eq_toUInt8_iff hb hd]

/-- A character that does not stand in a text is not found. -/
theorem find?_of_not_mem {c : Char} {s : Text} (h : c ∉ s) : find? [c] s = none := by
  induction s with
  | nil => rfl
  | cons d s ih =>
    obtain ⟨hd, hs⟩ : c ≠ d ∧ c ∉ s := by simpa using h
    have := ih hs
    rw [find?, Option.map_eq_none_iff] at this ⊢
    rw [Scan.splitAt?, after?, if_neg hd, this]
    rfl

end Text

namespace Line

/-! ### Statements behind a condition -/

/-- The byte of the parenthesis at which the count of open ones comes back to zero; `here` is the
first byte of the text. -/
def groupEnd? (depth : Int) (here : Nat) : Text → Option Nat
  | [] => none
  | c :: r =>
      if c = ')' ∧ depth = 1 then some here
      else
        let inner := if c = '(' then depth + 1 else if c = ')' then depth - 1 else depth
        groupEnd? inner (here + c.utf8Size) r

/-- A line up to the end of the group that the byte `opening` begins, and the statement behind the
group, cut out of the line by byte offsets. -/
def cutGroup? (line : Text) (opening : Nat) : Except Fault (Option (Text × Text)) := do
  let group ← Text.fromByte opening line
  match groupEnd? 0 0 group with
  | none => pure none
  | some n => do
      let stop := opening + n + 1
      let tail ← Text.fromByte stop line
      let statement := unbrace (Text.trim tail)
      if statement.isEmpty then pure none
      else do
        let head ← Text.slice 0 stop line
        pure (some (head, statement))

/-- The head and the statement of an `if` that has both on one line, cut out of it by byte
offsets. -/
def cutIf? (line : Text) : Except Fault (Option (Text × Text)) :=
  match Text.after? "if" line with
  | none => pure none
  | some rest =>
      if (rest.head?.map Text.inName).getD false then pure none
      else
        match Text.find? "(" line with
        | none => pure none
        | some opening => cutGroup? line opening

/-- A group ends with the parenthesis that is found. -/
theorem groupEnd?_eq (depth : Int) (here : Nat) (s : Text) :
    (afterGroup? depth s = none ∧ groupEnd? depth here s = none) ∨
      ∃ w r, s = w ++ ')' :: r ∧ afterGroup? depth s = some (w ++ [')'], r) ∧
        groupEnd? depth here s = some (here + Text.byteLength w) := by
  induction s generalizing depth here with
  | nil => exact .inl ⟨rfl, rfl⟩
  | cons c s ih =>
    rw [afterGroup?, groupEnd?]
    by_cases h : c = ')' ∧ depth = 1
    · obtain ⟨rfl, rfl⟩ := h
      exact .inr ⟨[], s, rfl, rfl, rfl⟩
    · rw [if_neg h, if_neg h]
      dsimp only
      rcases ih (if c = '(' then depth + 1 else if c = ')' then depth - 1 else depth)
        (here + c.utf8Size) with ⟨h₁, h₂⟩ | ⟨w, r, hs, h₁, h₂⟩
      · rw [h₁, h₂]
        exact .inl ⟨rfl, rfl⟩
      · rw [h₁, h₂, hs]
        exact .inr ⟨c :: w, r, rfl, rfl, by rw [Text.byteLength, Nat.add_assoc]⟩

/-- The parts of an `if` are cut as they are read. -/
theorem cutGroup?_eq (front s : Text) : cutGroup? (front ++ s) (Text.byteLength front) = .ok (do
    let (group, tail) ← afterGroup? 0 s
    let statement := unbrace (Text.trim tail)
    guard !statement.isEmpty
    pure (front ++ group, statement)) := by
  rw [cutGroup?, Text.fromByte_byteLength]
  rcases groupEnd?_eq 0 0 s with ⟨h₁, h₂⟩ | ⟨w, r, rfl, h₁, h₂⟩
  · rw [h₁]
    simp only [bind, Except.bind, h₂]
    rfl
  · have stop : Text.byteLength front + (0 + Text.byteLength w) + 1 =
        Text.byteLength (front ++ (w ++ [')'])) := by
      simp [Text.byteLength_append, Text.byteLength, Nat.add_assoc]
      rfl
    have line : front ++ (w ++ ')' :: r) = front ++ (w ++ [')']) ++ r := by simp
    have head : Text.slice 0 (Text.byteLength (front ++ (w ++ [')'])))
        (front ++ (w ++ [')']) ++ r) = .ok (front ++ (w ++ [')'])) := by
      have := Text.slice_append [] (front ++ (w ++ [')'])) r
      rwa [Text.byteLength, Nat.zero_add, List.nil_append] at this
    simp only [h₁, h₂, bind, Except.bind, stop, line, Text.fromByte_byteLength, head]
    by_cases he : unbrace (Text.trim r) = [] <;> simp [he, pure, Except.pure]

/-- **An `if` is never cut inside a character.** -/
theorem cutIf?_eq (line : Text) : cutIf? line = .ok (splitIf? line) := by
  rw [cutIf?, splitIf?]
  cases hr : Text.after? "if" line with
  | none => rfl
  | some rest =>
    obtain rfl : line = "if".toList ++ rest := Text.after?_eq_some.mp hr
    cases hn : (rest.head?.map Text.inName).getD false with
    | true => simp [hn, pure, Except.pure]
    | false =>
      -- the parenthesis that is found is the first behind `if`
      obtain ⟨front, hfront⟩ : ∃ front, front = "if".toList ++ rest.takeWhile (· != '(') :=
        ⟨_, rfl⟩
      have line : "if".toList ++ rest = front ++ rest.dropWhile (· != '(') := by
        rw [hfront, List.append_assoc, List.takeWhile_append_dropWhile]
      have apart : '(' ∉ front := by
        intro hm
        rw [hfront] at hm
        rcases List.mem_append.mp hm with hm | hm
        · exact absurd hm (by decide)
        · simpa using List.mem_takeWhile_imp hm
      have first := List.head?_dropWhile_not (· != '(') rest
      simp only [hn, line, Option.bind_eq_bind, Option.bind_some, Bool.not_false, guard, if_true,
        Bool.false_eq_true, if_false, ← hfront]
      cases hd : rest.dropWhile (· != '(') with
      | nil =>
        rw [List.append_nil, show "(".toList = ['('] from rfl, Text.find?_of_not_mem apart]
        rfl
      | cons c q =>
        obtain rfl : c = '(' := by simpa [hd] using first
        have place : Text.find? "(" (front ++ '(' :: q) = some (Text.byteLength front) :=
          Text.find?_append apart [] q
        rw [place]
        exact cutGroup?_eq front ('(' :: q)

end Line

namespace Assignment

/-! ### Assignments -/

/-- The byte of the first equals sign that is no part of a comparison; `before` is the byte before
the text and `here` the first byte of it. -/
def signAt? (before : UInt8) (here : Nat) : List UInt8 → Option Nat
  | [] => none
  | b :: r =>
      if b = '='.toUInt8 ∧ r.head? ≠ some '='.toUInt8 ∧
          ¬ before ∈ ['=', '!', '<', '>'].map Char.toUInt8 then some here
      else signAt? b (here + 1) r

/-- The assignment that a line is, read from the bytes of the line and cut out of it by byte
offsets. -/
def cutLine (line : Text) : Except Fault (Option Assignment) :=
  let text := body line
  match signAt? ' '.toUInt8 0 (Text.bytes text) with
  | none => pure none
  | some sign => do
      let left := Text.trim (← Text.slice 0 sign text)
      let value := Text.trim (← Text.fromByte (sign + 1) text)
      if value.isEmpty ∨ '(' ∈ left then pure none
      else do
        let start := ((Text.findLast? (!Text.inName ·) left).map (· + 1)).getD 0
        let (before, var) ← Text.cutAt start left
        if Text.isName var then
          let type := Text.trim before
          pure (some ⟨if type.isEmpty then none else some (Text.squeeze type), var, value⟩)
        else pure none

/-- Bytes of characters that take several are passed over. -/
theorem signAt?_append {bs : List UInt8} (h : ∀ b ∈ bs, 128 ≤ b.toNat) (before : UInt8)
    (here : Nat) (r : List UInt8) : signAt? before here (bs ++ r) =
      signAt? (bs.getLastD before) (here + bs.length) r := by
  induction bs generalizing before here with
  | nil => rfl
  | cons b bs ih =>
    obtain ⟨hb, hbs⟩ := List.forall_mem_cons.mp h
    have other : ¬ b = '='.toUInt8 := by
      rintro rfl
      exact absurd hb (by decide)
    rw [List.cons_append, signAt?, if_neg fun h => other h.1, ih hbs, List.getLastD_cons,
      List.length_cons, Nat.add_assoc, Nat.add_comm 1]

/-- The byte before a text is one of `=`, `!`, `<`, `>` if the character before it is. -/
def Precedes (b : UInt8) (c : Char) : Prop :=
  ∀ d ∈ ['=', '!', '<', '>'], b = d.toUInt8 ↔ c = d

/-- Each byte of a character tells which of the four signs the character is, if it is one. -/
theorem precedes_of_mem {c : Char} {b : UInt8} (hb : b ∈ String.utf8EncodeChar c) :
    Precedes b c := by
  intro d hd
  have one : d.utf8Size = 1 := by
    simp only [List.mem_cons, List.not_mem_nil, or_false] at hd
    rcases hd with rfl | rfl | rfl | rfl <;> rfl
  exact Text.eq_toUInt8_iff hb one

/-- **The equals sign is found where the character is.** -/
theorem signAt?_eq {before : UInt8} {c : Char} (hb : Precedes before c) (here : Nat) (s : Text) :
    signAt? before here (Text.bytes s) =
      (atEquals? c s).map fun (l, _) => here + Text.byteLength l := by
  -- on the characters: one of several bytes has none of ASCII, and is passed at once
  induction s generalizing before c here with
  | nil => rfl
  | cons d s ih =>
    by_cases hd : d.utf8Size = 1
    · have own : d.toUInt8 ∈ String.utf8EncodeChar d := by
        rw [Text.utf8EncodeChar_of_one hd]
        exact List.mem_cons_self
      have sign : d.toUInt8 = '='.toUInt8 ↔ d = '=' := Text.eq_toUInt8_iff own rfl
      have next : (Text.bytes s).head? = some '='.toUInt8 ↔ s.head? = some '=' :=
        Text.head?_bytes s rfl
      have prev : before ∈ ['=', '!', '<', '>'].map Char.toUInt8 ↔ c ∈ ['=', '!', '<', '>'] := by
        simp only [List.mem_map]
        constructor
        · rintro ⟨e, he, h⟩
          rwa [(hb e he).mp h.symm]
        · intro h
          exact ⟨c, h, ((hb c h).mpr rfl).symm⟩
      rw [Text.bytes_cons, Text.utf8EncodeChar_of_one hd, List.singleton_append, signAt?,
        atEquals?]
      simp only [sign, ne_eq, next, prev, ih (precedes_of_mem own)]
      split_ifs
      · rfl
      · cases atEquals? d s with
        | none => rfl
        | some p => simp [Text.byteLength, hd, Nat.add_assoc]
    · have several : ∀ b ∈ String.utf8EncodeChar d, 128 ≤ b.toNat := fun b hb =>
        Text.le_of_mem_utf8EncodeChar hd hb
      have last : (String.utf8EncodeChar d).getLastD before ∈ String.utf8EncodeChar d := by
        obtain ⟨b, bs, h⟩ := List.exists_cons_of_ne_nil (Text.utf8EncodeChar_ne_nil d)
        rw [h, List.getLastD_cons]
        exact List.getLastD_mem_cons
      have other : ¬ d = '=' := by
        rintro rfl
        exact hd rfl
      rw [Text.bytes_cons, signAt?_append several, ih (precedes_of_mem last), atEquals?,
        if_neg fun h => other h.1, String.length_utf8EncodeChar]
      cases atEquals? d s with
      | none => rfl
      | some p => simp [Text.byteLength, Nat.add_assoc]

/-- The cut before the variable is where the text is divided. -/
theorem cutAt_findLast? (left : Text) :
    Text.cutAt (((Text.findLast? (!Text.inName ·) left).map (· + 1)).getD 0) left =
      target left := by
  rcases exists_last_run left with hv | ⟨x, c, v, rfl, hc, hv⟩
  · obtain ⟨hvar, hbefore⟩ := Closure.takeWhile_reverse (x := []) hv (by simp)
    rw [List.nil_append] at hvar hbefore
    rw [Text.findLast?_of_none (by simpa using hv), target, hvar, hbefore]
    exact Text.cutAt.eq_1 left
  · rw [Text.findLast?_append (by simp [hc]) (by simpa using hv), target_append hc hv,
      Option.map_some, Option.getD_some, Text.cutAt_append]
    have := Char.utf8Size_pos c
    by_cases h : c.utf8Size = 1
    · rw [if_pos h, Text.cutAt_cons (by omega), h, Text.cutAt]
      rfl
    · have inside : ¬ c.utf8Size ≤ 0 + 1 := by omega
      rw [if_neg h, Text.cutAt, if_neg inside]
      rfl

/-- **A line is read the same from its bytes**, and the cut of it inside a character is the same
fault. -/
theorem cutLine_eq (line : Text) : cutLine line = ofLine line := by
  have sign := signAt?_eq (precedes_of_mem (c := ' ') (b := ' '.toUInt8) (by decide)) 0 (body line)
  rw [cutLine, ofLine]
  simp only [sign]
  cases h : atEquals? ' ' (body line) with
  | none => rfl
  | some p =>
    obtain ⟨l, r⟩ := p
    have parts : body line = l ++ '=' :: r := (atEquals?_eq_some_iff.mp h).1
    have left : Text.slice 0 (0 + Text.byteLength l) (body line) = .ok l := by
      rw [parts]
      exact Text.slice_append [] l ('=' :: r)
    have right : Text.fromByte (0 + Text.byteLength l + 1) (body line) = .ok r := by
      have sign : 0 + Text.byteLength l + 1 = Text.byteLength (l ++ ['=']) := by
        rw [Nat.zero_add, Text.byteLength_append]
        rfl
      rw [parts, sign, List.append_cons l '=' r, Text.fromByte_byteLength]
    simp only [Option.map_some, left, right, bind, Except.bind, cutAt_findLast?]
    rfl

end Assignment

/-! ### Bodies that are cut -/

namespace Shape

/-- Of two lines the last returns a value, the first none, and the first is cut inside a
character. -/
def Cut (lines : List Text) : Prop :=
  ∃ line last, lines = [line, last] ∧ returnsValue last = true ∧ returnsValue line = false ∧
    Assignment.CutsCharacter line

/-- A line returns a value exactly if it is a return of another kind than null. -/
theorem returnsValue_iff {line : Text} : returnsValue line = true ↔
    ∃ kind result, Return.ofLine? line = some (kind, result) ∧ kind ≠ Return.nullKind := by
  unfold returnsValue
  split <;> simp_all

/-- A line is read as an assignment, or as none, unless it is cut inside a character. -/
theorem exists_ofLine_iff {line : Text} :
    (∃ a?, Assignment.ofLine line = .ok a?) ↔ ¬ Assignment.CutsCharacter line := by
  rw [← Assignment.ofLine_eq_error_iff]
  cases Assignment.ofLine line <;> simp

/-- Only a single line is read as an assignment. -/
theorem exists_ofLines?_iff {before : List Text} {nullable : Bool} {result : Text} :
    (∃ s, ofLines? before nullable result = .ok s) ↔
      ∀ line, before = [line] → ¬ Assignment.CutsCharacter line := by
  have other {x : Except Fault (Option Shape)} (hx : ∃ s, x = .ok s)
      (hb : ∀ line, before ≠ [line]) :
      (∃ s, x = .ok s) ↔ ∀ line, before = [line] → ¬ Assignment.CutsCharacter line :=
    iff_of_true hx fun line h => absurd h (hb line)
  unfold ofLines?
  split
  · exact other ⟨_, rfl⟩ (by simp)
  · next l =>
    simp only [List.cons.injEq, and_true, forall_eq']
    rw [← exists_ofLine_iff]
    cases Assignment.ofLine l with
    | error f => simp [bind, Except.bind]
    | ok a? =>
      refine iff_of_true ?_ ⟨_, rfl⟩
      simp only [bind, Except.bind]
      split
      · split <;> exact ⟨_, rfl⟩
      · exact ⟨_, rfl⟩
  · refine other ?_ (by simp)
    split
    · exact ⟨_, rfl⟩
    · split <;> exact ⟨_, rfl⟩
  · refine other ?_ (by simp)
    split
    · split <;> exact ⟨_, rfl⟩
    · exact ⟨_, rfl⟩
  · exact other ⟨_, rfl⟩ (by simp)
  · next h _ _ _ => exact other ⟨_, rfl⟩ (by simpa using h)

/-- Of lines with a last one it is the one line before it that may be cut. -/
theorem cut_iff_of_getLast? {lines : List Text} {last : Text} (h : lines.getLast? = some last) :
    Cut lines ↔ ∃ line, lines.dropLast = [line] ∧ returnsValue last = true ∧
      returnsValue line = false ∧ Assignment.CutsCharacter line := by
  constructor
  · rintro ⟨line, last', rfl, cut⟩
    obtain rfl : last' = last := by simpa using h
    exact ⟨line, rfl, cut⟩
  · rintro ⟨line, hl, cut⟩
    exact ⟨line, last, by rw [← List.dropLast_append_getLast? last h, hl]; rfl, cut⟩

/-- **The lines of a body have a shape unless they are cut.** -/
theorem exists_classify_iff {lines : List Text} (nullable : Bool) :
    (∃ s, classify lines nullable = .ok s) ↔ ¬ Cut lines := by
  unfold classify
  split
  · next hr =>
    refine iff_of_true ⟨_, rfl⟩ ?_
    rintro ⟨line, last, rfl, hlast, -⟩
    obtain ⟨kind, result, h, -⟩ := returnsValue_iff.mp hlast
    have : Return.ofLine? last = none := hr
    rw [h] at this
    cases this
  · next kind result hr =>
    obtain ⟨last, hlast, hr⟩ := Option.bind_eq_some_iff.mp hr
    rw [cut_iff_of_getLast? hlast]
    split
    · next hn =>
      -- the lines are kept unread, since the last returns no value or another does
      refine iff_of_true ⟨_, rfl⟩ ?_
      rintro ⟨line, hl, hv, hb, -⟩
      rcases hn with rfl | hn
      · simp [returnsValue, hr] at hv
      · simp [hl, hb] at hn
    · next hn =>
      rw [not_or, Bool.not_eq_true] at hn
      have value : returnsValue last = true := returnsValue_iff.mpr ⟨kind, result, hr, hn.1⟩
      have read : (∃ s, (ofLines? lines.dropLast nullable result).map
          (fun s => s.getD (.unclassified lines)) = .ok s) ↔
            ∃ s, ofLines? lines.dropLast nullable result = .ok s := by
        cases ofLines? lines.dropLast nullable result <;> simp [Except.map]
      rw [read, exists_ofLines?_iff]
      constructor
      · rintro h ⟨line, hl, -, -, hc⟩
        exact h line hl hc
      · intro h line hl hc
        have none : returnsValue line = false := by
          have := hn.2
          rw [hl] at this
          simpa using this
        exact h ⟨line, hl, value, none, hc⟩

end Shape

namespace Implementation

/-- A body is read unless it is cut. -/
theorem exists_ofBody_iff {symbol body : Text} {span : Span} :
    (∃ n, ofBody symbol body span = .ok n) ↔ ¬ Shape.Cut (Line.ofBody body) := by
  rw [← Shape.exists_classify_iff (Return.summary body).2]
  cases h : Shape.classify (Line.ofBody body) (Return.summary body).2 with
  | error f => simp [ofBody, h, bind, Except.bind]
  | ok s =>
    refine iff_of_true ?_ ⟨s, rfl⟩
    simp only [ofBody, h, bind, Except.bind, pure, Except.pure]
    exact ⟨_, rfl⟩

end Implementation

namespace NativeSource

/-- A symbol is collected unless its body is cut. -/
theorem exists_collect_iff {find : Text → Option (Text × Span)} {acc : NativeSource}
    {symbol : Text} : (∃ u, collect find acc symbol = .ok u) ↔
      ∀ body span, find symbol = some (body, span) → ¬ Shape.Cut (Line.ofBody body) := by
  rw [collect]
  cases find symbol with
  | none => exact iff_of_true ⟨_, rfl⟩ (by simp)
  | some p =>
    obtain ⟨body, span⟩ := p
    have read : (∃ n, Implementation.ofBody symbol body span = .ok n) ↔
        ¬ Shape.Cut (Line.ofBody body) := Implementation.exists_ofBody_iff
    have only : (∀ body' span', some (body, span) = some (body', span') →
        ¬ Shape.Cut (Line.ofBody body')) ↔ ¬ Shape.Cut (Line.ofBody body) := by
      constructor
      · intro h
        exact h body span rfl
      · rintro h _ _ ⟨⟩
        exact h
    rw [only, ← read]
    dsimp only
    cases Implementation.ofBody symbol body span <;> simp [bind, Except.bind, pure, Except.pure]

/-- **A source has a reading unless the body of an exported symbol is cut.** -/
theorem exists_parse_iff {file : Option Nat} {source : Text} :
    (∃ u, parse file source = .ok u) ↔
      ∀ symbol ∈ exports source, ∀ body span,
        lookup? file source symbol = some (body, span) → ¬ Shape.Cut (Line.ofBody body) := by
  rw [parse_eq]
  have step (acc : NativeSource) (symbol : Text) :
      (∃ u, collect (lookup? file source) acc symbol = .ok u) ↔ ∀ body span,
        lookup? file source symbol = some (body, span) → ¬ Shape.Cut (Line.ofBody body) :=
    exists_collect_iff
  exact exists_foldlM_iff step (exports source) {}

end NativeSource

end VectorWrap
