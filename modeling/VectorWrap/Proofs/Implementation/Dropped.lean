import VectorWrap.Proofs.Implementation.Joined

/-!
# What becomes of a line

A processing line is kept by the shape (`keeps_of_classify`).  A line that is dropped is accounted
for if it is lone punctuation, a row of bindings that are all reported as slots, the type tag, or
the freeing of argument copies.

The test that drops a line looks for marks anywhere in it, so a line may be dropped that does more.
`accounts_iff` says that nothing else goes wrong: where comments, literals and blanks do not get in
the way of the scans, every line is accounted for exactly when every idle line is what the test
takes it for.

`Sincere` says of an idle line what the test means by it, `Accounts` what the reading makes of it,
and the two are compared kind by kind: a row of fetches by its place in the body
(`exists_place_of_isRow`), the type tag by its text, and the rest, which needs no account, by being
nothing else.
-/

namespace VectorWrap
open Scan

/-! ### What a shape keeps -/

namespace Shape

/-- The line returns the value `result`. -/
def Returns (result line : Text) : Prop :=
  ∃ kind, Return.ofLine? line = some (kind, result)

/-- The processing line is one that the shape was made of. -/
def Keeps (line : Text) : Shape → Prop
  | .call result => Returns result line
  | .assigned type var value =>
      (∃ a, Assignment.ofLine line = .ok (some a) ∧ type = a.type?.getD "auto" ∧ var = a.var ∧
        value = a.value) ∨ ∃ result, Returns result line ∧ (Call.parse result).bareName? = some var
  | .filled setup filling result => line = setup ∨ line = filling ∨ Returns result line
  | .guarded setup? guard result =>
      setup? = some line ∨ guardCondition? line = some guard ∨ Return.isNull line = true ∨
        Returns result line
  | .block lines result => line ∈ lines ∨ Returns result line
  | .unclassified lines => line ∈ lines

/-- A shape that is read of lines keeps each of them. -/
theorem keeps_of_ofLines? {before : List Text} {nullable : Bool} {result last : Text} {s : Shape}
    (h : ofLines? before nullable result = .ok (some s)) (hlast : Returns result last) :
    (∀ l ∈ before, s.Keeps l) ∧ s.Keeps last := by
  rcases ofLines?_cases h with ⟨rfl, rfl⟩ | ⟨l, a, rfl, ha, bare, rfl⟩ | ⟨l, m, rfl, -, -, rfl⟩ |
    ⟨l, m, _, rfl, guards, null, rfl⟩ | ⟨l, m, k, _, rfl, -, -, guards, null, rfl⟩ |
    ⟨l, m, k, rfl, -, rfl⟩
  · exact ⟨by simp, hlast⟩
  · exact ⟨List.forall_mem_singleton.mpr (.inl ⟨a, ha, rfl, rfl, rfl⟩),
      .inr ⟨result, hlast, bare⟩⟩
  · exact ⟨List.forall_mem_cons.mpr ⟨.inl rfl, List.forall_mem_singleton.mpr (.inr (.inl rfl))⟩,
      .inr (.inr hlast)⟩
  · exact ⟨List.forall_mem_cons.mpr ⟨.inr (.inl guards),
      List.forall_mem_singleton.mpr (.inr (.inr (.inl null)))⟩, .inr (.inr (.inr hlast))⟩
  · exact ⟨List.forall_mem_cons.mpr ⟨.inl rfl, List.forall_mem_cons.mpr ⟨.inr (.inl guards),
      List.forall_mem_singleton.mpr (.inr (.inr (.inl null)))⟩⟩, .inr (.inr (.inr hlast))⟩
  · exact ⟨fun l hl => .inl hl, .inr hlast⟩

/-- **A shape keeps every line that it was made of.** -/
theorem keeps_of_classify {lines : List Text} {nullable : Bool} {s : Shape}
    (h : classify lines nullable = .ok s) : ∀ l ∈ lines, s.Keeps l := by
  rcases classify_cases h with rfl | ⟨before, last, kind, result, rfl, hr, -, -, read⟩
  · exact fun l hl => hl
  · obtain ⟨hbefore, hkeeps⟩ := keeps_of_ofLines? read ⟨kind, hr⟩
    exact List.forall_mem_append.mpr ⟨hbefore, List.forall_mem_singleton.mpr hkeeps⟩

end Shape

/-! ### Lines that need no place in a shape -/

namespace Line

/-- The line is the statement that asks for the type of an argument, and no other. -/
def IsTag (line : Text) : Prop :=
  typeTagMark <+: line ∧ (Text.tokens line).getLast? = some (.mark ';') ∧
    .mark ';' ∉ (Text.tokens line).dropLast

instance {line : Text} : Decidable (IsTag line) :=
  inferInstanceAs (Decidable (_ ∧ _ ∧ _))

/-- Reads the freeing of an argument copy. -/
def releaseForm : Scan Unit := do
  symbol "PG_FREE_IF_COPY"
  let _ ← parenthesised
  symbol ";"

/-- The line frees argument copies and does nothing else. -/
def IsRelease (line : Text) : Prop :=
  line ≠ [] ∧ (repeated releaseForm line).2 = []

instance {line : Text} : Decidable (IsRelease line) :=
  inferInstanceAs (Decidable (_ ∧ _))

/-- The line is accounted for without the shape. -/
inductive Settled (line : Text) : Prop where
  | lone (h : line = [] ∨ line = [';'])
  | row {bs : List ArgSlot.Binding} (h : ArgSlot.IsRow line bs)
  | tag (h : IsTag line)
  | release (h : IsRelease line)

theorem working_of_isIdle {line : Text} (h : isIdle (unbrace line) = true) : working line = [] :=
  if_pos h

/-- Any other line has one. -/
theorem working_ne_nil {line : Text} (h : isIdle (unbrace line) = false) : working line ≠ [] := by
  unfold working
  dsimp only
  rw [if_neg (by simp [h])]
  split <;> simp

end Line

/-! ### Accounts of bodies -/

/-- The number of a slot is one that can be counted to. -/
theorem ArgSlot.index_le_of_mem {body : Text} {slot : ArgSlot} (h : slot ∈ ofBody body) :
    slot.index ≤ maxIndex := by
  have bound : ∀ {b : Binding}, ofBinding? b = some slot → slot.index ≤ maxIndex := fun {b} h => by
    rw [ofBinding?] at h
    split_ifs at h with hn
    cases h
    exact hn
  have hm : slot ∈ found body := List.mem_mergeSort.mp h
  rw [found_eq, merged] at hm
  rcases List.mem_append.mp hm with hm | hm
  · obtain ⟨d, -, hd⟩ := List.mem_filterMap.mp hm
    exact bound hd
  · obtain ⟨a, -, ha⟩ := List.mem_filterMap.mp hm
    split_ifs at ha
    exact bound ha

namespace Implementation
open Line ArgSlot

/-- The logical line is accounted for.  If it has a fetch it is a row of bindings that are all
reported, if it has the mark of the type tag the implementation asks for one, and the shape keeps
all of it unless it needs no place there. -/
structure Accounts (n : Implementation) (line : Text) : Prop where
  fetches : fetchMark <:+: unbrace line →
    ∃ bs, IsRow (unbrace line) bs ∧ ∀ b ∈ bs, ∃ slot ∈ n.slots, slot.Reports b
  tags : typeTagMark <:+: unbrace line → n.needsTypeTag = true
  whole : Settled (unbrace line) ∨
    working line ≠ [] ∧ ∀ p ∈ working line, n.shape.Keeps p

/-- What the test for idle lines takes a logical line for is what it is: a line with a fetch is a
row of bindings with numbers that can be counted, the mark of a type tag is written in the body as
it is in the line, and an idle line needs no place in a shape. -/
structure Sincere (body line : Text) : Prop where
  fetches : fetchMark <:+: unbrace line →
    ∃ bs, IsRow (unbrace line) bs ∧ ∀ b ∈ bs, number b.digits ≤ maxIndex
  tags : typeTagMark <:+: unbrace line → typeTagMark <:+: body
  idle : isIdle (unbrace line) = true → Settled (unbrace line)

/-- Comments, literals and blanks do not get in the way of the scans: comments and literals are
closed, comments stand apart from words and bindings, no literal goes over the end of a line, no
blank is anything but layout, and no cast holds an equals sign. -/
structure Legible (body : Text) : Prop where
  terminated : Terminated body
  clear : Clear body
  declarations : Apart declaration body
  assignments : Apart assignment body
  lines : EndsInCode body
  blanks : PlainBlanks body
  casts : ∀ f ∈ sweep assignment codeGap (stripComments body), f.text.count '=' = 1

instance {body : Text} : Decidable (Legible body) :=
  decidable_of_iff (Terminated body ∧ Clear body ∧ Apart declaration body ∧ Apart assignment body ∧
    EndsInCode body ∧ PlainBlanks body ∧
    ∀ f ∈ sweep assignment codeGap (stripComments body), f.text.count '=' = 1)
    ⟨fun ⟨h₁, h₂, h₃, h₄, h₅, h₆, h₇⟩ => ⟨h₁, h₂, h₃, h₄, h₅, h₆, h₇⟩,
      fun h => ⟨h.1, h.2, h.3, h.4, h.5, h.6, h.7⟩⟩

/-- A legible body is tidy when it is stripped. -/
theorem Legible.tidy {body : Text} (h : Legible body) : Tidy (stripComments body) where
  bared := bared_strip h.terminated h.clear
  declared f hf := by
    obtain ⟨e, hp⟩ :=
      sweep_stripComments closed_declaration bare_declaration h.terminated h.clear h.declarations
    rw [e] at hf
    obtain ⟨g, hg, rfl⟩ := List.mem_map.mp hf
    exact code_strip (hp g hg).1
  assigned f hf := by
    obtain ⟨e, hp⟩ :=
      sweep_stripComments closed_assignment bare_assignment h.terminated h.clear h.assignments
    rw [e] at hf
    obtain ⟨g, hg, rfl⟩ := List.mem_map.mp hf
    exact ⟨code_strip (hp g hg).1, code_strip (hp g hg).2⟩
  casts := h.casts

/-- **Every binding of a row is reported as a slot.** -/
theorem Legible.exists_slot {body line : Text} (hl : Legible body) (hm : line ∈ logical body)
    {bs : List Binding} (hr : IsRow (unbrace line) bs) {b : Binding} (hb : b ∈ bs)
    (hn : number b.digits ≤ maxIndex) : ∃ slot ∈ ArgSlot.ofBody body, slot.Reports b := by
  have same : ArgSlot.ofBody (stripComments body) = ArgSlot.ofBody body := by
    rw [ArgSlot.ofBody, found_stripComments hl.terminated hl.clear hl.declarations hl.assignments,
      ArgSlot.ofBody]
  obtain ⟨after, hstands⟩ := stands_of_mem_logical hl.tidy.bared hl.lines hl.blanks hm
  obtain ⟨x, r, hx, hbegins, hstarts, hread⟩ := exists_place_of_isRow hl.tidy.bared hstands hr hb
  rw [← same]
  exact exists_slot_of_place hl.tidy hx hbegins hstarts hread hn

/-- The slots, the type tag and the shape of what is read from a body. -/
theorem fields_ofBody {symbol body : Text} {span : Span} {n : Implementation}
    (h : ofBody symbol body span = .ok n) : n.slots = ArgSlot.ofBody body ∧
      n.needsTypeTag = Text.contains typeTagMark body ∧
      Shape.classify (Line.ofBody body) n.nullable = .ok n.shape := by
  obtain ⟨shape, hs, rfl⟩ := exists_of_ofBody h
  exact ⟨rfl, rfl, hs⟩

/-- **When nothing of a body is lost.**  Every logical line of a legible body is accounted for
exactly when every one is what the test for idle lines takes it for. -/
theorem accounts_iff {symbol body : Text} {span : Span} {n : Implementation}
    (h : ofBody symbol body span = .ok n) (hl : Legible body) :
    (∀ line ∈ logical body, Accounts n line) ↔ ∀ line ∈ logical body, Sincere body line := by
  obtain ⟨hslots, htag, hshape⟩ := fields_ofBody h
  refine forall₂_congr fun line hm => ⟨fun ha => ⟨fun hf => ?_, fun ht => ?_, fun hi => ?_⟩,
    fun hs => ⟨fun hf => ?_, fun ht => ?_, ?_⟩⟩
  · obtain ⟨bs, hrow, hreports⟩ := ha.fetches hf
    refine ⟨bs, hrow, fun b hb => ?_⟩
    obtain ⟨slot, hslot, hr⟩ := hreports b hb
    rw [← hr.index]
    exact index_le_of_mem (hslots ▸ hslot)
  · rw [← Text.contains_iff, ← htag]
    exact ha.tags ht
  · exact ha.whole.resolve_right fun hw => hw.1 (working_of_isIdle hi)
  · obtain ⟨bs, hrow, hbound⟩ := hs.fetches hf
    refine ⟨bs, hrow, fun b hb => ?_⟩
    rw [hslots]
    exact hl.exists_slot hm hrow hb (hbound b hb)
  · rw [htag, Text.contains_iff]
    exact hs.tags ht
  · cases hi : isIdle (unbrace line) with
    | true => exact .inl (hs.idle hi)
    | false =>
      refine .inr ⟨working_ne_nil hi, fun p hp => Shape.keeps_of_classify hshape p ?_⟩
      exact List.mem_flatMap.mpr ⟨line, hm, hp⟩

/-- A body with a row of two bindings, of which one is broken into two lines, a comment, a type tag
and the freeing of a copy. -/
def rowedBody : Text :=
  "Set *s = PG_GETARG_SET_P(0); int32 n = PG_GETARG_INT32(\n  1); // the count\n" ++
    "meosType basetype = g(s);\nPG_FREE_IF_COPY(s, 0);\nPG_RETURN_INT32(f(n, basetype));"

/-- The theorem for that body. -/
theorem accounts_iff_of_row : ∃ n, ofBody "f" rowedBody ⟨none, 0, 0⟩ = .ok n ∧
    n.shape.isClassified = true ∧ Legible rowedBody ∧
    ∀ line ∈ logical rowedBody, Accounts n line := by
  obtain ⟨n, hn, hshape⟩ := exists_of_satisfies (x := ofBody "f" rowedBody ⟨none, 0, 0⟩)
    (p := fun n => n.shape.isClassified) (by decide +kernel)
  have legible : Legible rowedBody :=
    ⟨by decide +kernel, by decide +kernel, by decide +kernel, by decide +kernel, by decide +kernel,
      by decide +kernel, by decide +kernel⟩
  refine ⟨n, hn, hshape, legible, (accounts_iff hn legible).mpr ?_⟩
  have lines : logical rowedBody =
      ["Set *s = PG_GETARG_SET_P(0); int32 n = PG_GETARG_INT32( 1);".toList,
        "meosType basetype = g(s);".toList, "PG_FREE_IF_COPY(s, 0);".toList,
        "PG_RETURN_INT32(f(n, basetype));".toList] := by
    decide +kernel
  have lacks : ∀ {w s : Text}, Text.contains w s = false → ¬ w <:+: s := fun h hi => by
    rw [Text.contains_iff.mpr hi] at h
    cases h
  have row : IsRow (unbrace "Set *s = PG_GETARG_SET_P(0); int32 n = PG_GETARG_INT32( 1);")
      [⟨none, "s", "SET_P", "0"⟩, ⟨none, "n", "INT32", "1"⟩] :=
    ⟨by decide, by decide +kernel, by decide +kernel, by decide +kernel⟩
  have fetches : Sincere rowedBody "Set *s = PG_GETARG_SET_P(0); int32 n = PG_GETARG_INT32( 1);" :=
    ⟨fun _ => ⟨_, row, by decide +kernel⟩, fun h => absurd h (lacks (by decide +kernel)),
      fun _ => .row row⟩
  have tag : Sincere rowedBody "meosType basetype = g(s);" :=
    ⟨fun h => absurd h (lacks (by decide +kernel)),
      fun _ => Text.contains_iff.mp (by decide +kernel), fun _ => .tag (by decide +kernel)⟩
  have release : Sincere rowedBody "PG_FREE_IF_COPY(s, 0);" :=
    ⟨fun h => absurd h (lacks (by decide +kernel)), fun h => absurd h (lacks (by decide +kernel)),
      fun _ => .release (by decide +kernel)⟩
  have busy : isIdle (unbrace "PG_RETURN_INT32(f(n, basetype));") = false := by decide +kernel
  have returns : Sincere rowedBody "PG_RETURN_INT32(f(n, basetype));" :=
    ⟨fun h => absurd h (lacks (by decide +kernel)), fun h => absurd h (lacks (by decide +kernel)),
      fun h => by
        rw [busy] at h
        cases h⟩
  rw [lines]
  exact List.forall_mem_cons.mpr ⟨fetches, List.forall_mem_cons.mpr ⟨tag,
    List.forall_mem_cons.mpr ⟨release, List.forall_mem_singleton.mpr returns⟩⟩⟩

/-- A body with a statement behind a binding. -/
def countingBody : Text :=
  "int32 n = PG_GETARG_INT32(0); n++;\nPG_RETURN_INT32(f(n));"

/-- What stands behind a binding is dropped with it. -/
theorem increment_dropped : ∃ n, ofBody "f" countingBody ⟨none, 0, 0⟩ = .ok n ∧
    n.shape = .call "f(n)" ∧ ∃ line ∈ logical countingBody, "n++;".toList <:+: line ∧
      fetchMark <:+: unbrace line ∧ (¬ ∃ bs, IsRow (unbrace line) bs) ∧ ¬ Accounts n line := by
  obtain ⟨n, hn, hshape⟩ := exists_of_satisfies (x := ofBody "f" countingBody ⟨none, 0, 0⟩)
    (p := fun n => n.shape = .call "f(n)") (by decide +kernel)
  have fetches : fetchMark <:+: unbrace "int32 n = PG_GETARG_INT32(0); n++;" :=
    Text.contains_iff.mp (by decide +kernel)
  have left : (repeated statementForm (unbrace "int32 n = PG_GETARG_INT32(0); n++;")).2 =
      " n++;".toList := by
    decide +kernel
  have no_row : ¬ ∃ bs, IsRow (unbrace "int32 n = PG_GETARG_INT32(0); n++;") bs := by
    rintro ⟨bs, h⟩
    rw [h.reads] at left
    cases left
  refine ⟨n, hn, of_decide_eq_true hshape, "int32 n = PG_GETARG_INT32(0); n++;", by decide +kernel,
    Text.contains_iff.mp (by decide +kernel), fetches, no_row, fun h => no_row ?_⟩
  obtain ⟨bs, hrow, -⟩ := h.fetches fetches
  exact ⟨bs, hrow⟩

end Implementation

end VectorWrap
