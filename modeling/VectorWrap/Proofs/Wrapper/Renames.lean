import VectorWrap.Proofs.Code.Lexical
import VectorWrap.Proofs.Implementation.Lines
import VectorWrap.Proofs.Wrapper.Anatomy

/-!
# What the renaming of a body touches

The texts of a body are renamed name by name: the tokens of a renamed text are those of the text,
renamed (`tokens_text`).  Which thing a name stands for plays no part in that.  So a member of a
structure is renamed along with the variable it is called like, and the word of a constant if it is
what the body returns; and as `result` is always given the name that the returned variable gets, two
variables may become one.

No more than the returned variable is renamed exactly when no name is caught in such a way
(`renames_output_only_iff`).
-/

namespace VectorWrap

namespace Renaming

/-- **The tokens of a renamed text are the tokens of the text, renamed.** -/
theorem tokens_text {m : Renaming} (hm : ∀ p ∈ m, Text.isName p.2 = true) (s : Text) :
    Text.tokens (m.text s) = (Text.tokens s).map m.token :=
  tokens_text_of_givesNames (fun _ => isName_apply hm) s

end Renaming

/-! ### What a name stands for -/

/-- The token is layout. -/
def Token.isBlank : Token → Bool
  | .mark c => Text.isLayout c
  | _ => false

/-- A place at which a name stands in a text: the tokens before it, the nearest first, and those
after it. -/
structure Occurrence where
  before : List Token
  name : Text
  after : List Token

namespace Occurrence

/-- The name stands right behind a point or an arrow. -/
def isMember (o : Occurrence) : Bool :=
  match o.before with
  | .mark '.' :: _ => true
  | .mark '>' :: .mark '-' :: _ => true
  | _ => false

/-- The next token, blanks left out, opens a parenthesis. -/
def isCalled (o : Occurrence) : Bool :=
  (o.after.dropWhile Token.isBlank).head? == some (.mark '(')

/-- The names among tokens that stand behind others. -/
def list (before : List Token) : List Token → List Occurrence
  | [] => []
  | .identifier w :: ts => ⟨before, w, ts⟩ :: list (.identifier w :: before) ts
  | t :: ts => list (t :: before) ts

end Occurrence

namespace Text

/-- The names of members in a text. -/
def members (s : Text) : List Text :=
  ((Occurrence.list [] (tokens s)).filter (·.isMember)).map (·.name)

/-- The names in a text where they stand for themselves: for no member, and not called. -/
def vars (s : Text) : List Text :=
  ((Occurrence.list [] (tokens s)).filter fun o => !o.isMember && !o.isCalled).map (·.name)

/-- The words that stand for values, not for variables. -/
def constants : List Text :=
  ["true".toList, "false".toList, "NULL".toList]

end Text

/-- The lines of a body that a shape keeps.  Of an assignment the parts are kept; the variable is
put right behind what precedes it, but for a blank between two words. -/
def Shape.lines : Shape → List Text
  | .assigned type var value =>
      [type ++ (if type.getLast?.any Text.inName then " ".toList else []) ++ var ++ " = " ++ value]
  | .unclassified lines => lines
  | s => s.texts

namespace Closure

/-- The variables of a body: those of its slots, and the names that stand for themselves in it. -/
def vars (n : Implementation) : List Text :=
  n.slotVars ++ Text.vars (Line.stripComments n.body)

/-- The returned variable, if it is no argument. -/
def outputVar? (n : Implementation) : Option Text :=
  n.shape.returnedVar?.filter fun v => !n.slotVars.contains v

/-- The renaming leaves members and constants as they are, and different variables different. -/
structure RenamesOutputOnly (n : Implementation) : Prop where
  members : ∀ line ∈ n.shape.lines, ∀ w ∈ Text.members line, (outputRenaming n).apply w = w
  constants : ∀ w ∈ Text.constants, (outputRenaming n).apply w = w
  apart : ∀ x ∈ vars n, ∀ y ∈ vars n,
    (outputRenaming n).apply x = (outputRenaming n).apply y → x = y

/-! ### Names that are caught -/

/-- The name that a body may have for its result. -/
def reserved : Text := "result"

/-- Allocates memory in a body. -/
def palloc : Text := "palloc"

/-- Allocates memory in a wrapper. -/
def malloc : Text := "malloc"

/-- Releases memory in a body. -/
def pfree : Text := "pfree"

/-- Releases memory in a wrapper. -/
def free : Text := "free"

/-- The names that are given another. -/
def renamed (n : Implementation) : List Text :=
  (outputVar? n).toList ++ [reserved, palloc, pfree]

/-- The names that become that of the result. -/
def outputs (n : Implementation) : List Text :=
  (outputVar? n).toList ++ [reserved, result]

/-- Two texts are the same when their characters are. -/
local instance lawful_text : LawfulBEq Text := inferInstance

/-- The names that become one: those of the result, and each function of a body with the one that
stands in for it, unless that is the returned variable. -/
def families (n : Implementation) : List (List Text) :=
  [outputs n, [palloc, malloc].filter (· ∉ outputs n), [pfree, free].filter (· ∉ outputs n)]

/-- No name is caught: a member is called like nothing that is renamed, what is returned is no
constant, and of the names that become one the body has one variable at most. -/
structure Uncaught (n : Implementation) : Prop where
  members : ∀ line ∈ n.shape.lines, ∀ w ∈ Text.members line, w ∈ renamed n → w = result
  constants : ∀ v ∈ outputVar? n, v ∉ Text.constants
  apart : ∀ names ∈ families n, ∀ x ∈ names, ∀ y ∈ names,
    x ∈ vars n → y ∈ vars n → x = y

/-- The renaming of a body: its variable, the reserved name and the functions. -/
theorem outputRenaming_eq (n : Implementation) :
    outputRenaming n = (outputVar? n).toList.map (·, result) ++
      [(reserved, result), (palloc, malloc), (pfree, free)] := by
  rw [outputRenaming, outputVar?]
  cases n.shape.returnedVar? with
  | none => rfl
  | some v => cases h : n.slotVars.contains v <;> simp only [Option.filter_some, h] <;> rfl

theorem distinct_names : [palloc, malloc, pfree, free, result].Nodup := by
  decide

theorem mem_outputs {n : Implementation} {w : Text} :
    w ∈ outputs n ↔ outputVar? n = some w ∨ w = reserved ∨ w = result := by
  simp only [outputs, List.mem_append, Option.mem_toList, List.mem_cons, List.not_mem_nil,
    or_false]

theorem result_mem_outputs (n : Implementation) : result ∈ outputs n :=
  mem_outputs.mpr (.inr (.inr rfl))

/-- The function that stands in for another, or the name itself. -/
def standIn (w : Text) : Text :=
  if w = palloc then malloc else if w = pfree then free else w

/-- The new name of a name. -/
theorem apply_outputRenaming (n : Implementation) (w : Text) :
    (outputRenaming n).apply w = if w ∈ outputs n then result else standIn w := by
  have first : (outputRenaming n).apply w =
      if outputVar? n = some w then result else if w = reserved then result else standIn w := by
    rw [outputRenaming_eq]
    cases outputVar? n with
    | none => simp only [Option.toList_none, List.map_nil, List.nil_append, Renaming.apply_cons,
        Renaming.apply_nil, reduceCtorEq, if_false, standIn]
    | some v => simp only [Option.toList_some, List.map_cons, List.map_nil, List.cons_append,
        List.nil_append, Renaming.apply_cons, Renaming.apply_nil, Option.some.injEq,
        @eq_comm _ v w, standIn]
  rw [first]
  by_cases h : w ∈ outputs n
  · rw [if_pos h]
    rcases mem_outputs.mp h with h | rfl | rfl
    · rw [if_pos h]
    · rw [if_pos rfl, ite_self]
    · rw [if_neg (by decide : result ≠ reserved)]
      exact (ite_eq_left_iff.mpr fun _ => by decide)
  · rw [if_neg h]
    obtain ⟨hv, hr⟩ := not_or.mp (mt mem_outputs.mpr h)
    rw [if_neg hv, if_neg (not_or.mp hr).1]

/-- Two names get one stand-in within the functions of one pair. -/
theorem standIn_eq_iff {x y : Text} (hne : x ≠ y) : standIn x = standIn y ↔
    x ∈ [palloc, malloc] ∧ y ∈ [palloc, malloc] ∨ x ∈ [pfree, free] ∧ y ∈ [pfree, free] := by
  have distinct := distinct_names
  simp only [List.nodup_cons, List.mem_cons, List.not_mem_nil, or_false, not_or] at distinct
  simp only [standIn, List.mem_cons, List.not_mem_nil, or_false]
  split_ifs <;> grind

/-- Two names are of one family. -/
theorem mem_families {n : Implementation} {x y : Text} :
    (∃ names ∈ families n, x ∈ names ∧ y ∈ names) ↔
      (x ∈ outputs n ∧ y ∈ outputs n) ∨ (x ∉ outputs n ∧ y ∉ outputs n ∧
        (x ∈ [palloc, malloc] ∧ y ∈ [palloc, malloc] ∨ x ∈ [pfree, free] ∧ y ∈ [pfree, free])) := by
  simp only [families, List.exists_mem_cons_iff, List.mem_filter, List.not_mem_nil,
    decide_eq_true_eq, false_and, exists_false, or_false]
  tauto

/-- A name outside the first family is not given the name of the result. -/
theorem standIn_ne_result {n : Implementation} {w : Text} (h : w ∉ outputs n) :
    standIn w ≠ result := by
  rw [standIn]
  split_ifs
  · decide
  · decide
  · exact fun e => h (e ▸ result_mem_outputs n)

/-- **Two names become one exactly when they are of one family.** -/
theorem apply_eq_apply_iff (n : Implementation) {x y : Text} (hne : x ≠ y) :
    (outputRenaming n).apply x = (outputRenaming n).apply y ↔
      ∃ names ∈ families n, x ∈ names ∧ y ∈ names := by
  rw [mem_families, apply_outputRenaming, apply_outputRenaming, ← standIn_eq_iff hne]
  by_cases hx : x ∈ outputs n <;> by_cases hy : y ∈ outputs n
  · simp only [hx, hy, if_true, true_and, true_or]
  · simpa [hx, hy] using (standIn_ne_result hy).symm
  · simpa [hx, hy] using standIn_ne_result hx
  · simp only [hx, hy, if_false, not_false_eq_true, true_and, false_or, false_and]

theorem mem_renamed {n : Implementation} {w : Text} :
    w ∈ renamed n ↔ (outputVar? n = some w ∨ w = reserved) ∨ w = palloc ∨ w = pfree := by
  simp only [renamed, List.mem_append, Option.mem_toList, List.mem_cons, List.not_mem_nil, or_false,
    or_assoc]

/-- The names that stay are that of the result and all that are not given another. -/
theorem apply_eq_self_iff (n : Implementation) (w : Text) :
    (outputRenaming n).apply w = w ↔ (w ∈ renamed n → w = result) := by
  rw [apply_outputRenaming]
  by_cases h : w ∈ outputs n
  · rw [if_pos h, eq_comm]
    rcases mem_outputs.mp h with h | h | h
    · exact ⟨fun e _ => e, fun e => e (mem_renamed.mpr (.inl (.inl h)))⟩
    · exact ⟨fun e _ => e, fun e => e (mem_renamed.mpr (.inl (.inr h)))⟩
    · exact iff_of_true h fun _ => h
  · have other : ¬ (outputVar? n = some w ∨ w = reserved) ∧ w ≠ result := by
      rw [mem_outputs, ← or_assoc, not_or] at h
      exact h
    simp only [h, if_false, mem_renamed, other.1, other.2, false_or, imp_false, not_or, standIn]
    split_ifs with hp hf
    · exact iff_of_false (fun e => absurd (e.trans hp) (by decide)) fun h => h.1 hp
    · exact iff_of_false (fun e => absurd (e.trans hf) (by decide)) fun h => h.2 hf
    · exact iff_of_true rfl ⟨hp, hf⟩

/-- Constants are kept unless one of them is what is returned. -/
theorem constants_kept_iff (n : Implementation) :
    (∀ w ∈ Text.constants, (outputRenaming n).apply w = w) ↔
      ∀ v ∈ outputVar? n, v ∉ Text.constants := by
  have other : ∀ w ∈ Text.constants, w ≠ result ∧ w ≠ reserved ∧ w ≠ palloc ∧ w ≠ pfree := by
    decide
  constructor
  · intro h v hv hc
    exact (other v hc).1 ((apply_eq_self_iff n v).mp (h v hc) (mem_renamed.mpr (.inl (.inl hv))))
  · intro h w hw
    obtain ⟨-, hr, hp, hf⟩ := other w hw
    refine (apply_eq_self_iff n w).mpr fun hm => ?_
    rcases mem_renamed.mp hm with (hv | e) | e | e
    · exact absurd hw (h w hv)
    · exact absurd e hr
    · exact absurd e hp
    · exact absurd e hf

/-- **The renaming of a body renames no more than the returned variable exactly when no name is
caught.**  In any case the tokens of a renamed line are those of the line, renamed one by one, and
the returned variable is given the name of the result. -/
theorem renames_output_only_iff (n : Implementation) :
    (∀ line ∈ n.shape.lines, Text.tokens ((outputRenaming n).text line) =
      (Text.tokens line).map (outputRenaming n).token) ∧
    (∀ v ∈ outputVar? n, (outputRenaming n).apply v = result) ∧
    (RenamesOutputOnly n ↔ Uncaught n) := by
  refine ⟨fun line _ => Renaming.tokens_text (isName_outputRenaming n) line, fun v hv => ?_,
    fun h => ⟨fun line hl w hw => (apply_eq_self_iff n w).mp (h.members line hl w hw),
      (constants_kept_iff n).mp h.constants, fun names hn x hx y hy hxv hyv => ?_⟩,
    fun h => ⟨fun line hl w hw => (apply_eq_self_iff n w).mpr (h.members line hl w hw),
      (constants_kept_iff n).mpr h.constants, fun x hx y hy e => ?_⟩⟩
  · rw [apply_outputRenaming, if_pos (mem_outputs.mpr (.inl hv))]
  · by_contra hne
    exact hne (h.apart x hxv y hyv ((apply_eq_apply_iff n hne).mpr ⟨names, hn, hx, hy⟩))
  · by_contra hne
    obtain ⟨names, hn, hxn, hyn⟩ := (apply_eq_apply_iff n hne).mp e
    exact hne (h.apart names hn x hxn y hyn hx hy)

/-- A body that returns a variable called like a member, and has a variable `result` too. -/
def memberBody : Text :=
  "Span *s = PG_GETARG_SPAN_P(0);\nint32 result = s->lower;\nint32 lower = result;\n" ++
    "PG_RETURN_INT32(lower);"

/-- The member of that body is renamed, and its two variables become one. -/
theorem member_renamed : ∃ n, Implementation.ofBody "f" memberBody ⟨none, 0, 0⟩ = .ok n ∧
    n.shape.lines.map (outputRenaming n).text =
      ["int32 ret = s->ret;".toList, "int32 ret = ret;".toList, "ret".toList] ∧
    (∃ line ∈ n.shape.lines, ∃ w ∈ Text.members line, (outputRenaming n).apply w ≠ w) ∧
    ∃ x ∈ vars n, ∃ y ∈ vars n,
      (outputRenaming n).apply x = (outputRenaming n).apply y ∧ x ≠ y := by
  obtain ⟨n, hn, h⟩ := exists_of_satisfies (x := Implementation.ofBody "f" memberBody ⟨none, 0, 0⟩)
    (p := fun n => decide (n.shape.lines.map (outputRenaming n).text =
        ["int32 ret = s->ret;".toList, "int32 ret = ret;".toList, "ret".toList]) &&
      decide (∃ line ∈ n.shape.lines, ∃ w ∈ Text.members line, (outputRenaming n).apply w ≠ w) &&
      decide (∃ x ∈ vars n, ∃ y ∈ vars n, (outputRenaming n).apply x = (outputRenaming n).apply y ∧
        x ≠ y)) (by decide +kernel)
  simp only [Bool.and_eq_true, decide_eq_true_eq] at h
  exact ⟨n, hn, h.1.1, h.1.2, h.2⟩

end Closure

end VectorWrap
