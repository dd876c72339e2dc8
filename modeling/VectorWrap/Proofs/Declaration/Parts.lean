import VectorWrap.Proofs.Declaration.Defaults

/-!
# Every part of a list is accounted for

A part of a parameter list gives a default exactly if it has an equals sign or a word `default`
(`default?_eq_some_iff`, `default?_eq_none_iff`): the search for the word stops at the first word
that is this one as a whole, and at no other (`afterWord?_eq_some`).  Any other part has a first
word, and so gives a parameter (`ofPart?_eq_some_iff`).  Nothing is left over (`ofParts_accounts`).

`Records`, `MarksDefault` and `NamedBy` say on the text of a part what the readers find by searching
and cutting, so the account of a list (`Accounts`) speaks of parts and values only.  That a part of
a split list has a word is where the trimming and dropping of empty pieces comes in.
-/

namespace VectorWrap

namespace Text

/-! ### What is found -/

/-- A cut is at the first such character. -/
theorem cut?_eq_some {c : Char} {s a b : Text} (h : cut? c s = some (a, b)) :
    s = a ++ c :: b ∧ c ∉ a := by
  induction s generalizing a with
  | nil => cases h
  | cons d s ih =>
    rw [cut?] at h
    split_ifs at h with hd
    · cases h
      exact ⟨by rw [hd]; rfl, List.not_mem_nil⟩
    · obtain ⟨⟨a', b'⟩, hs, e⟩ := Option.map_eq_some_iff.mp h
      cases e
      obtain ⟨rfl, ha⟩ := ih hs
      exact ⟨rfl, List.not_mem_cons_of_ne_of_not_mem (Ne.symm hd) ha⟩

/-- There is no cut exactly if there is no such character. -/
theorem cut?_eq_none_iff {c : Char} {s : Text} : cut? c s = none ↔ c ∉ s := by
  refine ⟨fun h hm => ?_, cut?_of_not_mem⟩
  obtain ⟨a, b, rfl, ha⟩ := List.eq_append_cons_of_mem hm
  rw [cut?_append ha] at h
  cases h

/-- Behind other words the text goes on with a word that is `w` but for letter case: blanks or an
end of the text stand on both sides of it. -/
structure FirstWord (w front v rest : Text) : Prop where
  others : ∀ u ∈ words front, sameLetters u w = false
  before : ∀ c, front.getLast? = some c → isBlank c = true
  splits : Splits [] v rest
  same : sameLetters v w = true

/-- The search stops at the first such word. -/
theorem afterWord?_eq_some {w s rest : Text} (h : afterWord? w s = some rest) :
    ∃ front v, s = front ++ (v ++ rest) ∧ FirstWord w front v rest := by
  induction hk : s.length using Nat.strong_induction_on generalizing s with
  | _ k ih =>
    cases hn : nextWord? s with
    | none =>
      rw [afterWord?_of_none hn] at h
      cases h
    | some p =>
      obtain ⟨v, r⟩ := p
      have shorter := length_nextWord? hn
      obtain ⟨a, rfl, hs⟩ := splits_of_nextWord? hn
      rw [afterWord?_of_some hn] at h
      split_ifs at h with hv
      · cases h
        refine ⟨a, v, rfl, ?_, fun c hc => hs.blank c (List.mem_of_getLast? hc),
          { hs with blank := by simp }, hv⟩
        simp [words_of_blank hs.blank]
      · obtain ⟨front, u, rfl, found⟩ := ih r.length (hk ▸ shorter) h rfl
        -- the word that is passed over is ended by a blank, which stands in front of the other
        have left : front ≠ [] := by
          rintro rfl
          obtain ⟨c, u, rfl⟩ := List.exists_cons_of_ne_nil found.splits.ne_nil
          have blank := hs.ends c rfl
          rw [found.splits.not_blank c List.mem_cons_self] at blank
          cases blank
        have passed : Splits a v front :=
          { hs with ends := fun c hc => hs.ends c (by rw [List.head?_append_of_ne_nil _ left, hc]) }
        refine ⟨a ++ (v ++ front), u, by simp, ?_, fun c hc => found.before c ?_, found.splits,
          found.same⟩
        · rw [passed.words, List.forall_mem_cons]
          exact ⟨by simpa using hv, found.others⟩
        · rwa [← List.append_assoc, List.getLast?_append_of_ne_nil _ left] at hc

theorem FirstWord.afterWord? {w front v rest : Text} (h : FirstWord w front v rest) :
    afterWord? w (front ++ (v ++ rest)) = some rest :=
  afterWord?_found h.others h.before h.splits h.same

/-- A word is not found exactly if no word of the text is that one. -/
theorem afterWord?_eq_none_iff {w s : Text} :
    afterWord? w s = none ↔ ∀ v ∈ words s, sameLetters v w = false := by
  refine ⟨fun h => ?_, afterWord?_of_words⟩
  induction hk : s.length using Nat.strong_induction_on generalizing s with
  | _ k ih =>
    cases hn : nextWord? s with
    | none =>
      rw [words_of_blank (blank_of_nextWord? hn)]
      simp
    | some p =>
      obtain ⟨v, r⟩ := p
      have shorter := length_nextWord? hn
      rw [afterWord?_of_some hn] at h
      obtain ⟨a, rfl, hs⟩ := splits_of_nextWord? hn
      split_ifs at h with hv
      rw [hs.words, List.forall_mem_cons]
      exact ⟨by simpa using hv, ih r.length (hk ▸ shorter) h rfl⟩

/-- A part has a word, for it is trimmed and not empty. -/
theorem words_ne_nil_of_mem_splitTopLevel {s part : Text} (h : part ∈ splitTopLevel s) :
    words part ≠ [] := by
  obtain ⟨hm, hne⟩ := List.mem_filter.mp h
  obtain ⟨piece, -, rfl⟩ := List.mem_map.mp hm
  cases hn : nextWord? (trim piece) with
  | none =>
    obtain ⟨c, r, hc⟩ := List.exists_cons_of_ne_nil (l := trim piece) (by simpa using hne)
    have blank := blank_of_nextWord? hn c (hc ▸ List.mem_cons_self)
    rw [(trimmed_trim piece).head c (by rw [hc]; rfl)] at blank
    cases blank
  | some p =>
    obtain ⟨a, ha, hs⟩ := splits_of_nextWord? hn
    rw [ha, hs.words]
    exact List.cons_ne_nil _ _

end Text

namespace Param
open Text

/-! ### What a part is -/

/-- The part has an equals sign or a word `default`, in any letter case. -/
def MarksDefault (part : Text) : Prop :=
  '=' ∈ part ∨ ∃ w ∈ words part, sameLetters w "default" = true

instance : DecidablePred MarksDefault := fun part =>
  inferInstanceAs (Decidable ('=' ∈ part ∨ ∃ w ∈ words part, sameLetters w "default" = true))

/-- The text recorded for a part with a default: what follows its first equals sign or, where there
is none, its first word `default`, without the blanks around it. -/
inductive Records : Text → Text → Prop where
  | sign {front value : Text} (h : '=' ∉ front) : Records (front ++ '=' :: value) (trim value)
  | word {front v value : Text} (h : FirstWord "default" front v value)
      (hn : '=' ∉ front ++ (v ++ value)) : Records (front ++ (v ++ value)) (trim value)

/-- The parameter of a part when `k` parameters come before it: its first word is the type, and the
second, if there is one, the name. -/
inductive NamedBy (k : Nat) (part : Text) : Param → Prop where
  | pair {type name : Text} {more : List Text} (h : words part = type :: name :: more) :
      NamedBy k part ⟨type, name⟩
  | single {type : Text} (h : words part = [type]) : NamedBy k part ⟨type, defaultName k⟩

/-- **A default is recorded** exactly as the part says. -/
theorem default?_eq_some_iff {part value : Text} :
    default? part = some value ↔ Records part value := by
  rw [default?_eq]
  constructor
  · intro h
    cases hc : cut? '=' part with
    | some p =>
      obtain ⟨front, rest⟩ := p
      rw [hc] at h
      cases h
      obtain ⟨rfl, hf⟩ := cut?_eq_some hc
      exact .sign hf
    | none =>
      rw [hc] at h
      obtain ⟨rest, hw, rfl⟩ := Option.map_eq_some_iff.mp h
      obtain ⟨front, v, rfl, found⟩ := afterWord?_eq_some hw
      exact .word found (cut?_eq_none_iff.mp hc)
  · intro h
    cases h with
    | sign hf => rw [cut?_append hf]; rfl
    | word found hn => rw [cut?_of_not_mem hn, found.afterWord?]; rfl

/-- A part has no default exactly if nothing in it marks one. -/
theorem default?_eq_none_iff {part : Text} : default? part = none ↔ ¬ MarksDefault part := by
  rw [default?_eq, Option.orElse_eq_none, Option.map_eq_none_iff, Option.map_eq_none_iff,
    cut?_eq_none_iff, afterWord?_eq_none_iff, MarksDefault]
  simp

/-- **A parameter is named** exactly as the part says. -/
theorem ofPart?_eq_some_iff {k : Nat} {part : Text} {p : Param} :
    ofPart? k part = some p ↔ NamedBy k part p := by
  constructor
  · intro h
    rw [ofPart?] at h
    split at h
    · cases h
    · next hw =>
      cases h
      exact .single hw
    · next hw =>
      cases h
      exact .pair hw
  · intro h
    cases h with
    | pair hw => rw [ofPart?, hw]
    | single hw => rw [ofPart?, hw]

/-- A part with a word is a parameter. -/
theorem exists_ofPart? {part : Text} (h : words part ≠ []) (k : Nat) :
    ∃ p, ofPart? k part = some p := by
  rw [ofPart?]
  split
  · next hw => exact absurd hw h
  · exact ⟨_, rfl⟩
  · exact ⟨_, rfl⟩

/-! ### What becomes of the parts -/

/-- Each part with a mark gives one default and each other part one parameter, in their order; `k`
parameters come before these. -/
structure Accounts (k : Nat) (parts : List Text) (params : List Param) (defaults : List Text) :
    Prop where
  defaults : List.Forall₂ Records (parts.filter (MarksDefault ·)) defaults
  params : List.Forall₂ (fun x p => NamedBy x.2 x.1 p)
    ((parts.filter (¬ MarksDefault ·)).zipIdx k) params

/-- Every part gives a parameter or a default, in order. -/
theorem ofParts_accounts {parts : List Text} (h : ∀ part ∈ parts, words part ≠ []) (k : Nat) :
    Accounts k parts (ofParts k parts).1 (ofParts k parts).2 := by
  induction parts generalizing k with
  | nil => exact ⟨.nil, .nil⟩
  | cons part parts ih =>
    obtain ⟨hw, h⟩ := List.forall_mem_cons.mp h
    cases hd : default? part with
    | some value =>
      obtain ⟨defaults, params⟩ := ih h k
      have marked : MarksDefault part := by
        by_contra hn
        rw [default?_eq_none_iff.mpr hn] at hd
        cases hd
      have read : ofParts k (part :: parts) =
          ((ofParts k parts).1, value :: (ofParts k parts).2) := by simp [ofParts, hd]
      rw [read]
      refine ⟨?_, ?_⟩
      · rw [List.filter_cons_of_pos (by simpa using marked)]
        exact .cons (default?_eq_some_iff.mp hd) defaults
      · rwa [List.filter_cons_of_neg (by simpa using marked)]
    | none =>
      obtain ⟨defaults, params⟩ := ih h (k + 1)
      have unmarked := default?_eq_none_iff.mp hd
      obtain ⟨p, hp⟩ := exists_ofPart? hw k
      have read : ofParts k (part :: parts) =
          (p :: (ofParts (k + 1) parts).1, (ofParts (k + 1) parts).2) := by simp [ofParts, hd, hp]
      rw [read]
      refine ⟨?_, ?_⟩
      · rwa [List.filter_cons_of_neg (by simpa using unmarked)]
      · rw [List.filter_cons_of_pos (by simpa using unmarked), List.zipIdx_cons]
        exact .cons (ofPart?_eq_some_iff.mp hp) params

/-- **Every part of a list gives one default or one parameter.**  The byte offsets at which the
text of a default is found in a copy with small letters are those of the text itself. -/
theorem parseList_accounts (s : Text) : cutList s = .ok (parseList s) ∧
    Accounts 0 (splitTopLevel s) (parseList s).1 (parseList s).2 :=
  ⟨cutList_eq s, ofParts_accounts (fun _ => words_ne_nil_of_mem_splitTopLevel) 0⟩

end Param

end VectorWrap
