/-!
# Text

A text is a list of characters: readers take it from the front, and what a reader leaves is the
position it has reached. Two classes of blank matter. `isBlank` is the Unicode property
White_Space, which trims and separates words; `isLayout` is the four characters that may stand
between two tokens of a declaration or of a C body.

Splitting always gives one piece more than there are separators, of which some may be empty; what
wants no empty pieces filters them. Squeezing is splitting at blanks and joining by single spaces,
and is how texts that may be laid out differently are compared.
-/

namespace VectorWrap

/-- The characters of a text, in order. -/
abbrev Text := List Char

instance : Coe String Text := ⟨String.toList⟩

namespace Text

/-! ### Character classes -/

/-- The code points with the Unicode property White_Space, as closed ranges. -/
def blankRanges : List (Nat × Nat) :=
  [(0x09, 0x0D), (0x20, 0x20), (0x85, 0x85), (0xA0, 0xA0), (0x1680, 0x1680), (0x2000, 0x200A),
    (0x2028, 0x2029), (0x202F, 0x202F), (0x205F, 0x205F), (0x3000, 0x3000)]

/-- Has the property White_Space. -/
def isBlank (c : Char) : Bool :=
  blankRanges.any fun (lo, hi) => lo ≤ c.toNat && c.toNat ≤ hi

/-- Space, tab, carriage return or line feed. -/
def isLayout (c : Char) : Bool :=
  c == ' ' || c == '\t' || c == '\r' || c == '\n'

theorem isBlank_of_isLayout {c : Char} (h : isLayout c = true) : isBlank c = true := by
  simp only [isLayout, Bool.or_eq_true, beq_iff_eq] at h
  rcases h with ((rfl | rfl) | rfl) | rfl <;> decide

/-! ### Trimming -/

/-- Drops the longest leading and the longest trailing run of characters that satisfy `p`. -/
def trimBy (p : Char → Bool) (s : Text) : Text :=
  ((s.dropWhile p).reverse.dropWhile p).reverse

/-- Drops the longest trailing run of characters that satisfy `p`. -/
def trimEndBy (p : Char → Bool) (s : Text) : Text :=
  (s.reverse.dropWhile p).reverse

/-- A text without its leading and trailing blanks. -/
def trim (s : Text) : Text :=
  trimBy isBlank s

/-! ### Splitting -/

/-- The pieces between the characters that satisfy `p`: one more piece than such characters. -/
def splitBy (p : Char → Bool) : Text → List Text
  | [] => [[]]
  | c :: r =>
      if p c then [] :: splitBy p r
      else
        match splitBy p r with
        | [] => [[c]]
        | t :: ts => (c :: t) :: ts

/-- The maximal runs without blanks. -/
def words (s : Text) : List Text :=
  (splitBy isBlank s).filter (!·.isEmpty)

/-- A text with every run of blanks made one space and none at the ends. -/
def squeeze (s : Text) : Text :=
  [' '].intercalate (words s)

/-- The text before and the text after the first occurrence of `c`. -/
def cut? (c : Char) : Text → Option (Text × Text)
  | [] => none
  | d :: r => if d = c then some ([], r) else (cut? c r).map fun (a, b) => (d :: a, b)

/-- The first word and what follows it. -/
def nextWord? (s : Text) : Option (Text × Text) :=
  match s.dropWhile isBlank with
  | [] => none
  | c :: r => some ((c :: r).takeWhile (!isBlank ·), (c :: r).dropWhile (!isBlank ·))

theorem length_dropWhile_le (p : Char → Bool) (s : Text) : (s.dropWhile p).length ≤ s.length :=
  (List.dropWhile_sublist p).length_le

/-- What is behind a word is shorter. -/
theorem length_nextWord? {s w r : Text} (h : nextWord? s = some (w, r)) :
    r.length < s.length := by
  unfold nextWord? at h
  have hs := length_dropWhile_le isBlank s
  have hb := List.head?_dropWhile_not isBlank s
  cases e : s.dropWhile isBlank with
  | nil => simp [e] at h
  | cons c t =>
    have hc : isBlank c = false := by simpa [e] using hb
    have ht := length_dropWhile_le (!isBlank ·) t
    simp only [e, List.dropWhile_cons, hc, Bool.not_false, if_true, Option.some.injEq,
      Prod.mk.injEq] at h
    rw [← h.2]
    simp only [e, List.length_cons] at hs
    omega

/-! ### Prefixes and occurrences -/

/-- What follows `w`, when the text begins with `w`. -/
def after? : Text → Text → Option Text
  | [], s => some s
  | _ :: _, [] => none
  | p :: ps, c :: s => if p = c then after? ps s else none

/-- The text before a closing `w`, when it ends with `w`. -/
def before? (w s : Text) : Option Text :=
  (after? w.reverse s.reverse).map List.reverse

/-- Some part of the text is `w`. -/
def contains (w : Text) : Text → Bool
  | [] => w.isEmpty
  | c :: r => w.isPrefixOf (c :: r) || contains w r

/-! ### Letter case -/

/-- The ASCII letters made small, all other characters kept. -/
def lower (s : Text) : Text :=
  s.map Char.toLower

/-- Equal but for the case of ASCII letters. -/
def sameLetters (a b : Text) : Bool :=
  lower a == lower b

/-! ### Writing -/

/-- The decimal digits of a number. -/
def decimal (n : Nat) : Text :=
  Nat.toDigits 10 n

/-- The texts in order, with `sep` between each two. -/
def joinWith (sep : Text) (ts : List Text) : Text :=
  sep.intercalate ts

/-- The text between grave accents, as messages show names. -/
def tick (s : Text) : Text :=
  Char.ofNat 0x60 :: s ++ [Char.ofNat 0x60]

end Text

end VectorWrap
