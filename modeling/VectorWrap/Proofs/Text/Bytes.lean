import VectorWrap.Proofs.Scan.Sweep

/-!
# Cutting at bytes

A text can be cut at a byte offset only where one character ends and the next begins.  What has
been read of a text ends at such a place, and so does what lies before an occurrence of a word:
a cut there gives the two parts and never faults (`cutAt_byteLength`).

`bytes` is the UTF-8 form itself.  Each byte of a character that takes several is at least 128, so
a search for an ASCII byte never stops inside a character.

The lemmas about occurrences (`find?_append`, `findLast?_append`) give the offset of a word or of a
character as the length of what stands before it, and those about cuts give the parts at such a
length.  Put together they turn a reading by offsets into a reading by characters, step by step,
which is how the parts of a declaration and of a body are shown to be cut without a fault.
-/

namespace VectorWrap

namespace Text

/-! ### Cuts -/

/-- The part of a text before the byte `n` and the part from it on; there is no cut inside a
character nor behind the end. -/
def cutAt : Nat → Text → Except Fault (Text × Text)
  | 0, s => .ok ([], s)
  | _ + 1, [] => .error .insideCharacter
  | n + 1, c :: r =>
      if c.utf8Size ≤ n + 1 then
        (cutAt (n + 1 - c.utf8Size) r).map fun (a, b) => (c :: a, b)
      else .error .insideCharacter

/-- The part of a text from the byte `start` on. -/
def fromByte (start : Nat) (s : Text) : Except Fault Text :=
  (cutAt start s).map Prod.snd

/-- The part of a text from the byte `start` up to the byte `stop`. -/
def slice (start stop : Nat) (s : Text) : Except Fault Text := do
  let (front, _) ← cutAt stop s
  fromByte start front

/-- A cut behind the first character is a cut of the rest, at what is left of the offset. -/
theorem cutAt_cons {n : Nat} {c : Char} (h : c.utf8Size ≤ n) (s : Text) :
    cutAt n (c :: s) = (cutAt (n - c.utf8Size) s).map fun (a, b) => (c :: a, b) := by
  have := Char.utf8Size_pos c
  obtain ⟨k, rfl⟩ : ∃ k, n = k + 1 := ⟨n - 1, by omega⟩
  rw [cutAt, if_pos h]

/-- What lies before a cut may be taken away first. -/
theorem cutAt_append (a s : Text) (n : Nat) :
    cutAt (byteLength a + n) (a ++ s) = (cutAt n s).map fun (b, t) => (a ++ b, t) := by
  induction a with
  | nil =>
    rw [byteLength, Nat.zero_add]
    cases h : cutAt n s <;> simp [h, Except.map]
  | cons c a ih =>
    rw [List.cons_append, byteLength, Nat.add_assoc, cutAt_cons (Nat.le_add_right _ _),
      Nat.add_sub_cancel_left, ih]
    cases cutAt n s <;> rfl

/-- **A cut behind what has been read gives what was read and what is left.** -/
@[simp]
theorem cutAt_byteLength (a s : Text) : cutAt (byteLength a) (a ++ s) = .ok (a, s) := by
  have := cutAt_append a s 0
  rw [Nat.add_zero] at this
  rw [this, cutAt]
  simp [Except.map]

@[simp]
theorem fromByte_byteLength (a s : Text) : fromByte (byteLength a) (a ++ s) = .ok s := by
  rw [fromByte, cutAt_byteLength]
  rfl

theorem slice_append (a b s : Text) :
    slice (byteLength a) (byteLength a + byteLength b) (a ++ (b ++ s)) = .ok b := by
  rw [slice, ← byteLength_append, ← List.append_assoc, cutAt_byteLength]
  exact fromByte_byteLength a b

/-- As many bytes as a text has are that text. -/
theorem takeBytes_append (a s : Text) : takeBytes (byteLength a) (a ++ s) = .ok a := by
  induction a with
  | nil => simp [byteLength, takeBytes]
  | cons c a ih =>
    have := Char.utf8Size_pos c
    obtain ⟨k, hk⟩ : ∃ k, byteLength (c :: a) = k + 1 :=
      ⟨byteLength (c :: a) - 1, by simp only [byteLength]; omega⟩
    have hc : c.utf8Size ≤ byteLength (c :: a) := Nat.le_add_right _ _
    rw [hk, List.cons_append, takeBytes, ← hk, if_pos hc, byteLength, Nat.add_sub_cancel_left, ih]
    rfl

/-! ### Places -/

/-- The byte at which the first occurrence of `w` begins. -/
def find? (w s : Text) : Option Nat :=
  (Scan.splitAt? w s).map fun (a, _) => byteLength a

/-- A word is found where it stands if its first character does not occur before. -/
theorem splitAt?_of_not_mem {c : Char} {a : Text} (h : c ∉ a) (w s : Text) :
    Scan.splitAt? (c :: w) (a ++ (c :: w ++ s)) = some (a, s) := by
  induction a with
  | nil =>
    have here : after? (c :: w) (c :: w ++ s) = some s := after?_eq_some.mpr rfl
    rw [List.nil_append, List.cons_append, Scan.splitAt?, ← List.cons_append, here]
  | cons d a ih =>
    obtain ⟨hd, ha⟩ : c ≠ d ∧ c ∉ a := by simpa using h
    rw [List.cons_append, Scan.splitAt?, after?, if_neg hd, ih ha]
    rfl

/-- A word is found where its first character is. -/
theorem find?_append {c : Char} {a : Text} (h : c ∉ a) (w s : Text) :
    find? (c :: w) (a ++ (c :: w ++ s)) = some (byteLength a) := by
  rw [find?, splitAt?_of_not_mem h]
  rfl

/-- The byte at which the last character that satisfies `p` begins. -/
def findLast? (p : Char → Bool) : Text → Option Nat
  | [] => none
  | c :: r =>
      match findLast? p r with
      | some n => some (c.utf8Size + n)
      | none => if p c then some 0 else none

/-- Nothing is found in a text without such a character. -/
theorem findLast?_of_none {p : Char → Bool} {s : Text} (h : ∀ c ∈ s, p c = false) :
    findLast? p s = none := by
  induction s with
  | nil => rfl
  | cons c s ih =>
    obtain ⟨hc, hs⟩ := List.forall_mem_cons.mp h
    simp [findLast?, ih hs, hc]

/-- The last character of a kind is found where no other of that kind follows it. -/
theorem findLast?_append {p : Char → Bool} {c : Char} {v : Text} (hc : p c = true)
    (hv : ∀ d ∈ v, p d = false) (a : Text) :
    findLast? p (a ++ c :: v) = some (byteLength a) := by
  induction a with
  | nil => simp [findLast?, findLast?_of_none hv, hc, byteLength]
  | cons d a ih => simp [findLast?, ih, byteLength]

/-! ### Bytes -/

/-- The bytes of a text's UTF-8 form. -/
def bytes (s : Text) : List UInt8 :=
  s.flatMap String.utf8EncodeChar

/-- An ASCII character is its only byte. -/
theorem utf8EncodeChar_of_one {c : Char} (h : c.utf8Size = 1) :
    String.utf8EncodeChar c = [c.toUInt8] := by
  have hc : c.val.toNat ≤ 127 := by
    have := Char.utf8Size_eq_one_iff.mp h
    rwa [UInt32.le_iff_toNat_le] at this
  rw [String.utf8EncodeChar, if_pos hc]
  rfl

/-- The bytes of a character that takes several are no ASCII bytes. -/
theorem le_of_mem_utf8EncodeChar {c : Char} (h : c.utf8Size ≠ 1) {b : UInt8}
    (hb : b ∈ String.utf8EncodeChar c) : 128 ≤ b.toNat := by
  have hc : ¬ c.val.toNat ≤ 127 := by
    intro hle
    refine h (Char.utf8Size_eq_one_iff.mpr ?_)
    rwa [UInt32.le_iff_toNat_le]
  rw [String.utf8EncodeChar, if_neg hc] at hb
  split_ifs at hb <;> simp only [List.mem_cons, List.not_mem_nil, or_false] at hb
  · rcases hb with rfl | rfl <;> simp only [UInt8.toNat_ofNat'] <;> omega
  · rcases hb with rfl | rfl | rfl <;> simp only [UInt8.toNat_ofNat'] <;> omega
  · rcases hb with rfl | rfl | rfl | rfl <;> simp only [UInt8.toNat_ofNat'] <;> omega

end Text

end VectorWrap
