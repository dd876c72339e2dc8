import VectorWrap.Toml.Quoted

/-!
# TOML numbers, truth values and moments

Of these only the presence counts, but a document in which one is malformed, or a number too large,
says nothing at all. Digits may be grouped by single underscores. An integer takes at most 128 bits,
and a float must round to a finite one.

No number is kept. Whether a float would be finite is settled with whole numbers, by comparing its
digits with the border between the greatest finite float and the next one up.
-/

namespace VectorWrap.Toml
open Scan

/-! ### Digits -/

/-- A digit of a number written in the given base, up to sixteen. -/
def isDigitIn (base : Nat) (c : Char) : Bool :=
  (hexValue? c).any (· < base)

/-- The number that digits of the given base make. -/
def valueIn (base : Nat) (s : Text) : Nat :=
  s.foldl (fun n c => n * base + (hexValue? c).getD 0) 0

/-- Reads digits of the given base, grouped by single underscores; gives the digits. -/
def grouped (base : Nat) : Scan Text := do
  let t ← run1 fun c => isDigitIn base c || c == '_'
  let groups := Text.splitBy (· == '_') t
  guard (groups.all (!·.isEmpty))
  pure groups.flatten

/-- Reads a sign, if there is one; tells whether it is a minus. -/
def sign : Scan Bool := do
  let s ← orNone (one fun c => c == '+' || c == '-')
  pure (s == some '-')

/-! ### Numbers -/

/-- The integer fits in 128 bits, signed or not. -/
def integerFits (negative : Bool) (n : Nat) : Bool :=
  if negative then n ≤ Nat.pow 2 127 else n < Nat.pow 2 128

/-- Reads an integer of the base with the given letter. -/
def based (letter : Char) (base : Nat) : Scan Unit := do
  exactly ['0', letter]
  let digits ← grouped base
  guard (integerFits false (valueIn base digits))

/-- The number with the digits `s`, of which `places` follow the point, times a power of ten, rounds
to a finite float. What lies far from the border is decided by the number of digits. -/
def floatFits (s : Text) (places : Nat) (exponent : Int) : Bool :=
  let digits := s.dropWhile (· == '0')
  let size : Int := digits.length - places + exponent
  if digits.isEmpty ∨ size ≤ 308 then true
  else if size > 309 then false
  else
    let shift : Int := exponent - places
    valueIn 10 digits * Nat.pow 10 shift.toNat <
      (Nat.pow 2 1024 - Nat.pow 2 970) * Nat.pow 10 (-shift).toNat

/-- Reads the fraction of a float; gives its digits. -/
def fraction : Scan Text := do
  exactly "."
  grouped 10

/-- Reads the exponent of a float. -/
def exponent : Scan Int := do
  let _ ← one fun c => c == 'e' || c == 'E'
  let negative ← sign
  let digits ← grouped 10
  let n : Int := valueIn 10 digits
  pure (if negative then -n else n)

/-- Reads a decimal integer or a float. -/
def decimalNumber : Scan Unit := do
  let negative ← sign
  let whole ← grouped 10
  guard (whole.length = 1 ∨ whole.head? ≠ some '0')
  let fraction? ← orNone fraction
  let exponent? ← orNone exponent
  if fraction?.isNone ∧ exponent?.isNone then guard (integerFits negative (valueIn 10 whole))
  else
    let places := fraction?.getD []
    guard (floatFits (whole ++ places) places.length (exponent?.getD 0))

/-- Reads an infinity or a value that is no number. -/
def specialNumber : Scan Unit := do
  let _ ← sign
  exactly "inf" <|> exactly "nan"

/-- Reads a number or a truth value. -/
def plain : Scan Unit :=
  based 'x' 16 <|> based 'o' 8 <|> based 'b' 2 <|> decimalNumber <|> specialNumber
    <|> exactly "true" <|> exactly "false"

/-! ### Moments -/

/-- Reads exactly `n` decimal digits; gives their value. -/
def digits (n : Nat) : Scan Nat := fun s =>
  if s.length ≥ n ∧ (s.take n).all Char.isDigit then some (valueIn 10 (s.take n), s.drop n)
  else none

/-- Has a 29th of February. -/
def isLeap (year : Nat) : Bool :=
  year % 4 == 0 && (year % 100 != 0 || year % 400 == 0)

/-- The number of days of a month. -/
def daysIn (year month : Nat) : Nat :=
  if month = 2 then if isLeap year then 29 else 28
  else if month = 4 ∨ month = 6 ∨ month = 9 ∨ month = 11 then 30
  else 31

/-- Reads a day. -/
def day : Scan Unit := do
  let year ← digits 4
  exactly "-"
  let month ← digits 2
  exactly "-"
  let day ← digits 2
  guard (1 ≤ month ∧ month ≤ 12 ∧ 1 ≤ day ∧ day ≤ daysIn year month)

/-- Reads the fraction of a second. -/
def secondFraction : Scan Unit := do
  exactly "."
  let _ ← run1 Char.isDigit

/-- Reads a time of day. A minute may have 61 seconds. -/
def timeOfDay : Scan Unit := do
  let hour ← digits 2
  exactly ":"
  let minute ← digits 2
  exactly ":"
  let second ← digits 2
  guard (hour ≤ 23 ∧ minute ≤ 59 ∧ second ≤ 60)
  let _ ← orNone secondFraction

/-- Reads a distance in hours and minutes from universal time. -/
def zoneDistance : Scan Unit := do
  let _ ← one fun c => c == '+' || c == '-'
  let hours ← digits 2
  exactly ":"
  let minutes ← digits 2
  guard (hours ≤ 23 ∧ minutes ≤ 59)

/-- Reads the zone of a time. -/
def zone : Scan Unit :=
  (do let _ ← one fun c => c == 'Z' || c == 'z') <|> zoneDistance

/-- Reads the time that may follow a day. -/
def timeAfterDay : Scan Unit := do
  let _ ← one fun c => c == 'T' || c == 't' || c == ' '
  timeOfDay
  let _ ← orNone zone

/-- Reads a day, a time of day or both. -/
def moment : Scan Unit :=
  (do day; let _ ← orNone timeAfterDay) <|> timeOfDay

end VectorWrap.Toml
