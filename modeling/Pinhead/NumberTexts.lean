import Mathlib.Data.Int.Log
import Mathlib.Data.Rat.Floor
import Pinhead.JsonTexts

/-!
# Numbers in texts

What `str::parse` takes for an `i64` and for an `f64`. Both take a sign of either kind and
no blanks. A decimal number becomes the nearest double, the even one of two; one that is too
large becomes infinite.
-/
namespace Pinhead.NumberTexts
open JsonTexts

/-- The text after a sign, and whether the sign was a minus. -/
def splitSign : List Char → Bool × List Char
  | '-' :: cs => (true, cs)
  | '+' :: cs => (false, cs)
  | cs => (false, cs)

def withSign (negative : Bool) (n : ℕ) : ℤ := if negative then -n else n

/-- A number of any size from decimal digits, of which there is at least one. -/
def parseDigits (cs : List Char) : Option ℕ :=
  if cs ≠ [] ∧ cs.all Char.isDigit then some (Nat.ofDigitChars 10 cs 0) else none

def parseInteger (cs : List Char) : Option ℤ :=
  (parseDigits (splitSign cs).2).map (withSign (splitSign cs).1)

def parseI64 (s : String) : Option ℤ :=
  (parseInteger s.toList).filter fun i => -2 ^ 63 ≤ i && i < 2 ^ 63

/-- The nearest integer, the even one of two. -/
def roundHalfEven (q : ℚ) : ℤ :=
  let rest := q - ⌊q⌋
  if rest < 1 / 2 then ⌊q⌋ else if 1 / 2 < rest then ⌊q⌋ + 1 else ⌊q⌋ + ⌊q⌋ % 2

/-- The nearest double; nothing stands for an infinite one. -/
def nearestF64 (q : ℚ) : Option ℚ :=
  let unit : ℚ := 2 ^ (max (Int.log 2 |q|) (-1022) - 52)
  let x := roundHalfEven (q / unit) * unit
  if |x| < 2 ^ 1024 then some x else none

/-- The exponent behind a decimal number; there need not be one. -/
def parseExponent : List Char → Option ℤ
  | [] => some 0
  | c :: cs => if c = 'e' || c = 'E' then parseInteger cs else none

/-- Digits with a point before, between or behind them, and an exponent. -/
def parseDecimal (cs : List Char) : Option ℚ := do
  let whole := cs.takeWhile Char.isDigit
  let rest := cs.dropWhile Char.isDigit
  let fraction := if rest.head? = some '.' then rest.tail.takeWhile Char.isDigit else []
  let tail := if rest.head? = some '.' then rest.tail.dropWhile Char.isDigit else rest
  let digits ← parseDigits (whole ++ fraction)
  let exponent ← parseExponent tail
  return digits * 10 ^ (exponent - fraction.length)

/-- A double, or nothing inside for an infinite one or one that is not a number. -/
def parseF64 (s : String) : Option (Option ℚ) :=
  let (negative, cs) := splitSign s.toList
  if String.ofList (cs.map Char.toLower) ∈ ["inf", "infinity", "nan"] then some none
  else (parseDecimal cs).map fun q => nearestF64 (if negative then -q else q)

example : parseI64 "-007" = some (-7) ∧ parseI64 "+" = none ∧ parseI64 "1.0" = none := by decide

theorem parseDigits_toDigits (n : ℕ) : parseDigits (Nat.toDigits 10 n) = some n := by
  have hall : (Nat.toDigits 10 n).all Char.isDigit = true := List.all_eq_true.mpr fun c hc =>
    Nat.isDigit_of_mem_toDigits (by decide) (by decide) hc
  rw [parseDigits, if_pos ⟨Nat.toDigits_ne_nil, hall⟩, Nat.ofDigitChars_ten_toDigits]

theorem splitSign_digit {c : Char} (hc : c.isDigit = true) (cs : List Char) :
    splitSign (c :: cs) = (false, c :: cs) := by
  rw [splitSign]
  · rintro _ ⟨⟩
    cases hc
  · rintro _ ⟨⟩
    cases hc

theorem parseInteger_write (i : ℤ) : parseInteger (writeInteger i) = some i := by
  rw [writeInteger]
  split
  · rw [parseInteger, splitSign, parseDigits_toDigits, Option.map_some, withSign, if_pos rfl]
    congr 1
    omega
  · obtain ⟨c, cs, hcs, hdigit⟩ := exists_digit i.natAbs
    have hsign := splitSign_digit hdigit cs
    rw [← hcs] at hsign
    rw [parseInteger, hsign, parseDigits_toDigits, Option.map_some, withSign,
      if_neg Bool.false_ne_true]
    congr 1
    omega

theorem parseI64_write {i : ℤ} (h : -2 ^ 63 ≤ i ∧ i < 2 ^ 63) :
    parseI64 (String.ofList (writeInteger i)) = some i := by
  rw [parseI64, String.toList_ofList, parseInteger_write, Option.filter_some, if_pos]
  exact Bool.and_eq_true_iff.mpr ⟨decide_eq_true h.1, decide_eq_true h.2⟩

end Pinhead.NumberTexts
