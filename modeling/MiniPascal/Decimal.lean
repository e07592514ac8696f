/-
# Decimal numerals

A decimal numeral is a list of significant digits with the power of ten of the first
of them.  A layout says where positional notation ends and whether a whole number
keeps a fraction; `Decimal.text` writes a numeral in a layout.
-/

set_option autoImplicit false

namespace MiniPascal

/-! ## Numerals -/

/-- The number `d.ddd * 10 ^ exponent` with the significant digits `d`, `d`, …. -/
structure Decimal where
  digits : List Char
  exponent : Int
  deriving DecidableEq, Repr

namespace Decimal

/-- The numeral of `units * 10 ^ power`, without trailing zeros. -/
def ofUnits (units : Nat) (power : Int) : Decimal :=
  let digits := Nat.toDigits 10 units
  ⟨(digits.reverse.dropWhile (· = '0')).reverse, power + digits.length - 1⟩

/-! ## Layouts -/

/-- How a numeral is written: the exponents that positional notation covers (all of
them if no bounds are given), and whether a whole number keeps the fraction `.0`. -/
structure Layout where
  positional : Option (Int × Int)
  wholeFraction : Bool
  deriving DecidableEq, Repr

namespace Layout

/-- Values are positional from `0.0001` up to below `10 ^ 16`, always with a fraction
or an exponent. -/
def value : Layout := ⟨some (-4, 15), true⟩

/-- Literals in the description of a token are always positional, and whole numbers
have no fraction. -/
def literal : Layout := ⟨none, false⟩

/-- Whether a numeral of this exponent is written without an exponent part. -/
def isPositional (layout : Layout) (exponent : Int) : Bool :=
  match layout.positional with
  | none => true
  | some (low, high) => low ≤ exponent && exponent ≤ high

/-- The text of zero. -/
def zero (layout : Layout) : String :=
  if layout.wholeFraction then "0.0" else "0"

end Layout

/-! ## Writing -/

/-- Positional notation: the point stands behind the digit of the units. -/
def positionalText (layout : Layout) (d : Decimal) : List Char :=
  if d.exponent < 0 then
    '0' :: '.' :: List.replicate (-d.exponent - 1).toNat '0' ++ d.digits
  else
    let whole := d.exponent.toNat + 1
    let fraction := d.digits.drop whole
    let units := (d.digits.take whole).rightpad whole '0'
    if fraction.isEmpty then
      if layout.wholeFraction then units ++ ['.', '0'] else units
    else units ++ '.' :: fraction

/-- Exponent notation: one digit before the point, and no point if it is the only
digit. -/
def exponentText (d : Decimal) : List Char :=
  let mantissa := match d.digits with
    | first :: second :: rest => first :: '.' :: second :: rest
    | digits => digits
  mantissa ++ 'e' :: (toString d.exponent).toList

/-- The text of a numeral in a layout. -/
def text (layout : Layout) (d : Decimal) : String :=
  String.ofList <|
    if layout.isPositional d.exponent then d.positionalText layout else d.exponentText

end Decimal

end MiniPascal
