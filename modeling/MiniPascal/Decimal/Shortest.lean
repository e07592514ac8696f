/-
# The shortest numeral of a binary number

A positive binary number is `m` units, each a power of two.  Counted in a small enough
power of ten, the unit itself is a natural number `u`, so the number is the natural
number `m * u`, and so is every bound of the interval of numbers that round to it.
The search tries the grids of one, two, … digits; on each of them only the two
neighbours of the number matter.

* `readsBack_self` : the number itself lies in the interval;
* `readsBack_shortestFrom` : so does every numeral that the search ends with.
-/
import MiniPascal.Decimal

set_option autoImplicit false

namespace MiniPascal

namespace Decimal

/-! ## The interval of numbers that round to `m` units -/

/-- Whether `c` is among the numbers that round to `m` units of size `u`.  A bound lies
half a unit away, the lower one `below` quarters of a unit; the bounds themselves round
to `m` exactly if `m` is even. -/
def readsBack (m u below c : Nat) : Bool :=
  if m % 2 = 0 then (4 * m - below) * u ≤ 4 * c && 4 * c ≤ (4 * m + 2) * u
  else (4 * m - below) * u < 4 * c && 4 * c < (4 * m + 2) * u

/-- **The number itself** lies in its interval. -/
theorem readsBack_self (m u below : Nat) (hm : 0 < m) (hu : 0 < u) (hb : 0 < below) :
    readsBack m u below (m * u) = true := by
  have hlow : (4 * m - below) * u < 4 * (m * u) := by
    rw [← Nat.mul_assoc]
    exact Nat.mul_lt_mul_of_pos_right (by omega) hu
  have hhigh : 4 * (m * u) < (4 * m + 2) * u := by
    rw [← Nat.mul_assoc]
    exact Nat.mul_lt_mul_of_pos_right (by omega) hu
  unfold readsBack
  split
  · simp [Nat.le_of_lt hlow, Nat.le_of_lt hhigh]
  · simp [hlow, hhigh]

/-! ## The search -/

/-- The point of the grid of multiples of `grid` that stands for `m` units of size `u`:
the nearer of the two neighbours that read back, and of two equally near ones the upper
one. -/
def gridPoint? (m u below grid : Nat) : Option Nat :=
  let low := m * u / grid
  let high := low + 1
  let lowFits := readsBack m u below (low * grid)
  let highFits := readsBack m u below (high * grid)
  if highFits && (!lowFits || grid ≤ 2 * (m * u - low * grid)) then some high
  else if lowFits then some low
  else none

/-- A point of the grid that stands for the number reads back. -/
theorem readsBack_gridPoint {m u below grid c : Nat} (h : gridPoint? m u below grid = some c) :
    readsBack m u below (c * grid) = true := by
  unfold gridPoint? at h
  simp only at h
  split at h
  case isTrue hhigh =>
    simp only [Option.some.injEq] at h
    rw [Bool.and_eq_true] at hhigh
    rw [← h]
    exact hhigh.1
  case isFalse =>
    split at h
    case isTrue hlow =>
      simp only [Option.some.injEq] at h
      rw [← h]
      exact hlow
    case isFalse => simp at h

/-- The first hit on the grids of `10 ^ dropped`, `10 ^ (dropped - 1)`, …, with the
power of its grid; the grid of single units always hits. -/
def shortestFrom (m u below : Nat) : Nat → Nat × Nat
  | 0 => (m * u, 0)
  | dropped + 1 =>
    match gridPoint? m u below (Nat.pow 10 (dropped + 1)) with
    | some c => (c, dropped + 1)
    | none => shortestFrom m u below dropped

/-- **Every numeral that the search ends with** reads back. -/
theorem readsBack_shortestFrom (m u below dropped : Nat) (hm : 0 < m) (hu : 0 < u)
    (hb : 0 < below) :
    readsBack m u below
      ((shortestFrom m u below dropped).1 * Nat.pow 10 (shortestFrom m u below dropped).2)
      = true := by
  induction dropped with
  | zero => simpa [shortestFrom] using readsBack_self m u below hm hu hb
  | succ dropped ih =>
      unfold shortestFrom
      split
      case h_1 c h => exact readsBack_gridPoint h
      case h_2 => exact ih

/-- The least significand of 53 bits, that of a power of two. -/
def leastSignificand : Nat := 4503599627370496

/-- The shortest numeral that reads back as `m * 2 ^ q`, a positive double.  Below a
power of two the doubles lie half as far apart as above, down to the least exponent. -/
def shortest (m : Nat) (q : Int) : Decimal :=
  let places := (-q).toNat
  let u := Nat.pow 5 places <<< q.toNat
  let below := if m = leastSignificand ∧ -1074 < q then 1 else 2
  let size := (Nat.toDigits 10 (m * u)).length
  let (c, dropped) := shortestFrom m u below (size - 1)
  ofUnits c (dropped - places)

/-! ## Doubles -/

/-- The text of a double in a layout. -/
def ofFloat (layout : Layout) (x : Float) : String :=
  let signed (sign : Float.Model.UnpackedFloat.Sign) (text : String) : String :=
    match sign with
    | .negative => "-" ++ text
    | .positive => text
  match x.toModel.unpack with
  | .notANumber => "NaN"
  | .infinity sign => signed sign "inf"
  | .zero sign => signed sign layout.zero
  | .finite sign m q _ => signed sign ((shortest m q).text layout)

end Decimal

end MiniPascal
