/-
# Numbers

A number is a 64-bit integer or a double.  Integers widen to the nearest double;
a double narrows to its whole part if that part is an integer of the language.

* `toInt64?_eq_some_iff` : an integer is representable exactly if some 64-bit integer
  equals it;
* `wholePart?_isSome` : exactly the finite doubles have a whole part.
-/
import MiniPascal.Decimal.Shortest

set_option autoImplicit false

namespace MiniPascal

/-! ## The range of the integers -/

/-- The integers of the language are those of 64 bits. -/
def InRange (n : Int) : Prop :=
  -9223372036854775808 ≤ n ∧ n ≤ 9223372036854775807

/-- Whether an integer is in range can be decided. -/
instance (n : Int) : Decidable (InRange n) :=
  inferInstanceAs (Decidable (_ ∧ _))

theorem inRange_toInt (v : Int64) : InRange v.toInt := by
  have hlow := v.le_toInt
  have hhigh := v.toInt_lt
  unfold InRange
  omega

/-- The 64-bit integer equal to `n`, if there is one. -/
def toInt64? (n : Int) : Option Int64 :=
  if InRange n then some (Int64.ofInt n) else none

/-- **Representable integers** are those that some 64-bit integer equals. -/
theorem toInt64?_eq_some_iff {n : Int} {v : Int64} : toInt64? n = some v ↔ v.toInt = n := by
  unfold toInt64?
  constructor
  · intro h
    split at h
    case isTrue hn =>
      obtain ⟨hlow, hhigh⟩ := hn
      simp only [Option.some.injEq] at h
      rw [← h]
      exact Int64.toInt_ofInt_of_le (by omega) (by omega)
    case isFalse => simp at h
  · intro h
    rw [← h, if_pos (inRange_toInt v), Int64.ofInt_toInt]

theorem toInt64?_eq_none_iff {n : Int} : toInt64? n = none ↔ ¬InRange n := by
  unfold toInt64?
  split <;> simp [*]

/-! ## Numbers -/

/-- A number of the language, as a literal and as a value. -/
inductive Number where
  | integer (n : Int64)
  | real (x : Float)
  deriving Repr, BEq

/-- The whole part of a double, rounded toward zero, if the double is finite. -/
def wholePart? (x : Float) : Option Int :=
  match x.toModel.unpack with
  | .finite sign m q _ =>
    let magnitude := m <<< q.toNat >>> (-q).toNat
    some (match sign with
      | .negative => -(magnitude : Int)
      | .positive => magnitude)
  | .zero _ => some 0
  | .infinity _ => none
  | .notANumber => none

/-- **Exactly the finite doubles** have a whole part. -/
theorem wholePart?_isSome (x : Float) :
    (wholePart? x).isSome = x.toModel.unpack.isFinite := by
  unfold wholePart? Float.Model.UnpackedFloat.isFinite
  cases x.toModel.unpack <;> rfl

namespace Number

/-- The number as a double; an integer widens to the nearest one. -/
def toReal : Number → Float
  | .integer n => Float.ofInt n.toInt
  | .real x => x

/-- The number as an integer; a double narrows to its whole part, if that is in
range. -/
def toInteger? : Number → Option Int64
  | .integer n => some n
  | .real x => (wholePart? x).bind toInt64?

/-- Whether the number is a double. -/
def isReal : Number → Bool
  | .integer _ => false
  | .real _ => true

/-- The text of a number; a double always shows a fraction or an exponent. -/
def text : Number → String
  | .integer n => toString n.toInt
  | .real x => Decimal.ofFloat .value x

end Number

end MiniPascal
