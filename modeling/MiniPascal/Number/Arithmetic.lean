/-
# Arithmetic

Integer arithmetic is exact or a fault, never modular.  `+`, `-` and `*` become real
as soon as one operand is real; `/` is always real; `DIV` narrows both operands to
integers and rounds the quotient toward zero.

* `checked_eq_ok_iff` : a checked result is the exact one;
* `isReal_apply` : the kind of a result depends on the operator and the kinds of the
  operands alone.
-/
import MiniPascal.Number

set_option autoImplicit false

namespace MiniPascal

/-! ## Operators -/

/-- The sign in front of an operand. -/
inductive Sign where
  | plus
  | minus
  deriving DecidableEq, Repr

/-- The symbol of a sign. -/
def Sign.text : Sign → String
  | .plus => "+"
  | .minus => "-"

/-- The operators between two operands. -/
inductive Operator where
  | add
  | subtract
  | multiply
  | divideInteger
  | divideReal
  deriving DecidableEq, Repr

/-- The symbol of an operator. -/
def Operator.text : Operator → String
  | .add => "+"
  | .subtract => "-"
  | .multiply => "*"
  | .divideInteger => "DIV"
  | .divideReal => "/"

/-- Why an arithmetic operation has no result. -/
inductive ArithmeticFault where
  | divisionByZero
  | overflow
  deriving DecidableEq, Repr

/-! ## Exact integers -/

/-- The exact integer `n`, or a fault if it is out of range. -/
def checked (n : Int) : Except ArithmeticFault Number :=
  match toInt64? n with
  | some v => .ok (.integer v)
  | none => .error .overflow

/-- **A checked result** is the exact one. -/
theorem checked_eq_ok_iff {n : Int} {r : Number} :
    checked n = .ok r ↔ ∃ v : Int64, v.toInt = n ∧ r = .integer v := by
  unfold checked
  cases h : toInt64? n with
  | none =>
      simp only [reduceCtorEq, false_iff, not_exists, not_and]
      intro v hv
      rw [toInt64?_eq_some_iff.2 hv] at h
      exact absurd h (by simp)
  | some v =>
      have hv := toInt64?_eq_some_iff.1 h
      constructor
      · intro hr
        exact ⟨v, hv, (Except.ok.inj hr).symm⟩
      · rintro ⟨w, hw, rfl⟩
        rw [Int64.toInt_inj.1 (hv.trans hw.symm)]

theorem checked_eq_error_iff {n : Int} {f : ArithmeticFault} :
    checked n = .error f ↔ f = .overflow ∧ ¬InRange n := by
  unfold checked
  rw [← toInt64?_eq_none_iff]
  cases toInt64? n <;> simp [eq_comm]

/-- The number as an integer, or a fault if it has none. -/
def Number.narrow (v : Number) : Except ArithmeticFault Int64 :=
  match v.toInteger? with
  | some n => .ok n
  | none => .error .overflow

/-! ## Applying signs and operators -/

/-- The value of a signed operand. -/
def Sign.apply : Sign → Number → Except ArithmeticFault Number
  | .plus, v => .ok v
  | .minus, .integer n => checked (-n.toInt)
  | .minus, .real x => .ok (.real (-x))

/-- An operation that is exact on two integers and real on all other operands. -/
def mixed (exact : Int → Int → Int) (approximate : Float → Float → Float) :
    Number → Number → Except ArithmeticFault Number
  | .integer l, .integer r => checked (exact l.toInt r.toInt)
  | l, r => .ok (.real (approximate l.toReal r.toReal))

/-- The real quotient. -/
def realQuotient (l r : Number) : Except ArithmeticFault Number :=
  if r.toReal == 0 then .error .divisionByZero else .ok (.real (l.toReal / r.toReal))

/-- The integer quotient of the whole parts, rounded toward zero; the left operand is
narrowed first. -/
def wholeQuotient (l r : Number) : Except ArithmeticFault Number := do
  let l ← l.narrow
  let r ← r.narrow
  if r = 0 then .error .divisionByZero else checked (l.toInt.tdiv r.toInt)

/-- The value of an operator applied to two operands. -/
def Operator.apply : Operator → Number → Number → Except ArithmeticFault Number
  | .add => mixed (· + ·) (· + ·)
  | .subtract => mixed (· - ·) (· - ·)
  | .multiply => mixed (· * ·) (· * ·)
  | .divideInteger => wholeQuotient
  | .divideReal => realQuotient

/-! ## Kinds of results -/

theorem isReal_checked {n : Int} {r : Number} (h : checked n = .ok r) : r.isReal = false := by
  obtain ⟨v, -, rfl⟩ := checked_eq_ok_iff.1 h
  rfl

/-- A sign keeps the kind of its operand. -/
theorem isReal_sign_apply {s : Sign} {v r : Number} (h : s.apply v = .ok r) :
    r.isReal = v.isReal := by
  cases s with
  | plus => cases h; rfl
  | minus =>
      cases v with
      | integer n => exact isReal_checked h
      | real x => cases h; rfl

/-- A mixed operation is real exactly if one of its operands is. -/
theorem isReal_mixed {exact : Int → Int → Int} {approximate : Float → Float → Float}
    {l r v : Number} (h : mixed exact approximate l r = .ok v) :
    v.isReal = (l.isReal || r.isReal) := by
  cases l with
  | integer n =>
      cases r with
      | integer k => exact isReal_checked h
      | real y => cases h; rfl
  | real x => cases h; rfl

/-- An integer quotient is an integer. -/
theorem isReal_wholeQuotient {l r v : Number} (h : wholeQuotient l r = .ok v) :
    v.isReal = false := by
  unfold wholeQuotient at h
  cases hl : l.narrow with
  | error f => rw [hl] at h; simp [bind, Except.bind] at h
  | ok a =>
      cases hr : r.narrow with
      | error f => rw [hl, hr] at h; simp [bind, Except.bind] at h
      | ok b =>
          rw [hl, hr] at h
          simp only [bind, Except.bind] at h
          split at h
          · cases h
          · exact isReal_checked h

/-- The kind of the result of an operator on operands of the given kinds. -/
def Operator.isReal : Operator → Bool → Bool → Bool
  | .divideInteger, _, _ => false
  | .divideReal, _, _ => true
  | _, l, r => l || r

/-- **The kind of a result** depends on the operator and the kinds of the operands
alone. -/
theorem isReal_apply {op : Operator} {l r v : Number} (h : op.apply l r = .ok v) :
    v.isReal = op.isReal l.isReal r.isReal := by
  cases op with
  | add => exact isReal_mixed h
  | subtract => exact isReal_mixed h
  | multiply => exact isReal_mixed h
  | divideInteger => exact isReal_wholeQuotient h
  | divideReal =>
      have h : realQuotient l r = .ok v := h
      unfold realQuotient at h
      split at h
      · cases h
      · cases h; rfl

end MiniPascal
