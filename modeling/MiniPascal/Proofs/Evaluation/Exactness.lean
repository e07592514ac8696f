/-
# Integer expressions are exact

The exact value of an integer expression is computed in the unbounded integers.  An
evaluation comes to the nodes of an expression in post-order, and each node may be at fault:
an occurrence if it is unbound, a quotient if its divisor is zero, an operator or a sign if
its exact value is out of range.  Evaluation ends with the first of these faults, and without
a fault it ends with the exact value, so nothing ever wraps around.

* `Operator.apply_integer` : an operator applied to integers is exact, as far as it has a value;
* `Expr.exactOrFault` : evaluation ends with the first fault, or with the exact value;
* `eval_integral` : the evaluation of integer expressions.
-/
import MiniPascal.Activation.Execution

set_option autoImplicit false

namespace MiniPascal

/-! ## Integer expressions -/

/-- An expression without reals: its literals are integers, and no operator divides reals. -/
def Expr.IsIntegral : Expr → Prop
  | .literal value _ => value.isReal = false
  | .occurrence _ => True
  | .signed _ operand _ => operand.IsIntegral
  | .binary op left right _ => op ≠ .divideReal ∧ left.IsIntegral ∧ right.IsIntegral

/-- The nodes of an expression in the order in which they are evaluated: operands from left to
right, and behind them their operator. -/
def Expr.postOrder : Expr → List Expr
  | .literal value position => [.literal value position]
  | .occurrence v => [.occurrence v]
  | .signed sign operand position => operand.postOrder ++ [.signed sign operand position]
  | .binary op left right position =>
    left.postOrder ++ (right.postOrder ++ [.binary op left right position])

/-! ## Exact values -/

/-- The exact value of a signed integer. -/
def Sign.exactValue : Sign → Int → Int
  | .plus, n => n
  | .minus, n => -n

/-- The exact value of an operator applied to integers: quotients are rounded toward zero, and
there is none by zero. -/
def Operator.exactValue? : Operator → Int → Int → Option Int
  | .add, l, r => some (l + r)
  | .subtract, l, r => some (l - r)
  | .multiply, l, r => some (l * r)
  | .divideInteger, l, r => if r = 0 then none else some (l.tdiv r)
  | .divideReal, _, _ => none

/-- The exact value of an integer expression in the unbounded integers, where `values` says
which variables are bound, and to what. -/
def Expr.exactValue? (values : Variable → Option Int) : Expr → Option Int
  | .literal (.integer n) _ => some n.toInt
  | .literal (.real _) _ => none
  | .occurrence v => values v
  | .signed sign operand _ => (operand.exactValue? values).map sign.exactValue
  | .binary op left right _ =>
    (left.exactValue? values).bind fun l => (right.exactValue? values).bind (op.exactValue? l)

/-! ## Faults -/

/-- An overflow at a place if an exact value is out of range. -/
def overflow? (position : Position) : Option Int → Option RuntimeError
  | none => none
  | some n => if InRange n then none else some ⟨.arithmetic .overflow, position⟩

/-- The fault of a node by itself: an unbound variable, a quotient by zero, or an operator whose
exact value is out of range. -/
def Expr.fault? (values : Variable → Option Int) : Expr → Option RuntimeError
  | .literal _ _ => none
  | .occurrence v =>
    if (values v).isSome then none else some ⟨.undefinedVariable v.name, v.position⟩
  | .signed sign operand position =>
    overflow? position ((Expr.signed sign operand position).exactValue? values)
  | .binary op left right position =>
    if op = .divideInteger ∧ right.exactValue? values = some 0 then
      some ⟨.arithmetic .divisionByZero, position⟩
    else overflow? position ((Expr.binary op left right position).exactValue? values)

/-- The fault of the first node in post-order that is at fault. -/
def Expr.firstFault? (values : Variable → Option Int) (e : Expr) : Option RuntimeError :=
  e.postOrder.findSome? (Expr.fault? values)

/-- The integer that a variable holds. -/
def Variable.integer? (a : Analysis) (s : CallStack) (v : Variable) : Option Int :=
  match v.read? a s with
  | some (.integer n) => some n.toInt
  | _ => none

/-! ## Operators on integers -/

theorem checked_toInt (n : Int64) : checked n.toInt = .ok (.integer n) :=
  checked_eq_ok_iff.2 ⟨n, rfl, rfl⟩

/-- **A sign** in front of an integer is exact. -/
theorem Sign.apply_integer (sign : Sign) (n : Int64) :
    sign.apply (.integer n) = checked (sign.exactValue n.toInt) := by
  cases sign with
  | plus => exact (checked_toInt n).symm
  | minus => rfl

theorem eq_zero_iff_toInt (n : Int64) : n = 0 ↔ n.toInt = 0 := by
  rw [← Int64.toInt_inj, Int64.toInt_zero]

/-- **An operator** applied to integers is exact, and fails where it has no exact value. -/
theorem Operator.apply_integer {op : Operator} (hop : op ≠ .divideReal) (l r : Int64) :
    op.apply (.integer l) (.integer r) = match op.exactValue? l.toInt r.toInt with
      | some n => checked n
      | none => .error .divisionByZero := by
  cases op with
  | add => rfl
  | subtract => rfl
  | multiply => rfl
  | divideInteger =>
      show (if r = 0 then _ else _) = _
      by_cases hzero : r.toInt = 0
      · rw [if_pos ((eq_zero_iff_toInt r).2 hzero), Operator.exactValue?, if_pos hzero]
      · rw [if_neg fun h => hzero ((eq_zero_iff_toInt r).1 h), Operator.exactValue?, if_neg hzero]
  | divideReal => exact absurd rfl hop

/-! ## Exact evaluation -/

/-- A result that is a given fault, or else the integer of a given exact value. -/
def ExactOrFault (result : Except RuntimeError Number) (fault : Option RuntimeError)
    (exact : Option Int) : Prop :=
  match fault with
  | some e => result = .error e
  | none => ∃ n : Int64, exact = some n.toInt ∧ result = .ok (.integer n)

theorem exactOrFault_error (e : RuntimeError) (exact : Option Int) :
    ExactOrFault (.error e) (some e) exact := rfl

/-- A checked result is exact, or an overflow at its operator. -/
theorem exactOrFault_checked (position : Position) (n : Int) :
    ExactOrFault (atOperator position (checked n)) (overflow? position (some n)) (some n) := by
  by_cases hn : InRange n
  · rw [overflow?, if_pos hn]
    obtain ⟨k, hk⟩ : ∃ k, toInt64? n = some k := by
      rw [← Option.ne_none_iff_exists']
      intro hnone
      exact toInt64?_eq_none_iff.1 hnone hn
    obtain rfl := toInt64?_eq_some_iff.1 hk
    refine ⟨k, rfl, ?_⟩
    rw [checked_toInt]
    rfl
  · rw [overflow?, if_neg hn, checked_eq_error_iff.2 ⟨rfl, hn⟩]
    exact exactOrFault_error _ _

/-- A node behind its operand: if the operand is not at fault, the node is evaluated with the
exact value of the operand. -/
theorem ExactOrFault.bind {result : Except RuntimeError Number} {fault later : Option RuntimeError}
    {exact value : Option Int} {f : Number → Except RuntimeError Number}
    (h : ExactOrFault result fault exact)
    (hf : ∀ n : Int64, exact = some n.toInt → ExactOrFault (f (.integer n)) later value) :
    ExactOrFault (result >>= f) (fault.or later) value := by
  cases fault with
  | some e =>
      obtain rfl : result = .error e := h
      exact exactOrFault_error e value
  | none =>
      obtain ⟨n, hexact, rfl⟩ := h
      exact hf n hexact

/-- An operator applied to integers is exact, or fails at its place. -/
theorem Operator.exactOrFault {op : Operator} (hop : op ≠ .divideReal) (position : Position)
    (l r : Int64) :
    ExactOrFault (atOperator position (op.apply (.integer l) (.integer r)))
      (if op = .divideInteger ∧ some r.toInt = some 0 then
        some ⟨.arithmetic .divisionByZero, position⟩
      else overflow? position (op.exactValue? l.toInt r.toInt))
      (op.exactValue? l.toInt r.toInt) := by
  rw [apply_integer hop]
  -- only a quotient by zero has no exact value
  by_cases hzero : op = .divideInteger ∧ some r.toInt = some 0
  · obtain ⟨rfl, hr⟩ := hzero
    rw [if_pos ⟨rfl, hr⟩, exactValue?, if_pos (Option.some.inj hr)]
    exact exactOrFault_error _ _
  · rw [if_neg hzero]
    obtain ⟨n, hn⟩ : ∃ n, op.exactValue? l.toInt r.toInt = some n := by
      cases op with
      | divideInteger => exact ⟨_, if_neg fun hr => hzero ⟨rfl, congrArg some hr⟩⟩
      | divideReal => exact absurd rfl hop
      | _ => exact ⟨_, rfl⟩
    rw [hn]
    exact exactOrFault_checked position n

variable {a : Analysis} {s : CallStack}

/-- An occurrence of a variable has the integer that it holds, or fails if it is unbound. -/
theorem Variable.exactOrFault {v : Variable}
    (hv : ∀ x, v.read? a s = some x → x.isReal = false) :
    ExactOrFault ((Expr.occurrence v).eval a s)
      ((Expr.occurrence v).fault? (Variable.integer? a s)) (v.integer? a s) := by
  rw [Expr.eval, Expr.fault?]
  unfold Variable.integer?
  cases hread : v.read? a s with
  | none => exact exactOrFault_error _ _
  | some x =>
      cases x with
      | integer n => exact ⟨n, rfl, rfl⟩
      | real x => cases hv _ hread

/-- **Evaluation** ends with the first fault in post-order, or with the exact value. -/
theorem Expr.exactOrFault {e : Expr} (he : e.IsIntegral)
    (hs : ∀ v, .occurrence v ∈ e.postOrder → ∀ x, v.read? a s = some x → x.isReal = false) :
    ExactOrFault (e.eval a s) (e.firstFault? (Variable.integer? a s))
      (e.exactValue? (Variable.integer? a s)) := by
  induction e with
  | literal value position =>
      cases value with
      | integer n => exact ⟨n, rfl, rfl⟩
      | real x => cases he
  | occurrence v =>
      unfold firstFault? postOrder
      rw [List.findSome?_singleton]
      exact Variable.exactOrFault (hs v (List.mem_singleton.2 rfl))
  | signed sign operand position ih =>
      have hoperand := ih he fun v hv => hs v (List.mem_append_left _ hv)
      unfold firstFault? postOrder eval
      rw [List.findSome?_append, List.findSome?_singleton]
      refine hoperand.bind fun n hn => ?_
      rw [fault?, exactValue?, hn, Option.map_some, Sign.apply_integer]
      exact exactOrFault_checked position _
  | binary op left right position ihleft ihright =>
      obtain ⟨hop, heleft, heright⟩ := he
      have hleft := ihleft heleft fun v hv => hs v (List.mem_append_left _ hv)
      have hright := ihright heright fun v hv =>
        hs v (List.mem_append_right _ (List.mem_append_left _ hv))
      unfold firstFault? postOrder eval
      rw [List.findSome?_append, List.findSome?_append, List.findSome?_singleton]
      refine hleft.bind fun l hl => hright.bind fun r hr => ?_
      rw [fault?, exactValue?, hl, hr, Option.bind_some, Option.bind_some]
      exact Operator.exactOrFault hop position l r

/-! ## Parts of expressions -/

/-- A part of a part is a part. -/
theorem Expr.mem_postOrder_trans {c d e : Expr} (hc : c ∈ d.postOrder) (hd : d ∈ e.postOrder) :
    c ∈ e.postOrder := by
  induction e with
  | literal value position =>
      rw [List.mem_singleton.1 hd] at hc
      exact hc
  | occurrence v =>
      rw [List.mem_singleton.1 hd] at hc
      exact hc
  | signed sign operand position ih =>
      rcases List.mem_append.1 hd with hd | hd
      · exact List.mem_append_left _ (ih hd)
      · rw [List.mem_singleton.1 hd] at hc
        exact hc
  | binary op left right position ihleft ihright =>
      rcases List.mem_append.1 hd with hd | hd
      · exact List.mem_append_left _ (ihleft hd)
      · rcases List.mem_append.1 hd with hd | hd
        · exact List.mem_append_right _ (List.mem_append_left _ (ihright hd))
        · rw [List.mem_singleton.1 hd] at hc
          exact hc

/-- The parts of an integer expression are integer expressions. -/
theorem Expr.IsIntegral.of_mem {d e : Expr} (he : e.IsIntegral) (hd : d ∈ e.postOrder) :
    d.IsIntegral := by
  induction e with
  | literal value position =>
      rw [List.mem_singleton.1 hd]
      exact he
  | occurrence v =>
      rw [List.mem_singleton.1 hd]
      exact he
  | signed sign operand position ih =>
      rcases List.mem_append.1 hd with hd | hd
      · exact ih he hd
      · rw [List.mem_singleton.1 hd]
        exact he
  | binary op left right position ihleft ihright =>
      rcases List.mem_append.1 hd with hd | hd
      · exact ihleft he.2.1 hd
      · rcases List.mem_append.1 hd with hd | hd
        · exact ihright he.2.2 hd
        · rw [List.mem_singleton.1 hd]
          exact he

/-- **Integer expressions are exact** or fail at the right node.  Take an integer expression and
a state in which its variables hold integers or are unbound.  If a node is at fault, evaluation
ends with the fault of the first such node in post-order.  Otherwise it ends with the integer of
the exact value.  No part of the expression has another value than its exact one. -/
theorem eval_integral {e : Expr} (he : e.IsIntegral)
    (hs : ∀ v, .occurrence v ∈ e.postOrder → ∀ x, v.read? a s = some x → x.isReal = false) :
    (∀ err, e.firstFault? (Variable.integer? a s) = some err → e.eval a s = .error err) ∧
    (e.firstFault? (Variable.integer? a s) = none →
      ∃ n : Int64, e.exactValue? (Variable.integer? a s) = some n.toInt ∧
        e.eval a s = .ok (.integer n)) ∧
    ∀ d ∈ e.postOrder, ∀ x, d.eval a s = .ok x →
      ∃ n : Int64, x = .integer n ∧ d.exactValue? (Variable.integer? a s) = some n.toInt := by
  have hexact := Expr.exactOrFault he hs
  refine ⟨fun err herr => ?_, fun hnone => ?_, fun d hd x hx => ?_⟩
  · rw [herr] at hexact
    exact hexact
  · rw [hnone] at hexact
    exact hexact
  · have hpart := Expr.exactOrFault (he.of_mem hd) fun v hv =>
      hs v (Expr.mem_postOrder_trans hv hd)
    cases hfault : d.firstFault? (Variable.integer? a s) with
    | some err =>
        rw [hfault] at hpart
        have herror : d.eval a s = .error err := hpart
        rw [hx] at herror
        cases herror
    | none =>
        rw [hfault] at hpart
        obtain ⟨n, hn, hvalue⟩ := hpart
        rw [hx] at hvalue
        exact ⟨n, Except.ok.inj hvalue, hn⟩

/-- The variable `x`, which holds the lowest integer. -/
def lowest : Variable := ⟨"x", 0, ⟨1, 1⟩⟩

/-- The quotient `x DIV -1`, to which a quotient by zero is added. -/
def lowestQuotient : Expr :=
  .binary .add
    (.binary .divideInteger (.occurrence lowest)
      (.signed .minus (.literal (.integer 1) ⟨1, 8⟩) ⟨1, 7⟩) ⟨1, 3⟩)
    (.binary .divideInteger (.literal (.integer 1) ⟨1, 12⟩) (.literal (.integer 0) ⟨1, 18⟩)
      ⟨1, 14⟩) ⟨1, 10⟩

/-- A stack on which `x` holds the lowest integer. -/
def lowestStack : CallStack :=
  CallStack.empty.push ((ActivationRecord.new "P" .program globalLevel none).set "x"
    (.integer Int64.minValue))

/-- What the occurrence of `x` refers to. -/
def lowestAnalysis : Analysis := ⟨[(0, globalLevel)], [], .global⟩

/-- Both quotients are at fault, and the overflow of the first one is reported. -/
theorem lowestQuotient_integral : lowestQuotient.IsIntegral ∧
    lowest.read? lowestAnalysis lowestStack = some (.integer Int64.minValue) ∧
    lowestQuotient.eval lowestAnalysis lowestStack = .error ⟨.arithmetic .overflow, ⟨1, 3⟩⟩ := by
  have hintegral : lowestQuotient.IsIntegral :=
    ⟨by decide, ⟨by decide, trivial, rfl⟩, ⟨by decide, rfl, rfl⟩⟩
  have hread : lowest.read? lowestAnalysis lowestStack = some (.integer Int64.minValue) := rfl
  have hstate : ∀ v, .occurrence v ∈ lowestQuotient.postOrder →
      ∀ x, v.read? lowestAnalysis lowestStack = some x → x.isReal = false := by
    intro v hv x hx
    obtain rfl : v = lowest := by simpa [lowestQuotient, Expr.postOrder] using hv
    rw [hread] at hx
    cases hx
    rfl
  have hfault : lowestQuotient.firstFault? (Variable.integer? lowestAnalysis lowestStack)
      = some ⟨.arithmetic .overflow, ⟨1, 3⟩⟩ := by decide +kernel
  exact ⟨hintegral, hread, (eval_integral hintegral hstate).1 _ hfault⟩

end MiniPascal
