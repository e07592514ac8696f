/-
# The reads of a run

The evaluation of an expression reads its variables from left to right, as long as the
operands before have values.  It fails only at a read without a value or at an operator.

* `Expr.error_of_eval` : why the evaluation of an expression fails;
* `Expr.eval_of_reads` : a read without a value ends the evaluation;
* `Moment.Reads` : the reads of the statement that a moment is about to execute.
-/
import MiniPascal.Proofs.Moments.Steps

set_option autoImplicit false

namespace MiniPascal

/-! ## Reads of expressions -/

/-- The evaluation of an expression comes to a read of a variable. -/
inductive Expr.Reads (a : Analysis) (s : CallStack) (v : Variable) : Expr → Prop where
  | occurrence : Reads a s v (.occurrence v)
  | signed {sign : Sign} {operand : Expr} {position : Position} (h : Reads a s v operand) :
      Reads a s v (.signed sign operand position)
  | left {op : Operator} {left right : Expr} {position : Position} (h : Reads a s v left) :
      Reads a s v (.binary op left right position)
  | right {op : Operator} {left right : Expr} {position : Position} {l : Number}
      (hleft : left.eval a s = .ok l) (h : Reads a s v right) :
      Reads a s v (.binary op left right position)

/-- The evaluation of expressions in turn comes to a read of a variable. -/
inductive Expr.ReadsAll (a : Analysis) (s : CallStack) (v : Variable) : List Expr → Prop where
  | first {first : Expr} {rest : List Expr} (h : first.Reads a s v) :
      ReadsAll a s v (first :: rest)
  | rest {first : Expr} {rest : List Expr} {value : Number}
      (hfirst : first.eval a s = .ok value) (h : ReadsAll a s v rest) :
      ReadsAll a s v (first :: rest)

section Evaluation

variable {a : Analysis} {s : CallStack} {v : Variable}

/-- An error that evaluation can end with: a read without a value, or an operator. -/
def IsValueError (a : Analysis) (s : CallStack) (reads : Variable → Prop) (e : RuntimeError) :
    Prop :=
  (∃ v, reads v ∧ v.read? a s = none ∧ e = ⟨.undefinedVariable v.name, v.position⟩) ∨
    ∃ fault position, e = ⟨.arithmetic fault, position⟩

theorem IsValueError.mono {reads more : Variable → Prop} {e : RuntimeError}
    (h : IsValueError a s reads e) (hmore : ∀ v, reads v → more v) : IsValueError a s more e := by
  rcases h with ⟨v, hv, hnone, he⟩ | harithmetic
  · exact Or.inl ⟨v, hmore v hv, hnone, he⟩
  · exact Or.inr harithmetic

/-- An undefined variable is reported at a read. -/
theorem IsValueError.undefined {reads : Variable → Prop} {name : String} {position : Position}
    (h : IsValueError a s reads ⟨.undefinedVariable name, position⟩) :
    ∃ v, reads v ∧ v.read? a s = none ∧ v.name = name ∧ v.position = position := by
  rcases h with ⟨v, hv, hnone, he⟩ | ⟨fault, position', he⟩
  · cases he
    exact ⟨v, hv, hnone, rfl, rfl⟩
  · cases he

/-- What an operator fails with. -/
theorem error_of_atOperator {position : Position} {result : Except ArithmeticFault Number}
    {e : RuntimeError} (h : atOperator position result = .error e) :
    ∃ fault position, e = ⟨.arithmetic fault, position⟩ := by
  cases result with
  | ok value => cases h
  | error fault =>
      cases h
      exact ⟨fault, position, rfl⟩

/-- What is computed in two parts fails in the first one or in the second one. -/
theorem error_of_bind {α β : Type} {x : Except RuntimeError α}
    {f : α → Except RuntimeError β} {e : RuntimeError} (h : (x >>= f) = .error e) :
    x = .error e ∨ ∃ value, x = .ok value ∧ f value = .error e := by
  cases x with
  | error e' =>
      cases h
      exact Or.inl rfl
  | ok value => exact Or.inr ⟨value, rfl, h⟩

/-- An operation with a result at its operator has this result. -/
theorem ok_of_atOperator {position : Position} {result : Except ArithmeticFault Number}
    {x : Number} (h : atOperator position result = .ok x) : result = .ok x := by
  cases result with
  | ok value =>
      cases h
      rfl
  | error fault => cases h

theorem ok_of_bind {α β : Type} {x : Except RuntimeError α} {f : α → Except RuntimeError β}
    {y : β} (h : (x >>= f) = .ok y) : ∃ value, x = .ok value ∧ f value = .ok y := by
  cases x with
  | error e => cases h
  | ok value => exact ⟨value, rfl, h⟩

/-- **Why the evaluation of an expression fails**. -/
theorem Expr.error_of_eval {e : Expr} {err : RuntimeError} (h : e.eval a s = .error err) :
    IsValueError a s (fun v => e.Reads a s v) err := by
  induction e generalizing err with
  | literal value position => cases h
  | occurrence v =>
      unfold Expr.eval at h
      split at h
      · cases h
      next hnone =>
        cases h
        exact Or.inl ⟨v, .occurrence, hnone, rfl⟩
  | signed sign operand position ih =>
      unfold Expr.eval at h
      rcases error_of_bind h with hoperand | ⟨value, -, h⟩
      · exact (ih hoperand).mono fun v => .signed
      · exact Or.inr (error_of_atOperator h)
  | binary op left right position ihleft ihright =>
      unfold Expr.eval at h
      rcases error_of_bind h with hleft | ⟨l, hleft, h⟩
      · exact (ihleft hleft).mono fun v => .left
      · rcases error_of_bind h with hright | ⟨r, -, h⟩
        · exact (ihright hright).mono fun v => .right hleft
        · exact Or.inr (error_of_atOperator h)

/-- Why the evaluation of expressions in turn fails. -/
theorem Expr.error_of_evalAll {es : List Expr} {err : RuntimeError}
    (h : Expr.evalAll a s es = .error err) :
    IsValueError a s (fun v => Expr.ReadsAll a s v es) err := by
  induction es with
  | nil => cases h
  | cons first rest ih =>
      unfold Expr.evalAll at h
      rcases error_of_bind h with hfirst | ⟨value, hfirst, h⟩
      · exact (Expr.error_of_eval hfirst).mono fun v => .first
      · rcases error_of_bind h with hrest | ⟨more, -, h⟩
        · exact (ih hrest).mono fun v => .rest hfirst
        · cases h

/-- A read without a value ends the evaluation of an expression. -/
theorem Expr.eval_of_reads {e : Expr} (h : e.Reads a s v) (hnone : v.read? a s = none) :
    e.eval a s = .error ⟨.undefinedVariable v.name, v.position⟩ := by
  induction h with
  | occurrence => simp only [Expr.eval, hnone]
  | signed _ ih =>
      rw [Expr.eval, ih]
      rfl
  | left _ ih =>
      rw [Expr.eval, ih]
      rfl
  | right hleft _ ih =>
      rw [Expr.eval, hleft, ih]
      rfl

/-- A read without a value ends the evaluation of expressions in turn. -/
theorem Expr.evalAll_of_reads {es : List Expr} (h : Expr.ReadsAll a s v es)
    (hnone : v.read? a s = none) :
    Expr.evalAll a s es = .error ⟨.undefinedVariable v.name, v.position⟩ := by
  induction h with
  | first h =>
      rw [Expr.evalAll, Expr.eval_of_reads h hnone]
      rfl
  | rest hfirst _ ih =>
      rw [Expr.evalAll, hfirst, ih]
      rfl

end Evaluation

/-! ## Reads of statements -/

/-- The statement that a moment is about to execute comes to a read of a variable: in the
value of an assignment, or in the arguments of a call that is not one too many. -/
inductive Moment.Reads (a : Analysis) (limit : Nat) (m : Moment) (v : Variable) : Prop where
  | value {target : Variable} {value : Expr} {position : Position} {rest : List Statement}
      (hrest : m.running.rest = .assign target value position :: rest)
      (h : value.Reads a m.machine.stack v) : Reads a limit m v
  | argument {c : Call} {rest : List Statement} {p : Procedure}
      (hrest : m.running.rest = .call c :: rest) (hp : a.procedure? c.id = some p)
      (hlimit : m.machine.stack.size ≤ limit)
      (h : Expr.ReadsAll a m.machine.stack v c.arguments) : Reads a limit m v

namespace Moment

variable {a : Analysis} {limit : Nat} {m : Moment}

/-- A read without a value is a reason to fail. -/
theorem fails_of_reads {v : Variable} (h : m.Reads a limit v)
    (hnone : v.read? a m.machine.stack = none) :
    m.Fails a limit ⟨.undefinedVariable v.name, v.position⟩ := by
  cases h with
  | value hrest h => exact .value hrest (Expr.eval_of_reads h hnone)
  | argument hrest hp hlimit h => exact .argument hrest hp hlimit (Expr.evalAll_of_reads h hnone)

end Moment

end MiniPascal
