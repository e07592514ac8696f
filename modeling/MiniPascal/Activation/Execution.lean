/-
# Execution

Expressions are evaluated on a call stack; statements change it.  What a call does is a
parameter of the statements, and it is filled in by recursion on the number of calls
that may still be nested, so that every execution ends.
-/
import MiniPascal.Activation
import MiniPascal.Scope.Analysis

set_option autoImplicit false

namespace MiniPascal

/-! ## Faults -/

/-- Why an execution ends early. -/
inductive RuntimeFault where
  | undefinedVariable (name : String)
  | unresolvedProcedure (name : String)
  | arithmetic (fault : ArithmeticFault)
  | callDepthExceeded (limit : Nat)
  deriving DecidableEq, Repr

/-- The wording of a runtime fault. -/
def RuntimeFault.text : RuntimeFault → String
  | .undefinedVariable name => "Undefined variable '" ++ name ++ "'."
  | .unresolvedProcedure name =>
    "Call to '" ++ name ++ "' was never resolved by semantic analysis."
  | .arithmetic .divisionByZero => "Division by zero."
  | .arithmetic .overflow => "Integer overflow while trying to compute result."
  | .callDepthExceeded limit =>
    "Procedure calls nested deeper than " ++ toString limit ++ " levels."

/-- A runtime fault and its place. -/
abbrev RuntimeError := Located RuntimeFault

/-- The wording of a runtime error. -/
def RuntimeError.message (e : RuntimeError) : String :=
  "Runtime error on " ++ e.position.text ++ ": " ++ e.value.text

/-- The result of an operation, with a fault at the place of its operator. -/
def atOperator (position : Position) :
    Except ArithmeticFault Number → Except RuntimeError Number
  | .ok v => .ok v
  | .error fault => .error ⟨.arithmetic fault, position⟩

/-! ## Expressions -/

/-- The index of the record that holds a variable. -/
def Variable.locate? (a : Analysis) (s : CallStack) (v : Variable) : Option Nat :=
  (a.declaredLevel? v.id).bind s.resolve

/-- The value of a variable. -/
def Variable.read? (a : Analysis) (s : CallStack) (v : Variable) : Option Number :=
  (v.locate? a s).bind fun index => (s.get? index).bind fun r => r.get? v.name

/-- The value of an expression, operands from left to right. -/
def Expr.eval (a : Analysis) (s : CallStack) : Expr → Except RuntimeError Number
  | .literal value _ => .ok value
  | .occurrence v =>
    match v.read? a s with
    | some value => .ok value
    | none => .error ⟨.undefinedVariable v.name, v.position⟩
  | .signed sign operand position => do
    let value ← operand.eval a s
    atOperator position (sign.apply value)
  | .binary op left right position => do
    let l ← left.eval a s
    let r ← right.eval a s
    atOperator position (op.apply l r)

/-- The values of expressions, from the first to the last. -/
def Expr.evalAll (a : Analysis) (s : CallStack) : List Expr → Except RuntimeError (List Number)
  | [] => .ok []
  | first :: rest => do
    let value ← first.eval a s
    let more ← Expr.evalAll a s rest
    return value :: more

/-! ## Events and states -/

/-- What an execution reports as it goes on. -/
inductive RunEvent where
  | entered (kind : BodyKind) (name : String)
  | left (kind : BodyKind) (name : String)
  | stack (s : CallStack)

/-- The call stack and the events so far, the latest first. -/
structure Machine where
  stack : CallStack
  events : List RunEvent

/-- An execution: it changes the machine, and the changes stay if it fails. -/
abbrev Execution := EStateM RuntimeError Machine

namespace Machine

/-- Start a body: its record goes on top of the stack. -/
def enter (m : Machine) (r : ActivationRecord) : Machine :=
  let stack := m.stack.push r
  ⟨stack, .stack stack :: .entered r.kind r.name :: m.events⟩

/-- End a body: its record is taken off the stack. -/
def leave (m : Machine) (r : ActivationRecord) : Machine :=
  ⟨m.stack.pop, .left r.kind r.name :: .stack m.stack :: m.events⟩

end Machine

namespace Execution

/-- Fail at a place. -/
def fail {α : Type} (fault : RuntimeFault) (position : Position) : Execution α :=
  throw ⟨fault, position⟩

/-- A value that is computed from the call stack. -/
def compute {α : Type} (f : CallStack → Except RuntimeError α) : Execution α := fun m =>
  match f m.stack with
  | .ok value => .ok value m
  | .error e => .error e m

/-- Run a body with a record of its own, which is taken off the stack even if the body
fails. -/
def within {α : Type} (r : ActivationRecord) (body : Execution α) : Execution α := fun m =>
  match body (m.enter r) with
  | .ok value d => .ok value (d.leave r)
  | .error e d => .error e (d.leave r)

/-- How an execution that starts on a machine ends, with the machine at its end. -/
def startOn {α : Type} (m : Machine) (body : Execution α) : Except RuntimeError α × Machine :=
  match body m with
  | .ok value d => (.ok value, d)
  | .error e d => (.error e, d)

end Execution

open Execution

/-! ## Statements -/

/-- Bind a variable in the record that holds it. -/
def Variable.write (a : Analysis) (v : Variable) (value : Number) : Execution Unit := fun m =>
  match (v.locate? a m.stack).bind fun index => m.stack.set? index v.name value with
  | some stack => .ok () { m with stack := stack }
  | none => .error ⟨.undefinedVariable v.name, v.position⟩ m

mutual

/-- Execute a statement, where `call` says what a call does.  An assignment evaluates
its value before it looks for its target. -/
def Statement.exec (a : Analysis) (call : Call → Execution Unit) : Statement → Execution Unit
  | .compound body => Statement.execAll a call body
  | .assign target value _ => do
    let result ← compute fun s => value.eval a s
    target.write a result
  | .call c => call c
  | .empty => pure ()

/-- Execute statements in turn. -/
def Statement.execAll (a : Analysis) (call : Call → Execution Unit) :
    List Statement → Execution Unit
  | [] => pure ()
  | first :: rest => do
    first.exec a call
    Statement.execAll a call rest

end

/-! ## Calls -/

/-- The record of a call on top of `s`: it links to the record of the scope that
declares the procedure, and binds the parameters. -/
def Procedure.activate (p : Procedure) (s : CallStack) (values : List Number) :
    ActivationRecord :=
  (p.params.zip values).foldl (fun r (param, value) => r.set param.name value)
    (.new p.name .procedure (p.scopeLevel + 1) (s.resolve p.scopeLevel))

/-- Perform a call that at most `left` calls may be nested in, itself included; `limit`
is the depth to report if there is none left. -/
def Call.perform (a : Analysis) (limit : Nat) : Nat → Call → Execution Unit
  | 0, c =>
    match a.procedure? c.id with
    | none => fail (.unresolvedProcedure c.name) c.position
    | some _ => fail (.callDepthExceeded limit) c.position
  | left + 1, c =>
    match a.procedure? c.id with
    | none => fail (.unresolvedProcedure c.name) c.position
    | some p => do
      let r ← compute fun s => do
        let values ← Expr.evalAll a s c.arguments
        return p.activate s values
      within r (Statement.execAll a (Call.perform a limit left) p.block.body)

end MiniPascal
