/-
# What all executions have in common

Statements are executed in a few ways only: nothing happens, a variable is assigned, a call
fails at once, the body of a procedure runs with a record of its own, and one execution
follows another.  So a property that these ways keep is one of all executions.

* `Statement.execUnder_call` : what a call under a limit executes;
* `Interpreter.run_eq_execution` : what the run of a program executes;
* `Sequential.of_calls` : a property that the ways of executing but calls keep holds of every
  statement if it holds of the calls;
* `Preserved.perform` : a property that all ways of executing keep holds of every call;
* `Preserved.statement` : and so it holds of every statement.
-/
import MiniPascal.Activation.Interpreter

set_option autoImplicit false

namespace MiniPascal

open Execution

/-- Execute a statement where at most `limit` calls may be active.  All records but that of
the program are those of calls. -/
def Statement.execUnder (a : Analysis) (limit : Nat) (st : Statement) : Execution Unit :=
  fun m => st.exec a (Call.perform a limit (limit + 1 - m.stack.size)) m

/-- Assign the value of an expression. -/
def Variable.assign (a : Analysis) (target : Variable) (value : Expr) : Execution Unit := do
  let result ← compute fun s => value.eval a s
  target.write a result

/-- Run a body with the record of a call of a procedure. -/
def Procedure.call (a : Analysis) (p : Procedure) (arguments : List Expr)
    (body : Execution Unit) : Execution Unit := do
  let r ← compute fun s => do
    let values ← Expr.evalAll a s arguments
    return p.activate s values
  within r body

/-- **A call under a limit** executes the body of its procedure under the same limit, with one
more record on the stack, as long as the stack has no more records than the limit. -/
theorem Statement.execUnder_call {a : Analysis} {limit : Nat} {c : Call} {p : Procedure}
    {m : Machine} (hp : a.procedure? c.id = some p) (hm : m.stack.size ≤ limit) :
    (Statement.call c).execUnder a limit m
      = p.call a c.arguments ((Statement.compound p.block.body).execUnder a limit) m := by
  obtain ⟨left, hleft⟩ : ∃ left, limit + 1 - m.stack.size = left + 1 :=
    ⟨limit - m.stack.size, by omega⟩
  unfold execUnder
  rw [Statement.exec, hleft, Call.perform, hp]
  simp only [Procedure.call, compute, bind, EStateM.bind]
  cases (Except.bind (Expr.evalAll a m.stack c.arguments) fun values =>
    pure (p.activate m.stack values)) with
  | error e => rfl
  | ok r =>
      -- the record on top is the one more that the limit counts
      have hbelow : limit + 1 - (m.enter r).stack.size = left := by
        show limit + 1 - (m.stack.size + 1) = left
        omega
      have hbody : (Statement.compound p.block.body).execUnder a limit (m.enter r)
          = Statement.execAll a (Call.perform a limit left) p.block.body (m.enter r) := by
        unfold execUnder
        rw [hbelow, Statement.exec]
      show within r _ m = within r ((Statement.compound p.block.body).execUnder a limit) m
      unfold within
      rw [hbody]

/-- How the body of a program ends that an interpreter runs, and the machine at its end. -/
def Interpreter.execution (i : Interpreter) (p : Program) : Except RuntimeError Unit × Machine :=
  startOn ((Machine.mk i.stack []).enter (programRecord p))
    ((Statement.compound p.block.body).execUnder i.analysis i.maxCallDepth)

/-- **The run of a program** executes its body under the limit of the interpreter, and takes
the record on top off the stack when that ends. -/
theorem Interpreter.run_eq_execution (i : Interpreter) (p : Program) :
    i.run p = ⟨(i.execution p).1, ((i.execution p).2.leave (programRecord p)).events.reverse,
      { i with
        stack := (i.execution p).2.stack.pop, finished := (i.execution p).2.stack.top? }⟩ := by
  unfold run execution startOn Statement.execUnder
  rw [Statement.exec]
  rfl

/-- A property that the ways of executing against an analysis keep, calls apart. -/
structure Sequential (a : Analysis) (P : Execution Unit → Prop) : Prop where
  nothing : P (pure ())
  seq : ∀ {run more : Execution Unit}, P run → P more → P (do run; more)
  assign : ∀ (target : Variable) (value : Expr), P (target.assign a value)

namespace Sequential

variable {a : Analysis} {P : Execution Unit → Prop}

mutual

/-- A statement has the property if its calls do. -/
theorem of_calls (h : Sequential a P) {call : Call → Execution Unit} (hcall : ∀ c, P (call c))
    (st : Statement) : P (st.exec a call) := by
  cases st with
  | compound body =>
      rw [Statement.exec]
      exact h.all_of_calls hcall body
  | assign target value position =>
      rw [Statement.exec]
      exact h.assign target value
  | call c =>
      rw [Statement.exec]
      exact hcall c
  | empty =>
      rw [Statement.exec]
      exact h.nothing

/-- Statements in turn have the property if their calls do. -/
theorem all_of_calls (h : Sequential a P) {call : Call → Execution Unit} (hcall : ∀ c, P (call c))
    (body : List Statement) : P (Statement.execAll a call body) := by
  cases body with
  | nil =>
      rw [Statement.execAll]
      exact h.nothing
  | cons first rest =>
      rw [Statement.execAll]
      exact h.seq (h.of_calls hcall first) (h.all_of_calls hcall rest)

end

end Sequential

/-- A property that all ways of executing against an analysis keep. -/
structure Preserved (a : Analysis) (P : Execution Unit → Prop) : Prop extends Sequential a P where
  fail : ∀ (fault : RuntimeFault) (position : Position), P (fail fault position)
  call : ∀ (p : Procedure) (arguments : List Expr) {body : Execution Unit},
    P body → P (p.call a arguments body)

namespace Preserved

variable {a : Analysis} {P : Execution Unit → Prop}

/-- **Every call** has the property, however many calls may be nested in it. -/
theorem perform (h : Preserved a P) (limit left : Nat) (c : Call) :
    P (Call.perform a limit left c) := by
  induction left generalizing c with
  | zero =>
      rw [Call.perform]
      split
      · exact h.fail _ _
      · exact h.fail _ _
  | succ left ih =>
      rw [Call.perform]
      split
      · exact h.fail _ _
      next p _ => exact h.call p c.arguments (h.all_of_calls ih p.block.body)

/-- **Every statement** has the property. -/
theorem statement (h : Preserved a P) (limit left : Nat) (st : Statement) :
    P (st.exec a (Call.perform a limit left)) :=
  h.of_calls (h.perform limit left) st

end Preserved

end MiniPascal
