/-
# The interpreter

An interpreter runs program trees against one analysis, under a limit on the calls that
may be nested.  The record of the program that it ran last stays available, also after
a failure.
-/
import MiniPascal.Activation.Execution

set_option autoImplicit false

namespace MiniPascal

/-- The number of nested calls that are allowed by default. -/
def defaultCallDepth : Nat := 128

/-- An interpreter; its stack is empty outside of a run. -/
structure Interpreter where
  analysis : Analysis
  maxCallDepth : Nat
  stack : CallStack
  finished : Option ActivationRecord

/-- What a run leaves behind. -/
structure Run where
  outcome : Except RuntimeError Unit
  events : List RunEvent
  interpreter : Interpreter

namespace Interpreter

/-- An interpreter that has not run anything. -/
def new (analysis : Analysis) (maxCallDepth : Nat) : Interpreter :=
  ⟨analysis, maxCallDepth, .empty, none⟩

/-- The record of a program at its start. -/
def programRecord (p : Program) : ActivationRecord :=
  .new p.name .program globalLevel none

/-- Run a program.  Its own record does not count as a call. -/
def run (i : Interpreter) (p : Program) : Run :=
  let r := programRecord p
  let start := (Machine.mk i.stack []).enter r
  let call := Call.perform i.analysis i.maxCallDepth (i.maxCallDepth + 1 - start.stack.size)
  let (outcome, m) := Execution.startOn start (Statement.execAll i.analysis call p.block.body)
  let stop := m.leave r
  ⟨outcome, stop.events.reverse,
    { i with stack := stop.stack, finished := m.stack.top? }⟩

end Interpreter

/-- Run a program once; the answer is its final record, or the first fault. -/
def interpret (p : Program) (analysis : Analysis) (maxCallDepth : Nat) :
    Except RuntimeError ActivationRecord × List RunEvent :=
  let run := (Interpreter.new analysis maxCallDepth).run p
  (run.outcome.map fun _ => run.interpreter.finished.getD (Interpreter.programRecord p),
    run.events)

end MiniPascal
