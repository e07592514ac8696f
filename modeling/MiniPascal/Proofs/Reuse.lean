/-
# Runs in turn

A run takes every record that it pushes off the stack again, its own and those of calls that
fail included.  So an interpreter comes out of a run as if it were new, but for the record of
the program that has run last, and the next run takes no notice of that one.

* `Interpreter.stack_execution` : the body of a program ends on a stack with one record;
* `Interpreter.interpreter_run` : what a run makes of an interpreter;
* `Interpreter.runAll_of_stack_empty` : what runs in turn make of it;
* `Interpreter.run_reusable` : every run is one of a new interpreter.
-/
import MiniPascal.Proofs.Footprint

set_option autoImplicit false

namespace MiniPascal

namespace Interpreter

/-- **The body of a program** that starts on an empty stack ends with the record of the program
and no other, whether it succeeds or fails. -/
theorem stack_execution {i : Interpreter} (hi : i.stack = .empty) (tree : Program) :
    ∃ r, (i.execution tree).2.stack = ⟨[r]⟩ ∧ r.heading = (programRecord tree).heading := by
  have hlayered : (CallStack.empty.push (programRecord tree)).Layered := .program tree
  have hbody : Footprint (CallStack.empty.push (programRecord tree))
      (i.execution tree).2.stack := by
    rw [execution, hi]
    exact (preserved_confined i.analysis).statement i.maxCallDepth i.maxCallDepth
      (.compound tree.block.body) ((Machine.mk .empty []).enter (programRecord tree))
      hlayered.down
  obtain ⟨r, hr, hget⟩ := CallStack.exists_eq_singleton hbody.size
  have hheading := hbody.headings 0
  rw [CallStack.heading?, hget] at hheading
  exact ⟨r, hr, Option.some.inj hheading⟩

/-- **What a run makes of an interpreter** whose stack is empty: the stack is empty again, and
the record of the program has finished. -/
theorem interpreter_run {i : Interpreter} (hi : i.stack = .empty) (tree : Program) :
    ∃ r, (i.run tree).interpreter = ⟨i.analysis, i.maxCallDepth, .empty, some r⟩ ∧
      r.heading = (programRecord tree).heading := by
  obtain ⟨r, hstack, hheading⟩ := stack_execution hi tree
  refine ⟨r, ?_, hheading⟩
  rw [run_eq_execution, hstack]
  rfl

/-- A run takes no notice of what has finished before. -/
theorem run_of_stack_empty {i : Interpreter} (hi : i.stack = .empty) (tree : Program) :
    i.run tree = (Interpreter.new i.analysis i.maxCallDepth).run tree := by
  obtain ⟨a, limit, stack, finished⟩ := i
  cases hi
  rfl

/-- An interpreter after the runs of programs in turn. -/
def runAll (i : Interpreter) (programs : List Program) : Interpreter :=
  programs.foldl (fun i tree => (i.run tree).interpreter) i

/-- **Between two runs** an interpreter differs from a new one in the record of the program
that it ran last, and in nothing else. -/
theorem runAll_of_stack_empty {i : Interpreter} (hi : i.stack = .empty)
    (programs : List Program) :
    ∃ finished, i.runAll programs = ⟨i.analysis, i.maxCallDepth, .empty, finished⟩ := by
  induction programs generalizing i with
  | nil =>
      obtain ⟨a, limit, stack, finished⟩ := i
      cases hi
      exact ⟨finished, rfl⟩
  | cons tree rest ih =>
      obtain ⟨r, hrun, -⟩ := interpreter_run hi tree
      show ∃ finished, (i.run tree).interpreter.runAll rest = _
      rw [hrun]
      exact ih rfl

/-- **Every run is one of a new interpreter.**  After the runs of any programs, whether they
belong to the analysis or not and whether they succeed or fail, the run of one more has the
result, the events and the record that a new interpreter gives.  The stack is empty again, and the
record is that of the program, at the outermost level and without a static link.  Running
a program once has the same outcome and the same record, so that any other record
could stand for the one that is taken if there is none. -/
theorem run_reusable (a : Analysis) (limit : Nat) (before : List Program) (tree : Program) :
    ((Interpreter.new a limit).runAll before).run tree = (Interpreter.new a limit).run tree ∧
      ∃ r, (((Interpreter.new a limit).runAll before).run tree).interpreter
          = ⟨a, limit, .empty, some r⟩ ∧
        r.heading = ⟨tree.name, .program, 1, none⟩ ∧
        (interpret tree a limit).1
          = (((Interpreter.new a limit).runAll before).run tree).outcome.map (fun _ => r) ∧
        ∀ fallback, (interpret tree a limit).1
          = (((Interpreter.new a limit).run tree).outcome.map fun _ =>
              ((Interpreter.new a limit).run tree).interpreter.finished.getD fallback) := by
  obtain ⟨finished, hbefore⟩ := runAll_of_stack_empty (i := .new a limit) rfl before
  obtain ⟨r, hrun, hheading⟩ := interpreter_run (i := .new a limit) rfl tree
  have hfinished : ((Interpreter.new a limit).run tree).interpreter.finished = some r :=
    congrArg Interpreter.finished hrun
  -- a run does not read what has finished before
  have hsame : ((Interpreter.new a limit).runAll before).run tree
      = (Interpreter.new a limit).run tree := by
    rw [hbefore]
    exact run_of_stack_empty rfl tree
  refine ⟨hsame, r, ?_, hheading, ?_, fun fallback => ?_⟩
  · rw [hsame]
    exact hrun
  · rw [hsame, interpret, hfinished]
    rfl
  · rw [interpret, hfinished]
    rfl

end Interpreter

end MiniPascal
