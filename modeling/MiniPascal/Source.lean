/-
# Running a program text

A program text is read, checked and executed; each stage only starts if the one before
it succeeded, and the first error of all ends the processing.
-/
import MiniPascal.Activation.Interpreter
import MiniPascal.Diagnostic
import MiniPascal.Log
import MiniPascal.Tree.Phrase

set_option autoImplicit false

namespace MiniPascal

/-- Run a program text; the answer is the final record of the program or the first
error, with the events of all stages. -/
def runLogged (source : String) (maxCallDepth : Nat) :
    Except Diagnostic ActivationRecord × List Event :=
  let (parsed, tokens) := readProgram source
  let log := tokens.map Event.token
  match parsed with
  | .error e => (.error (.ofParseError e), log)
  | .ok tree =>
    let (checked, scopeEvents) := tree.check
    let log := log ++ scopeEvents.map Event.scope
    match checked with
    | .error e => (.error (.scope e), log)
    | .ok analysis =>
      let (outcome, runEvents) := interpret tree analysis maxCallDepth
      (outcome.mapError Diagnostic.runtime, log ++ runEvents.map Event.run)

/-- The final record of a program text, or its first error. -/
def runSource (source : String) (maxCallDepth : Nat) : Except Diagnostic ActivationRecord :=
  (runLogged source maxCallDepth).1

end MiniPascal
