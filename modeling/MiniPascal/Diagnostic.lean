/-
# Diagnostics

A diagnostic is the one error that ends the processing of a program text, from whatever
stage it comes: reading tokens, reading the tree, checking names or executing.
-/
import MiniPascal.Activation.Execution
import MiniPascal.Scope.Checker
import MiniPascal.Token.Stream

set_option autoImplicit false

namespace MiniPascal

/-- The error that ends the processing of a program text. -/
inductive Diagnostic where
  | lexical (e : LexicalError)
  | grammar (e : GrammarError)
  | scope (e : ScopeError)
  | runtime (e : RuntimeError)

namespace Diagnostic

/-- The diagnostic of a text that cannot be read. -/
def ofParseError : ParseError → Diagnostic
  | .lexical e => .lexical e
  | .grammar e => .grammar e

/-- The wording of a diagnostic. -/
def message : Diagnostic → String
  | .lexical e => LexicalError.message e
  | .grammar e => GrammarError.message e
  | .scope e => ScopeError.message e
  | .runtime e => RuntimeError.message e

/-- The place that a diagnostic points at. -/
def position : Diagnostic → Position
  | .lexical e => e.position
  | .grammar e => e.position
  | .scope e => e.position
  | .runtime e => e.position

/-- A text that cannot be read is reported in the same words and at the same place at
every stage. -/
theorem message_ofParseError (e : ParseError) : (ofParseError e).message = e.message := by
  cases e <;> rfl

end Diagnostic

end MiniPascal
