/-
# The log

Every stage reports events.  Entering and leaving a scope or a body is shown from the
debug level on; tokens, symbols, scope tables and call stacks only at the trace level.
-/
import MiniPascal.Activation.Execution
import MiniPascal.Scope.Checker
import MiniPascal.Token.Lexer

set_option autoImplicit false

namespace MiniPascal

/-! ## Levels -/

/-- How much of the log is shown. -/
inductive LogLevel where
  | off
  | error
  | warn
  | info
  | debug
  | trace
  deriving DecidableEq, Repr

namespace LogLevel

/-- The place of a level among the levels. -/
def rank : LogLevel → Nat
  | .off => 0
  | .error => 1
  | .warn => 2
  | .info => 3
  | .debug => 4
  | .trace => 5

/-- The name of a level. -/
def text : LogLevel → String
  | .off => "OFF"
  | .error => "ERROR"
  | .warn => "WARN"
  | .info => "INFO"
  | .debug => "DEBUG"
  | .trace => "TRACE"

end LogLevel

/-! ## Events -/

/-- What the processing of a program text reports as it goes on. -/
inductive Event where
  | token (t : Located Token)
  | scope (e : ScopeEvent)
  | run (e : RunEvent)

/-- The level that an event of a check belongs to. -/
def ScopeEvent.level : ScopeEvent → LogLevel
  | .entered _ => .debug
  | .left _ => .debug
  | .inserted _ _ => .trace
  | .lookedUp _ _ => .trace
  | .closed _ => .trace

/-- The text of an event of a check. -/
def ScopeEvent.text : ScopeEvent → String
  | .entered scope => "ENTER scope: " ++ scope
  | .left scope => "LEAVE scope: " ++ scope
  | .inserted symbol scope => "Insert: " ++ symbol.text ++ " (scope " ++ scope ++ ")"
  | .lookedUp name scope => "Lookup: " ++ name ++ " (scope " ++ scope ++ ")"
  | .closed scope => scope.text

/-- The level that an event of an execution belongs to. -/
def RunEvent.level : RunEvent → LogLevel
  | .entered _ _ => .debug
  | .left _ _ => .debug
  | .stack _ => .trace

/-- The text of an event of an execution. -/
def RunEvent.text : RunEvent → String
  | .entered kind name => "ENTER: " ++ kind.text ++ " " ++ name
  | .left kind name => "LEAVE: " ++ kind.text ++ " " ++ name
  | .stack s => s.text

namespace Event

/-- The level that an event belongs to. -/
def level : Event → LogLevel
  | .token _ => .trace
  | .scope e => e.level
  | .run e => e.level

/-- The text of an event. -/
def text : Event → String
  | .token t => "token " ++ t.value.describe ++ " at " ++ t.position.text
  | .scope e => e.text
  | .run e => e.text

/-- Whether an event is shown when the log is limited to a level. -/
def isShown (limit : LogLevel) (e : Event) : Bool :=
  e.level.rank ≤ limit.rank

end Event

end MiniPascal
