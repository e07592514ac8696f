/-
# Checking the names of a program

The checker walks over a program tree with a chain of open scopes, the innermost first.
A name stands for the symbol of the innermost scope that has it.  A procedure's name is
declared before its body is checked, and its parameter types are resolved before that.

* `lookup_chain` : looking a name up answers with the innermost symbol and leaves the
  chain of scopes alone;
* `chain_leave_enter` : closing a scope that was opened gives the chain back.
-/
import MiniPascal.Scope.Analysis

set_option autoImplicit false

namespace MiniPascal

/-! ## Faults -/

/-- Why a program misuses a name. -/
inductive ScopeFault where
  | undefinedIdentifier (name : String)
  | duplicateIdentifier (name : String)
  | undefinedType (name : String)
  | notAVariable (name : String)
  | notAProcedure (name : String)
  | argumentCountMismatch (name : String) (expected found : Nat)
  deriving DecidableEq, Repr

/-- The wording of a scope fault. -/
def ScopeFault.text : ScopeFault → String
  | .undefinedIdentifier name => "Identifier not found: '" ++ name ++ "'."
  | .duplicateIdentifier name => "Duplicate identifier '" ++ name ++ "' found."
  | .undefinedType name => "Undefined type '" ++ name ++ "'."
  | .notAVariable name => "'" ++ name ++ "' is not a variable."
  | .notAProcedure name => "'" ++ name ++ "' is not a procedure."
  | .argumentCountMismatch name expected found =>
    "Procedure '" ++ name ++ "' expects " ++ toString expected ++ " argument(s), but "
      ++ toString found ++ " were given."

/-- A scope fault and its place. -/
abbrev ScopeError := Located ScopeFault

/-- The wording of a scope error. -/
def ScopeError.message (e : ScopeError) : String :=
  "Semantic error on " ++ e.position.text ++ ": " ++ e.value.text

/-! ## Events -/

/-- What a check reports as it goes on. -/
inductive ScopeEvent where
  | entered (scope : String)
  | left (scope : String)
  | inserted (symbol : Symbol) (scope : String)
  | lookedUp (name scope : String)
  | closed (scope : Scope)

/-! ## The state of a check -/

/-- The open scopes, what has been resolved so far and the events so far, the latest
first. -/
structure Checker where
  current : Scope
  outer : List Scope
  occurrences : List (NodeId × Nat)
  calls : List (NodeId × Procedure)
  events : List ScopeEvent

/-- A check: it changes the state of the checker, and the changes stay if it fails. -/
abbrev Check := EStateM ScopeError Checker

namespace Checker

/-- The state at the start of a program. -/
def start : Checker := ⟨.global, [], [], [], [.entered Scope.global.name]⟩

/-- The open scopes, the innermost first. -/
def chain (c : Checker) : List Scope := c.current :: c.outer

/-- Add events, the earliest first. -/
def report (c : Checker) (events : List ScopeEvent) : Checker :=
  { c with events := events.reverse ++ c.events }

/-- Open a scope inside the current one. -/
def enter (c : Checker) (name : String) : Checker :=
  { c with
    current := Scope.new name (c.current.level + 1) (some c.current.name)
    outer := c.chain
    events := .entered name :: c.events }

/-- Close the current scope, unless it is the outermost one. -/
def leave (c : Checker) : Checker :=
  match c.outer with
  | [] => c
  | parent :: rest =>
    { c with
      current := parent
      outer := rest
      events := .closed c.current :: .left c.current.name :: c.events }

end Checker

/-- The symbol that a name stands for, with the level of its scope: the innermost one
of a chain of scopes. -/
def visible? (name : String) (chain : List Scope) : Option (Symbol × Nat) :=
  chain.findSome? fun scope => (scope.lookup name).map fun symbol => (symbol, scope.level)

/-- The scopes that a search for a name looks into: all up to the first that has it. -/
def consulted (name : String) : List Scope → List Scope
  | [] => []
  | scope :: rest =>
    if (scope.lookup name).isSome then [scope] else scope :: consulted name rest

/-! ## Steps of a check -/

namespace Check

/-- Fail at a place. -/
def fail {α : Type} (fault : ScopeFault) (position : Position) : Check α :=
  throw ⟨fault, position⟩

/-- The symbol that a name stands for here. -/
def lookup (name : String) : Check (Option (Symbol × Nat)) := fun c =>
  .ok (visible? name c.chain)
    (c.report ((consulted name c.chain).map fun scope => .lookedUp name scope.name))

/-- Declare a symbol in the current scope. -/
def declare (symbol : Symbol) (position : Position) : Check Unit := fun c =>
  let c := c.report [.inserted symbol c.current.name]
  match c.current.insert? symbol with
  | some grown => .ok () { c with current := grown }
  | none => .error ⟨.duplicateIdentifier symbol.name, position⟩ c

/-- The level of the current scope. -/
def currentLevel : Check Nat := fun c => .ok c.current.level c

/-- Check inside a new scope, which is closed again even if the check fails. -/
def inScope {α : Type} (name : String) (body : Check α) : Check α := fun c =>
  match body (c.enter name) with
  | .ok a d => .ok a d.leave
  | .error e d => .error e d.leave

/-- Record the level of the variable at a node. -/
def resolveVariable (id : NodeId) (level : Nat) : Check Unit := fun c =>
  .ok () { c with occurrences := (id, level) :: c.occurrences }

/-- Record the procedure of the call at a node. -/
def resolveCall (id : NodeId) (procedure : Procedure) : Check Unit := fun c =>
  .ok () { c with calls := (id, procedure) :: c.calls }

end Check

open Check

/-! ## Statements -/

/-- Check an occurrence of a variable. -/
def Variable.check (v : Variable) : Check Unit := do
  match ← lookup v.name with
  | some (.var _, level) => resolveVariable v.id level
  | some _ => fail (.notAVariable v.name) v.position
  | none => fail (.undefinedIdentifier v.name) v.position

/-- Check an expression from left to right. -/
def Expr.check : Expr → Check Unit
  | .literal _ _ => pure ()
  | .occurrence v => v.check
  | .signed _ operand _ => operand.check
  | .binary _ left right _ => do
    left.check
    right.check

/-- Check expressions in turn. -/
def Expr.checkAll : List Expr → Check Unit
  | [] => pure ()
  | first :: rest => do
    first.check
    Expr.checkAll rest

/-- Check a call: the arguments, then the name, then the number of arguments. -/
def Call.check (c : Call) : Check Unit := do
  Expr.checkAll c.arguments
  match ← lookup c.name with
  | some (.procedure p, _) =>
    if p.params.length = c.arguments.length then resolveCall c.id p
    else fail (.argumentCountMismatch c.name p.params.length c.arguments.length) c.position
  | some _ => fail (.notAProcedure c.name) c.position
  | none => fail (.undefinedIdentifier c.name) c.position

mutual

/-- Check a statement; of an assignment first the value. -/
def Statement.check : Statement → Check Unit
  | .compound body => Statement.checkAll body
  | .assign target value _ => do
    value.check
    target.check
  | .call c => c.check
  | .empty => pure ()

/-- Check statements in turn. -/
def Statement.checkAll : List Statement → Check Unit
  | [] => pure ()
  | first :: rest => do
    first.check
    Statement.checkAll rest

end

/-! ## Declarations -/

/-- The builtin type that a type name stands for here. -/
def TypeName.resolve (type : TypeName) : Check BuiltinType := do
  match ← lookup type.name with
  | some (.type t, _) => return t
  | _ => fail (.undefinedType type.name) type.position

/-- The parameters with their types. -/
def resolveParameters : List Parameter → Check (List TypedName)
  | [] => return []
  | first :: rest => do
    let type ← first.type.resolve
    let more ← resolveParameters rest
    return ⟨first.name, type⟩ :: more

/-- Declare parameters as variables, each at its own place. -/
def declareParameters : List Parameter → List TypedName → Check Unit
  | first :: rest, v :: more => do
    declare (.var v) first.position
    declareParameters rest more
  | _, _ => pure ()

mutual

/-- Check a declaration. -/
def Declaration.check : Declaration → Check Unit
  | .var name type position => do
    let resolved ← type.resolve
    declare (.var ⟨name, resolved⟩) position
  | .procedure name params declarations body position => do
    let formals ← resolveParameters params
    let level ← currentLevel
    declare (.procedure ⟨name, formals, level, ⟨declarations, body⟩⟩) position
    inScope name do
      declareParameters params formals
      Declaration.checkAll declarations
      Statement.checkAll body

/-- Check declarations in turn. -/
def Declaration.checkAll : List Declaration → Check Unit
  | [] => pure ()
  | first :: rest => do
    first.check
    Declaration.checkAll rest

end

/-! ## Programs -/

/-- Check a block: its declarations, then its body. -/
def Block.check (b : Block) : Check Unit := do
  Declaration.checkAll b.declarations
  Statement.checkAll b.body

/-- What the nodes of a program refer to, or its first misuse of a name, with the events
of the check. -/
def Program.check (p : Program) : Except ScopeError Analysis × List ScopeEvent :=
  match p.block.check .start with
  | .ok _ c =>
    (.ok ⟨c.occurrences, c.calls, c.current⟩,
      (c.report [.left c.current.name, .closed c.current]).events.reverse)
  | .error e c => (.error e, c.events.reverse)

/-- What the nodes of a program refer to, or its first misuse of a name. -/
def analyze (p : Program) : Except ScopeError Analysis := p.check.1

/-! ## The chain of scopes -/

/-- **Looking a name up** answers with the innermost symbol and leaves the chain
alone. -/
theorem lookup_chain (name : String) (c : Checker) :
    ∃ d, lookup name c = .ok (visible? name c.chain) d ∧ d.chain = c.chain :=
  ⟨_, rfl, rfl⟩

/-- Closing a scope that was opened gives the chain back. -/
theorem chain_leave_enter (c : Checker) (name : String) : (c.enter name).leave.chain = c.chain :=
  rfl

end MiniPascal
