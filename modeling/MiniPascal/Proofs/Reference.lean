/-
# A reference semantics

What a program means, told without levels, node numbers and a stack of records.  An
environment binds the visible names: a variable to a storage location of its own, and a
procedure to its declaration together with the environment at the point where it is
declared.  A body runs in the environment of its procedure, extended by the procedure
itself and by fresh locations for its parameters and variables.

* `Reference.perform` : what a call does;
* `Program.meaning` : how a program ends, and what its variables are bound to then.
-/
import MiniPascal.Activation.Interpreter
import MiniPascal.Proofs.Scoping

set_option autoImplicit false

namespace MiniPascal

namespace Reference

/-! ## Environments and stores -/

/-- What a name denotes: a storage location, or a procedure with the environment at its
declaration. -/
inductive Denotation where
  | location (l : Nat)
  | closure (d : ProcedureDeclaration) (home : List (String × Denotation))

/-- What the visible names denote, the innermost first. -/
abbrev Environment := List (String × Denotation)

/-- The values of the storage locations; a location without a value is unbound. -/
abbrev Store := List (Option Number)

/-- The value of a location. -/
def read (σ : Store) (l : Nat) : Option Number := (σ[l]?).join

theorem read_set_self {σ : Store} {l : Nat} (h : l < σ.length) (value : Number) :
    read (σ.set l (some value)) l = some value := by
  rw [read, List.getElem?_set_self h]
  rfl

theorem read_set_of_ne {σ : Store} {l k : Nat} (h : k ≠ l) (value : Number) :
    read (σ.set l (some value)) k = read σ k := by
  rw [read, List.getElem?_set_ne (Ne.symm h)]
  rfl

theorem read_append_self (σ : Store) (content : Option Number) :
    read (σ ++ [content]) σ.length = content := by
  rw [read, List.getElem?_concat_length]
  rfl

theorem read_append {σ : Store} {l : Nat} (h : l < σ.length) (more : Store) :
    read (σ ++ more) l = read σ l := by
  rw [read, List.getElem?_append_left h]
  rfl

/-- An effect on the store; it stays if there is a fault. -/
abbrev Effect := EStateM RuntimeError Store

/-- Fail at a place. -/
def fail {α : Type} (fault : RuntimeFault) (position : Position) : Effect α :=
  throw ⟨fault, position⟩

/-- A value that is computed from the store. -/
def compute {α : Type} (f : Store → Except RuntimeError α) : Effect α := fun σ =>
  match f σ with
  | .ok value => .ok value σ
  | .error e => .error e σ

/-! ## Expressions -/

/-- The value that a name is bound to; procedures are not bound to values. -/
def bindings (env : Environment) (σ : Store) (name : String) : Option Number :=
  match env.lookup name with
  | some (.location l) => read σ l
  | _ => none

/-- The value of an expression, operands from left to right. -/
def evaluate (env : Environment) (σ : Store) : Expr → Except RuntimeError Number
  | .literal value _ => .ok value
  | .occurrence v =>
    match bindings env σ v.name with
    | some value => .ok value
    | none => .error ⟨.undefinedVariable v.name, v.position⟩
  | .signed sign operand position => do
    let value ← evaluate env σ operand
    atOperator position (sign.apply value)
  | .binary op left right position => do
    let l ← evaluate env σ left
    let r ← evaluate env σ right
    atOperator position (op.apply l r)

/-- The values of expressions, from the first to the last. -/
def evaluateAll (env : Environment) (σ : Store) : List Expr → Except RuntimeError (List Number)
  | [] => .ok []
  | first :: rest => do
    let value ← evaluate env σ first
    let more ← evaluateAll env σ rest
    return value :: more

/-! ## Declarations -/

/-- Parameters are bound to fresh locations with their values. -/
def bindParameters : List Parameter → List Number → Environment → Store → Environment × Store
  | first :: rest, value :: more, env, σ =>
    bindParameters rest more ((first.name, .location σ.length) :: env) (σ ++ [some value])
  | _, _, env, σ => (env, σ)

/-- Variables are bound to fresh locations without a value, and procedures to themselves
and the environment so far. -/
def declareAll : List Declaration → Environment → Store → Environment × Store
  | [], env, σ => (env, σ)
  | .var name _ _ :: rest, env, σ =>
    declareAll rest ((name, .location σ.length) :: env) (σ ++ [none])
  | .procedure name params declarations body position :: rest, env, σ =>
    declareAll rest
      ((name, .closure ⟨name, params, ⟨declarations, body⟩, position⟩ env) :: env) σ

/-- The environment of the body of a procedure. -/
def enter (d : ProcedureDeclaration) (home : Environment) (values : List Number) :
    Effect Environment := fun σ =>
  let (env, σ) := bindParameters d.params values ((d.name, .closure d home) :: home) σ
  let (env, σ) := declareAll d.block.declarations env σ
  .ok env σ

/-! ## Statements -/

/-- Bind the location of a variable. -/
def assign (env : Environment) (v : Variable) (value : Number) : Effect Unit := fun σ =>
  match env.lookup v.name with
  | some (.location l) => .ok () (σ.set l (some value))
  | _ => .error ⟨.undefinedVariable v.name, v.position⟩ σ

mutual

/-- Execute a statement, where `call` says what a call does. -/
def execute (env : Environment) (call : Call → Effect Unit) : Statement → Effect Unit
  | .compound body => executeAll env call body
  | .assign target value _ => do
    let result ← compute fun σ => evaluate env σ value
    assign env target result
  | .call c => call c
  | .empty => pure ()

/-- Execute statements in turn. -/
def executeAll (env : Environment) (call : Call → Effect Unit) :
    List Statement → Effect Unit
  | [] => pure ()
  | first :: rest => do
    execute env call first
    executeAll env call rest

end

/-- Perform a call while `left` more calls may become active: the arguments are evaluated
where the call stands, and the body runs where the procedure is declared.  If no more call
may become active, the arguments are not evaluated. -/
def perform (limit : Nat) : Nat → Environment → Call → Effect Unit
  | 0, _, c => fail (.callDepthExceeded limit) c.position
  | left + 1, env, c =>
    match env.lookup c.name with
    | some (.closure d home) => do
      let values ← compute fun σ => evaluateAll env σ c.arguments
      let inner ← enter d home values
      executeAll inner (perform limit left inner) d.block.body
    | _ => fail (.unresolvedProcedure c.name) c.position

end Reference

/-! ## Programs -/

/-- How a program ends, and what its variables are bound to then. -/
structure Meaning where
  outcome : Except RuntimeError Unit
  bindings : String → Option Number

/-- **The meaning of a program** in which at most `limit` calls may be active. -/
def Program.meaning (tree : Program) (limit : Nat) : Meaning :=
  let (env, σ) := Reference.declareAll tree.block.declarations [] []
  match Reference.executeAll env (Reference.perform limit limit env) tree.block.body σ with
  | .ok _ σ => ⟨.ok (), Reference.bindings env σ⟩
  | .error e σ => ⟨.error e, Reference.bindings env σ⟩

end MiniPascal
