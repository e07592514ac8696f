/-
# Program trees

The tree of a program: declarations and statements around expressions.  Every variable
occurrence and every call carries a number, by which an analysis refers to it, and
every node carries the place that a diagnostic about it points at.
-/
import MiniPascal.Position
import MiniPascal.Number.Arithmetic

set_option autoImplicit false

namespace MiniPascal

/-- The number of a variable occurrence or of a call. -/
abbrev NodeId := Nat

/-! ## Expressions -/

/-- An occurrence of a variable. -/
structure Variable where
  name : String
  id : NodeId
  position : Position
  deriving DecidableEq, Repr

/-- An expression.  A binary expression stands at its operator, a signed one at its
sign; parentheses leave no trace. -/
inductive Expr where
  | literal (value : Number) (position : Position)
  | occurrence (v : Variable)
  | signed (sign : Sign) (operand : Expr) (position : Position)
  | binary (op : Operator) (left right : Expr) (position : Position)
  deriving Repr

/-! ## Statements -/

/-- A procedure call. -/
structure Call where
  name : String
  id : NodeId
  arguments : List Expr
  position : Position
  deriving Repr

/-- A statement.  An assignment stands at its `:=`. -/
inductive Statement where
  | compound (body : List Statement)
  | assign (target : Variable) (value : Expr) (position : Position)
  | call (c : Call)
  | empty
  deriving Repr

/-! ## Declarations -/

/-- The name of a type, where a declaration mentions it. -/
structure TypeName where
  name : String
  position : Position
  deriving DecidableEq, Repr

/-- A parameter of a procedure. -/
structure Parameter where
  name : String
  type : TypeName
  position : Position
  deriving DecidableEq, Repr

/-- A declaration: a variable, or a procedure with its parameters, the declarations of
its block and its body. -/
inductive Declaration where
  | var (name : String) (type : TypeName) (position : Position)
  | procedure (name : String) (params : List Parameter) (declarations : List Declaration)
      (body : List Statement) (position : Position)
  deriving Repr

/-- The declarations and the body of a program or a procedure. -/
structure Block where
  declarations : List Declaration
  body : List Statement
  deriving Repr

/-- A program; it stands at its first word. -/
structure Program where
  name : String
  block : Block
  position : Position
  deriving Repr

end MiniPascal
