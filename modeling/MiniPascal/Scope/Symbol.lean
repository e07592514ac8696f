/-
# Symbols

A symbol is what a name stands for: a builtin type, a variable or a procedure.  A
procedure symbol keeps the level of the scope that declares it, and the block to run.
-/
import MiniPascal.Tree

set_option autoImplicit false

namespace MiniPascal

/-- The builtin types. -/
inductive BuiltinType where
  | integer
  | real
  deriving DecidableEq, Repr

/-- The name of a builtin type. -/
def BuiltinType.name : BuiltinType → String
  | .integer => "INTEGER"
  | .real => "REAL"

/-- A variable with its type. -/
structure TypedName where
  name : String
  type : BuiltinType
  deriving DecidableEq, Repr

/-- The text of a variable in a table of symbols. -/
def TypedName.text (v : TypedName) : String :=
  "<VarSymbol(name='" ++ v.name ++ "', type='" ++ v.type.name ++ "')>"

/-- A procedure: its parameters, the level of the scope that declares it, and its
block. -/
structure Procedure where
  name : String
  params : List TypedName
  scopeLevel : Nat
  block : Block

/-- The text of a procedure in a table of symbols. -/
def Procedure.text (p : Procedure) : String :=
  "<ProcedureSymbol(name=" ++ p.name ++ ", parameters=["
    ++ ",".intercalate (p.params.map TypedName.text) ++ "])>"

/-- What a name stands for. -/
inductive Symbol where
  | type (t : BuiltinType)
  | var (v : TypedName)
  | procedure (p : Procedure)

namespace Symbol

/-- The name that a symbol is declared under. -/
def name : Symbol → String
  | .type t => t.name
  | .var v => v.name
  | .procedure p => p.name

/-- The text of a symbol in a table of symbols. -/
def text : Symbol → String
  | .type t => "<BuiltinTypeSymbol(name='" ++ t.name ++ "')>"
  | .var v => v.text
  | .procedure p => p.text

end Symbol

end MiniPascal
