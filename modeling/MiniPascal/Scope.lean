/-
# Scopes

A scope is a table of symbols with a name, a level and the name of the scope around it.
The first symbol of a name stays; a later one is refused.

* `Scope.insert?_eq_none_iff` : exactly the names that are taken are refused;
* `Scope.lookup_insert` : an inserted symbol is found under its name, and all other
  names are found as before.
-/
import MiniPascal.Column
import MiniPascal.NameTable
import MiniPascal.Scope.Symbol

set_option autoImplicit false

namespace MiniPascal

/-- A table of symbols. -/
structure Scope where
  name : String
  level : Nat
  enclosing : Option String
  symbols : NameTable Symbol

/-- The level of the global scope. -/
def globalLevel : Nat := 1

namespace Scope

/-! ## Building and searching -/

/-- A scope without symbols. -/
def new (name : String) (level : Nat) (enclosing : Option String) : Scope :=
  ⟨name, level, enclosing, .empty⟩

/-- The global scope at the start: it holds the builtin types. -/
def global : Scope :=
  let types := [BuiltinType.integer, BuiltinType.real]
  { new "global" globalLevel none with
    symbols := types.foldl (fun table t => table.set t.name (.type t)) .empty }

/-- The symbol that a name stands for in this scope alone. -/
def lookup (scope : Scope) (name : String) : Option Symbol :=
  scope.symbols.find? name

/-- The scope with one more symbol, unless its name is taken. -/
def insert? (scope : Scope) (symbol : Symbol) : Option Scope :=
  match scope.lookup symbol.name with
  | some _ => none
  | none => some { scope with symbols := scope.symbols.set symbol.name symbol }

/-- **Exactly the names that are taken** are refused. -/
theorem insert?_eq_none_iff {scope : Scope} {symbol : Symbol} :
    scope.insert? symbol = none ↔ (scope.lookup symbol.name).isSome := by
  unfold insert?
  cases scope.lookup symbol.name <;> simp

/-- **An inserted symbol** is found under its name, and all other names are found as
before. -/
theorem lookup_insert {scope grown : Scope} {symbol : Symbol}
    (h : scope.insert? symbol = some grown) (name : String) :
    grown.lookup name = if name = symbol.name then some symbol else scope.lookup name := by
  unfold insert? at h
  split at h
  · cases h
  · cases h
    split
    next heq => exact heq ▸ NameTable.find?_set_self _ _ _
    next hne => exact NameTable.find?_set_of_ne _ _ hne

/-! ## The text of a scope -/

/-- The header of a scope table: one labelled line for each property. -/
def header (scope : Scope) : List String :=
  let title := "SCOPE (SCOPED SYMBOL TABLE)"
  let contents := "Scope (Scoped symbol table) contents"
  [ title,
    "".pushn '=' title.length,
    alignLeft 15 "Scope name" ++ ": " ++ scope.name,
    alignLeft 15 "Scope level" ++ ": " ++ toString scope.level,
    alignLeft 15 "Enclosing scope" ++ ": " ++ scope.enclosing.getD "None",
    contents,
    "".pushn '-' contents.length ]

/-- The text of a scope: the header and one line for each symbol. -/
def text (scope : Scope) : String :=
  "\n".intercalate
    (scope.header ++ scope.symbols.entries.map fun (name, symbol) =>
      alignRight 7 name ++ ": " ++ symbol.text)

end Scope

end MiniPascal
