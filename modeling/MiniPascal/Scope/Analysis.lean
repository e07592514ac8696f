/-
# Analyses

An analysis says what the numbered nodes of a program tree refer to: for an occurrence
of a variable the level of the scope that declares it, for a call the procedure.
-/
import MiniPascal.Scope

set_option autoImplicit false

namespace MiniPascal

/-- What the nodes of a tree refer to, and the global scope.  Of two entries for one
number the first counts. -/
structure Analysis where
  occurrences : List (NodeId × Nat)
  calls : List (NodeId × Procedure)
  global : Scope

namespace Analysis

/-- The level of the scope that declares the variable at a node. -/
def declaredLevel? (a : Analysis) (id : NodeId) : Option Nat :=
  a.occurrences.lookup id

/-- The procedure that the call at a node refers to. -/
def procedure? (a : Analysis) (id : NodeId) : Option Procedure :=
  a.calls.lookup id

end Analysis

end MiniPascal
