/-
# The rules of scoping

What a program must obey for its names to make sense, read off the tree alone: every
declared name, type name, variable and call is a *site*, listed together with all that
is declared at that point of the text.  Bindings are pieces of the tree, so what a site
sees does not depend on whether earlier sites are in order.

* `Context.binding?` : the innermost visible binding of a name, with its level;
* `Program.sites` : the sites of a program, in the order in which they are checked;
* `Site.error?_eq_none_iff` : exactly the sites that obey the rules report nothing.
-/
import MiniPascal.Scope.Checker

set_option autoImplicit false

namespace MiniPascal

/-! ## Bindings -/

/-- A procedure declaration taken apart. -/
structure ProcedureDeclaration where
  name : String
  params : List Parameter
  block : Block
  position : Position

/-- What a name is bound to: a builtin type, a parameter, a declared variable or a
declared procedure. -/
inductive Binding where
  | type (t : BuiltinType)
  | parameter (p : Parameter)
  | var (name : String) (type : TypeName)
  | procedure (d : ProcedureDeclaration)

namespace Binding

/-- The bound name. -/
def name : Binding → String
  | .type t => t.name
  | .parameter p => p.name
  | .var name _ => name
  | .procedure d => d.name

/-- Whether a binding is that of a variable; parameters are variables. -/
def isVariable : Binding → Bool
  | .type _ => false
  | .parameter _ => true
  | .var _ _ => true
  | .procedure _ => false

end Binding

/-- What a declaration binds its name to. -/
def Declaration.binding : Declaration → Binding
  | .var name type _ => .var name type
  | .procedure name params declarations body position =>
    .procedure ⟨name, params, ⟨declarations, body⟩, position⟩

/-! ## Contexts -/

/-- All that is declared at a point of the text: the scope of the program, and inside
it one scope for each procedure around the point.  The latest binding of a scope comes
first. -/
inductive Context where
  | program (bindings : List Binding)
  | inside (owner : ProcedureDeclaration) (bindings : List Binding) (outer : Context)

namespace Context

/-- What is declared before the first declaration of a program. -/
def initial : Context := .program [.type .real, .type .integer]

/-- The level of the innermost scope. -/
def level : Context → Nat
  | .program _ => globalLevel
  | .inside _ _ outer => outer.level + 1

/-- The bindings of the innermost scope. -/
def bindings : Context → List Binding
  | .program bindings => bindings
  | .inside _ bindings _ => bindings

/-- One more binding in the innermost scope. -/
def declare (b : Binding) : Context → Context
  | .program bindings => .program (b :: bindings)
  | .inside owner bindings outer => .inside owner (b :: bindings) outer

/-- More bindings in the innermost scope, from the first to the last. -/
def declareAll (Γ : Context) (bindings : List Binding) : Context :=
  bindings.foldl (fun Γ b => Γ.declare b) Γ

/-- What is declared in the body of a procedure before its first parameter. -/
def enter (Γ : Context) (owner : ProcedureDeclaration) : Context := .inside owner [] Γ

/-- The innermost visible binding of a name, and the level of its scope. -/
def binding? (name : String) : Context → Option (Binding × Nat)
  | .program bindings => (bindings.find? (·.name == name)).map fun b => (b, globalLevel)
  | .inside _ bindings outer =>
    match bindings.find? (·.name == name) with
    | some b => some (b, outer.level + 1)
    | none => outer.binding? name

@[simp] theorem level_declare (Γ : Context) (b : Binding) : (Γ.declare b).level = Γ.level := by
  cases Γ <;> rfl

@[simp] theorem bindings_declare (Γ : Context) (b : Binding) :
    (Γ.declare b).bindings = b :: Γ.bindings := by
  cases Γ <;> rfl

/-- The latest declaration hides the older ones of its name. -/
theorem binding?_declare (Γ : Context) (b : Binding) (name : String) :
    (Γ.declare b).binding? name
      = if b.name = name then some (b, Γ.level) else Γ.binding? name := by
  by_cases hname : b.name = name
  · rw [if_pos hname]
    cases Γ <;> simp [declare, binding?, level, hname]
  · rw [if_neg hname]
    cases Γ <;> simp [declare, binding?, hname]

/-- Nothing but types is declared at the start. -/
theorem eq_type_of_binding?_initial {name : String} {b : Binding} {level : Nat}
    (h : initial.binding? name = some (b, level)) : ∃ t, b = .type t := by
  have hinitial : initial
      = ((program []).declare (.type .integer)).declare (.type .real) := rfl
  rw [hinitial, binding?_declare, binding?_declare] at h
  split at h
  · cases h
    exact ⟨.real, rfl⟩
  · split at h
    · cases h
      exact ⟨.integer, rfl⟩
    · cases h

theorem binding?_enter (Γ : Context) (owner : ProcedureDeclaration) (name : String) :
    (Γ.enter owner).binding? name = Γ.binding? name := rfl

@[simp] theorem declareAll_cons (Γ : Context) (b : Binding) (rest : List Binding) :
    Γ.declareAll (b :: rest) = (Γ.declare b).declareAll rest := rfl

end Context

/-! ## Sites -/

/-- What the rules ask for at one place: that a declared name is new in its scope, that
a type name means a type, a variable a variable, and a call a procedure that takes as
many arguments. -/
inductive Duty where
  | fresh (name : String) (position : Position)
  | typed (type : TypeName)
  | occurrence (v : Variable)
  | call (c : Call)

/-- A duty together with all that is declared at its place. -/
structure Site where
  context : Context
  duty : Duty

namespace Site

/-- **The rules.**  A site obeys them if its name is bound as it should be. -/
def Obeys : Site → Prop
  | ⟨Γ, .fresh name _⟩ => ∀ b ∈ Γ.bindings, b.name ≠ name
  | ⟨Γ, .typed type⟩ => ∃ t level, Γ.binding? type.name = some (.type t, level)
  | ⟨Γ, .occurrence v⟩ => ∃ b level, Γ.binding? v.name = some (b, level) ∧ b.isVariable
  | ⟨Γ, .call c⟩ => ∃ d level, Γ.binding? c.name = some (.procedure d, level) ∧
      d.params.length = c.arguments.length

/-- The error that is due at a site. -/
def error? : Site → Option ScopeError
  | ⟨Γ, .fresh name position⟩ =>
    if Γ.bindings.any (·.name == name) then some ⟨.duplicateIdentifier name, position⟩
    else none
  | ⟨Γ, .typed type⟩ =>
    match Γ.binding? type.name with
    | some (.type _, _) => none
    | _ => some ⟨.undefinedType type.name, type.position⟩
  | ⟨Γ, .occurrence v⟩ =>
    match Γ.binding? v.name with
    | some (b, _) => if b.isVariable then none else some ⟨.notAVariable v.name, v.position⟩
    | none => some ⟨.undefinedIdentifier v.name, v.position⟩
  | ⟨Γ, .call c⟩ =>
    match Γ.binding? c.name with
    | some (.procedure d, _) =>
      if d.params.length = c.arguments.length then none
      else some ⟨.argumentCountMismatch c.name d.params.length c.arguments.length, c.position⟩
    | some _ => some ⟨.notAProcedure c.name, c.position⟩
    | none => some ⟨.undefinedIdentifier c.name, c.position⟩

/-- **Exactly the sites that obey the rules** report nothing. -/
theorem error?_eq_none_iff (s : Site) : s.error? = none ↔ s.Obeys := by
  obtain ⟨Γ, duty⟩ := s
  cases duty with
  | fresh name position => simp [error?, Obeys]
  | typed type =>
      simp only [error?, Obeys]
      split
      next t level h => exact ⟨fun _ => ⟨t, level, h⟩, fun _ => rfl⟩
      next h =>
        refine ⟨nofun, ?_⟩
        rintro ⟨t, level, hbound⟩
        exact absurd hbound (h t level)
  | occurrence v =>
      simp only [error?, Obeys]
      cases Γ.binding? v.name with
      | none => simp
      | some found =>
          obtain ⟨b, level⟩ := found
          simp
  | call c =>
      simp only [error?, Obeys]
      split
      next d level h => simp [h]
      next found hnot h =>
        refine ⟨nofun, ?_⟩
        rintro ⟨d, level, hbound, -⟩
        exact absurd (Option.some.inj (h.symm.trans hbound)) (hnot d level)
      next h => simp [h]

end Site

/-! ## The sites of a tree -/

/-- The duties in an expression. -/
def Expr.duties : Expr → List Duty
  | .literal _ _ => []
  | .occurrence v => [.occurrence v]
  | .signed _ operand _ => operand.duties
  | .binary _ left right _ => left.duties ++ right.duties

/-- The duties in a call: those of the arguments, then the call itself. -/
def Call.duties (c : Call) : List Duty :=
  c.arguments.flatMap Expr.duties ++ [.call c]

mutual

/-- The duties in a statement; of an assignment those of the value come first. -/
def Statement.duties : Statement → List Duty
  | .compound body => Statement.dutiesAll body
  | .assign target value _ => value.duties ++ [.occurrence target]
  | .call c => c.duties
  | .empty => []

/-- The duties in statements. -/
def Statement.dutiesAll : List Statement → List Duty
  | [] => []
  | first :: rest => first.duties ++ Statement.dutiesAll rest

end

namespace Context

/-- The sites of duties that share a context. -/
def sitesOf (Γ : Context) (duties : List Duty) : List Site := duties.map (Site.mk Γ)

/-- The sites where parameters are declared, each in view of the earlier ones. -/
def parameterSites (Γ : Context) : List Parameter → List Site
  | [] => []
  | first :: rest =>
    ⟨Γ, .fresh first.name first.position⟩ :: (Γ.declare (.parameter first)).parameterSites rest

/-- What is declared in the body of a procedure behind its parameters. -/
def enterWith (Γ : Context) (d : ProcedureDeclaration) : Context :=
  (Γ.enter d).declareAll (d.params.map .parameter)

end Context

mutual

/-- The sites of a declaration.  A procedure is declared behind its parameter types and
in front of all that stands inside of it. -/
def Declaration.sites (Γ : Context) : Declaration → List Site
  | .var name type position => [⟨Γ, .typed type⟩, ⟨Γ, .fresh name position⟩]
  | .procedure name params declarations body position =>
    let d : ProcedureDeclaration := ⟨name, params, ⟨declarations, body⟩, position⟩
    let inner := Γ.declare (.procedure d)
    Γ.sitesOf (params.map fun p => .typed p.type) ++ [⟨Γ, .fresh name position⟩]
      ++ (inner.enter d).parameterSites params
      ++ Declaration.sitesAll (inner.enterWith d) declarations
      ++ ((inner.enterWith d).declareAll (declarations.map Declaration.binding)).sitesOf
          (Statement.dutiesAll body)

/-- The sites of declarations, each in view of the earlier ones. -/
def Declaration.sitesAll (Γ : Context) : List Declaration → List Site
  | [] => []
  | first :: rest =>
    first.sites Γ ++ Declaration.sitesAll (Γ.declare first.binding) rest

end

/-- What is declared behind the declarations of a block: all that its body sees. -/
def Context.behind (Γ : Context) (b : Block) : Context :=
  Γ.declareAll (b.declarations.map Declaration.binding)

/-- The sites of a block: those of its declarations, then those of its body. -/
def Block.sites (Γ : Context) (b : Block) : List Site :=
  Declaration.sitesAll Γ b.declarations ++ (Γ.behind b).sitesOf (Statement.dutiesAll b.body)

/-- The sites of a program. -/
def Program.sites (p : Program) : List Site := p.block.sites .initial

/-! ## What bindings stand for -/

/-- The builtin type of a name. -/
def BuiltinType.named? (name : String) : Option BuiltinType :=
  [BuiltinType.integer, BuiltinType.real].find? (·.name == name)

/-- A variable with the builtin type that its type name means. -/
def TypeName.typed? (type : TypeName) (name : String) : Option TypedName :=
  (BuiltinType.named? type.name).map (TypedName.mk name)

/-- Parameters with the builtin types that their type names mean. -/
def Parameter.typedAll? : List Parameter → Option (List TypedName)
  | [] => some []
  | first :: rest => do
    let v ← first.type.typed? first.name
    let more ← Parameter.typedAll? rest
    return v :: more

/-- The procedure that is declared in a scope of a level. -/
def ProcedureDeclaration.procedure? (level : Nat) (d : ProcedureDeclaration) :
    Option Procedure :=
  (Parameter.typedAll? d.params).map fun formals => ⟨d.name, formals, level, d.block⟩

/-- The symbol of a binding in a scope of a level. -/
def Binding.symbol? (level : Nat) : Binding → Option Symbol
  | .type t => some (.type t)
  | .parameter p => (p.type.typed? p.name).map .var
  | .var name typeName => (typeName.typed? name).map .var
  | .procedure d => (d.procedure? level).map .procedure

namespace Site

/-- The level that is due for the variable at a site. -/
def level? : Site → Option (NodeId × Nat)
  | ⟨Γ, .occurrence v⟩ => (Γ.binding? v.name).map fun found => (v.id, found.2)
  | _ => none

/-- The procedure that is due for the call at a site. -/
def callee? : Site → Option (NodeId × Procedure)
  | ⟨Γ, .call c⟩ =>
    match Γ.binding? c.name with
    | some (.procedure d, level) => (d.procedure? level).map fun p => (c.id, p)
    | _ => none
  | _ => none

end Site

/-- The number of the node that a duty is about. -/
def Duty.nodeId? : Duty → Option NodeId
  | .fresh _ _ => none
  | .typed _ => none
  | .occurrence v => some v.id
  | .call c => some c.id

/-- An analysis that knows all the variables and calls among some sites: of a variable
the level of its innermost visible binding, and of a call the procedure that its
innermost visible binding stands for. -/
structure Analysis.Resolves (a : Analysis) (sites : List Site) : Prop where
  occurrences : ∀ Γ v, ⟨Γ, .occurrence v⟩ ∈ sites → ∃ b level,
    Γ.binding? v.name = some (b, level) ∧ b.isVariable ∧ a.declaredLevel? v.id = some level
  calls : ∀ Γ c, ⟨Γ, .call c⟩ ∈ sites → ∃ d level p,
    Γ.binding? c.name = some (.procedure d, level) ∧
      d.params.length = c.arguments.length ∧ d.procedure? level = some p ∧
      a.procedure? c.id = some p

end MiniPascal
