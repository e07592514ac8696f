/-
# Programs that are alike

Two programs are alike if they differ only in what has no influence on what they do: in
places, in names, as long as the same names are renamed in the same way, and in the types of
variables.  A *likeness* says which differences are allowed.

* `Program.Matches` : two programs that are alike;
* `Symbol.Matches.name` : what is declared alike is declared under names that are alike;
* `Likeness.layout` : the likeness of programs that differ in places only.
-/
import Mathlib.Data.List.Forall2
import MiniPascal.Scope.Symbol

set_option autoImplicit false

namespace MiniPascal

/-! ## Likenesses -/

/-- The differences that are allowed: how names are renamed, which places and which types may
stand for each other, and which names may be declared.  Different names stay different, and
those of the builtin types are kept.  A declared name hides a type exactly if it hides all
types that may stand for it. -/
structure Likeness where
  rename : String → String
  places : Position → Position → Prop
  types : BuiltinType → BuiltinType → Prop
  declares : String → Prop
  injective : ∀ {name other : String}, rename name = rename other → name = other
  builtin : ∀ t : BuiltinType, rename t.name = t.name
  hides : ∀ {t t' : BuiltinType} {name : String}, types t t' → declares name →
    (t'.name = rename name ↔ t.name = name)

/-- The likeness of programs that differ in places only. -/
def Likeness.layout (places : Position → Position → Prop) : Likeness where
  rename := id
  places := places
  types := Eq
  declares := fun _ => True
  injective := id
  builtin := fun _ => rfl
  hides := by
    rintro t t' name rfl -
    exact Iff.rfl

variable (φ : Likeness)

/-! ## Statements -/

/-- Occurrences of variables that are alike. -/
structure Variable.Matches (v v' : Variable) : Prop where
  name : v'.name = φ.rename v.name
  id : v'.id = v.id
  position : φ.places v.position v'.position

/-- Expressions that are alike. -/
inductive Expr.Matches : Expr → Expr → Prop where
  | literal {value : Number} {p p' : Position} (hposition : φ.places p p') :
      Matches (.literal value p) (.literal value p')
  | occurrence {v v' : Variable} (hv : v.Matches φ v') : Matches (.occurrence v) (.occurrence v')
  | signed {sign : Sign} {operand operand' : Expr} {p p' : Position}
      (hoperand : Matches operand operand') (hposition : φ.places p p') :
      Matches (.signed sign operand p) (.signed sign operand' p')
  | binary {op : Operator} {left left' right right' : Expr} {p p' : Position}
      (hleft : Matches left left') (hright : Matches right right')
      (hposition : φ.places p p') :
      Matches (.binary op left right p) (.binary op left' right' p')

/-- Calls that are alike. -/
structure Call.Matches (c c' : Call) : Prop where
  name : c'.name = φ.rename c.name
  id : c'.id = c.id
  arguments : List.Forall₂ (Expr.Matches φ) c.arguments c'.arguments
  position : φ.places c.position c'.position

/-- Statements that are alike. -/
inductive Statement.Matches : Statement → Statement → Prop where
  | compound {body body' : List Statement} (hbody : List.Forall₂ Matches body body') :
      Matches (.compound body) (.compound body')
  | assign {target target' : Variable} {value value' : Expr} {p p' : Position}
      (htarget : target.Matches φ target') (hvalue : value.Matches φ value')
      (hposition : φ.places p p') : Matches (.assign target value p) (.assign target' value' p')
  | call {c c' : Call} (hc : c.Matches φ c') : Matches (.call c) (.call c')
  | empty : Matches .empty .empty

/-! ## Declarations -/

/-- Type names that are alike: they name types that may stand for each other, or both have the
same name, which is that of no type. -/
inductive TypeName.Matches : TypeName → TypeName → Prop where
  | builtin {t t' : BuiltinType} {p p' : Position} (htypes : φ.types t t')
      (hposition : φ.places p p') : Matches ⟨t.name, p⟩ ⟨t'.name, p'⟩
  | unknown {name : String} {p p' : Position} (hname : ∀ t : BuiltinType, t.name ≠ name)
      (hposition : φ.places p p') : Matches ⟨name, p⟩ ⟨name, p'⟩

/-- Parameters that are alike. -/
structure Parameter.Matches (p p' : Parameter) : Prop where
  declares : φ.declares p.name
  name : p'.name = φ.rename p.name
  type : p.type.Matches φ p'.type
  position : φ.places p.position p'.position

/-- Declarations that are alike. -/
inductive Declaration.Matches : Declaration → Declaration → Prop where
  | var {name : String} {type type' : TypeName} {p p' : Position} (hdeclares : φ.declares name)
      (htype : type.Matches φ type') (hposition : φ.places p p') :
      Matches (.var name type p) (.var (φ.rename name) type' p')
  | procedure {name : String} {params params' : List Parameter}
      {declarations declarations' : List Declaration} {body body' : List Statement}
      {p p' : Position} (hdeclares : φ.declares name)
      (hparams : List.Forall₂ (Parameter.Matches φ) params params')
      (hdeclarations : List.Forall₂ Matches declarations declarations')
      (hbody : List.Forall₂ (Statement.Matches φ) body body') (hposition : φ.places p p') :
      Matches (.procedure name params declarations body p)
        (.procedure (φ.rename name) params' declarations' body' p')

/-- Blocks that are alike. -/
structure Block.Matches (b b' : Block) : Prop where
  declarations : List.Forall₂ (Declaration.Matches φ) b.declarations b'.declarations
  body : List.Forall₂ (Statement.Matches φ) b.body b'.body

/-- **Programs that are alike.** -/
structure Program.Matches (p p' : Program) : Prop where
  name : p'.name = φ.rename p.name
  block : p.block.Matches φ p'.block
  position : φ.places p.position p'.position

/-! ## Symbols -/

/-- Variables with types that are alike. -/
structure TypedName.Matches (v v' : TypedName) : Prop where
  name : v'.name = φ.rename v.name
  type : φ.types v.type v'.type

/-- Procedures that are alike. -/
structure Procedure.Matches (p p' : Procedure) : Prop where
  name : p'.name = φ.rename p.name
  params : List.Forall₂ (TypedName.Matches φ) p.params p'.params
  scopeLevel : p'.scopeLevel = p.scopeLevel
  block : p.block.Matches φ p'.block

/-- Symbols that are alike. -/
inductive Symbol.Matches : Symbol → Symbol → Prop where
  | type (t : BuiltinType) : Matches (.type t) (.type t)
  | var {v v' : TypedName} (hv : v.Matches φ v') : Matches (.var v) (.var v')
  | procedure {p p' : Procedure} (hp : p.Matches φ p') : Matches (.procedure p) (.procedure p')

variable {φ}

theorem Symbol.Matches.name {s s' : Symbol} (h : s.Matches φ s') : s'.name = φ.rename s.name := by
  cases h with
  | type t => exact (φ.builtin t).symm
  | var hv => exact hv.name
  | procedure hp => exact hp.name

end MiniPascal
