/-
# Rendering of trees

The tokens that a program tree is written with.  Parentheses stand only where the
precedence of the operators, or their grouping from the left, asks for them: around a binary
operand of a sign, around an additive operand of a multiplicative operator, and around a
right operand of the same precedence.

* `Program.bare` : what is left of a tree without places and node numbers;
* `Program.InLanguage` : the trees of the language;
* `Program.tokens` : the tokens of a tree.
-/
import MiniPascal.Proofs.Grammar
import MiniPascal.Proofs.Lexical.Patterns

set_option autoImplicit false

namespace MiniPascal

/-! ## Trees without places and numbers -/

/-- An occurrence of a variable without its place and number. -/
def Variable.bare (v : Variable) : Variable := ⟨v.name, 0, .origin⟩

/-- An expression without places and numbers. -/
def Expr.bare : Expr → Expr
  | .literal value _ => .literal value .origin
  | .occurrence v => .occurrence v.bare
  | .signed sign operand _ => .signed sign operand.bare .origin
  | .binary op left right _ => .binary op left.bare right.bare .origin

/-- A call without places and numbers. -/
def Call.bare (c : Call) : Call := ⟨c.name, 0, c.arguments.map Expr.bare, .origin⟩

mutual

/-- A statement without places and numbers. -/
def Statement.bare : Statement → Statement
  | .compound body => .compound (Statement.bareAll body)
  | .assign target value _ => .assign target.bare value.bare .origin
  | .call c => .call c.bare
  | .empty => .empty

/-- Statements without places and numbers. -/
def Statement.bareAll : List Statement → List Statement
  | [] => []
  | first :: rest => first.bare :: Statement.bareAll rest

end

/-- The name of a type without its place. -/
def TypeName.bare (type : TypeName) : TypeName := ⟨type.name, .origin⟩

/-- A parameter without places. -/
def Parameter.bare (p : Parameter) : Parameter := ⟨p.name, p.type.bare, .origin⟩

mutual

/-- A declaration without places and numbers. -/
def Declaration.bare : Declaration → Declaration
  | .var name type _ => .var name type.bare .origin
  | .procedure name params declarations body _ =>
    .procedure name (params.map Parameter.bare) (Declaration.bareAll declarations)
      (Statement.bareAll body) .origin

/-- Declarations without places and numbers. -/
def Declaration.bareAll : List Declaration → List Declaration
  | [] => []
  | first :: rest => first.bare :: Declaration.bareAll rest

end

/-- A block without places and numbers. -/
def Block.bare (b : Block) : Block :=
  ⟨Declaration.bareAll b.declarations, Statement.bareAll b.body⟩

/-- A program without places and numbers. -/
def Program.bare (p : Program) : Program := ⟨p.name, p.block.bare, .origin⟩

theorem Statement.bareAll_eq_map (body : List Statement) :
    Statement.bareAll body = body.map Statement.bare := by
  induction body with
  | nil => rfl
  | cons first rest ih => rw [Statement.bareAll, ih, List.map_cons]

theorem Declaration.bareAll_eq_map (declarations : List Declaration) :
    Declaration.bareAll declarations = declarations.map Declaration.bare := by
  induction declarations with
  | nil => rfl
  | cons first rest ih => rw [Declaration.bareAll, ih, List.map_cons]

/-! ## The trees of the language -/

/-- A name of the language: a letter with letters and digits behind it, and no reserved word
in letters of any case. -/
def IsIdentifier (name : String) : Prop :=
  Pattern.identifier.Matches name.toList ∧ ∀ k, ¬(Pattern.keyword k).Matches name.toList

/-- Whether a name is one of the language can be decided. -/
instance (name : String) : Decidable (IsIdentifier name) :=
  decidable_of_iff
    ((name.toList.head?.any Char.isAlpha && name.toList.tail.all Char.isAlphanum &&
      Keyword.all.all fun k => name.toList.map Char.toUpper != k.text.toList) = true) (by
    unfold IsIdentifier
    generalize name.toList = word
    simp only [Bool.and_eq_true, List.all_eq_true, bne_iff_ne]
    constructor
    · rintro ⟨⟨hletter, hrest⟩, hkeyword⟩
      cases word with
      | nil => cases hletter
      | cons c rest => exact ⟨⟨c, rest, rfl, hletter, hrest⟩, fun k => hkeyword k k.mem_all⟩
    · rintro ⟨⟨first, rest, rfl, hletter, hrest⟩, hkeyword⟩
      exact ⟨⟨hletter, hrest⟩, fun k _ => hkeyword k⟩)

/-- An expression of the language.  Its literals are integers that are not negative, and
reals that a text with digits on both sides of a point denotes. -/
def Expr.InLanguage : Expr → Prop
  | .literal (.integer n) _ => 0 ≤ n.toInt
  | .literal (.real x) _ => ∃ text, Denotes .real text (.ok (.number (.real x)))
  | .occurrence v => IsIdentifier v.name
  | .signed _ operand _ => operand.InLanguage
  | .binary _ left right _ => left.InLanguage ∧ right.InLanguage

mutual

/-- A statement of the language; a compound one has at least one statement. -/
def Statement.InLanguage : Statement → Prop
  | .compound body => body ≠ [] ∧ Statement.InLanguageAll body
  | .assign target value _ => IsIdentifier target.name ∧ value.InLanguage
  | .call c => IsIdentifier c.name ∧ ∀ e ∈ c.arguments, e.InLanguage
  | .empty => True

/-- Statements of the language. -/
def Statement.InLanguageAll : List Statement → Prop
  | [] => True
  | first :: rest => first.InLanguage ∧ Statement.InLanguageAll rest

end

/-- A type of the language. -/
def TypeName.InLanguage (type : TypeName) : Prop := type.name = "INTEGER" ∨ type.name = "REAL"

/-- A parameter of the language. -/
def Parameter.InLanguage (p : Parameter) : Prop := IsIdentifier p.name ∧ p.type.InLanguage

/-- Whether a declaration is that of a procedure. -/
def Declaration.isProcedure : Declaration → Bool
  | .var _ _ _ => false
  | .procedure _ _ _ _ _ => true

/-- No variable is declared behind a procedure. -/
def Declaration.VariablesFirst (declarations : List Declaration) : Prop :=
  declarations.Pairwise fun d e => d.isProcedure = true → e.isProcedure = true

/-- Whether the variables come first can be decided. -/
instance (declarations : List Declaration) :
    Decidable (Declaration.VariablesFirst declarations) :=
  inferInstanceAs (Decidable (List.Pairwise _ _))

mutual

/-- A declaration of the language. -/
def Declaration.InLanguage : Declaration → Prop
  | .var name type _ => IsIdentifier name ∧ type.InLanguage
  | .procedure name params declarations body _ => IsIdentifier name ∧
      (∀ p ∈ params, p.InLanguage) ∧ Declaration.VariablesFirst declarations ∧
      Declaration.InLanguageAll declarations ∧ body ≠ [] ∧ Statement.InLanguageAll body

/-- Declarations of the language. -/
def Declaration.InLanguageAll : List Declaration → Prop
  | [] => True
  | first :: rest => first.InLanguage ∧ Declaration.InLanguageAll rest

end

/-- A block of the language: the variables are declared before the procedures, and the body
has at least one statement. -/
structure Block.InLanguage (b : Block) : Prop where
  variablesFirst : Declaration.VariablesFirst b.declarations
  declarations : Declaration.InLanguageAll b.declarations
  body_ne_nil : b.body ≠ []
  body : Statement.InLanguageAll b.body

/-- A program of the language. -/
def Program.InLanguage (p : Program) : Prop := IsIdentifier p.name ∧ p.block.InLanguage

/-- Statements of the language are so one by one. -/
theorem Statement.inLanguage_of_mem {body : List Statement} (h : Statement.InLanguageAll body) :
    ∀ st ∈ body, st.InLanguage := by
  induction body with
  | nil => exact nofun
  | cons first rest ih =>
      intro st hst
      rcases List.mem_cons.1 hst with rfl | hst
      · exact h.1
      · exact ih h.2 st hst

/-- Declarations of the language are so one by one. -/
theorem Declaration.inLanguage_of_mem {declarations : List Declaration}
    (h : Declaration.InLanguageAll declarations) : ∀ d ∈ declarations, d.InLanguage := by
  induction declarations with
  | nil => exact nofun
  | cons first rest ih =>
      intro d hd
      rcases List.mem_cons.1 hd with rfl | hd
      · exact h.1
      · exact ih h.2 d hd

/-! ## Tokens -/

/-- Whether an operator binds like `+`. -/
def Operator.isAdditive : Operator → Bool
  | .add | .subtract => true
  | .multiply | .divideInteger | .divideReal => false

/-- Whether an expression joins two operands. -/
def Expr.isBinary : Expr → Bool
  | .binary _ _ _ _ => true
  | _ => false

/-- Whether an expression joins two operands by an operator that binds like `+`. -/
def Expr.isAdditive : Expr → Bool
  | .binary op _ _ _ => op.isAdditive
  | _ => false

/-- Tokens in parentheses where they are needed. -/
def parenthesizedIf (needed : Bool) (tokens : List Token) : List Token :=
  if needed then .symbol .leftParen :: (tokens ++ [.symbol .rightParen]) else tokens

open Grammar in
/-- The tokens of an expression. -/
def Expr.tokens : Expr → List Token
  | .literal value _ => [.number value]
  | .occurrence v => [.identifier v.name]
  | .signed sign operand _ =>
    signToken sign :: parenthesizedIf operand.isBinary operand.tokens
  | .binary op left right _ =>
    if op.isAdditive then
      left.tokens ++ operatorToken op :: parenthesizedIf right.isAdditive right.tokens
    else
      parenthesizedIf left.isAdditive left.tokens ++
        operatorToken op :: parenthesizedIf right.isBinary right.tokens

/-- Lists of tokens with a separator between any two of them. -/
def separatedBy (separator : Punctuation) (items : List (List Token)) : List Token :=
  List.intercalate [.symbol separator] items

/-- The tokens of a call. -/
def Call.tokens (c : Call) : List Token :=
  .identifier c.name :: .symbol .leftParen ::
    (separatedBy .comma (c.arguments.map Expr.tokens) ++ [.symbol .rightParen])

/-- The tokens of a compound statement, from those of its statements. -/
def compoundTokens (statements : List (List Token)) : List Token :=
  .keyword .blockBegin :: (separatedBy .semicolon statements ++ [.keyword .blockEnd])

mutual

/-- The tokens of a statement. -/
def Statement.tokens : Statement → List Token
  | .compound body => compoundTokens (Statement.tokensEach body)
  | .assign target value _ => .identifier target.name :: .symbol .assign :: value.tokens
  | .call c => c.tokens
  | .empty => []

/-- The tokens of each of some statements. -/
def Statement.tokensEach : List Statement → List (List Token)
  | [] => []
  | first :: rest => first.tokens :: Statement.tokensEach rest

end

/-- The token of a type. -/
def TypeName.token (type : TypeName) : Token :=
  if type.name = "REAL" then .keyword .real else .keyword .integer

/-- The tokens of a parameter. -/
def Parameter.tokens (p : Parameter) : List Token :=
  [.identifier p.name, .symbol .colon, p.type.token]

/-- The tokens of the parameters of a procedure, none if there are no parameters. -/
def parameterTokens : List Parameter → List Token
  | [] => []
  | params => .symbol .leftParen ::
      (separatedBy .semicolon (params.map Parameter.tokens) ++ [.symbol .rightParen])

/-- The word in front of the variables of a block. -/
def sectionTokens : List Declaration → List Token
  | .var _ _ _ :: _ => [.keyword .var]
  | _ => []

mutual

/-- The tokens of a declaration. -/
def Declaration.tokens : Declaration → List Token
  | .var name type _ =>
    [.identifier name, .symbol .colon, type.token, .symbol .semicolon]
  | .procedure name params declarations body _ =>
    .keyword .procedure :: .identifier name :: (parameterTokens params ++
      .symbol .semicolon :: (sectionTokens declarations ++ (Declaration.tokensAll declarations ++
        compoundTokens (Statement.tokensEach body)) ++ [.symbol .semicolon]))

/-- The tokens of declarations in turn. -/
def Declaration.tokensAll : List Declaration → List Token
  | [] => []
  | first :: rest => first.tokens ++ Declaration.tokensAll rest

end

/-- The tokens of a block. -/
def Block.tokens (b : Block) : List Token :=
  sectionTokens b.declarations ++ (Declaration.tokensAll b.declarations ++
    compoundTokens (Statement.tokensEach b.body))

/-- The tokens of a program. -/
def Program.tokens (p : Program) : List Token :=
  .keyword .program :: .identifier p.name :: .symbol .semicolon ::
    (p.block.tokens ++ [.symbol .dot])

theorem Statement.tokensEach_eq_map (body : List Statement) :
    Statement.tokensEach body = body.map Statement.tokens := by
  induction body with
  | nil => rfl
  | cons first rest ih => rw [Statement.tokensEach, ih, List.map_cons]

theorem Declaration.tokensAll_eq_flatMap (declarations : List Declaration) :
    Declaration.tokensAll declarations = declarations.flatMap Declaration.tokens := by
  induction declarations with
  | nil => rfl
  | cons first rest ih => rw [Declaration.tokensAll, ih, List.flatMap_cons]

end MiniPascal
