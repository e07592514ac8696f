/-
# The grammar

The grammar of the language, said without a reader.  A phrase relates the tokens that it
spans to what it denotes, and to the node numbers that are free before and behind it: an
occurrence of a variable takes a number where its name stands, a call behind its closing
parenthesis.

    program      = PROGRAM id ; block .
    block        = declarations compound
    declarations = (VAR (ids : type ;)+)* (PROCEDURE id [( [params] )] ; block ;)*
    params       = ids : type (; ids : type)*
    ids          = id (, id)*
    compound     = BEGIN statement (; statement)* END
    statement    = compound | id ( [expression (, expression)*] ) | id := expression | empty
    expression   = term ((+ | -) term)*
    term         = factor ((* | DIV | /) factor)*
    factor       = (+ | -) factor | integer | real | ( expression ) | id
-/
import MiniPascal.Token
import MiniPascal.Tree

set_option autoImplicit false

namespace MiniPascal

/-- What a kind of phrase is: which tokens, read where `i` is the first free node number,
denote `x` and leave `j` as the first free number. -/
abbrev Language (α : Type) := List (Located Token) → Nat → α → Nat → Prop

namespace Grammar

variable {α : Type}

/-! ## Repetition -/

/-- One item or more, with a separator between any two: `item (separator item)*`. -/
inductive Separated (item : Language α) (separator : Token) : Language (List α)
  | one {ts : List (Located Token)} {i j : Nat} {x : α} :
      item ts i x j → Separated item separator ts i [x] j
  | more {ts us : List (Located Token)} {p : Position} {i j k : Nat} {x : α} {xs : List α} :
      item ts i x j → Separated item separator us j xs k →
      Separated item separator (ts ++ ⟨separator, p⟩ :: us) i (x :: xs) k

/-- Any number of items: `item*`. -/
inductive Repeated (item : Language α) : Language (List α)
  | none {i : Nat} : Repeated item [] i [] i
  | more {ts us : List (Located Token)} {i j k : Nat} {x : α} {xs : List α} :
      item ts i x j → Repeated item us j xs k → Repeated item (ts ++ us) i (x :: xs) k

/-! ## Names and types -/

/-- `id` -/
inductive IsName : Language (Located String)
  | mk {name : String} {p : Position} {i : Nat} :
      IsName [⟨.identifier name, p⟩] i ⟨name, p⟩ i

/-- `INTEGER | REAL` -/
inductive IsType : Language TypeName
  | integer {p : Position} {i : Nat} : IsType [⟨.keyword .integer, p⟩] i ⟨"INTEGER", p⟩ i
  | real {p : Position} {i : Nat} : IsType [⟨.keyword .real, p⟩] i ⟨"REAL", p⟩ i

/-- `ids : type` -/
inductive IsTyped : Language (List (Located String) × TypeName)
  | mk {ts us : List (Located Token)} {p : Position} {i j k : Nat}
      {names : List (Located String)} {type : TypeName} :
      Separated IsName (.symbol .comma) ts i names j → IsType us j type k →
      IsTyped (ts ++ ⟨.symbol .colon, p⟩ :: us) i (names, type) k

/-! ## Expressions -/

/-- The token of an operator. -/
def operatorToken : Operator → Token
  | .add => .symbol .plus
  | .subtract => .symbol .minus
  | .multiply => .symbol .star
  | .divideInteger => .keyword .div
  | .divideReal => .symbol .slash

/-- The token of a sign. -/
def signToken : Sign → Token
  | .plus => .symbol .plus
  | .minus => .symbol .minus

/-- Operators and operands behind the operand `left`, which are grouped from the left:
`(operator operand)*`. -/
inductive Chain (operand : Language Expr) (operators : List Operator) : Expr → Language Expr
  | done {left : Expr} {i : Nat} : Chain operand operators left [] i left i
  | more {left right e : Expr} {op : Operator} {p : Position} {ts us : List (Located Token)}
      {i j k : Nat} :
      op ∈ operators → operand ts i right j →
      Chain operand operators (.binary op left right p) us j e k →
      Chain operand operators left (⟨operatorToken op, p⟩ :: (ts ++ us)) i e k

mutual

/-- `(+ | -) factor | integer | real | ( expression ) | id` -/
inductive IsFactor : Language Expr
  | signed {sign : Sign} {p : Position} {ts : List (Located Token)} {i j : Nat} {e : Expr} :
      IsFactor ts i e j → IsFactor (⟨signToken sign, p⟩ :: ts) i (.signed sign e p) j
  | literal {value : Number} {p : Position} {i : Nat} :
      IsFactor [⟨.number value, p⟩] i (.literal value p) i
  | parenthesized {p q : Position} {ts : List (Located Token)} {i j : Nat} {e : Expr} :
      IsExpression ts i e j →
      IsFactor (⟨.symbol .leftParen, p⟩ :: (ts ++ [⟨.symbol .rightParen, q⟩])) i e j
  | occurrence {name : String} {p : Position} {i : Nat} :
      IsFactor [⟨.identifier name, p⟩] i (.occurrence ⟨name, i, p⟩) (i + 1)

/-- `factor ((* | DIV | /) factor)*` -/
inductive IsTerm : Language Expr
  | mk {ts us : List (Located Token)} {i j k : Nat} {left e : Expr} :
      IsFactor ts i left j →
      Chain IsFactor [.multiply, .divideInteger, .divideReal] left us j e k →
      IsTerm (ts ++ us) i e k

/-- `term ((+ | -) term)*` -/
inductive IsExpression : Language Expr
  | mk {ts us : List (Located Token)} {i j k : Nat} {left e : Expr} :
      IsTerm ts i left j → Chain IsTerm [.add, .subtract] left us j e k →
      IsExpression (ts ++ us) i e k

end

/-! ## Statements -/

/-- `[expression (, expression)*]` -/
inductive IsArguments : Language (List Expr)
  | none {i : Nat} : IsArguments [] i [] i
  | some {ts : List (Located Token)} {i j : Nat} {values : List Expr} :
      Separated IsExpression (.symbol .comma) ts i values j → IsArguments ts i values j

/-- `id ( [expression (, expression)*] )` -/
inductive IsCall : Language Call
  | mk {name : String} {p q r : Position} {ts : List (Located Token)} {i j : Nat}
      {values : List Expr} :
      IsArguments ts i values j →
      IsCall (⟨.identifier name, p⟩ :: ⟨.symbol .leftParen, q⟩ ::
        (ts ++ [⟨.symbol .rightParen, r⟩])) i ⟨name, j, values, p⟩ (j + 1)

mutual

/-- `compound | call | id := expression | empty` -/
inductive IsStatement : Language Statement
  | compound {ts : List (Located Token)} {i j : Nat} {body : List Statement} :
      IsCompound ts i body j → IsStatement ts i (.compound body) j
  | call {ts : List (Located Token)} {i j : Nat} {c : Call} :
      IsCall ts i c j → IsStatement ts i (.call c) j
  | assign {name : String} {p q : Position} {ts : List (Located Token)} {i j : Nat} {e : Expr} :
      IsExpression ts (i + 1) e j →
      IsStatement (⟨.identifier name, p⟩ :: ⟨.symbol .assign, q⟩ :: ts) i
        (.assign ⟨name, i, p⟩ e q) j
  | empty {i : Nat} : IsStatement [] i .empty i

/-- `BEGIN statement (; statement)* END` -/
inductive IsCompound : Language (List Statement)
  | mk {p q : Position} {ts : List (Located Token)} {i j : Nat} {body : List Statement} :
      Separated IsStatement (.symbol .semicolon) ts i body j →
      IsCompound (⟨.keyword .blockBegin, p⟩ :: (ts ++ [⟨.keyword .blockEnd, q⟩])) i body j

end

/-! ## Declarations -/

/-- `ids : type ;`, a declaration for each name. -/
inductive IsVariableLine : Language (List Declaration)
  | mk {ts : List (Located Token)} {p : Position} {i j : Nat} {names : List (Located String)}
      {type : TypeName} :
      IsTyped ts i (names, type) j →
      IsVariableLine (ts ++ [⟨.symbol .semicolon, p⟩]) i
        (names.map fun name => .var name.value type name.position) j

/-- `VAR (ids : type ;)+` -/
inductive IsSection : Language (List Declaration)
  | mk {p : Position} {ts us : List (Located Token)} {i j k : Nat} {first : List Declaration}
      {rest : List (List Declaration)} :
      IsVariableLine ts i first j → Repeated IsVariableLine us j rest k →
      IsSection (⟨.keyword .var, p⟩ :: (ts ++ us)) i (first ++ rest.flatten) k

/-- `ids : type`, a parameter for each name. -/
inductive IsParameterGroup : Language (List Parameter)
  | mk {ts : List (Located Token)} {i j : Nat} {names : List (Located String)}
      {type : TypeName} :
      IsTyped ts i (names, type) j →
      IsParameterGroup ts i (names.map fun name => ⟨name.value, type, name.position⟩) j

/-- `[( [ids : type (; ids : type)*] )]` -/
inductive IsParameters : Language (List Parameter)
  | absent {i : Nat} : IsParameters [] i [] i
  | none {p q : Position} {i : Nat} :
      IsParameters [⟨.symbol .leftParen, p⟩, ⟨.symbol .rightParen, q⟩] i [] i
  | some {p q : Position} {ts : List (Located Token)} {i j : Nat}
      {groups : List (List Parameter)} :
      Separated IsParameterGroup (.symbol .semicolon) ts i groups j →
      IsParameters (⟨.symbol .leftParen, p⟩ :: (ts ++ [⟨.symbol .rightParen, q⟩])) i
        groups.flatten j

mutual

/-- `PROCEDURE id [( [params] )] ; block ;` -/
inductive IsProcedure : Language Declaration
  | mk {name : String} {p q r t : Position} {ts us : List (Located Token)} {i j k : Nat}
      {params : List Parameter} {block : Block} :
      IsParameters ts i params j → IsBlock us j block k →
      IsProcedure (⟨.keyword .procedure, p⟩ :: ⟨.identifier name, q⟩ ::
        (ts ++ ⟨.symbol .semicolon, r⟩ :: (us ++ [⟨.symbol .semicolon, t⟩]))) i
        (.procedure name params block.declarations block.body q) k

/-- `(VAR (ids : type ;)+)* procedure* compound` -/
inductive IsBlock : Language Block
  | mk {ts us vs : List (Located Token)} {i j k l : Nat} {sections : List (List Declaration)}
      {procedures : List Declaration} {body : List Statement} :
      Repeated IsSection ts i sections j → Repeated IsProcedure us j procedures k →
      IsCompound vs k body l →
      IsBlock (ts ++ (us ++ vs)) i ⟨sections.flatten ++ procedures, body⟩ l

end

/-- `PROGRAM id ; block .`, with the nodes numbered from zero. -/
inductive IsProgram : List (Located Token) → Program → Prop
  | mk {name : String} {p q r t : Position} {ts : List (Located Token)} {k : Nat}
      {block : Block} :
      IsBlock ts 0 block k →
      IsProgram (⟨.keyword .program, p⟩ :: ⟨.identifier name, q⟩ :: ⟨.symbol .semicolon, r⟩ ::
        (ts ++ [⟨.symbol .dot, t⟩])) ⟨name, block, p⟩

end Grammar

end MiniPascal
