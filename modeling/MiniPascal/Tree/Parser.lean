/-
# Reading program trees

The grammar, one reader for each phrase.  A reader that repeats or nests is given a
budget of steps: every repetition and every level of nesting takes one.

    program      = PROGRAM id ; block .
    block        = declarations compound
    declarations = (VAR (ids : type ;)+)* (PROCEDURE id [( [params] )] ; block ;)*
    params       = ids : type (; ids : type)*
    ids          = id (, id)*
    compound     = BEGIN statement (; statement)* END
    statement    = compound | id ( [expression (, expression)*] ) | id := expression | empty
    expression   = term ((+ | -) term)*
    term         = factor ((* | DIV | /) factor)*
    factor       = (+ | -) factor | integer | real | ( expression ) | id
-/
import MiniPascal.Token.Stream
import MiniPascal.Tree

set_option autoImplicit false

namespace MiniPascal

namespace Reader

open TokenStream

/-! ## Repetition -/

/-- Stop because the budget is used up. -/
def outOfSteps {α : Type} : Reader α := fun s => .error .outOfSteps s

/-- One item, and one more behind every separator. -/
def separated {α : Type} (item : Reader α) (separator : Token) : Nat → Reader (List α)
  | 0 => outOfSteps
  | steps + 1 => do
    let first ← item
    ifTaken separator
      (do
        let rest ← separated item separator steps
        return first :: rest)
      (return [first])

/-- Items as long as the next one may start. -/
def whileStarts {α : Type} (starts : Reader Bool) (item : Reader α) : Nat → Reader (List α)
  | 0 => outOfSteps
  | steps + 1 => do
    if ← starts then
      let first ← item
      let rest ← whileStarts starts item steps
      return first :: rest
    else return []

/-- Operands joined by the operators that belong here, grouped from the left; `left` is
what has been read so far. -/
def chain (operand : Reader Expr) (belongs : Operator → Bool) : Nat → Expr → Reader Expr
  | 0, _ => outOfSteps
  | steps + 1, left => do
    let token ← peekCurrent
    match token.value.operator? with
    | some op =>
      if belongs op then
        let _ ← advance
        let right ← operand
        chain operand belongs steps (.binary op left right token.position)
      else return left
    | none => return left

/-! ## Names and types -/

/-- An identifier. -/
def identifier : Reader (Located String) := do
  let token ← peekCurrent
  match token.value with
  | .identifier name =>
    let _ ← advance
    return ⟨name, token.position⟩
  | _ => unexpected "identifier"

/-- One or more identifiers. -/
def identifiers (steps : Nat) : Reader (List (Located String)) :=
  separated identifier (.symbol .comma) steps

/-- Whether the current token is an identifier. -/
def atIdentifier : Reader Bool := do
  let token ← peekCurrent
  return token.value.name?.isSome

/-- The name of a type. -/
def typeName : Reader TypeName := do
  let token ← peekCurrent
  match token.value with
  | .keyword .integer =>
    let _ ← advance
    return ⟨"INTEGER", token.position⟩
  | .keyword .real =>
    let _ ← advance
    return ⟨"REAL", token.position⟩
  | _ => unexpected "type name 'INTEGER' or 'REAL'"

/-- An occurrence of a variable, numbered as soon as its name has been read. -/
def occurrence : Reader Variable := do
  let name ← identifier
  let id ← takeId
  return ⟨name.value, id, name.position⟩

/-! ## Expressions -/

/-- The operators between terms. -/
def isAdditive : Operator → Bool
  | .add => true
  | .subtract => true
  | _ => false

/-- The operators between factors. -/
def isMultiplicative (op : Operator) : Bool := !isAdditive op

/-- A term, given a reader of factors. -/
def termOf (factor : Reader Expr) (steps : Nat) : Reader Expr := do
  let left ← factor
  chain factor isMultiplicative steps left

/-- An expression, given a reader of factors. -/
def expressionOf (factor : Reader Expr) (steps : Nat) : Reader Expr := do
  let left ← termOf factor steps
  chain (termOf factor steps) isAdditive steps left

/-- A factor. -/
def factor : Nat → Reader Expr
  | 0 => outOfSteps
  | steps + 1 => do
    let token ← peekCurrent
    match token.value with
    | .symbol .plus =>
      let _ ← advance
      let operand ← factor steps
      return .signed .plus operand token.position
    | .symbol .minus =>
      let _ ← advance
      let operand ← factor steps
      return .signed .minus operand token.position
    | .number value =>
      let _ ← advance
      return .literal value token.position
    | .symbol .leftParen =>
      let _ ← advance
      let inner ← expressionOf (factor steps) steps
      let _ ← eat (.symbol .rightParen)
      return inner
    | .identifier _ =>
      let v ← occurrence
      return .occurrence v
    | _ => unexpected "expression"

/-- A term. -/
def term (steps : Nat) : Reader Expr := termOf (factor steps) steps

/-- An expression. -/
def expression (steps : Nat) : Reader Expr := expressionOf (factor steps) steps

/-! ## Statements -/

/-- The arguments of a call, up to and including the closing parenthesis. -/
def arguments (steps : Nat) : Reader (List Expr) :=
  ifTaken (.symbol .rightParen)
    (return [])
    (do
      let values ← separated (expression steps) (.symbol .comma) steps
      ifTaken (.symbol .rightParen) (return values) (unexpected "',' or ')'"))

/-- A procedure call, numbered behind its arguments. -/
def call (steps : Nat) : Reader Call := do
  let name ← identifier
  let _ ← eat (.symbol .leftParen)
  let values ← arguments steps
  let id ← takeId
  return ⟨name.value, id, values, name.position⟩

/-- An assignment. -/
def assignment (steps : Nat) : Reader Statement := do
  let target ← occurrence
  let sign ← eat (.symbol .assign)
  let value ← expression steps
  return .assign target value sign.position

/-- Statements between `BEGIN` and `END`, given a reader of statements. -/
def compoundOf (statement : Reader Statement) (steps : Nat) : Reader (List Statement) := do
  let _ ← eat (.keyword .blockBegin)
  let body ← separated statement (.symbol .semicolon) steps
  let _ ← eat (.keyword .blockEnd)
  return body

/-- A statement.  The token behind an identifier tells a call from an assignment. -/
def statement : Nat → Reader Statement
  | 0 => outOfSteps
  | steps + 1 => do
    let token ← peekCurrent
    match token.value with
    | .keyword .blockBegin =>
      let body ← compoundOf (statement steps) steps
      return .compound body
    | .identifier _ =>
      let next ← peekNext
      if next.value == .symbol .leftParen then
        let c ← call steps
        return .call c
      else assignment steps
    | _ => return .empty

/-- A compound statement. -/
def compound (steps : Nat) : Reader (List Statement) :=
  compoundOf (statement steps) steps

/-! ## Declarations -/

/-- Names and their common type. -/
def typed (steps : Nat) : Reader (List (Located String) × TypeName) := do
  let names ← identifiers steps
  let _ ← eat (.symbol .colon)
  let type ← typeName
  return (names, type)

/-- The variables of one line of declarations. -/
def variableLine (steps : Nat) : Reader (List Declaration) := do
  let (names, type) ← typed steps
  let _ ← eat (.symbol .semicolon)
  return names.map fun name => .var name.value type name.position

/-- The variables of one section: its first line, and more as long as an identifier
follows. -/
def variableSection (steps : Nat) : Reader (List Declaration) := do
  let _ ← eat (.keyword .var)
  let first ← variableLine steps
  let rest ← whileStarts atIdentifier (variableLine steps) steps
  return first ++ rest.flatten

/-- The parameters with one common type. -/
def parameterGroup (steps : Nat) : Reader (List Parameter) := do
  let (names, type) ← typed steps
  return names.map fun name => ⟨name.value, type, name.position⟩

/-- The parameters of a procedure; the parentheses may hold none or be left out. -/
def parameters (steps : Nat) : Reader (List Parameter) :=
  ifTaken (.symbol .leftParen)
    (ifTaken (.symbol .rightParen)
      (return [])
      (do
        let groups ← separated (parameterGroup steps) (.symbol .semicolon) steps
        let _ ← eat (.symbol .rightParen)
        return groups.flatten))
    (return [])

/-- Declarations, all variables before the procedures, given a reader of procedures. -/
def declarationsOf (procedure : Reader Declaration) (steps : Nat) :
    Reader (List Declaration) := do
  let sections ← whileStarts (check (.keyword .var)) (variableSection steps) steps
  let procedures ← whileStarts (check (.keyword .procedure)) procedure steps
  return sections.flatten ++ procedures

/-- A block, given a reader of procedures. -/
def blockOf (procedure : Reader Declaration) (steps : Nat) : Reader Block := do
  let declarations ← declarationsOf procedure steps
  let body ← compound steps
  return ⟨declarations, body⟩

/-- A procedure declaration with the semicolon behind it. -/
def procedure : Nat → Reader Declaration
  | 0 => outOfSteps
  | steps + 1 => do
    let _ ← eat (.keyword .procedure)
    let name ← identifier
    let params ← parameters steps
    let _ ← eat (.symbol .semicolon)
    let block ← blockOf (procedure steps) steps
    let _ ← eat (.symbol .semicolon)
    return .procedure name.value params block.declarations block.body name.position

/-- All declarations of a block. -/
def declarations (steps : Nat) : Reader (List Declaration) :=
  declarationsOf (procedure steps) steps

/-- A block. -/
def block (steps : Nat) : Reader Block := blockOf (procedure steps) steps

/-- A program up to its final point. -/
def program (steps : Nat) : Reader Program := do
  let first ← eat (.keyword .program)
  let name ← identifier
  let _ ← eat (.symbol .semicolon)
  let body ← block steps
  let _ ← eat (.symbol .dot)
  return ⟨name.value, body, first.position⟩

/-- A program that the whole text consists of. -/
def wholeProgram (steps : Nat) : Reader Program := do
  let tree ← program steps
  let token ← peekCurrent
  match token.value with
  | .endOfInput => return tree
  | _ => trailing

end Reader

end MiniPascal
