/-
# Tokens

The tokens of the language: reserved words, numbers, identifiers, symbols and the end
of the input.  Every token has a description, which diagnostics show.
-/
import MiniPascal.Number.Arithmetic
import MiniPascal.Position

set_option autoImplicit false

namespace MiniPascal

/-! ## Reserved words -/

/-- The reserved words. -/
inductive Keyword where
  | program
  | procedure
  | var
  | div
  | integer
  | real
  | blockBegin
  | blockEnd
  deriving DecidableEq, Repr

namespace Keyword

/-- The spelling of a reserved word in capital letters. -/
def text : Keyword → String
  | .program => "PROGRAM"
  | .procedure => "PROCEDURE"
  | .var => "VAR"
  | .div => "DIV"
  | .integer => "INTEGER"
  | .real => "REAL"
  | .blockBegin => "BEGIN"
  | .blockEnd => "END"

/-- All reserved words. -/
def all : List Keyword :=
  [.program, .procedure, .var, .div, .integer, .real, .blockBegin, .blockEnd]

theorem mem_all (k : Keyword) : k ∈ all := by
  cases k <;> decide

/-- The reserved word that a text spells, in letters of any case. -/
def ofWord? (word : List Char) : Option Keyword :=
  all.find? fun k => k.text.toList = word.map Char.toUpper

/-- **Reserved words are recognised by their letters,** whatever their case. -/
theorem ofWord?_eq_some_iff {word : List Char} {k : Keyword} :
    ofWord? word = some k ↔ k.text.toList = word.map Char.toUpper := by
  constructor
  · intro h
    simpa using List.find?_some h
  · intro h
    unfold ofWord?
    rw [← h]
    cases k <;> decide

end Keyword

/-! ## Symbols -/

/-- The symbols made of other characters than letters and digits. -/
inductive Punctuation where
  | assign
  | colon
  | semicolon
  | dot
  | comma
  | plus
  | minus
  | star
  | slash
  | leftParen
  | rightParen
  deriving DecidableEq, Repr

namespace Punctuation

/-- The spelling of a symbol. -/
def text : Punctuation → String
  | .assign => ":="
  | .colon => ":"
  | .semicolon => ";"
  | .dot => "."
  | .comma => ","
  | .plus => "+"
  | .minus => "-"
  | .star => "*"
  | .slash => "/"
  | .leftParen => "("
  | .rightParen => ")"

/-- The symbol that a single character spells. -/
def ofChar? : Char → Option Punctuation
  | ':' => some .colon
  | ';' => some .semicolon
  | '.' => some .dot
  | ',' => some .comma
  | '+' => some .plus
  | '-' => some .minus
  | '*' => some .star
  | '/' => some .slash
  | '(' => some .leftParen
  | ')' => some .rightParen
  | _ => none

end Punctuation

/-! ## Tokens -/

/-- A token.  No text is read as `skipped`, which stands for the text between tokens. -/
inductive Token where
  | keyword (k : Keyword)
  | symbol (s : Punctuation)
  | identifier (name : String)
  | number (n : Number)
  | skipped
  | endOfInput
  deriving Repr, BEq

namespace Token

/-- The spelling of a number in a description. -/
def numberText : Number → String
  | .integer n => "integer '" ++ toString n.toInt ++ "'"
  | .real x => "real '" ++ Decimal.ofFloat .literal x ++ "'"

/-- The description of a token in a diagnostic. -/
def describe : Token → String
  | .keyword k => "'" ++ k.text ++ "'"
  | .symbol s => "'" ++ s.text ++ "'"
  | .identifier name => "identifier '" ++ name ++ "'"
  | .number n => numberText n
  | .skipped => "skipped input"
  | .endOfInput => "end of input"

/-- The operator that a token stands for between two operands. -/
def operator? : Token → Option Operator
  | .symbol .plus => some .add
  | .symbol .minus => some .subtract
  | .symbol .star => some .multiply
  | .keyword .div => some .divideInteger
  | .symbol .slash => some .divideReal
  | _ => none

/-- The name of an identifier. -/
def name? : Token → Option String
  | .identifier name => some name
  | _ => none

end Token

end MiniPascal
