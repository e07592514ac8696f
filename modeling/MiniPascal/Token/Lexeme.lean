/-
# Lexemes

A lexeme is the longest text at the front of the input that forms a token, or the text
that a fault uses up.  Letters and digits are the ASCII ones; every other character
outside the symbols is a fault of its own.

The scanner of the language is generated from the patterns of its tokens.  `Lexeme.read`, together
with `Separator.read?`, stands for the generated part, and takes the following from the generator.

* Of the patterns that match at a place the one with the longest match is taken, and a reserved
  word rather than an identifier of the same length.
* A match that is refused when its value is computed, an integer literal out of range, is a fault
  and used up as a whole.
* Where no pattern matches, the fault uses up one character; a brace that opens a comment which is
  never closed uses up the whole rest of the text.
* After a fault, scanning goes on behind what was used up.

The results:

* `Lexeme.text_append_rest` : a lexeme and the text behind it make up the input;
* `Lexeme.text_ne_nil` : no lexeme is empty.
-/
import MiniPascal.Token

set_option autoImplicit false

namespace MiniPascal

/-! ## Faults -/

/-- Why the text at some place is no token. -/
inductive LexicalFault where
  | unexpectedCharacter (c : Char)
  | unterminatedComment
  | literalTooLarge (literal : String)
  deriving DecidableEq, Repr

/-- The wording of a lexical fault. -/
def LexicalFault.text : LexicalFault → String
  | .unexpectedCharacter c => "Unexpected character '" ++ c.toString ++ "'."
  | .unterminatedComment => "Comment is never closed."
  | .literalTooLarge literal => "Literal " ++ literal ++ " is too large."

/-! ## Literals -/

/-- The number that a run of digits denotes. -/
def digitsValue (digits : List Char) : Nat :=
  digits.foldl (fun n c => 10 * n + (c.toNat - '0'.toNat)) 0

/-- The token of a run of digits; it has to fit in 64 bits. -/
def integerToken (digits : List Char) : Except LexicalFault Token :=
  match toInt64? (digitsValue digits) with
  | some n => .ok (.number (.integer n))
  | none => .error (.literalTooLarge (String.ofList digits))

/-- The token of the double nearest to `whole.fraction`. -/
def realToken (whole fraction : List Char) : Token :=
  .number (.real (Float.ofScientific (digitsValue (whole ++ fraction)) true fraction.length))

/-- The token of a run of letters and digits: a reserved word or an identifier. -/
def wordToken (word : List Char) : Token :=
  match Keyword.ofWord? word with
  | some k => .keyword k
  | none => .identifier (String.ofList word)

/-! ## Reading one lexeme -/

/-- What the front of a text is read as, the text that this uses up, and the text
behind it. -/
structure Lexeme where
  reading : Except LexicalFault Token
  text : List Char
  rest : List Char

namespace Lexeme

/-- A text that starts with a letter: the whole run of letters and digits is a word. -/
def ofLetter (input : List Char) : Lexeme :=
  let word := input.takeWhile Char.isAlphanum
  ⟨.ok (wordToken word), word, input.dropWhile Char.isAlphanum⟩

/-- A text that starts with a digit: a real literal if a point and a digit follow the
run of digits, otherwise an integer literal. -/
def ofDigit (input : List Char) : Lexeme :=
  let whole := input.takeWhile Char.isDigit
  match input.dropWhile Char.isDigit with
  | '.' :: behind =>
    let fraction := behind.takeWhile Char.isDigit
    if fraction.isEmpty then ⟨integerToken whole, whole, '.' :: behind⟩
    else ⟨.ok (realToken whole fraction), whole ++ '.' :: fraction,
      behind.dropWhile Char.isDigit⟩
  | behind => ⟨integerToken whole, whole, behind⟩

/-- A text that starts with any other character.  The brace of a comment that is never
closed uses up the whole input. -/
def ofOther (c : Char) (behind : List Char) : Lexeme :=
  match c, behind with
  | ':', '=' :: behind => ⟨.ok (.symbol .assign), [':', '='], behind⟩
  | '\x7b', behind => ⟨.error .unterminatedComment, '\x7b' :: behind, []⟩
  | c, behind =>
    match Punctuation.ofChar? c with
    | some s => ⟨.ok (.symbol s), [c], behind⟩
    | none => ⟨.error (.unexpectedCharacter c), [c], behind⟩

/-- The lexeme at the front of the text `c :: behind`. -/
def read (c : Char) (behind : List Char) : Lexeme :=
  if c.isAlpha then ofLetter (c :: behind)
  else if c.isDigit then ofDigit (c :: behind)
  else ofOther c behind

/-! ## A lexeme is a piece of the input -/

theorem ofLetter_append (input : List Char) :
    (ofLetter input).text ++ (ofLetter input).rest = input :=
  List.takeWhile_append_dropWhile

/-- A literal and the text behind it make up the input. -/
theorem ofDigit_append (input : List Char) :
    (ofDigit input).text ++ (ofDigit input).rest = input := by
  have hwhole := List.takeWhile_append_dropWhile (p := Char.isDigit) (l := input)
  unfold ofDigit
  simp only
  split
  next behind hdrop =>
    have hfraction := List.takeWhile_append_dropWhile (p := Char.isDigit) (l := behind)
    split
    · rw [hdrop] at hwhole
      exact hwhole
    · rw [hdrop] at hwhole
      simpa [List.append_assoc, hfraction] using hwhole
  next => exact hwhole

/-- Any other lexeme and the text behind it make up the input. -/
theorem ofOther_append (c : Char) (behind : List Char) :
    (ofOther c behind).text ++ (ofOther c behind).rest = c :: behind := by
  unfold ofOther
  split
  · rfl
  · simp
  · split <;> rfl

/-- **A lexeme and the text behind it** make up the input. -/
theorem text_append_rest (c : Char) (behind : List Char) :
    (read c behind).text ++ (read c behind).rest = c :: behind := by
  unfold read
  split
  · exact ofLetter_append _
  · split
    · exact ofDigit_append _
    · exact ofOther_append c behind

/-- **No lexeme is empty.** -/
theorem text_ne_nil (c : Char) (behind : List Char) : (read c behind).text ≠ [] := by
  unfold read
  split
  next hletter => simp [ofLetter, Char.isAlphanum, hletter]
  next =>
    split
    next hdigit =>
      unfold ofDigit
      simp only
      split
      · split <;> simp [hdigit]
      · simp [hdigit]
    next =>
      unfold ofOther
      split
      · simp
      · simp
      · split <;> simp

/-- The text behind a lexeme is shorter than the input. -/
theorem length_rest_lt (c : Char) (behind : List Char) :
    (read c behind).rest.length < (c :: behind).length := by
  have hlength := congrArg List.length (text_append_rest c behind)
  have hpos := List.length_pos_iff.2 (text_ne_nil c behind)
  rw [List.length_append] at hlength
  omega

end Lexeme

end MiniPascal
