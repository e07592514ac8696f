/-
# The lexer

A lexer stands between two characters of a source text.  It keeps the byte offset of its place, and
in its extras the line that it is on with the offset at which that line starts.  Only what it passes
over in front of a lexeme changes the extras: a line feed starts a line behind it, and a comment
starts one behind its last line feed, if it has any.  The column of a lexeme is counted from the
start of the line to the offset where the lexeme begins.  After a fault scanning goes on behind the
text of the fault.

* `Separator.text_append_rest` : a separator and the text behind it make up the input;
* `Lexer.length_scan_lt` : every lexeme shortens the rest of the text.
-/
import MiniPascal.Token.Lexeme

set_option autoImplicit false

namespace MiniPascal

/-- A lexical fault and its place. -/
abbrev LexicalError := Located LexicalFault

/-- The wording of a lexical error. -/
def LexicalError.message (e : LexicalError) : String :=
  "Lexical error on " ++ e.position.text ++ ": " ++ e.value.text

/-- What a lexeme is read as at a place. -/
def Lexeme.itemAt (lexeme : Lexeme) (p : Position) : Except LexicalError (Located Token) :=
  match lexeme.reading with
  | .ok token => .ok ⟨token, p⟩
  | .error fault => .error ⟨fault, p⟩

/-! ## The current line -/

/-- A piece of a source text: the offset of its first byte, and its characters. -/
structure Slice where
  start : Nat
  text : List Char

/-- The offset behind the last byte of a slice. -/
def Slice.stop (s : Slice) : Nat := s.start + byteLength s.text

/-- The byte offset of the last occurrence of a character in a text. -/
def rfind? (c : Char) : List Char → Option Nat
  | [] => none
  | d :: rest =>
    match rfind? c rest with
    | some offset => some (d.utf8Size + offset)
    | none => if d = c then some 0 else none

/-- What a lexer keeps beside its place: the number of the current line, and the byte offset of the
first character of that line. -/
structure LexerExtras where
  line : Nat
  lineStart : Nat
  deriving DecidableEq, Repr

namespace LexerExtras

/-- The first line starts with the text. -/
def initial : LexerExtras := ⟨1, 0⟩

/-- Pass over a line feed: the next line starts behind it. -/
def newLine (x : LexerExtras) (s : Slice) : LexerExtras := ⟨x.line + 1, s.stop⟩

/-- Pass over a comment: its line feeds count, and the current line starts behind the last one. -/
def comment (x : LexerExtras) (s : Slice) : LexerExtras :=
  match rfind? '\n' s.text with
  | some offset => ⟨x.line + s.text.count '\n', s.start + offset + 1⟩
  | none => x

end LexerExtras

/-! ## Separators -/

/-- What is passed over: blanks within a line, a line feed, and a closed comment. -/
inductive SeparatorKind where
  | ignored
  | newLine
  | comment
  deriving DecidableEq, Repr

/-- What a separator does to the extras of a lexer. -/
def SeparatorKind.update : SeparatorKind → LexerExtras → Slice → LexerExtras
  | .ignored, x, _ => x
  | .newLine, x, s => x.newLine s
  | .comment, x, s => x.comment s

/-- A separator at the front of a text: its text, and the text behind it. -/
structure Separator where
  kind : SeparatorKind
  text : List Char
  rest : List Char

/-- The blanks that stay on a line: space, tab, carriage return and form feed. -/
def isSpace (c : Char) : Bool := c = ' ' || c = '\t' || c = '\r' || c = '\x0c'

namespace Separator

/-- The comment that the brace in front of `behind` opens, up to the first brace that closes it. -/
def ofBrace? (behind : List Char) : Option Separator :=
  match behind.dropWhile (· != '\x7d') with
  | [] => none
  | close :: rest =>
    some ⟨.comment, '\x7b' :: (behind.takeWhile (· != '\x7d') ++ [close]), rest⟩

/-- The separator at the front of a text.  A brace that is never closed is none. -/
def read? : List Char → Option Separator
  | [] => none
  | c :: behind =>
    if isSpace c then
      some ⟨.ignored, (c :: behind).takeWhile isSpace, (c :: behind).dropWhile isSpace⟩
    else if c = '\n' then some ⟨.newLine, ['\n'], behind⟩
    else if c = '\x7b' then ofBrace? behind
    else none

/-- **A brace opens a comment** up to the first brace that closes it, if there is one. -/
theorem ofBrace?_cases (behind : List Char) : ('\x7d' ∉ behind ∧ ofBrace? behind = none) ∨
    ∃ inside rest, '\x7d' ∉ inside ∧ behind = inside ++ '\x7d' :: rest ∧
      ofBrace? behind = some ⟨.comment, '\x7b' :: (inside ++ ['\x7d']), rest⟩ := by
  have hopen : ∀ {text : List Char}, '\x7d' ∉ text → ∀ c ∈ text, (c != '\x7d') = true :=
    fun htext c hc => bne_iff_ne.2 fun heq => htext (heq ▸ hc)
  by_cases hclosed : '\x7d' ∈ behind
  · obtain ⟨inside, rest, rfl, hinside⟩ := List.eq_append_cons_of_mem hclosed
    refine Or.inr ⟨inside, rest, hinside, rfl, ?_⟩
    rw [ofBrace?, List.dropWhile_append_of_pos (hopen hinside),
      List.takeWhile_append_of_pos (hopen hinside)]
    simp
  · have hall : (behind ++ []).dropWhile (· != '\x7d') = [] :=
      List.dropWhile_append_of_pos (hopen hclosed)
    rw [List.append_nil] at hall
    exact Or.inl ⟨hclosed, by rw [ofBrace?, hall]⟩

/-- **The separators at the front of a text**, by its first character. -/
theorem read?_cases {text : List Char} {separator : Separator} (h : read? text = some separator) :
    ∃ c behind, text = c :: behind ∧
      (isSpace c = true ∧ separator
          = ⟨.ignored, (c :: behind).takeWhile isSpace, (c :: behind).dropWhile isSpace⟩ ∨
        c = '\n' ∧ separator = ⟨.newLine, ['\n'], behind⟩ ∨
        c = '\x7b' ∧ ofBrace? behind = some separator) := by
  cases text with
  | nil => cases h
  | cons c behind =>
      refine ⟨c, behind, rfl, ?_⟩
      rw [read?] at h
      split at h
      next hspace => exact Or.inl ⟨hspace, (Option.some.inj h).symm⟩
      next =>
        split at h
        next hfeed => exact Or.inr (Or.inl ⟨hfeed, (Option.some.inj h).symm⟩)
        next =>
          split at h
          next hbrace => exact Or.inr (Or.inr ⟨hbrace, h⟩)
          next => cases h

/-- **A separator and the text behind it** make up the input, and it is not empty. -/
theorem text_append_rest {text : List Char} {separator : Separator}
    (h : read? text = some separator) :
    separator.text ++ separator.rest = text ∧ separator.text ≠ [] := by
  obtain ⟨c, behind, rfl, ⟨hspace, rfl⟩ | ⟨rfl, rfl⟩ | ⟨rfl, hcomment⟩⟩ := read?_cases h
  · exact ⟨List.takeWhile_append_dropWhile, by simp [hspace]⟩
  · exact ⟨rfl, List.cons_ne_nil _ _⟩
  · rcases ofBrace?_cases behind with ⟨-, hnone⟩ | ⟨inside, rest, -, rfl, hsome⟩
    · simp [hnone] at hcomment
    · obtain rfl := Option.some.inj (hsome.symm.trans hcomment)
      exact ⟨by simp, List.cons_ne_nil _ _⟩

theorem length_rest_lt {text : List Char} {separator : Separator}
    (h : read? text = some separator) : separator.rest.length < text.length := by
  obtain ⟨htext, hne⟩ := text_append_rest h
  have hpos := List.length_pos_iff.2 hne
  rw [← htext, List.length_append]
  omega

end Separator

/-! ## The cursor -/

/-- A cursor in a source text: the length of the text in bytes, the offset of the cursor, what
stands behind it, and the extras. -/
structure Lexer where
  size : Nat
  offset : Nat
  rest : List Char
  extras : LexerExtras

namespace Lexer

/-- The cursor at the start of a source text. -/
def ofString (source : String) : Lexer :=
  ⟨byteLength source.toList, 0, source.toList, .initial⟩

/-- The line and the column of an offset on the current line.  The subtraction would stop at zero if
the offset were in front of the line. -/
def currentPosition (lx : Lexer) (offset : Nat) : Position :=
  ⟨lx.extras.line, offset - lx.extras.lineStart + 1⟩

/-- The cursor behind a text. -/
def advance (lx : Lexer) (text rest : List Char) : Lexer :=
  { lx with offset := lx.offset + byteLength text, rest := rest }

/-- The cursor behind a separator. -/
def pass (lx : Lexer) (separator : Separator) : Lexer :=
  { lx.advance separator.text separator.rest with
    extras := separator.kind.update lx.extras ⟨lx.offset, separator.text⟩ }

/-- The cursor behind all separators at its place. -/
def skip (lx : Lexer) : Lexer :=
  match _h : Separator.read? lx.rest with
  | none => lx
  | some separator => (lx.pass separator).skip
  termination_by lx.rest.length
  decreasing_by exact Separator.length_rest_lt (by assumption)

theorem skip_of_none {lx : Lexer} (h : Separator.read? lx.rest = none) : lx.skip = lx := by
  rw [skip]
  split
  next => rfl
  next hread => simp [h] at hread

theorem skip_of_some {lx : Lexer} {separator : Separator}
    (h : Separator.read? lx.rest = some separator) : lx.skip = (lx.pass separator).skip := by
  rw [skip]
  split
  next hread => simp [h] at hread
  next hread =>
    rw [h] at hread
    rw [Option.some.inj hread]

theorem length_skip_le (lx : Lexer) : lx.skip.rest.length ≤ lx.rest.length := by
  fun_induction skip lx with
  | case1 => exact Nat.le_refl _
  | case2 lx separator hread ih =>
      exact Nat.le_trans ih (Nat.le_of_lt (Separator.length_rest_lt hread))

/-- The token or fault behind the separators, with the cursor behind its text, or
nothing at the end of the text.  No lexeme touches the extras, not even the text of
a comment that is never closed. -/
def scan? (lx : Lexer) : Option (Except LexicalError (Located Token) × Lexer) :=
  let start := lx.skip
  match start.rest with
  | [] => none
  | c :: behind =>
    let lexeme := Lexeme.read c behind
    let stop := start.advance lexeme.text lexeme.rest
    some (lexeme.itemAt (stop.currentPosition start.offset), stop)

/-- **Every lexeme shortens the rest** of the text. -/
theorem length_scan_lt {lx behind : Lexer} {item : Except LexicalError (Located Token)}
    (h : lx.scan? = some (item, behind)) : behind.rest.length < lx.rest.length := by
  have hskip := lx.length_skip_le
  unfold scan? at h
  simp only at h
  split at h
  · cases h
  · next c text hrest =>
      simp only [Option.some.injEq, Prod.mk.injEq] at h
      rw [← h.2]
      have hread := Lexeme.length_rest_lt c text
      rw [← hrest] at hread
      exact Nat.lt_of_lt_of_le hread hskip

/-- The next token or fault, and the cursor behind it; at the end of the text the token
of the end, again and again. -/
def next (lx : Lexer) : Except LexicalError (Located Token) × Lexer :=
  match lx.scan? with
  | none => (.ok ⟨.endOfInput, lx.skip.currentPosition lx.skip.size⟩, lx.skip)
  | some found => found

/-- All tokens from the cursor on, up to the end of the input or the first fault. -/
def items (lx : Lexer) : List (Except LexicalError (Located Token)) :=
  match _h : lx.scan? with
  | none => [.ok ⟨.endOfInput, lx.skip.currentPosition lx.skip.size⟩]
  | some (.error e, _) => [.error e]
  | some (.ok token, behind) => .ok token :: behind.items
  termination_by lx.rest.length
  decreasing_by exact length_scan_lt (by assumption)

end Lexer

/-- The tokens of a source text, up to the end of the input or the first fault. -/
def tokenize (source : String) : List (Except LexicalError (Located Token)) :=
  (Lexer.ofString source).items

end MiniPascal
