/-
# Source positions

A position is a line and a column of a source text.  Lines and columns count from
one, columns count the bytes of the UTF-8 encoding, and only a line feed starts a
new line.
-/

set_option autoImplicit false

namespace MiniPascal

/-- A place in a source text: the line and the byte column, both counted from one. -/
structure Position where
  line : Nat
  column : Nat
  deriving DecidableEq, Repr

namespace Position

/-- The place of the first character of a text. -/
def origin : Position := ⟨1, 1⟩

/-- The wording of a position in a diagnostic. -/
def text (p : Position) : String :=
  "line " ++ toString p.line ++ ", column " ++ toString p.column

end Position

/-- The number of bytes of the UTF-8 encoding of a text. -/
def byteLength (text : List Char) : Nat :=
  text.foldr (fun c bytes => c.utf8Size + bytes) 0

/-- A value together with the place in the source text that it belongs to. -/
structure Located (α : Type) where
  value : α
  position : Position
  deriving DecidableEq, Repr

end MiniPascal
