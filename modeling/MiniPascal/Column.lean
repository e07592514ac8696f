/-
# Columns of text

Tables line their entries up in columns: a text is filled with spaces up to the width of
its column, counted in characters.  A longer text is left as it is.
-/

set_option autoImplicit false

namespace MiniPascal

/-- The text at the left of a column of the given width. -/
def alignLeft (width : Nat) (text : String) : String :=
  text ++ "".pushn ' ' (width - text.length)

/-- The text at the right of a column of the given width. -/
def alignRight (width : Nat) (text : String) : String :=
  "".pushn ' ' (width - text.length) ++ text

end MiniPascal
