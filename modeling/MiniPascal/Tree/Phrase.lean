/-
# Phrases

A phrase is a reader that settles its outcome within one step per remaining token, so it
can be read without a budget: the answer is a tree or an error in the text, and the
stream behind it.

* `read_eq` : reading a phrase is running its reader with any sufficient budget.
-/
import MiniPascal.Tree.Budget

set_option autoImplicit false

namespace MiniPascal

/-- A reader that ends within one step per remaining token, whatever budget it has
beyond that. -/
structure Phrase (α : Type) where
  reader : Nat → Reader α
  steady : ∀ {k n m : Nat}, k < n → k < m → Reader.Steady 1 k (reader n) (reader m)

/-! ## The phrases of the grammar -/

namespace Phrase

/-- A factor. -/
def factor : Phrase Expr :=
  ⟨Reader.factor, Reader.steady_of_alike fun _ => Reader.alike_factor⟩

/-- A term. -/
def term : Phrase Expr :=
  ⟨Reader.term, Reader.steady_of_alike fun _ => Reader.alike_term⟩

/-- An expression. -/
def expression : Phrase Expr :=
  ⟨Reader.expression, Reader.steady_of_alike fun _ => Reader.alike_expression⟩

/-- An occurrence of a variable. -/
def occurrence : Phrase Variable :=
  ⟨fun _ => Reader.occurrence, Reader.steady_of_alike fun _ _ => Reader.alike_occurrence⟩

/-- A statement. -/
def statement : Phrase Statement :=
  ⟨Reader.statement, Reader.steady_of_alike fun _ => Reader.alike_statement⟩

/-- A compound statement. -/
def compound : Phrase (List Statement) :=
  ⟨Reader.compound, Reader.steady_of_alike fun _ => Reader.alike_compound⟩

/-- The name of a type. -/
def typeName : Phrase TypeName :=
  ⟨fun _ => Reader.typeName, Reader.steady_of_alike fun _ _ => Reader.alike_typeName⟩

/-- The declarations of a block. -/
def declarations : Phrase (List Declaration) :=
  ⟨Reader.declarations, Reader.steady_of_alike fun _ => Reader.alike_declarations⟩

/-- A block. -/
def block : Phrase Block :=
  ⟨Reader.block, Reader.steady_of_alike fun _ => Reader.alike_block⟩

/-- A program up to its final point. -/
def program : Phrase Program :=
  ⟨Reader.program, Reader.steady_of_alike fun _ => Reader.alike_program⟩

/-- A program that the whole text consists of. -/
def wholeProgram : Phrase Program :=
  ⟨Reader.wholeProgram, Reader.steady_of_alike fun _ => Reader.alike_wholeProgram⟩

/-- The budget suffices as soon as it is larger than the number of remaining tokens. -/
theorem ne_outOfSteps {α : Type} (p : Phrase α) {s t : TokenStream} {n : Nat}
    (hn : s.remaining < n) : p.reader n s ≠ .error .outOfSteps t := by
  intro h
  have hend := (p.steady hn hn s (Nat.le_refl _)).2
  rw [h] at hend
  exact hend

end Phrase

/-! ## Reading -/

namespace TokenStream

/-- Read a phrase from here. -/
def read {α : Type} (p : Phrase α) (s : TokenStream) : Except ParseError α × TokenStream :=
  match h : p.reader (s.remaining + 1) s with
  | .ok tree t => (.ok tree, t)
  | .error (.failed e) t => (.error e, t)
  | .error .outOfSteps _ => absurd h (p.ne_outOfSteps (Nat.lt_succ_self _))

/-- **Reading a phrase** is running its reader with any sufficient budget. -/
theorem read_eq {α : Type} (p : Phrase α) (s : TokenStream) {n : Nat} (hn : s.remaining < n) :
    (∃ tree t, p.reader n s = .ok tree t ∧ s.read p = (.ok tree, t)) ∨
      ∃ e t, p.reader n s = .error (.failed e) t ∧ s.read p = (.error e, t) := by
  have hsame := (p.steady hn (Nat.lt_succ_self _) s (Nat.le_refl _)).1
  unfold read
  rw [hsame]
  split
  next tree t h => exact Or.inl ⟨tree, t, h, rfl⟩
  next e t h => exact Or.inr ⟨e, t, h, rfl⟩
  next t h => exact absurd h (p.ne_outOfSteps (Nat.lt_succ_self _))

end TokenStream

/-- The tree of a program text, or the first error in it, with the tokens scanned to
find out. -/
def readProgram (source : String) : Except ParseError Program × List (Located Token) :=
  match TokenStream.ofString source with
  | .error e => (.error (.lexical e), [])
  | .ok s =>
    let (outcome, t) := s.read Phrase.wholeProgram
    (outcome, t.scanned.reverse)

/-- The tree of a program text, or the first error in it. -/
def parse (source : String) : Except ParseError Program := (readProgram source).1

end MiniPascal
