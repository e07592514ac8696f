/-
# The budget of a reader

Every step of a repetition or of a nesting takes up a token, and what remains of a stream bounds
the tokens.  So a reader is steady: a budget of more steps than remain is enough, and a larger
one makes no difference.

* `TokenStream.remaining_advance` : every token that is taken leaves less;
* `Reader.steady_of_alike` : readers that keep to this course are steady.
-/
import MiniPascal.Tree.Course

set_option autoImplicit false

namespace MiniPascal

/-! ## What remains of a stream -/

namespace TokenStream

/-- The end of the input does not count as a token that remains. -/
def weight (token : Located Token) : Nat :=
  match token.value with
  | .endOfInput => 0
  | _ => 1

/-- A bound on the tokens that remain: the scanned ones, and one for every character
that has not been scanned. -/
def remaining (s : TokenStream) : Nat :=
  weight s.current + s.lookahead.elim 0 weight + s.lexer.rest.length

theorem weight_le_one (token : Located Token) : weight token ≤ 1 := by
  unfold weight
  split <;> omega

theorem weight_eq_one {token : Located Token} (h : token.value ≠ .endOfInput) :
    weight token = 1 := by
  unfold weight
  split
  next heq => exact absurd heq h
  next => rfl

/-- A scanned token weighs no more than the text it takes up, and scanning leaves the
scanned tokens alone. -/
theorem remaining_scan {s t : TokenStream} {token : Located Token} (h : scan s = .ok token t) :
    weight token + t.lexer.rest.length ≤ s.lexer.rest.length ∧
      t.current = s.current ∧ t.lookahead = s.lookahead := by
  unfold scan at h
  split at h
  next found behind hnext =>
    simp only [EStateM.Result.ok.injEq] at h
    obtain ⟨rfl, rfl⟩ := h
    refine ⟨?_, rfl, rfl⟩
    unfold Lexer.next at hnext
    split at hnext
    next =>
      simp only [Prod.mk.injEq, Except.ok.injEq] at hnext
      obtain ⟨rfl, rfl⟩ := hnext
      have hskip := s.lexer.length_skip_le
      show 0 + s.lexer.skip.rest.length ≤ s.lexer.rest.length
      rw [Nat.zero_add]
      exact hskip
    next hscan =>
      subst hnext
      have hlt := Lexer.length_scan_lt hscan
      have hone := weight_le_one found
      show weight found + behind.rest.length ≤ s.lexer.rest.length
      omega
  next => cases h

/-- Advancing takes up the current token. -/
theorem remaining_advance {s t : TokenStream} {token : Located Token}
    (h : advance s = .ok token t) : t.remaining + weight s.current ≤ s.remaining := by
  unfold advance at h
  split at h
  next next_ hlook =>
    simp only [EStateM.Result.ok.injEq] at h
    obtain ⟨-, rfl⟩ := h
    unfold remaining
    rw [hlook]
    simp only [Option.elim_none, Option.elim_some]
    omega
  next hlook =>
    split at h
    next found u hscan =>
      simp only [EStateM.Result.ok.injEq] at h
      obtain ⟨-, rfl⟩ := h
      obtain ⟨hle, -, hsame⟩ := remaining_scan hscan
      unfold remaining
      rw [hlook] at hsame ⊢
      rw [hsame]
      simp only [Option.elim_none]
      omega
    next => cases h

/-- The course of what remains: every token that is taken makes it less. -/
def descent : Course where
  Moves i s t := t.remaining + i ≤ s.remaining
  Fails _ _ _ := True
  refl s := Nat.le_refl s.remaining
  trans hst htu := by omega
  mono hst hij := by omega
  fails_behind _ _ := trivial
  moves_takeId s := Nat.le_refl s.remaining
  moves_advance hs h := by
    have hless := remaining_advance h
    rwa [weight_eq_one hs] at hless
  fails_advance _ _ := trivial
  fails_unexpected _ _ := trivial
  fails_trailing _ := trivial

end TokenStream

namespace Reader

open TokenStream

variable {α : Type}

/-! ## Steady readers -/

/-- A reader ends with a tree and fewer than `bound` tokens, or with an error in the
text; the budget suffices. -/
def EndsBelow (bound : Nat) : EStateM.Result Halt TokenStream α → Prop
  | .ok _ t => t.remaining < bound
  | .error (.failed _) _ => True
  | .error .outOfSteps _ => False

/-- Two readers answer the same here, and what remains is less than what is there and
`slack` more. -/
def SteadyAt (slack : Nat) (p q : Reader α) (s : TokenStream) : Prop :=
  p s = q s ∧ EndsBelow (s.remaining + slack) (p s)

/-- Two readers are steady wherever at most `k` tokens remain.  With slack `0` they take
up a token, with slack `1` perhaps none. -/
def Steady (slack k : Nat) (p q : Reader α) : Prop :=
  ∀ s, s.remaining ≤ k → SteadyAt slack p q s

/-- **Readers with two budgets** are steady where fewer tokens remain than either, if they are
alike wherever both are enough. -/
theorem steady_of_alike {k n m i : Nat} {p q : Reader α}
    (h : ∀ origin, descent.Enough False origin 0 n m → descent.Alike False origin 0 i p q)
    (hn : k < n) (hm : k < m) : Steady 1 k p q := by
  intro s hs
  have henough : descent.Enough False s 0 n m := by
    refine Or.inr fun i t ht => ?_
    have hless : t.remaining + i ≤ s.remaining := ht
    omega
  obtain ⟨hsame, hends⟩ := h s henough s (descent.refl s)
  refine ⟨hsame, ?_⟩
  cases hps : p s with
  | ok x t =>
      rw [hps] at hends
      have hless : t.remaining + i ≤ s.remaining := hends
      show t.remaining < s.remaining + 1
      omega
  | error halt t =>
      rw [hps] at hends
      cases halt with
      | failed e => trivial
      | outOfSteps => exact hends

end Reader

end MiniPascal
