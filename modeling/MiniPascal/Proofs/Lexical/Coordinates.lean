/-
# Coordinates

Where the parts of a source text stand.  The line of a place counts the line feeds in front
of it, and its column the bytes behind the last one; so a position names one place of a text
at most.  Every token and every fault that a text is read as stands at its position.

* `StandsAt.unique` : one text stands at a position;
* `StartsAt.unique` : one token starts at a position;
* `startsAt_of_mem_tokenize` : the tokens of a source text start at their positions;
* `pointsAt_of_mem_tokenize` : so do the faults.
-/
import MiniPascal.Proofs.Lexical.MaximalMunch

set_option autoImplicit false

namespace MiniPascal

/-! ## Places apart -/

namespace Position

/-- A text leads on: it ends on a later line, or on the same line further to the right. -/
theorem past_le (p : Position) (text : List Char) :
    p.line < (p.past text).line ∨
      p.line = (p.past text).line ∧ p.column + text.length ≤ (p.past text).column := by
  induction text generalizing p with
  | nil => exact Or.inr ⟨rfl, Nat.le_refl _⟩
  | cons c rest ih =>
      have hrest := ih (p.after c)
      rw [past_cons, List.length_cons]
      by_cases hc : c = '\n'
      · have hline : (p.after c).line = p.line + 1 := by rw [after, if_pos hc]
        omega
      · have hafter : p.after c = ⟨p.line, p.column + c.utf8Size⟩ := if_neg hc
        have hpos : 0 < c.utf8Size := Char.utf8Size_pos c
        rw [hafter] at hrest ⊢
        simp only at hrest
        omega

/-- Only the empty text leads back to where it starts. -/
theorem eq_nil_of_past_eq {p : Position} {text : List Char} (h : p.past text = p) : text = [] := by
  have hle := p.past_le text
  rw [h] at hle
  have hlength : text.length = 0 := by omega
  exact List.length_eq_zero_iff.1 hlength

end Position

/-! ## Places in a source text -/

/-- What is left of a source text from a position on. -/
def StandsAt (source : String) (p : Position) (rest : List Char) : Prop :=
  ∃ before, source.toList = before ++ rest ∧ p = .behind before

/-- **One text stands at a position.** -/
theorem StandsAt.unique {source : String} {p : Position} {rest other : List Char}
    (h : StandsAt source p rest) (h' : StandsAt source p other) : rest = other := by
  obtain ⟨before, htext, hp⟩ := h
  obtain ⟨before', htext', hp'⟩ := h'
  have hplace : Position.origin.past before = Position.origin.past before' := by
    rw [Position.past_origin, Position.past_origin, ← hp, hp']
  -- what lies between the two places leads from one to the other, which are the same
  rcases List.append_eq_append_iff.1 (htext.symm.trans htext') with
    ⟨more, rfl, hrest⟩ | ⟨more, rfl, hother⟩
  · rw [Position.past_append] at hplace
    rw [hrest, Position.eq_nil_of_past_eq hplace.symm, List.nil_append]
  · rw [Position.past_append] at hplace
    rw [hother, Position.eq_nil_of_past_eq hplace, List.nil_append]

/-- A token starts at a position: the longest match at that place reads as it. -/
def StartsAt (source : String) (p : Position) (token : Token) : Prop :=
  ∃ pattern text rest, StandsAt source p (text ++ rest) ∧ Picks pattern text rest ∧
    Denotes pattern text (.ok token)

/-- **One token starts at a position.** -/
theorem StartsAt.unique {source : String} {p : Position} {token other : Token}
    (h : StartsAt source p token) (h' : StartsAt source p other) : token = other := by
  obtain ⟨pattern, text, rest, hstands, hpicks, hdenotes⟩ := h
  obtain ⟨pattern', text', rest', hstands', hpicks', hdenotes'⟩ := h'
  obtain ⟨rfl, rfl, -⟩ := hpicks.unique hpicks' (hstands.unique hstands')
  exact Except.ok.inj (hdenotes.unique hdenotes')

/-- What a lexical fault says about the text at its place: the character that stands there,
the digits of a literal that is too large, or a brace that nothing closes. -/
def LexicalFault.PointsAt (source : String) (p : Position) : LexicalFault → Prop
  | .unexpectedCharacter c => ∃ behind, StandsAt source p (c :: behind)
  | .unterminatedComment => ∃ behind, StandsAt source p ('\x7b' :: behind) ∧ '\x7d' ∉ behind
  | .literalTooLarge literal => ∃ behind, StandsAt source p (literal.toList ++ behind) ∧
      IsDigits literal.toList ∧ Stops Char.isDigit behind ∧ 2 ^ 63 - 1 < placeValue literal.toList

/-- An item of a source text stands at its position. -/
def Item.Placed (source : String) : Item → Prop
  | .ok token => StartsAt source token.position token.value ∨
      token.value = .endOfInput ∧ StandsAt source token.position []
  | .error e => e.value.PointsAt source e.position

/-! ## Items at their positions -/

section Items

variable {source : String} {before input rest text : List Char}

/-- A run of digits that is picked is followed by no digit. -/
theorem stops_of_picks_integer {digits : List Char} (h : Picks .integer digits rest) :
    Stops Char.isDigit rest := by
  rintro c behind rfl
  refine Bool.eq_false_iff.2 fun hc => ?_
  -- with a digit more the run would be longer
  have hlonger : IsDigits (digits ++ [c]) := by
    refine ⟨by simp, fun d hd => ?_⟩
    rcases List.mem_append.1 hd with hd | hd
    · exact h.matched.2 d hd
    · rw [List.mem_singleton.1 hd]
      exact hc
  have hle := h.longest .integer (digits ++ [c]) hlonger ⟨behind, by simp⟩
  rw [List.length_append, List.length_singleton] at hle
  omega

/-- **The first piece of a text** is read as what stands at its place. -/
theorem FirstPiece.placed {x : Except LexicalFault Token}
    (hsource : source.toList = before ++ input) (h : FirstPiece input ⟨text, some x⟩ rest) :
    Item.Placed source (match x with
      | .ok token => .ok ⟨token, .behind before⟩
      | .error fault => .error ⟨fault, .behind before⟩) := by
  cases h with
  | @lexeme pattern _ _ _ hpicks hdenotes =>
      have hstands : StandsAt source (.behind before) (text ++ rest) := ⟨before, hsource, rfl⟩
      cases x with
      | ok token => exact Or.inl ⟨pattern, text, rest, hstands, hpicks, hdenotes⟩
      | error fault =>
          cases hdenotes with
          | tooLarge hlarge =>
              refine ⟨rest, ?_⟩
              rw [String.toList_ofList]
              exact ⟨hstands, hpicks.matched, stops_of_picks_integer hpicks, hlarge⟩
  | @unterminated behind hopen => exact ⟨behind, ⟨before, hsource, rfl⟩, hopen⟩
  | unexpected _ _ => exact ⟨rest, before, hsource, rfl⟩

/-- **The items of a reading** stand at their positions. -/
theorem Munches.placed {pieces : List Piece} (h : Munches input pieces)
    (hsource : source.toList = before ++ input) :
    ∀ item ∈ Piece.items (.behind before) pieces, Item.Placed source item := by
  -- what has been read is added to what stands before
  induction h generalizing before with
  | done =>
      intro item hitem
      rw [List.mem_singleton.1 hitem]
      exact Or.inr ⟨rfl, before, hsource, rfl⟩
  | @fault input rest piece fault hfirst hfault =>
      obtain ⟨text, reading⟩ := piece
      cases hfault
      intro item hitem
      rw [List.mem_singleton.1 hitem]
      exact hfirst.placed hsource
  | @more input rest piece pieces hfirst hsound _ ih =>
      obtain ⟨text, reading⟩ := piece
      have hbehind := Position.past_behind before text
      have hlater : source.toList = before ++ text ++ rest := by
        rw [hsource, ← hfirst.text_append, List.append_assoc]
      cases reading with
      | none =>
          rw [Piece.items, hbehind]
          exact ih hlater
      | some x =>
          cases x with
          | error fault => exact absurd rfl (hsound fault)
          | ok token =>
              rw [Piece.items, hbehind]
              intro item hitem
              rcases List.mem_cons.1 hitem with rfl | hitem
              · exact hfirst.placed hsource
              · exact ih hlater item hitem

theorem placed_of_mem_tokenize {item : Item} (h : item ∈ tokenize source) :
    item.Placed source := by
  obtain ⟨pieces, hpieces, -⟩ := munches_items [] source.toList
  have hstart : source.toList = [] ++ source.toList := rfl
  rw [tokenize_eq_of_munches hpieces] at h
  exact hpieces.placed hstart item h

/-- **The tokens of a source text** start at their positions; the end of the input stands at
the end. -/
theorem startsAt_of_mem_tokenize {token : Located Token} (h : .ok token ∈ tokenize source) :
    StartsAt source token.position token.value ∨
      token.value = .endOfInput ∧ StandsAt source token.position [] :=
  placed_of_mem_tokenize h

/-- **The fault of a source text** is about what stands at its position. -/
theorem pointsAt_of_mem_tokenize {e : LexicalError} (h : .error e ∈ tokenize source) :
    e.value.PointsAt source e.position :=
  placed_of_mem_tokenize h

end Items

end MiniPascal
