/-
# What a stream still has to offer

A stream scans on demand.  What it still has to offer is the list of items from its current
token on, up to the end of the input or the first lexical error, whether they have been
scanned or not.

* `TokenStream.advance_eq_ok`, `TokenStream.advance_of_upcoming` : advancing takes the first
  item away;
* `TokenStream.peekNext_eq_ok`, `TokenStream.peekNext_of_upcoming` : looking ahead shows the
  second item and takes nothing away;
* `TokenStream.advance_eq_error`, `TokenStream.peekNext_eq_error` : both fail only before a
  lexical error;
* `TokenStream.upcoming_ofString` : at the start of a text these are the items of the text.
-/
import MiniPascal.Token.Stream

set_option autoImplicit false

namespace MiniPascal

/-- What scanning once gives: a token or a lexical error. -/
abbrev Item := Except LexicalError (Located Token)

/-! ## Scanned tokens -/

namespace Lexeme

theorem wordToken_ne_endOfInput (word : List Char) : wordToken word ≠ .endOfInput := by
  unfold wordToken
  split <;> simp

theorem integerToken_ne_endOfInput (digits : List Char) :
    integerToken digits ≠ .ok .endOfInput := by
  unfold integerToken
  split <;> simp

/-- **No lexeme is read as the end of the input.** -/
theorem reading_ne_endOfInput (c : Char) (behind : List Char) :
    (read c behind).reading ≠ .ok .endOfInput := by
  unfold read
  split
  · intro h
    exact wordToken_ne_endOfInput _ (Except.ok.inj h)
  · split
    · unfold ofDigit
      simp only
      split
      · split
        · exact integerToken_ne_endOfInput _
        · simp [realToken]
      · exact integerToken_ne_endOfInput _
    · unfold ofOther
      split
      · simp
      · simp
      · split <;> simp

end Lexeme

/-- A token that has been scanned from the text is not the end of the input. -/
theorem Lexer.scan?_ne_endOfInput {lx behind : Lexer} {token : Located Token}
    (h : lx.scan? = some (.ok token, behind)) : token.value ≠ .endOfInput := by
  unfold scan? at h
  simp only at h
  split at h
  · cases h
  next c text hrest =>
    simp only [Option.some.injEq, Prod.mk.injEq] at h
    obtain ⟨hitem, -⟩ := h
    unfold Lexeme.itemAt at hitem
    split at hitem
    next value hvalue =>
      obtain rfl := Except.ok.inj hitem
      intro hend
      rw [show value = Token.endOfInput from hend] at hvalue
      exact Lexeme.reading_ne_endOfInput c text hvalue
    next => cases hitem

/-! ## Items -/

/-- The items from a token on, if `rest` are those behind it.  Nothing stands behind the end
of the input. -/
def itemsFrom (token : Located Token) (rest : List Item) : List Item :=
  match token.value with
  | .endOfInput => [.ok token]
  | _ => .ok token :: rest

theorem itemsFrom_of_eq {token : Located Token} (rest : List Item)
    (h : token.value = .endOfInput) : itemsFrom token rest = [.ok token] := by
  unfold itemsFrom
  rw [h]

theorem itemsFrom_of_ne {token : Located Token} (rest : List Item)
    (h : token.value ≠ .endOfInput) : itemsFrom token rest = .ok token :: rest := by
  unfold itemsFrom
  split
  next heq => exact absurd heq h
  next => rfl

theorem exists_itemsFrom_eq (token : Located Token) (rest : List Item) :
    ∃ more, itemsFrom token rest = .ok token :: more := by
  unfold itemsFrom
  split
  · exact ⟨[], rfl⟩
  · exact ⟨rest, rfl⟩

/-- The items of a text begin with what is scanned next. -/
theorem Lexer.items_eq (lx : Lexer) :
    lx.items = match lx.next with
      | (.ok token, behind) => itemsFrom token behind.items
      | (.error e, _) => [.error e] := by
  rw [Lexer.items]
  unfold Lexer.next
  split
  next hscan =>
    rw [hscan]
    exact (itemsFrom_of_eq _ rfl).symm
  next e behind hscan => rw [hscan]
  next token behind hscan =>
    rw [hscan]
    exact (itemsFrom_of_ne _ (Lexer.scan?_ne_endOfInput hscan)).symm

/-- The items of a text are tokens up to the end of the input or up to a lexical error. -/
theorem Lexer.items_cases (lx : Lexer) :
    (∃ (ts : List (Located Token)) (p : Position),
      lx.items = ts.map Except.ok ++ [.ok ⟨.endOfInput, p⟩]) ∨
    ∃ (ts : List (Located Token)) (e : LexicalError),
      lx.items = ts.map Except.ok ++ [.error e] := by
  fun_induction Lexer.items lx with
  | case1 => exact Or.inl ⟨[], _, rfl⟩
  | case2 lx e => exact Or.inr ⟨[], e, rfl⟩
  | case3 lx token behind _ ih =>
      rcases ih with ⟨ts, p, hitems⟩ | ⟨ts, e, hitems⟩
      · exact Or.inl ⟨token :: ts, p, by rw [hitems]; rfl⟩
      · exact Or.inr ⟨token :: ts, e, by rw [hitems]; rfl⟩

/-! ## What a stream has to offer -/

namespace TokenStream

/-- The items behind the current token, scanned or not. -/
def behindCurrent (s : TokenStream) : List Item :=
  match s.lookahead with
  | some token => itemsFrom token s.lexer.items
  | none => s.lexer.items

/-- The items from the current token on. -/
def upcoming (s : TokenStream) : List Item :=
  itemsFrom s.current s.behindCurrent

theorem exists_upcoming_eq (s : TokenStream) : ∃ rest, s.upcoming = .ok s.current :: rest :=
  exists_itemsFrom_eq s.current s.behindCurrent

theorem current_eq {s : TokenStream} {token : Located Token} {rest : List Item}
    (h : s.upcoming = .ok token :: rest) : s.current = token := by
  obtain ⟨more, hmore⟩ := s.exists_upcoming_eq
  rw [h] at hmore
  exact (Except.ok.inj (List.cons.inj hmore).1).symm

/-- A token that is not the last item stands before the items behind it. -/
theorem behindCurrent_eq {s : TokenStream} {token : Located Token} {item : Item}
    {rest : List Item} (h : s.upcoming = .ok token :: item :: rest) :
    s.current.value ≠ .endOfInput ∧ s.behindCurrent = item :: rest := by
  unfold upcoming itemsFrom at h
  split at h
  · simp at h
  next hne => exact ⟨hne, (List.cons.inj h).2⟩

theorem upcoming_of_ne {s : TokenStream} (h : s.current.value ≠ .endOfInput) :
    s.upcoming = .ok s.current :: s.behindCurrent :=
  itemsFrom_of_ne _ h

/-- Scanning gives the next item of the text. -/
theorem scan_eq_ok {s t : TokenStream} {token : Located Token} (h : scan s = .ok token t) :
    s.lexer.items = itemsFrom token t.lexer.items ∧ t.current = s.current ∧
      t.lookahead = s.lookahead ∧ t.nextId = s.nextId := by
  unfold scan at h
  split at h
  next found behind hnext =>
    simp only [EStateM.Result.ok.injEq] at h
    obtain ⟨rfl, rfl⟩ := h
    refine ⟨?_, rfl, rfl, rfl⟩
    rw [Lexer.items_eq, hnext]
  next => cases h

/-- If the next item of the text is a token, scanning gives it. -/
theorem scan_of_items {s : TokenStream} {token : Located Token} {rest : List Item}
    (h : s.lexer.items = .ok token :: rest) : ∃ t, scan s = .ok token t := by
  rw [Lexer.items_eq] at h
  unfold scan
  rcases hnext : s.lexer.next with ⟨e | found, behind⟩
  · simp [hnext] at h
  · simp only [hnext] at h ⊢
    obtain ⟨more, hmore⟩ := exists_itemsFrom_eq found behind.items
    rw [hmore] at h
    obtain rfl := Except.ok.inj (List.cons.inj h).1
    exact ⟨_, rfl⟩

/-- If scanning fails, the next item of the text is a lexical error. -/
theorem scan_eq_error {s t : TokenStream} {halt : Halt} (h : scan s = .error halt t) :
    ∃ e, halt = .failed (.lexical e) ∧ s.lexer.items = [.error e] := by
  unfold scan at h
  split at h
  · cases h
  next e behind hnext =>
    simp only [EStateM.Result.error.injEq] at h
    refine ⟨e, h.1.symm, ?_⟩
    rw [Lexer.items_eq, hnext]

/-- **Advancing takes the first item away.** -/
theorem advance_eq_ok {s t : TokenStream} {token : Located Token}
    (hs : s.current.value ≠ .endOfInput) (h : advance s = .ok token t) :
    token = s.current ∧ s.upcoming = .ok s.current :: t.upcoming ∧ t.nextId = s.nextId := by
  rw [upcoming_of_ne hs]
  unfold advance at h
  -- a token that was scanned ahead is taken, otherwise the next one is scanned
  cases hlook : s.lookahead with
  | some next =>
      simp only [hlook, EStateM.Result.ok.injEq] at h
      obtain ⟨rfl, rfl⟩ := h
      refine ⟨rfl, ?_, rfl⟩
      rw [behindCurrent, hlook]
      rfl
  | none =>
      rw [hlook] at h
      cases hscan : scan s with
      | error e u =>
          rw [hscan] at h
          cases h
      | ok found u =>
          simp only [hscan, EStateM.Result.ok.injEq] at h
          obtain ⟨rfl, rfl⟩ := h
          obtain ⟨hitems, -, hsame, hid⟩ := scan_eq_ok hscan
          refine ⟨rfl, ?_, hid⟩
          rw [behindCurrent, hlook, hitems]
          unfold upcoming behindCurrent
          rw [hsame, hlook]

/-- If advancing fails, a lexical error stands behind the current token. -/
theorem advance_eq_error {s t : TokenStream} {halt : Halt}
    (hs : s.current.value ≠ .endOfInput) (h : advance s = .error halt t) :
    ∃ e, halt = .failed (.lexical e) ∧ s.upcoming = [.ok s.current, .error e] := by
  unfold advance at h
  split at h
  · cases h
  next hlook =>
    split at h
    · cases h
    next halt' u hscan =>
      obtain ⟨rfl, -⟩ := EStateM.Result.error.inj h
      obtain ⟨e, rfl, hitems⟩ := scan_eq_error hscan
      refine ⟨e, rfl, ?_⟩
      rw [upcoming_of_ne hs, behindCurrent, hlook, hitems]

/-- If a token is to come, advancing succeeds. -/
theorem advance_of_upcoming {s : TokenStream} {token next : Located Token} {rest : List Item}
    (h : s.upcoming = .ok token :: .ok next :: rest) :
    ∃ t, advance s = .ok token t ∧ t.upcoming = .ok next :: rest ∧ t.nextId = s.nextId := by
  obtain ⟨hne, hbehind⟩ := behindCurrent_eq h
  have hadvance : ∃ x t, advance s = .ok x t := by
    unfold advance
    unfold behindCurrent at hbehind
    split
    next => exact ⟨_, _, rfl⟩
    next hlook =>
      rw [hlook] at hbehind
      obtain ⟨u, hscan⟩ := scan_of_items hbehind
      rw [hscan]
      exact ⟨_, _, rfl⟩
  obtain ⟨x, t, ht⟩ := hadvance
  obtain ⟨rfl, hupcoming, hid⟩ := advance_eq_ok hne ht
  rw [h] at hupcoming
  refine ⟨t, ?_, (List.cons.inj hupcoming).2.symm, hid⟩
  rw [ht, current_eq h]

/-- **Looking ahead shows the second item** and takes nothing away. -/
theorem peekNext_eq_ok {s t : TokenStream} {token : Located Token}
    (hs : s.current.value ≠ .endOfInput) (h : peekNext s = .ok token t) :
    (∃ rest, s.upcoming = .ok s.current :: .ok token :: rest) ∧ t.upcoming = s.upcoming ∧
      t.nextId = s.nextId := by
  rw [upcoming_of_ne hs]
  unfold peekNext at h
  cases hlook : s.lookahead with
  | some found =>
      simp only [hlook, EStateM.Result.ok.injEq] at h
      obtain ⟨rfl, rfl⟩ := h
      obtain ⟨more, hmore⟩ := exists_itemsFrom_eq found s.lexer.items
      have hbehind : s.behindCurrent = itemsFrom found s.lexer.items := by
        rw [behindCurrent, hlook]
      exact ⟨⟨more, by rw [hbehind, hmore]⟩, upcoming_of_ne hs, rfl⟩
  | none =>
      rw [hlook] at h
      cases hscan : scan s with
      | error e u =>
          rw [hscan] at h
          cases h
      | ok found u =>
          simp only [hscan, EStateM.Result.ok.injEq] at h
          obtain ⟨rfl, rfl⟩ := h
          obtain ⟨hitems, hcurrent, -, hid⟩ := scan_eq_ok hscan
          obtain ⟨more, hmore⟩ := exists_itemsFrom_eq found u.lexer.items
          have hbehind : s.behindCurrent = itemsFrom found u.lexer.items := by
            rw [behindCurrent, hlook, hitems]
          refine ⟨⟨more, by rw [hbehind, hmore]⟩, ?_, hid⟩
          rw [hbehind]
          unfold upcoming behindCurrent
          rw [hcurrent]
          exact itemsFrom_of_ne _ hs

/-- If looking ahead fails, a lexical error stands behind the current token. -/
theorem peekNext_eq_error {s t : TokenStream} {halt : Halt}
    (hs : s.current.value ≠ .endOfInput) (h : peekNext s = .error halt t) :
    ∃ e, halt = .failed (.lexical e) ∧ s.upcoming = [.ok s.current, .error e] := by
  unfold peekNext at h
  split at h
  · cases h
  next hlook =>
    split at h
    · cases h
    next halt' u hscan =>
      obtain ⟨rfl, -⟩ := EStateM.Result.error.inj h
      obtain ⟨e, rfl, hitems⟩ := scan_eq_error hscan
      refine ⟨e, rfl, ?_⟩
      rw [upcoming_of_ne hs, behindCurrent, hlook, hitems]

/-- If a token is to come, looking ahead succeeds. -/
theorem peekNext_of_upcoming {s : TokenStream} {token next : Located Token} {rest : List Item}
    (h : s.upcoming = .ok token :: .ok next :: rest) :
    ∃ t, peekNext s = .ok next t ∧ t.upcoming = s.upcoming ∧ t.nextId = s.nextId := by
  obtain ⟨hne, hbehind⟩ := behindCurrent_eq h
  have hpeek : ∃ x t, peekNext s = .ok x t := by
    unfold peekNext
    unfold behindCurrent at hbehind
    split
    next => exact ⟨_, _, rfl⟩
    next hlook =>
      rw [hlook] at hbehind
      obtain ⟨u, hscan⟩ := scan_of_items hbehind
      rw [hscan]
      exact ⟨_, _, rfl⟩
  obtain ⟨x, t, ht⟩ := hpeek
  obtain ⟨⟨more, hmore⟩, hsame, hid⟩ := peekNext_eq_ok hne ht
  rw [h] at hmore
  obtain rfl := Except.ok.inj (List.cons.inj (List.cons.inj hmore).2).1
  exact ⟨t, ht, hsame, hid⟩

/-- **At the start of a text** its items are to come, and no node has a number. -/
theorem upcoming_ofString {source : String} {s : TokenStream} (h : ofString source = .ok s) :
    s.upcoming = tokenize source ∧ s.nextId = 0 := by
  unfold ofString at h
  unfold tokenize
  split at h
  next token lexer hnext =>
    obtain rfl := Except.ok.inj h
    rw [Lexer.items_eq, hnext]
    exact ⟨rfl, rfl⟩
  next => cases h

/-- A text that no stream can be made of begins with a lexical error. -/
theorem tokenize_of_ofString_error {source : String} {e : LexicalError}
    (h : ofString source = .error e) : tokenize source = [.error e] := by
  unfold ofString at h
  unfold tokenize
  split at h
  next => cases h
  next e' lexer hnext =>
    obtain rfl := Except.error.inj h
    rw [Lexer.items_eq, hnext]

end TokenStream

end MiniPascal
