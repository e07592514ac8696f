/-
# Maximal munch

A source text is cut into pieces from its front on: each piece is the longest match of the
patterns, and is passed over or read as what its pattern denotes.  The first fault ends the
reading: a comment that is never closed, a literal that is too large, or a character that no
pattern begins with.

* `Munches.unique` : there is one such reading at most;
* `firstPiece_read` : the lexeme at the front of a text is its first piece;
* `munches_items` : the items of a lexer are those of the pieces of its text;
* `tokenize_maximalMunch` : the tokens of a source text are those of its reading.
-/
import MiniPascal.Proofs.Grammar.Upcoming
import MiniPascal.Proofs.Lexical.Places

set_option autoImplicit false

namespace MiniPascal

/-! ## Pieces -/

/-- A piece of a text, and what it is read as, unless it is passed over. -/
structure Piece where
  text : List Char
  reading : Option (Except LexicalFault Token)

/-- The first piece of a text, with the text behind it. -/
inductive FirstPiece : List Char → Piece → List Char → Prop
  | skip {pattern : Pattern} {text rest : List Char} (hpicks : Picks pattern text rest)
      (hskipped : pattern.isSkipped = true) : FirstPiece (text ++ rest) ⟨text, none⟩ rest
  | lexeme {pattern : Pattern} {text rest : List Char} {x : Except LexicalFault Token}
      (hpicks : Picks pattern text rest) (hdenotes : Denotes pattern text x) :
      FirstPiece (text ++ rest) ⟨text, some x⟩ rest
  | unterminated {behind : List Char} (hopen : '\x7d' ∉ behind) :
      FirstPiece ('\x7b' :: behind) ⟨'\x7b' :: behind, some (.error .unterminatedComment)⟩ []
  | unexpected {c : Char} {behind : List Char} (hbrace : c ≠ '\x7b')
      (hnone : ∀ (pattern : Pattern) (front : List Char), pattern.Matches front →
        ¬front <+: c :: behind) :
      FirstPiece (c :: behind) ⟨[c], some (.error (.unexpectedCharacter c))⟩ behind

/-- **The reading of a text**: its pieces in turn, up to the end or the first fault. -/
inductive Munches : List Char → List Piece → Prop
  | done : Munches [] []
  | fault {input rest : List Char} {piece : Piece} {fault : LexicalFault}
      (hfirst : FirstPiece input piece rest) (hfault : piece.reading = some (.error fault)) :
      Munches input [piece]
  | more {input rest : List Char} {piece : Piece} {pieces : List Piece}
      (hfirst : FirstPiece input piece rest) (hsound : ∀ fault, piece.reading ≠ some (.error fault))
      (hrest : Munches rest pieces) : Munches input (piece :: pieces)

/-- The items of pieces of which the first one stands at `p`. -/
def Piece.items (p : Position) : List Piece → List Item
  | [] => [.ok ⟨.endOfInput, p⟩]
  | ⟨text, none⟩ :: rest => items (p.past text) rest
  | ⟨text, some (.ok token)⟩ :: rest => .ok ⟨token, p⟩ :: items (p.past text) rest
  | ⟨_, some (.error fault)⟩ :: _ => [.error ⟨fault, p⟩]

/-! ## One reading -/

/-- Nothing is picked at a brace that is never closed. -/
theorem not_picks_of_open {pattern : Pattern} {text rest behind : List Char}
    (hopen : '\x7d' ∉ behind) (h : text ++ rest = '\x7b' :: behind) :
    ¬Picks pattern text rest := by
  intro hpicks
  have hclass := Pattern.first_of_front hpicks.matched ⟨rest, h⟩
  have hbrace : CharClass.of '\x7b' = .brace := by decide
  rw [hbrace] at hclass
  cases pattern with
  | comment =>
      obtain ⟨inside, rfl, -⟩ := hpicks.matched
      refine hopen ?_
      rw [← (List.cons.inj h).2]
      simp
  | _ => cases hclass

namespace FirstPiece

variable {input rest : List Char} {piece : Piece}

/-- **The first piece** and the text behind it make up the text. -/
theorem text_append (h : FirstPiece input piece rest) : piece.text ++ rest = input := by
  cases h with
  | skip _ _ => rfl
  | lexeme _ _ => rfl
  | unterminated _ => exact List.append_nil _
  | unexpected _ _ => rfl

theorem text_ne_nil (h : FirstPiece input piece rest) : piece.text ≠ [] := by
  cases h with
  | skip hpicks _ => exact hpicks.matched.ne_nil
  | lexeme hpicks _ => exact hpicks.matched.ne_nil
  | unterminated _ => exact List.cons_ne_nil _ _
  | unexpected _ _ => exact List.cons_ne_nil _ _

theorem length_lt (h : FirstPiece input piece rest) : rest.length < input.length := by
  have hlength := congrArg List.length h.text_append
  have hpos := List.length_pos_iff.2 h.text_ne_nil
  rw [List.length_append] at hlength
  omega

/-- A pattern that is picked is that of the first piece. -/
theorem eq_of_picks {pattern : Pattern} {text behind : List Char}
    (hpicks : Picks pattern text behind) (h : FirstPiece input piece rest)
    (hinput : text ++ behind = input) :
    piece.text = text ∧ rest = behind ∧ (piece.reading = none ∧ pattern.isSkipped = true ∨
      ∃ x, piece.reading = some x ∧ Denotes pattern text x) := by
  cases h with
  | skip hpicks' hskipped =>
      obtain ⟨rfl, rfl, rfl⟩ := hpicks.unique hpicks' hinput
      exact ⟨rfl, rfl, Or.inl ⟨rfl, hskipped⟩⟩
  | lexeme hpicks' hdenotes =>
      obtain ⟨rfl, rfl, rfl⟩ := hpicks.unique hpicks' hinput
      exact ⟨rfl, rfl, Or.inr ⟨_, rfl, hdenotes⟩⟩
  | unterminated hopen => exact absurd hpicks (not_picks_of_open hopen hinput)
  | unexpected _ hnone => exact absurd ⟨_, hinput⟩ (hnone _ _ hpicks.matched)

/-- **A text has one first piece** at most. -/
theorem unique {other : Piece} {rest' : List Char} (h : FirstPiece input piece rest)
    (h' : FirstPiece input other rest') : piece = other ∧ rest = rest' := by
  cases h with
  | skip hpicks hskipped =>
      obtain ⟨htext, hrest, ⟨hnone, -⟩ | ⟨x, -, hdenotes⟩⟩ := eq_of_picks hpicks h' rfl
      · cases other
        cases htext
        cases hnone
        exact ⟨rfl, hrest.symm⟩
      · rw [hdenotes.not_isSkipped] at hskipped
        cases hskipped
  | lexeme hpicks hdenotes =>
      obtain ⟨htext, hrest, ⟨-, hskipped⟩ | ⟨x, hx, hdenotes'⟩⟩ := eq_of_picks hpicks h' rfl
      · rw [hdenotes.not_isSkipped] at hskipped
        cases hskipped
      · cases other
        cases htext
        cases hx
        rw [hdenotes.unique hdenotes']
        exact ⟨rfl, hrest.symm⟩
  | @unterminated behind hopen =>
      generalize hinput : '\x7b' :: behind = input at h'
      cases h' with
      | skip hpicks _ => exact absurd hpicks (not_picks_of_open hopen hinput.symm)
      | lexeme hpicks _ => exact absurd hpicks (not_picks_of_open hopen hinput.symm)
      | unterminated _ =>
          cases hinput
          exact ⟨rfl, rfl⟩
      | unexpected hbrace _ => exact absurd (List.cons.inj hinput).1.symm hbrace
  | @unexpected c _ hbrace hnone =>
      generalize hinput : c :: rest = input at h'
      cases h' with
      | skip hpicks _ => exact absurd ⟨_, hinput.symm⟩ (hnone _ _ hpicks.matched)
      | lexeme hpicks _ => exact absurd ⟨_, hinput.symm⟩ (hnone _ _ hpicks.matched)
      | unterminated _ => exact absurd (List.cons.inj hinput).1 hbrace
      | unexpected _ _ =>
          cases hinput
          exact ⟨rfl, rfl⟩

end FirstPiece

namespace Munches

variable {input : List Char} {pieces : List Piece}

/-- **A text has one reading** at most. -/
theorem unique {others : List Piece} (h : Munches input pieces) (h' : Munches input others) :
    pieces = others := by
  induction h generalizing others with
  | done =>
      cases h' with
      | done => rfl
      | fault hfirst _ => exact absurd hfirst.length_lt (Nat.not_lt_zero _)
      | more hfirst _ _ => exact absurd hfirst.length_lt (Nat.not_lt_zero _)
  | fault hfirst hfault =>
      cases h' with
      | done => exact absurd hfirst.length_lt (Nat.not_lt_zero _)
      | fault hfirst' _ => rw [(hfirst.unique hfirst').1]
      | more hfirst' hsound' _ =>
          obtain ⟨rfl, -⟩ := hfirst.unique hfirst'
          exact absurd hfault (hsound' _)
  | more hfirst hsound _ ih =>
      cases h' with
      | done => exact absurd hfirst.length_lt (Nat.not_lt_zero _)
      | fault hfirst' hfault' =>
          obtain ⟨rfl, -⟩ := hfirst.unique hfirst'
          exact absurd hfault' (hsound _)
      | more hfirst' _ hrest' =>
          obtain ⟨rfl, rfl⟩ := hfirst.unique hfirst'
          rw [ih hrest']

/-- No piece of a reading is empty. -/
theorem text_ne_nil (h : Munches input pieces) : ∀ piece ∈ pieces, piece.text ≠ [] := by
  induction h with
  | done => exact nofun
  | fault hfirst _ =>
      intro piece hmem
      rw [List.mem_singleton.1 hmem]
      exact hfirst.text_ne_nil
  | more hfirst _ _ ih =>
      intro piece hmem
      rcases List.mem_cons.1 hmem with rfl | hmem
      · exact hfirst.text_ne_nil
      · exact ih piece hmem

/-- **No text is lost** in front of the end or the first fault. -/
theorem append_eq (h : Munches input pieces) : ∃ rest, input = pieces.flatMap Piece.text ++ rest ∧
    (rest = [] ∨ ∃ front piece fault, pieces = front ++ [piece] ∧
      piece.reading = some (.error fault)) := by
  induction h with
  | done => exact ⟨[], rfl, Or.inl rfl⟩
  | @fault input rest piece fault hfirst hfault =>
      refine ⟨rest, ?_, Or.inr ⟨[], piece, fault, rfl, hfault⟩⟩
      rw [← hfirst.text_append, List.flatMap_singleton]
  | @more input rest piece pieces hfirst _ _ ih =>
      obtain ⟨behind, hrest, hend⟩ := ih
      refine ⟨behind, ?_, hend.imp_right ?_⟩
      · rw [List.flatMap_cons, List.append_assoc, ← hrest, hfirst.text_append]
      · rintro ⟨front, last, fault, rfl, hfault⟩
        exact ⟨piece :: front, last, fault, rfl, hfault⟩

/-- **The items of a reading** end in the end of the input or in a fault, and nowhere before. -/
theorem items_cases (h : Munches input pieces) (p : Position) :
    ∃ (tokens : List (Located Token)) (last : Item),
      Piece.items p pieces = tokens.map Except.ok ++ [last] ∧
      (∀ token ∈ tokens, token.value ≠ .endOfInput) ∧
      ((∃ q, last = .ok ⟨.endOfInput, q⟩) ∨ ∃ e, last = .error e) := by
  induction h generalizing p with
  | done => exact ⟨[], _, rfl, nofun, Or.inl ⟨p, rfl⟩⟩
  | @fault _ _ piece fault _ hfault =>
      obtain ⟨text, reading⟩ := piece
      obtain rfl : reading = some (.error fault) := hfault
      exact ⟨[], _, rfl, nofun, Or.inr ⟨_, rfl⟩⟩
  | @more _ _ piece pieces hfirst hsound _ ih =>
      obtain ⟨text, reading⟩ := piece
      obtain ⟨tokens, last, hitems, htokens, hlast⟩ := ih (p.past text)
      cases reading with
      | none => exact ⟨tokens, last, hitems, htokens, hlast⟩
      | some x =>
          cases x with
          | error fault => exact absurd rfl (hsound fault)
          | ok token =>
              refine ⟨⟨token, p⟩ :: tokens, last, ?_, fun t ht => ?_, hlast⟩
              · rw [Piece.items, hitems]
                rfl
              · rcases List.mem_cons.1 ht with rfl | ht
                · cases hfirst with
                  | lexeme _ hdenotes => cases hdenotes <;> exact nofun
                · exact htokens t ht

end Munches

/-! ## Lexemes are pieces -/

theorem denotes_word (word : List Char) :
    Denotes (wordPattern word) word (.ok (wordToken word)) := by
  unfold wordPattern wordToken
  cases Keyword.ofWord? word with
  | none => exact .identifier
  | some k => exact .keyword

/-- A run of digits denotes an integer, if that is in range. -/
theorem denotes_integer (digits : List Char) : Denotes .integer digits (integerToken digits) := by
  unfold integerToken
  rw [digitsValue_eq_placeValue]
  split
  next n hn => exact .integer (toInt64?_eq_some_iff.1 hn)
  next hnone =>
    have hrange := toInt64?_eq_none_iff.1 hnone
    refine .tooLarge ?_
    unfold InRange at hrange
    omega

theorem denotes_real {whole fraction : List Char} (hwhole : IsDigits whole)
    (hfraction : IsDigits fraction) :
    Denotes .real (whole ++ '.' :: fraction) (.ok (realToken whole fraction)) := by
  rw [realToken, digitsValue_eq_placeValue]
  exact .real hwhole hfraction

theorem FirstPiece.of_picks {pattern : Pattern} {input text rest : List Char}
    {x : Except LexicalFault Token} (hpicks : Picks pattern text rest)
    (hdenotes : Denotes pattern text x) (hinput : text ++ rest = input) :
    FirstPiece input ⟨text, some x⟩ rest := by
  subst hinput
  exact .lexeme hpicks hdenotes

/-- A text that starts with a letter begins with a word. -/
theorem firstPiece_ofLetter {c : Char} {behind : List Char} (hc : c.isAlpha = true) :
    FirstPiece (c :: behind) ⟨(Lexeme.ofLetter (c :: behind)).text,
      some (Lexeme.ofLetter (c :: behind)).reading⟩ (Lexeme.ofLetter (c :: behind)).rest := by
  have halphanum : c.isAlphanum = true := by
    rw [Char.isAlphanum, hc]
    rfl
  refine .of_picks (picks_word ?_ (stops_dropWhile _)) (denotes_word _) (Lexeme.ofLetter_append _)
  refine ⟨c, behind.takeWhile Char.isAlphanum, ?_, hc, fun d hd => of_mem_takeWhile hd⟩
  exact List.takeWhile_cons_of_pos halphanum

theorem isDigits_takeWhile {c : Char} (hc : c.isDigit = true) (behind : List Char) :
    IsDigits ((c :: behind).takeWhile Char.isDigit) := by
  refine ⟨?_, fun d hd => of_mem_takeWhile hd⟩
  rw [List.takeWhile_cons_of_pos hc]
  exact List.cons_ne_nil _ _

/-- A text that starts with a digit begins with a literal. -/
theorem firstPiece_ofDigit {c : Char} {behind : List Char} (hc : c.isDigit = true) :
    FirstPiece (c :: behind) ⟨(Lexeme.ofDigit (c :: behind)).text,
      some (Lexeme.ofDigit (c :: behind)).reading⟩ (Lexeme.ofDigit (c :: behind)).rest := by
  have hinput := Lexeme.ofDigit_append (c :: behind)
  have hwhole := isDigits_takeWhile hc behind
  have hstops := stops_dropWhile (P := Char.isDigit) (c :: behind)
  unfold Lexeme.ofDigit at hinput ⊢
  simp only at hinput ⊢
  split at hinput
  next after hdrop =>
    rw [hdrop] at hstops
    split at hinput
    next hempty =>
      rw [if_pos hempty]
      refine .of_picks (picks_integer hwhole hstops fun more hmore => ?_) (denotes_integer _) hinput
      rw [← (List.cons.inj hmore).2]
      -- the run of digits behind the point is empty
      have hsame := List.takeWhile_append_dropWhile (p := Char.isDigit) (l := after)
      rw [List.isEmpty_iff.1 hempty, List.nil_append] at hsame
      exact hsame ▸ stops_dropWhile after
    next hne =>
      rw [if_neg hne]
      have hfraction : IsDigits (after.takeWhile Char.isDigit) :=
        ⟨fun hnil => hne (List.isEmpty_iff.2 hnil), fun d hd => of_mem_takeWhile hd⟩
      exact .of_picks (picks_real hwhole hfraction (stops_dropWhile _))
        (denotes_real hwhole hfraction) hinput
  next after hpoint =>
    exact .of_picks (picks_integer hwhole hstops fun more hmore => absurd hmore (hpoint more))
      (denotes_integer _) hinput

theorem Punctuation.text_of_ofChar? {c : Char} {s : Punctuation} (h : ofChar? c = some s) :
    s.text.toList = [c] := by
  unfold ofChar? at h
  split at h
  all_goals cases h
  all_goals rfl

theorem Punctuation.ofChar?_ne_none {s : Punctuation} {c : Char} {behind : List Char}
    (h : s.text.toList = c :: behind) : ofChar? c ≠ none := by
  cases s <;> cases h <;> decide

/-- A character outside of all classes begins with a symbol, or with nothing. -/
theorem CharClass.of_eq_other {c : Char} (halpha : c.isAlpha = false) (hdigit : c.isDigit = false)
    (hblank : isBlank c = false) (hbrace : c ≠ '\x7b') : of c = .other := by
  rw [isBlank_eq, Bool.or_eq_false_iff] at hblank
  have hfeed : c ≠ '\n' := of_decide_eq_false hblank.2
  rw [of, halpha, hdigit, hblank.1, if_neg hfeed, if_neg hbrace]
  rfl

/-- A text that starts with any other character begins with a symbol or a fault. -/
theorem firstPiece_ofOther {c : Char} {behind : List Char} (halpha : c.isAlpha = false)
    (hdigit : c.isDigit = false) (hblank : isBlank c = false)
    (hclosed : ¬(c = '\x7b' ∧ '\x7d' ∈ behind)) :
    FirstPiece (c :: behind) ⟨(Lexeme.ofOther c behind).text,
      some (Lexeme.ofOther c behind).reading⟩ (Lexeme.ofOther c behind).rest := by
  unfold Lexeme.ofOther
  split
  next rest => exact .of_picks (picks_symbol (s := .assign) (fun h => nomatch h)) .symbol rfl
  next => exact .unterminated fun hmem => hclosed ⟨rfl, hmem⟩
  next hbrace hassign =>
    split
    next s hs =>
      have htext := Punctuation.text_of_ofChar? hs
      rw [← htext]
      refine .of_picks (picks_symbol ?_) .symbol (by rw [htext]; rfl)
      rintro rfl rest rfl
      exact hassign rest (List.cons.inj htext).1.symm rfl
    next hnone =>
      refine .unexpected hbrace fun pattern front hfront hstarts => ?_
      have hclass := Pattern.first_of_front hfront hstarts
      rw [CharClass.of_eq_other halpha hdigit hblank hbrace] at hclass
      cases pattern with
      | symbol s =>
          obtain ⟨d, more, htext, -⟩ := hfront.head
          obtain ⟨rest, hrest⟩ := hstarts
          rw [htext] at hrest
          obtain rfl : d = c := (List.cons.inj hrest).1
          exact Punctuation.ofChar?_ne_none (hfront.symm.trans htext) hnone
      | _ => cases hclass

/-- **The lexeme at the front of a text** is its first piece, if no separator stands there. -/
theorem firstPiece_read {c : Char} {behind : List Char}
    (h : Separator.read? (c :: behind) = none) :
    FirstPiece (c :: behind) ⟨(Lexeme.read c behind).text, some (Lexeme.read c behind).reading⟩
      (Lexeme.read c behind).rest := by
  obtain ⟨hblank, hclosed⟩ := Separator.read?_eq_none_iff.1 h
  unfold Lexeme.read
  split
  next halpha => exact firstPiece_ofLetter halpha
  next halpha =>
    split
    next hdigit => exact firstPiece_ofDigit hdigit
    next hdigit =>
      exact firstPiece_ofOther (Bool.eq_false_iff.2 halpha) (Bool.eq_false_iff.2 hdigit) hblank
        hclosed

/-! ## Items at a place -/

theorem Lexer.items_congr {lx ly : Lexer} (h : lx.skip = ly.skip) : lx.items = ly.items := by
  rw [Lexer.items_eq, Lexer.items_eq, Lexer.next_congr h]

/-- A piece that is read as anything stays on a line, but for a comment that is never closed. -/
theorem FirstPiece.lineFeed_not_mem {input text rest : List Char} {x : Except LexicalFault Token}
    (h : FirstPiece input ⟨text, some x⟩ rest) (hx : x ≠ .error .unterminatedComment) :
    '\n' ∉ text := by
  intro hmem
  cases h with
  | lexeme hpicks hdenotes =>
      have hblank := Pattern.isBlank_of_mem hpicks.matched hdenotes.not_isSkipped _ hmem
      exact absurd hblank (by decide)
  | unterminated _ => exact hx rfl
  | unexpected _ hnone =>
      rw [← List.mem_singleton.1 hmem] at hnone
      exact hnone .lineFeed ['\n'] rfl ⟨rest, rfl⟩

theorem Lexer.items_of_fault (before : List Char) {c : Char} {behind : List Char}
    {fault : LexicalFault} (h : Separator.read? (c :: behind) = none)
    (hfault : (Lexeme.read c behind).reading = .error fault) :
    (Lexer.between before (c :: behind)).items = [.error ⟨fault, .behind before⟩] := by
  rw [Lexer.items_eq, Lexer.next_between_cons before h, Lexeme.itemAt, hfault]

/-- A token at the front of a text is its first item. -/
theorem Lexer.items_of_token (before : List Char) {c : Char} {behind : List Char} {token : Token}
    (h : Separator.read? (c :: behind) = none)
    (htoken : (Lexeme.read c behind).reading = .ok token) :
    (Lexer.between before (c :: behind)).items
      = .ok ⟨token, .behind before⟩ :: (Lexer.between (before ++ (Lexeme.read c behind).text)
          (Lexeme.read c behind).rest).items := by
  have hfirst := firstPiece_read h
  rw [htoken] at hfirst
  have hfeed := hfirst.lineFeed_not_mem nofun
  have hend : token ≠ .endOfInput := by
    rintro rfl
    exact Lexeme.reading_ne_endOfInput c behind htoken
  rw [Lexer.items_eq, Lexer.next_between_cons before h, Lexeme.itemAt, htoken,
    ← Lexer.advance_between before hfeed, hfirst.text_append]
  exact itemsFrom_of_ne _ hend

/-- A picked lexeme is the first item of its text. -/
theorem Lexer.items_of_word {pattern : Pattern} {word rest : List Char} {token : Token}
    (hpicks : Picks pattern word rest) (hdenotes : Denotes pattern word (.ok token))
    (before : List Char) : (Lexer.between before (word ++ rest)).items
      = .ok ⟨token, .behind before⟩ :: (Lexer.between (before ++ word) rest).items := by
  obtain ⟨c, behind, hword, hblank, hbrace⟩ :=
    Pattern.head_of_not_skipped hpicks.matched hdenotes.not_isSkipped
  have htext : word ++ rest = c :: (behind ++ rest) := by rw [hword, List.cons_append]
  have hnone : Separator.read? (c :: (behind ++ rest)) = none :=
    Separator.read?_eq_none_iff.2 ⟨hblank, fun h => hbrace h.1⟩
  obtain ⟨hread, hrest, ⟨hskipped, -⟩ | ⟨x, hx, hdenotes'⟩⟩ :=
    (firstPiece_read hnone).eq_of_picks hpicks htext
  · cases hskipped
  · obtain rfl := hdenotes.unique hdenotes'
    have hitems := Lexer.items_of_token before hnone (Option.some.inj hx)
    simp only at hread hrest
    rwa [hread, hrest, ← htext] at hitems

/-! ## The reading of a text -/

/-- **The items of a lexer** are those of the reading of its text. -/
theorem munches_items (before text : List Char) : ∃ pieces, Munches text pieces ∧
    (Lexer.between before text).items = Piece.items (.behind before) pieces := by
  -- every piece shortens the text
  induction hlength : text.length using Nat.strongRecOn generalizing before text with
  | ind n ih =>
  subst hlength
  cases hread : Separator.read? text with
  | some separator =>
      obtain ⟨pieces, hpieces, hitems⟩ := ih _ (Separator.length_rest_lt hread)
        (before ++ separator.text) separator.rest rfl
      have hpicks := Separator.picks hread
      have hfirst := FirstPiece.skip hpicks separator.kind.isSkipped_pattern
      have hskip := Lexer.skip_between_of_picks _ hpicks before
      rw [(Separator.text_append_rest hread).1] at hfirst hskip
      refine ⟨⟨separator.text, none⟩ :: pieces, .more hfirst nofun hpieces, ?_⟩
      rw [Lexer.items_congr hskip, hitems, Piece.items, Position.past_behind]
  | none =>
      cases text with
      | nil => exact ⟨[], .done, by rw [Lexer.items_eq, Lexer.next_between_nil]; rfl⟩
      | cons c behind =>
          have hfirst := firstPiece_read hread
          cases hreading : (Lexeme.read c behind).reading with
          | error fault =>
              rw [hreading] at hfirst
              exact ⟨_, .fault hfirst rfl, Lexer.items_of_fault before hread hreading⟩
          | ok token =>
              rw [hreading] at hfirst
              obtain ⟨pieces, hpieces, hmore⟩ := ih _ hfirst.length_lt
                (before ++ (Lexeme.read c behind).text) _ rfl
              refine ⟨_, .more hfirst nofun hpieces, ?_⟩
              rw [Lexer.items_of_token before hread hreading, Piece.items, Position.past_behind,
                hmore]

/-- The items of a text are those of any reading of it, wherever it starts. -/
theorem Munches.items_eq {text : List Char} {pieces : List Piece} (h : Munches text pieces)
    (before : List Char) :
    (Lexer.between before text).items = Piece.items (.behind before) pieces := by
  obtain ⟨others, hothers, hitems⟩ := munches_items before text
  rw [h.unique hothers]
  exact hitems

/-- The tokens of a source text are those of any reading of it. -/
theorem tokenize_eq_of_munches {source : String} {pieces : List Piece}
    (h : Munches source.toList pieces) : tokenize source = Piece.items .origin pieces :=
  h.items_eq []

/-- **Maximal munch**: every source text has exactly one reading by longest matches, and its
tokens are those of the reading, each at the place where its text starts.  The pieces of the
reading are not empty, and make up the source text in front of the end or the first fault.
The last item, and no other one, is the end of the input or a fault. -/
theorem tokenize_maximalMunch (source : String) : ∃ pieces,
    Munches source.toList pieces ∧ (∀ others, Munches source.toList others → others = pieces) ∧
    tokenize source = Piece.items .origin pieces ∧
    (∀ piece ∈ pieces, piece.text ≠ []) ∧
    (∃ rest, source.toList = pieces.flatMap Piece.text ++ rest ∧
      (rest = [] ∨ ∃ front piece fault, pieces = front ++ [piece] ∧
        piece.reading = some (.error fault))) ∧
    ∃ (tokens : List (Located Token)) (last : Item),
      tokenize source = tokens.map Except.ok ++ [last] ∧
      (∀ token ∈ tokens, token.value ≠ .endOfInput) ∧
      ((∃ q, last = .ok ⟨.endOfInput, q⟩) ∨ ∃ e, last = .error e) := by
  obtain ⟨pieces, hpieces, -⟩ := munches_items [] source.toList
  have htokens := tokenize_eq_of_munches hpieces
  refine ⟨pieces, hpieces, fun others hothers => hothers.unique hpieces, htokens,
    hpieces.text_ne_nil, hpieces.append_eq, ?_⟩
  rw [htokens]
  exact hpieces.items_cases .origin

end MiniPascal
