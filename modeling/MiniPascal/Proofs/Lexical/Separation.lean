/-
# Texts in turn

Between two texts that are kept apart by a separator, blanks or closed comments, no lexeme goes
on from one to the other.  So what the first text reads as does not depend on what follows, and
the second one reads as it does by itself, in another place.

* `IsSeparator.passed` : a separator is passed over as a whole;
* `Munches.items_append` : the items of a text, a separator and any other text;
* `Piece.items_moved` : a reading that starts at another place has the same items, moved;
* `tokenize_append` : the tokens of two texts with a separator between them.
-/
import MiniPascal.Proofs.Lexical.Coordinates

set_option autoImplicit false

namespace MiniPascal

/-! ## Separators -/

/-- Blanks and closed comments in turn. -/
inductive IsSeparator : List Char → Prop
  | nothing : IsSeparator []
  | blank {c : Char} {rest : List Char} (hc : isBlank c = true) (hrest : IsSeparator rest) :
      IsSeparator (c :: rest)
  | comment {inside rest : List Char} (hinside : '\x7d' ∉ inside) (hrest : IsSeparator rest) :
      IsSeparator ('\x7b' :: (inside ++ '\x7d' :: rest))

/-- The first one of some spaces is passed over, and so are the others behind it. -/
theorem Lexer.skip_between_space (before : List Char) {c : Char} (hc : isSpace c = true)
    (rest : List Char) :
    (between before (c :: rest)).skip = (between (before ++ [c]) rest).skip := by
  have hrest := List.takeWhile_append_dropWhile (p := isSpace) (l := rest)
  have hstops := stops_dropWhile (P := isSpace) rest
  have hrun : ∀ d ∈ rest.takeWhile isSpace, isSpace d = true := fun d hd => of_mem_takeWhile hd
  generalize rest.takeWhile isSpace = run at hrest hrun
  generalize rest.dropWhile isSpace = more at hrest hstops
  subst hrest
  have hall := skip_between_of_picks .ignored
    (picks_spaces ⟨List.cons_ne_nil c run, List.forall_mem_cons.2 ⟨hc, hrun⟩⟩ hstops) before
  rw [← List.cons_append, hall]
  by_cases hne : run = []
  · rw [hne, List.nil_append]
  · have hothers := skip_between_of_picks .ignored (picks_spaces ⟨hne, hrun⟩ hstops)
      (before ++ [c])
    rw [hothers, List.append_assoc, List.singleton_append]

/-- A blank is passed over, whatever follows. -/
theorem Lexer.skip_between_blank (before : List Char) {c : Char} (hc : isBlank c = true)
    (rest : List Char) :
    (between before (c :: rest)).skip = (between (before ++ [c]) rest).skip := by
  rw [isBlank_eq, Bool.or_eq_true, decide_eq_true_eq] at hc
  rcases hc with hspace | rfl
  · exact skip_between_space before hspace rest
  · exact skip_between_of_picks .newLine (picks_lineFeed rest) before

namespace IsSeparator

variable {gap : List Char}

/-- **A separator is passed over** as a whole, whatever follows. -/
theorem passed (h : IsSeparator gap) (before rest : List Char) :
    (Lexer.between before (gap ++ rest)).skip = (Lexer.between (before ++ gap) rest).skip := by
  induction h generalizing before with
  | nothing => rw [List.append_nil, List.nil_append]
  | @blank c more hc _ ih =>
      have hfirst := Lexer.skip_between_blank before hc (more ++ rest)
      rw [List.cons_append, hfirst, ih, List.append_assoc, List.singleton_append]
  | @comment inside more hinside _ ih =>
      have hsplit : '\x7b' :: (inside ++ '\x7d' :: more)
          = '\x7b' :: (inside ++ ['\x7d']) ++ more := by simp
      have hfirst := Lexer.skip_between_of_picks .comment
        (picks_comment hinside (more ++ rest)) before
      rw [hsplit, List.append_assoc, hfirst, ih, List.append_assoc]

theorem of_blanks (h : ∀ c ∈ gap, isBlank c = true) : IsSeparator gap := by
  induction gap with
  | nil => exact .nothing
  | cons c rest ih =>
      obtain ⟨hc, hrest⟩ := List.forall_mem_cons.1 h
      exact .blank hc (ih hrest)

/-- What a pattern passes over is a separator. -/
theorem of_matches {pattern : Pattern} (h : pattern.Matches gap)
    (hskipped : pattern.isSkipped = true) : IsSeparator gap := by
  cases pattern with
  | spaces =>
      refine of_blanks fun c hc => ?_
      rw [isBlank_eq, h.2 c hc]
      rfl
  | lineFeed =>
      obtain rfl : gap = ['\n'] := h
      exact .blank (by decide) .nothing
  | comment =>
      obtain ⟨inside, rfl, hinside⟩ := h
      exact .comment hinside .nothing
  | keyword k => cases hskipped
  | identifier => cases hskipped
  | integer => cases hskipped
  | real => cases hskipped
  | symbol s => cases hskipped

/-- No lexeme goes on into a separator. -/
theorem stops (h : IsSeparator gap) (hne : gap ≠ []) (rest : List Char) :
    Stops (fun c => !beginsSeparator c) (gap ++ rest) := by
  cases h with
  | nothing => exact absurd rfl hne
  | blank hc _ => exact stops_cons (by simp [beginsSeparator, hc]) _
  | comment _ _ => exact stops_cons (by decide) _

end IsSeparator

theorem Lexer.items_of_separator {gap : List Char} (h : IsSeparator gap) (before rest : List Char) :
    (between before (gap ++ rest)).items = (between (before ++ gap) rest).items :=
  Lexer.items_congr (h.passed before rest)

/-! ## What stands behind a separator -/

/-- A reading has an item. -/
theorem Piece.items_ne_nil (p : Position) (pieces : List Piece) : Piece.items p pieces ≠ [] := by
  induction pieces generalizing p with
  | nil => exact List.cons_ne_nil _ _
  | cons piece rest ih =>
      obtain ⟨text, reading⟩ := piece
      cases reading with
      | none => exact ih (p.past text)
      | some x => cases x <;> exact List.cons_ne_nil _ _

/-- **The items of a text without a fault**, of a separator and of any other text: those of the
first text up to its end, and behind them those of the last one from its place on. -/
theorem Munches.items_append {input gap : List Char} {pieces : List Piece}
    (h : Munches input pieces) {before : List Char}
    (hsound : ∀ e, .error e ∉ Piece.items (.behind before) pieces)
    (hgap : IsSeparator gap) (hne : gap ≠ []) (other : List Char) :
    (Lexer.between before (input ++ (gap ++ other))).items
      = (Piece.items (.behind before) pieces).dropLast
        ++ (Lexer.between (before ++ (input ++ gap)) other).items := by
  induction h generalizing before with
  | done => exact Lexer.items_of_separator hgap before other
  | @fault input rest piece fault hfirst hfault =>
      obtain ⟨text, reading⟩ := piece
      cases hfault
      exact absurd List.mem_cons_self (hsound ⟨fault, .behind before⟩)
  | @more input rest piece pieces hfirst hnofault _ ih =>
      obtain ⟨text, reading⟩ := piece
      have hbehind := Position.past_behind before text
      cases hfirst with
      | @skip pattern _ _ hpicks hskipped =>
          have hseparator := IsSeparator.of_matches hpicks.matched hskipped
          rw [Piece.items, hbehind] at hsound ⊢
          rw [List.append_assoc, Lexer.items_of_separator hseparator, ih hsound,
            List.append_assoc, List.append_assoc]
      | @lexeme pattern _ _ x hpicks hdenotes =>
          cases x with
          | error fault => exact absurd rfl (hnofault fault)
          | ok token =>
              -- the lexeme is picked in view of what follows as well
              have hread := hpicks.append hdenotes.not_isSkipped (hgap.stops hne other)
              rw [Piece.items, hbehind] at hsound ⊢
              have hmore := ih fun e he => hsound e (List.mem_cons_of_mem _ he)
              rw [List.append_assoc, Lexer.items_of_word hread hdenotes, hmore,
                List.dropLast_cons_of_ne_nil (Piece.items_ne_nil _ _), List.append_assoc,
                List.append_assoc]
              rfl
      | unterminated _ => exact absurd rfl (hnofault _)
      | unexpected _ _ => exact absurd rfl (hnofault _)

/-! ## The same text in another place -/

/-- The place of what stands at `p`, when a text is put in front that has `lines` line feeds and
`bytes` bytes behind the last of them: further down, and on the first line further to the
right. -/
def Position.moved (lines bytes : Nat) (p : Position) : Position :=
  ⟨p.line + lines, if p.line = 1 then p.column + bytes else p.column⟩

/-- An item in the place that it is moved to. -/
def Item.moved (lines bytes : Nat) : Item → Item
  | .ok token => .ok ⟨token.value, token.position.moved lines bytes⟩
  | .error e => .error ⟨e.value, e.position.moved lines bytes⟩

section Moved

variable (lines bytes : Nat)

/-- Behind a character that is moved. -/
theorem Position.moved_after {p : Position} (hline : 0 < p.line) (c : Char) :
    (p.moved lines bytes).after c = (p.after c).moved lines bytes := by
  by_cases hc : c = '\n'
  · have hlater : p.line ≠ 0 := Nat.ne_of_gt hline
    simp [after, moved, hc, hlater, Nat.add_right_comm]
  · by_cases hfirst : p.line = 1
    · simp [after, moved, hc, hfirst, Nat.add_right_comm]
    · simp [after, moved, hc, hfirst]

theorem Position.line_after_pos {p : Position} (hline : 0 < p.line) (c : Char) :
    0 < (p.after c).line := by
  unfold after
  split
  · exact Nat.succ_pos _
  · exact hline

/-- Behind a text that is moved. -/
theorem Position.moved_past {p : Position} (hline : 0 < p.line) (text : List Char) :
    (p.moved lines bytes).past text = (p.past text).moved lines bytes ∧
      0 < (p.past text).line := by
  induction text generalizing p with
  | nil => exact ⟨rfl, hline⟩
  | cons c rest ih =>
      rw [past_cons, past_cons, moved_after lines bytes hline]
      exact ih (line_after_pos hline c)

/-- **A reading that starts at another place** has the same items, moved. -/
theorem Piece.items_moved {p : Position} (hline : 0 < p.line) (pieces : List Piece) :
    Piece.items (p.moved lines bytes) pieces
      = (Piece.items p pieces).map (Item.moved lines bytes) := by
  induction pieces generalizing p with
  | nil => rfl
  | cons piece rest ih =>
      obtain ⟨text, reading⟩ := piece
      obtain ⟨hpast, hbehind⟩ := Position.moved_past lines bytes hline text
      cases reading with
      | none =>
          rw [Piece.items, hpast, ih hbehind]
          rfl
      | some x =>
          cases x with
          | error fault => rfl
          | ok token =>
              rw [Piece.items, hpast, ih hbehind]
              rfl

/-- The place behind a text is that of the origin, moved. -/
theorem Position.behind_eq_moved (before : List Char) : behind before
    = origin.moved (before.count '\n') (byteLength (lastLine before)) := by
  show behind before = ⟨1 + before.count '\n', 1 + byteLength (lastLine before)⟩
  rw [Nat.add_comm, Nat.add_comm 1]
  rfl

end Moved

/-! ## Source texts in turn -/

/-- **Texts with a separator between them.**  The tokens of a text that has no fault, up to its
end, are those of the text with a separator and any other text behind it; and the items of that
other text follow, moved down by the line feeds in front of it, and on its first line to the right
by the bytes behind the last of them. -/
theorem tokenize_append {a s : String} (ha : ∀ e, .error e ∉ tokenize a)
    (hs : IsSeparator s.toList) (hne : s ≠ "") (b : String) :
    ∃ (tokens : List (Located Token)) (last : Position),
      tokenize a = tokens.map Except.ok ++ [.ok ⟨.endOfInput, last⟩] ∧
      (∀ token ∈ tokens, token.value ≠ .endOfInput) ∧
      tokenize (a ++ s ++ b) = tokens.map Except.ok ++ (tokenize b).map
        (Item.moved ((a ++ s).toList.count '\n') (byteLength (lastLine (a ++ s).toList))) := by
  obtain ⟨pieces, hpieces, -⟩ := munches_items [] a.toList
  obtain ⟨others, hothers, -⟩ := munches_items [] b.toList
  obtain ⟨tokens, last, hsplit, htokens, hlast⟩ := hpieces.items_cases .origin
  have hfront : tokenize a = tokens.map Except.ok ++ [last] :=
    (tokenize_eq_of_munches hpieces).trans hsplit
  rcases hlast with ⟨q, rfl⟩ | ⟨e, rfl⟩
  · refine ⟨tokens, q, hfront, htokens, ?_⟩
    have hgap : s.toList ≠ [] := fun hnil => hne (String.toList_inj.1 hnil)
    have hjoined : a.toList ++ s.toList = (a ++ s).toList := String.toList_append.symm
    have hsound : ∀ e, .error e ∉ Piece.items (.behind []) pieces :=
      tokenize_eq_of_munches hpieces ▸ ha
    have hturn : (Lexer.between [] (a.toList ++ (s.toList ++ b.toList))).items
        = (Piece.items .origin pieces).dropLast
          ++ (Lexer.between (a.toList ++ s.toList) b.toList).items :=
      hpieces.items_append hsound hs hgap b.toList
    have hmoved := Piece.items_moved ((a ++ s).toList.count '\n')
      (byteLength (lastLine (a ++ s).toList)) (p := .origin) Nat.one_pos others
    rw [hsplit, List.dropLast_concat, hothers.items_eq, hjoined,
      Position.behind_eq_moved, hmoved, ← tokenize_eq_of_munches hothers] at hturn
    rw [← hturn, tokenize, Lexer.ofString_eq_between, String.toList_append, String.toList_append,
      List.append_assoc]
  · exact absurd (hfront ▸ List.mem_append_right _ List.mem_cons_self) (ha e)

/-- A text that ends in a colon, with a comment over two lines in it. -/
def colonSource : String := "x \x7b1\n2\x7d:"

/-- A line feed, and a comment with a letter of two bytes. -/
def commentGap : String := "\n\x7bé\x7d"

/-- A colon and an equals sign with a separator between them: the equals sign is as unexpected as
it is by itself, on the third line behind the comment. -/
theorem colonSource_append : (∀ e, .error e ∉ tokenize colonSource) ∧
    IsSeparator commentGap.toList ∧ commentGap ≠ "" ∧
    ∃ (tokens : List (Located Token)) (last : Position),
      tokenize colonSource = tokens.map Except.ok ++ [.ok ⟨.endOfInput, last⟩] ∧
      (∀ token ∈ tokens, token.value ≠ .endOfInput) ∧
      tokenize (colonSource ++ commentGap ++ "= y") = tokens.map Except.ok ++
        (tokenize "= y").map (Item.moved ((colonSource ++ commentGap).toList.count '\n')
          (byteLength (lastLine (colonSource ++ commentGap).toList))) := by
  have hchecked : (tokenize colonSource).all Except.isOk = true := by decide +kernel
  have hsound : ∀ e, .error e ∉ tokenize colonSource := by
    intro e he
    cases List.all_eq_true.1 hchecked _ he
  have hinside : '\x7d' ∉ ['é'] := by decide
  have hgap : IsSeparator commentGap.toList := .blank (by decide) (.comment hinside .nothing)
  have hne : commentGap ≠ "" := by decide
  exact ⟨hsound, hgap, hne, tokenize_append hsound hgap hne "= y"⟩

end MiniPascal
