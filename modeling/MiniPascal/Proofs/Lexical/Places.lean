/-
# Places in a text

The place between two parts of a text: its line counts the line feeds in front of it, and its column
the bytes behind the last one.  A lexer that has come to such a place is there with its offset, its
line and the offset at which that line starts.  It stays so when it passes over a separator, of
whatever kind, and when it reads a lexeme, which breaks no line.

* `Position.past_origin` : the place behind a text, counted in lines and bytes;
* `firstLines_append` : only line feeds begin new lines;
* `LexerExtras.newLine_behind`, `LexerExtras.comment_behind` : the extras behind a separator;
* `Lexer.pass_between`, `Lexer.advance_between` : a lexer moves from place to place;
* `Lexer.skip_between` : so it does over all separators in front of a lexeme.
-/
import Mathlib.Data.List.Induction
import MiniPascal.Proofs.Lexical.Patterns

set_option autoImplicit false

namespace MiniPascal

/-! ## Passing over text -/

namespace Position

/-- The place just behind the character `c` that stands at `p`. -/
def after (p : Position) (c : Char) : Position :=
  if c = '\n' then ⟨p.line + 1, 1⟩ else ⟨p.line, p.column + c.utf8Size⟩

/-- The place just behind `text`, whose first character stands at `p`. -/
def past (p : Position) (text : List Char) : Position :=
  text.foldl after p

@[simp] theorem past_nil (p : Position) : p.past [] = p := rfl

@[simp] theorem past_cons (p : Position) (c : Char) (text : List Char) :
    p.past (c :: text) = (p.after c).past text := rfl

theorem past_append (p : Position) (s t : List Char) :
    p.past (s ++ t) = (p.past s).past t := by
  simp [past, List.foldl_append]

end Position

/-! ## Lines and columns -/

theorem byteLength_append (s t : List Char) :
    byteLength (s ++ t) = byteLength s + byteLength t := by
  induction s with
  | nil => exact (Nat.zero_add _).symm
  | cons c rest ih =>
      show c.utf8Size + byteLength (rest ++ t) = c.utf8Size + byteLength rest + byteLength t
      rw [ih, Nat.add_assoc]

/-- What stands behind the last line feed of a text. -/
def lastLine (text : List Char) : List Char := (text.reverse.takeWhile (· != '\n')).reverse

namespace Position

/-- The place behind a text that starts at the origin: one line more than there are line
feeds in it, one column more than there are bytes behind the last of them. -/
def behind (before : List Char) : Position :=
  ⟨before.count '\n' + 1, byteLength (before.reverse.takeWhile (· != '\n')).reverse + 1⟩

/-- One character further. -/
theorem behind_append_singleton (before : List Char) (c : Char) :
    behind (before ++ [c]) = (behind before).after c := by
  have hreverse : (before ++ [c]).reverse = c :: before.reverse := by simp
  unfold behind after
  rw [List.count_append, hreverse]
  by_cases hc : c = '\n'
  · subst hc
    rw [if_pos rfl, List.takeWhile_cons_of_neg (by decide)]
    rfl
  · have hbyte : byteLength [c] = c.utf8Size := rfl
    have hother : (c != '\n') = true := bne_iff_ne.2 hc
    have hcount : [c].count '\n' = 0 := List.count_eq_zero.2 (by simpa using Ne.symm hc)
    rw [if_neg hc, List.takeWhile_cons, if_pos hother, List.reverse_cons, byteLength_append, hbyte,
      hcount, Nat.add_zero, Nat.add_right_comm]

/-- **Passing over a text** from the origin on counts its line feeds, and the bytes behind
the last one. -/
theorem past_origin (before : List Char) : origin.past before = behind before := by
  have hreverse : ∀ text : List Char, origin.past text.reverse = behind text.reverse := by
    intro text
    induction text with
    | nil => rfl
    | cons c rest ih =>
        rw [List.reverse_cons, past_append, ih, behind_append_singleton]
        rfl
  have hbefore := hreverse before.reverse
  rwa [List.reverse_reverse] at hbefore

theorem past_behind (before text : List Char) :
    (behind before).past text = behind (before ++ text) := by
  rw [← past_origin, ← past_append, past_origin]

end Position

/-! ## The lines before the last one -/

/-- Where a search from the end passes over the last part. -/
theorem dropWhile_reverse_append {α : Type} [BEq α] [LawfulBEq α] {x : α} {last : List α}
    (hlast : x ∉ last) (front : List α) :
    (front ++ last).reverse.dropWhile (· != x) = front.reverse.dropWhile (· != x) := by
  rw [List.reverse_append]
  refine List.dropWhile_append_of_pos fun y hy => bne_iff_ne.2 ?_
  rintro rfl
  exact hlast (List.mem_reverse.1 hy)

/-- A text up to its last line feed. -/
def firstLines (text : List Char) : List Char := (text.reverse.dropWhile (· != '\n')).reverse

theorem firstLines_append_lastLine (text : List Char) :
    firstLines text ++ lastLine text = text := by
  rw [firstLines, lastLine, ← List.reverse_append, List.takeWhile_append_dropWhile,
    List.reverse_reverse]

theorem byteLength_lines (text : List Char) :
    byteLength (firstLines text) + byteLength (lastLine text) = byteLength text := by
  rw [← byteLength_append, firstLines_append_lastLine]

theorem firstLines_concat_lineFeed (text : List Char) :
    firstLines (text ++ ['\n']) = text ++ ['\n'] := by
  rw [firstLines, List.reverse_append, List.reverse_singleton, List.singleton_append,
    List.dropWhile_cons_of_neg (by decide), List.reverse_cons, List.reverse_reverse]

theorem firstLines_append_of_not_mem {last : List Char} (hlast : '\n' ∉ last) (text : List Char) :
    firstLines (text ++ last) = firstLines text := by
  rw [firstLines, dropWhile_reverse_append hlast, firstLines]

/-- **Only line feeds begin new lines.** -/
theorem firstLines_append (s t : List Char) :
    firstLines (s ++ t) = if '\n' ∈ t then s ++ firstLines t else firstLines s := by
  induction t using List.reverseRecOn with
  | nil => simp
  | append_singleton u c ih =>
      rw [← List.append_assoc]
      by_cases hc : c = '\n'
      · subst hc
        rw [if_pos (by simp), firstLines_concat_lineFeed, firstLines_concat_lineFeed,
          List.append_assoc]
      · have hlast : '\n' ∉ [c] := by simpa using Ne.symm hc
        rw [firstLines_append_of_not_mem hlast, firstLines_append_of_not_mem hlast, ih]
        simp [Ne.symm hc]

/-- **The last line feed of a text** ends the lines before the last one. -/
theorem rfind?_lineFeed (text : List Char) : ('\n' ∉ text ∧ rfind? '\n' text = none) ∨
    ∃ offset, '\n' ∈ text ∧ rfind? '\n' text = some offset ∧
      offset + 1 = byteLength (firstLines text) := by
  induction text with
  | nil => exact Or.inl ⟨List.not_mem_nil, rfl⟩
  | cons c rest ih =>
      have hlines : firstLines (c :: rest)
          = if '\n' ∈ rest then c :: firstLines rest else firstLines [c] :=
        firstLines_append [c] rest
      rcases ih with ⟨hfeed, hnone⟩ | ⟨offset, hfeed, hsome, hoffset⟩
      · rw [if_neg hfeed] at hlines
        by_cases hc : c = '\n'
        · subst hc
          refine Or.inr ⟨0, List.mem_cons_self, ?_, by rw [hlines]; rfl⟩
          rw [rfind?, hnone]
          exact if_pos rfl
        · refine Or.inl ⟨by simp [Ne.symm hc, hfeed], ?_⟩
          rw [rfind?, hnone]
          exact if_neg hc
      · rw [if_pos hfeed] at hlines
        refine Or.inr ⟨c.utf8Size + offset, List.mem_cons_of_mem c hfeed, by rw [rfind?, hsome], ?_⟩
        rw [hlines, Nat.add_assoc, hoffset]
        rfl

/-! ## The extras behind a text -/

namespace LexerExtras

/-- The number of the line behind a text, and the offset at which that line starts. -/
def behind (before : List Char) : LexerExtras :=
  ⟨before.count '\n' + 1, byteLength (firstLines before)⟩

variable (before : List Char)

/-- A text with a line feed begins new lines, the last one of them behind its last line feed. -/
theorem behind_append_of_mem {text : List Char} (h : '\n' ∈ text) :
    behind (before ++ text) = ⟨(behind before).line + text.count '\n',
      byteLength before + byteLength (firstLines text)⟩ := by
  rw [behind, List.count_append, firstLines_append, if_pos h, byteLength_append, Nat.add_right_comm]
  rfl

theorem behind_append_of_not_mem {text : List Char} (h : '\n' ∉ text) :
    behind (before ++ text) = behind before := by
  rw [behind, List.count_append, List.count_eq_zero.2 h, Nat.add_zero,
    firstLines_append_of_not_mem h, behind]

/-- **A line feed** starts a line behind it. -/
theorem newLine_behind :
    (behind before).newLine ⟨byteLength before, ['\n']⟩ = behind (before ++ ['\n']) := by
  rw [behind_append_of_mem before List.mem_cons_self]
  rfl

/-- **A comment** starts a line behind its last line feed, or stays on the line if it has none. -/
theorem comment_behind (text : List Char) :
    (behind before).comment ⟨byteLength before, text⟩ = behind (before ++ text) := by
  unfold comment
  rcases rfind?_lineFeed text with ⟨hfeed, hnone⟩ | ⟨offset, hfeed, hsome, hoffset⟩
  · rw [hnone, behind_append_of_not_mem before hfeed]
  · rw [hsome, behind_append_of_mem before hfeed, ← hoffset]
    rfl

theorem lineStart_behind_le : (behind before).lineStart ≤ byteLength before := by
  have hlines := byteLength_lines before
  show byteLength (firstLines before) ≤ byteLength before
  omega

end LexerExtras

/-- **A separator** leads from the extras in front of it to those behind it. -/
theorem SeparatorKind.update_behind (kind : SeparatorKind) (before : List Char) {text : List Char}
    (h : kind.pattern.Matches text) :
    kind.update (.behind before) ⟨byteLength before, text⟩ = .behind (before ++ text) := by
  cases kind with
  | ignored =>
      have hfeed : '\n' ∉ text := fun hmem => absurd (h.2 _ hmem) (by decide)
      exact (LexerExtras.behind_append_of_not_mem before hfeed).symm
  | newLine =>
      obtain rfl : text = ['\n'] := h
      exact LexerExtras.newLine_behind before
  | comment => exact LexerExtras.comment_behind before text

/-! ## A lexer at a place -/

namespace Lexer

/-- The lexer at the place between two parts of a text. -/
def between (before rest : List Char) : Lexer :=
  ⟨byteLength (before ++ rest), byteLength before, rest, .behind before⟩

theorem ofString_eq_between (source : String) : ofString source = between [] source.toList := rfl

/-- The columns of a line are counted from its start, which is not behind the place. -/
theorem currentPosition_between (before rest : List Char) :
    (between before rest).currentPosition (byteLength before) = .behind before := by
  have hlines := byteLength_lines before
  have hcolumn : byteLength before - byteLength (firstLines before)
      = byteLength (lastLine before) := by omega
  show Position.mk _ (byteLength before - byteLength (firstLines before) + 1) = _
  rw [hcolumn]
  rfl

/-- **A lexeme** moves a lexer to the place behind it, if it does not break the line. -/
theorem advance_between (before : List Char) {text rest : List Char} (h : '\n' ∉ text) :
    (between before (text ++ rest)).advance text rest = between (before ++ text) rest := by
  unfold advance between
  rw [← List.append_assoc, byteLength_append before text,
    LexerExtras.behind_append_of_not_mem before h]

/-- **A separator** moves a lexer to the place behind it. -/
theorem pass_between (before : List Char) {text : List Char} {separator : Separator}
    (h : Separator.read? text = some separator) :
    (between before text).pass separator = between (before ++ separator.text) separator.rest := by
  have htext : before ++ text = before ++ separator.text ++ separator.rest := by
    rw [List.append_assoc, (Separator.text_append_rest h).1]
  have hextras := separator.kind.update_behind before (Separator.picks h).matched
  unfold pass advance between
  simp only [htext, byteLength_append before separator.text, hextras]

/-- What a pattern of separators picks is passed over. -/
theorem skip_between_of_picks (kind : SeparatorKind) {gap rest : List Char}
    (h : Picks kind.pattern gap rest) (before : List Char) :
    (between before (gap ++ rest)).skip = (between (before ++ gap) rest).skip := by
  have hread := Separator.read?_of_picks h
  have hskip : (between before (gap ++ rest)).skip
      = ((between before (gap ++ rest)).pass ⟨kind, gap, rest⟩).skip := skip_of_some hread
  rw [hskip, pass_between before hread]

theorem skip_between_of_none {text : List Char} (h : Separator.read? text = none)
    (before : List Char) : (between before text).skip = between before text :=
  skip_of_none h

/-- **All separators** in front of a lexeme move a lexer to the place behind them. -/
theorem skip_between (before text : List Char) : ∃ gap rest, text = gap ++ rest ∧
    Separator.read? rest = none ∧ (between before text).skip = between (before ++ gap) rest := by
  -- every separator shortens the text
  induction hlength : text.length using Nat.strongRecOn generalizing before text with
  | ind n ih =>
  subst hlength
  cases hread : Separator.read? text with
  | none => exact ⟨[], text, rfl, hread, by rw [skip_between_of_none hread, List.append_nil]⟩
  | some separator =>
      obtain ⟨gap, rest, hgap, hnone, hskip⟩ :=
        ih _ (Separator.length_rest_lt hread) (before ++ separator.text) separator.rest rfl
      have hpicks := skip_between_of_picks _ (Separator.picks hread) before
      have htext := (Separator.text_append_rest hread).1
      refine ⟨separator.text ++ gap, rest, ?_, hnone, ?_⟩
      · rw [List.append_assoc, ← hgap, htext]
      · rw [← htext, hpicks, hskip, List.append_assoc]

/-! ## What comes next at a place -/

/-- At the end of a text the end of the input comes next. -/
theorem next_between_nil (before : List Char) :
    (between before []).next = (.ok ⟨.endOfInput, .behind before⟩, between before []) := by
  have hskip : (between before []).skip = between before [] := skip_between_of_none rfl before
  have hscan : (between before []).scan? = none := by
    unfold scan?
    rw [hskip]
    rfl
  have hsize : (between before []).size = byteLength before := by
    show byteLength (before ++ []) = _
    rw [List.append_nil]
  rw [next, hscan, hskip, hsize, currentPosition_between]

/-- Where no separator stands the lexeme at the front comes next. -/
theorem next_between_cons (before : List Char) {c : Char} {behind : List Char}
    (h : Separator.read? (c :: behind) = none) :
    (between before (c :: behind)).next = ((Lexeme.read c behind).itemAt (.behind before),
      (between before (c :: behind)).advance (Lexeme.read c behind).text
        (Lexeme.read c behind).rest) := by
  have hscan : (between before (c :: behind)).scan?
      = some ((Lexeme.read c behind).itemAt (.behind before),
        (between before (c :: behind)).advance (Lexeme.read c behind).text
          (Lexeme.read c behind).rest) := by
    unfold scan?
    rw [skip_between_of_none h, ← currentPosition_between before (c :: behind)]
    rfl
  rw [next, hscan]

/-- Lexers that pass over separators to one place come to the same next. -/
theorem next_congr {lx ly : Lexer} (h : lx.skip = ly.skip) : lx.next = ly.next := by
  unfold next scan?
  rw [h]

/-- **What comes next** is found behind the separators. -/
theorem next_between (before text : List Char) : ∃ gap rest, text = gap ++ rest ∧
    Separator.read? rest = none ∧ (between before text).skip = between (before ++ gap) rest ∧
    (between before text).next = (between (before ++ gap) rest).next := by
  obtain ⟨gap, rest, htext, hnone, hskip⟩ := skip_between before text
  have hstays := skip_between_of_none hnone (before ++ gap)
  exact ⟨gap, rest, htext, hnone, hskip, next_congr (hskip.trans hstays.symm)⟩

end Lexer

end MiniPascal
