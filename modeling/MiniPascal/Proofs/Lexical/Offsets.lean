/-
# Byte offsets

The place of an item, told by the bytes of the source text: its line counts the line feeds in
front of its offset, and its column the bytes from the start of that line on.  The lexer keeps its
offset, its line and the offset at which the line starts; they are right at every item that it
comes to, up to the first comment that is never closed, whose line feeds no longer count.

* `Position.behind_eq_atOffset` : lines and columns, told by bytes;
* `Lexer.exists_next_between` : an item moves a lexer to the place behind its text, unless it is a
  comment that is never closed;
* `Lexer.exists_after_between` : so do items in turn;
* `items_atOffset` : the items of a source text stand at their byte offsets.
-/
import Mathlib.Tactic.SplitIfs
import MiniPascal.Proofs.Lexical.Coordinates

set_option autoImplicit false

namespace MiniPascal

/-! ## Bytes -/

/-- The bytes of a text in the UTF-8 encoding. -/
def utf8 (text : List Char) : List UInt8 := text.flatMap String.utf8EncodeChar

/-- The bytes of a source text. -/
def sourceBytes (source : String) : List UInt8 := source.toUTF8.data.toList

/-- The offset just behind the last line feed among the first bytes of a text, up to an offset; if
there is none, the line starts with the text. -/
def lineStart (bytes : List UInt8) (offset : Nat) : Nat :=
  ((bytes.take offset).reverse.dropWhile (· != 10)).length

/-- The line and the column of a byte offset. -/
def Position.atOffset (bytes : List UInt8) (offset : Nat) : Position :=
  ⟨1 + (bytes.take offset).count 10, 1 + (offset - lineStart bytes offset)⟩

theorem sourceBytes_eq (source : String) : sourceBytes source = utf8 source.toList := by
  rw [sourceBytes, String.toUTF8_eq_toByteArray, ← String.utf8Encode_toList, List.utf8Encode,
    List.data_toByteArray]
  rfl

theorem utf8_append (s t : List Char) : utf8 (s ++ t) = utf8 s ++ utf8 t := List.flatMap_append

/-- A text has as many bytes as its length says. -/
theorem length_utf8 (text : List Char) : (utf8 text).length = byteLength text := by
  induction text with
  | nil => rfl
  | cons c rest ih =>
      show (String.utf8EncodeChar c ++ utf8 rest).length = c.utf8Size + byteLength rest
      rw [List.length_append, String.length_utf8EncodeChar, ih]

/-- **No other character** has the byte of a line feed. -/
theorem lineFeed_not_mem_utf8EncodeChar {c : Char} (hc : c ≠ '\n') :
    (10 : UInt8) ∉ String.utf8EncodeChar c := by
  have hcode : c.val.toNat ≠ 10 := fun h => hc (Char.ext (UInt32.toNat_inj.1 h))
  unfold String.utf8EncodeChar
  simp only
  generalize c.val.toNat = code at hcode
  -- a code below 128 is its own byte, and the bytes of the others are 128 and more
  split_ifs
  all_goals
    simp only [List.mem_cons, List.not_mem_nil, or_false, ← UInt8.toNat_inj, UInt8.toNat_ofNat']
    simp
    omega

/-- The byte of a line feed stands for line feeds only. -/
theorem count_utf8 (text : List Char) : (utf8 text).count 10 = text.count '\n' := by
  induction text with
  | nil => rfl
  | cons c rest ih =>
      have hbytes : utf8 (c :: rest) = String.utf8EncodeChar c ++ utf8 rest := rfl
      rw [hbytes, List.count_append, ih]
      by_cases hc : c = '\n'
      · subst hc
        rw [List.count_cons_self, Nat.add_comm]
        rfl
      · rw [List.count_cons_of_ne hc, List.count_eq_zero.2 (lineFeed_not_mem_utf8EncodeChar hc),
          Nat.zero_add]

/-- The last line feed of a text, among its bytes. -/
theorem length_dropWhile_utf8 (text : List Char) :
    ((utf8 text).reverse.dropWhile (· != 10)).length = byteLength (firstLines text) := by
  induction text using List.reverseRecOn with
  | nil => rfl
  | append_singleton text c ih =>
      have hsingle : utf8 [c] = String.utf8EncodeChar c := List.append_nil _
      rw [utf8_append, hsingle]
      by_cases hc : c = '\n'
      · subst hc
        have hbyte : String.utf8EncodeChar '\n' = [10] := by decide
        rw [hbyte, firstLines_concat_lineFeed, byteLength_append, ← length_utf8,
          List.reverse_append, List.reverse_singleton, List.singleton_append,
          List.dropWhile_cons_of_neg (by decide),
          List.length_cons, List.length_reverse]
        rfl
      · have hlast : '\n' ∉ [c] := by simpa using Ne.symm hc
        rw [dropWhile_reverse_append (lineFeed_not_mem_utf8EncodeChar hc), ih,
          firstLines_append_of_not_mem hlast]

/-! ## Offsets in a source text -/

section Offset

variable {source : String} {before rest : List Char}

theorem take_sourceBytes (h : source.toList = before ++ rest) :
    (sourceBytes source).take (byteLength before) = utf8 before := by
  rw [sourceBytes_eq, h, utf8_append, ← length_utf8, List.take_left]

/-- **Where the line of a place starts**, in bytes. -/
theorem lineStart_eq (h : source.toList = before ++ rest) :
    lineStart (sourceBytes source) (byteLength before) = byteLength (firstLines before) := by
  rw [lineStart, take_sourceBytes h, length_dropWhile_utf8]

/-- **Lines and columns**, told by bytes. -/
theorem Position.behind_eq_atOffset (h : source.toList = before ++ rest) :
    behind before = atOffset (sourceBytes source) (byteLength before) := by
  have hlines := byteLength_lines before
  have hcolumn : byteLength (lastLine before)
      = byteLength before - byteLength (firstLines before) := by omega
  rw [atOffset, take_sourceBytes h, count_utf8, lineStart_eq h, ← hcolumn, Nat.add_comm 1,
    Nat.add_comm 1]
  rfl

end Offset

/-! ## Items in turn -/

/-- A lexer behind some items, whether they are tokens or faults. -/
def Lexer.after (lx : Lexer) : Nat → Lexer
  | 0 => lx
  | n + 1 => lx.next.2.after n

/-- An item at a place is read from the text that stands there: as the first piece of that text,
or as the end of the input if nothing is left. -/
inductive Item.ReadAt (p : Position) : Item → List Char → Prop
  | endOfInput : ReadAt p (.ok ⟨.endOfInput, p⟩) []
  | token {input text rest : List Char} {token : Token}
      (hfirst : FirstPiece input ⟨text, some (.ok token)⟩ rest) : ReadAt p (.ok ⟨token, p⟩) input
  | fault {input text rest : List Char} {fault : LexicalFault}
      (hfirst : FirstPiece input ⟨text, some (.error fault)⟩ rest) :
      ReadAt p (.error ⟨fault, p⟩) input

/-- Whether an item is a comment that is never closed. -/
def Item.isUnterminated : Item → Bool
  | .ok _ => false
  | .error e => e.value = .unterminatedComment

theorem Lexeme.readAt_itemAt {lexeme : Lexeme} {input rest : List Char} (p : Position)
    (h : FirstPiece input ⟨lexeme.text, some lexeme.reading⟩ rest) :
    Item.ReadAt p (lexeme.itemAt p) input := by
  unfold itemAt
  split
  next token hreading => exact .token (hreading ▸ h)
  next fault hreading => exact .fault (hreading ▸ h)

theorem Lexeme.reading_ne_of_isUnterminated {lexeme : Lexeme} {p : Position}
    (h : Item.isUnterminated (lexeme.itemAt p) = false) :
    lexeme.reading ≠ .error .unterminatedComment := by
  intro hreading
  rw [itemAt, hreading] at h
  simp [Item.isUnterminated] at h

namespace Lexer

/-- What comes next is read at the place behind the separators. -/
theorem readAt_next (before text : List Char) : ∃ gap rest, text = gap ++ rest ∧
    (between before text).skip = between (before ++ gap) rest ∧
    Item.ReadAt (.behind (before ++ gap)) (between before text).next.1 rest := by
  obtain ⟨gap, rest, htext, hnone, hskip, hnext⟩ := next_between before text
  refine ⟨gap, rest, htext, hskip, ?_⟩
  rw [hnext]
  cases rest with
  | nil =>
      rw [next_between_nil]
      exact .endOfInput
  | cons c behind =>
      rw [next_between_cons _ hnone]
      exact Lexeme.readAt_itemAt _ (firstPiece_read hnone)

/-- **An item moves a lexer** to the place behind its text, unless it is a comment that is never
closed. -/
theorem exists_next_between (before text : List Char)
    (hclosed : Item.isUnterminated (between before text).next.1 = false) :
    ∃ taken rest, text = taken ++ rest ∧
      (between before text).next.2 = between (before ++ taken) rest := by
  obtain ⟨gap, rest, rfl, hnone, -, hnext⟩ := next_between before text
  rw [hnext] at hclosed ⊢
  cases rest with
  | nil => exact ⟨gap, [], rfl, by rw [next_between_nil]⟩
  | cons c behind =>
      rw [next_between_cons _ hnone] at hclosed ⊢
      have hfirst := firstPiece_read hnone
      have hfeed := hfirst.lineFeed_not_mem (Lexeme.reading_ne_of_isUnterminated hclosed)
      refine ⟨gap ++ (Lexeme.read c behind).text, (Lexeme.read c behind).rest, ?_, ?_⟩
      · rw [List.append_assoc, hfirst.text_append]
      · rw [← List.append_assoc, ← advance_between _ hfeed, hfirst.text_append]

/-- **Items in turn** move a lexer from place to place, if none is a comment that is never
closed. -/
theorem exists_after_between (before text : List Char) {n : Nat}
    (hclosed : ∀ k < n, Item.isUnterminated ((between before text).after k).next.1 = false) :
    ∃ taken rest, text = taken ++ rest ∧
      (between before text).after n = between (before ++ taken) rest := by
  induction n generalizing before text with
  | zero => exact ⟨[], text, rfl, by rw [List.append_nil]; rfl⟩
  | succ n ih =>
      obtain ⟨taken, rest, rfl, hnext⟩ :=
        exists_next_between before text (hclosed 0 n.succ_pos)
      have hafter : ∀ k, (between before (taken ++ rest)).after (k + 1)
          = (between (before ++ taken) rest).after k := fun k => congrArg (Lexer.after · k) hnext
      obtain ⟨further, more, rfl, hfinal⟩ := ih (before ++ taken) rest fun k hk =>
        hafter k ▸ hclosed (k + 1) (Nat.succ_lt_succ hk)
      refine ⟨taken ++ further, more, (List.append_assoc _ _ _).symm, ?_⟩
      rw [hafter, hfinal, List.append_assoc]

/-- The items of a lexer begin with what comes next; behind a token the others follow. -/
theorem items_eq_cons (lx : Lexer) : ∃ more, lx.items = lx.next.1 :: more ∧
    (more = [] ∨ (∃ token, lx.next.1 = .ok token) ∧ more = lx.next.2.items) := by
  rw [items, next]
  split
  next hscan => exact ⟨[], by rw [hscan], Or.inl rfl⟩
  next e behind hscan => exact ⟨[], by rw [hscan], Or.inl rfl⟩
  next token behind hscan =>
    rw [hscan]
    exact ⟨behind.items, rfl, Or.inr ⟨⟨token, rfl⟩, rfl⟩⟩

/-- **The items of a lexer** are what comes next, in turn, and none but the last is a fault. -/
theorem next_after_of_items {lx : Lexer} {n : Nat} {item : Item} (h : lx.items[n]? = some item) :
    (lx.after n).next.1 = item ∧ ∀ k < n, ∃ token, (lx.after k).next.1 = .ok token := by
  induction n generalizing lx with
  | zero =>
      obtain ⟨more, hitems, -⟩ := lx.items_eq_cons
      rw [hitems] at h
      exact ⟨Option.some.inj h, fun k hk => absurd hk (Nat.not_lt_zero k)⟩
  | succ n ih =>
      obtain ⟨more, hitems, hmore⟩ := lx.items_eq_cons
      rw [hitems, List.getElem?_cons_succ] at h
      rcases hmore with rfl | ⟨htoken, rfl⟩
      · cases h
      · obtain ⟨hitem, htokens⟩ := ih h
        refine ⟨hitem, fun k hk => ?_⟩
        cases k with
        | zero => exact htoken
        | succ k => exact htokens k (Nat.lt_of_succ_lt_succ hk)

end Lexer

/-! ## Items of a source text -/

/-- The next item of a lexer stands at a byte offset of its source text: it is read from what is
left behind the separators, at the line and the column of the offset there.  The line of the lexer
is that of the offset, and so is the start of the line, which is no later than the offset. -/
structure Lexer.AtOffset (source : String) (lx : Lexer) : Prop where
  offset : ∃ before, source.toList = before ++ lx.skip.rest ∧ lx.skip.offset = byteLength before
  reads : Item.ReadAt (.atOffset (sourceBytes source) lx.skip.offset) lx.next.1 lx.skip.rest
  line : lx.skip.extras.line = 1 + ((sourceBytes source).take lx.skip.offset).count 10
  lineStart : lx.skip.extras.lineStart = MiniPascal.lineStart (sourceBytes source) lx.skip.offset
  lineStart_le : lx.skip.extras.lineStart ≤ lx.skip.offset

/-- **A lexer at a place** comes to an item at its byte offset. -/
theorem Lexer.atOffset_between {source : String} {before text : List Char}
    (h : source.toList = before ++ text) : (Lexer.between before text).AtOffset source := by
  obtain ⟨gap, rest, rfl, hskip, hread⟩ := readAt_next before text
  have hfront : source.toList = before ++ gap ++ rest := by rw [h, List.append_assoc]
  rw [Position.behind_eq_atOffset hfront] at hread
  refine ⟨⟨before ++ gap, ?_, ?_⟩, ?_, ?_, ?_, ?_⟩
  all_goals rw [hskip]
  · exact hfront
  · rfl
  · exact hread
  · show (before ++ gap).count '\n' + 1
      = 1 + ((sourceBytes source).take (byteLength (before ++ gap))).count 10
    rw [take_sourceBytes hfront, count_utf8, Nat.add_comm]
  · exact (lineStart_eq hfront).symm
  · exact LexerExtras.lineStart_behind_le (before ++ gap)

/-- What follows items that are no unclosed comments stands at its byte offset. -/
theorem Lexer.atOffset_after {source : String} {n : Nat} (hclosed : ∀ k < n,
    Item.isUnterminated ((Lexer.ofString source).after k).next.1 = false) :
    ((Lexer.ofString source).after n).AtOffset source := by
  rw [ofString_eq_between] at hclosed ⊢
  obtain ⟨taken, rest, htext, hafter⟩ := exists_after_between [] source.toList hclosed
  rw [hafter]
  exact atOffset_between htext

/-- **Items stand at their byte offsets.**  Every item of a source text, its end or its fault
included, is what the lexer comes to after the items before it, and its line and its column are
those of the byte offset where it starts.  The same holds when the lexer goes on behind faults, up
to and including the first comment that is never closed. -/
theorem items_atOffset (source : String) :
    (∀ (n : Nat) (item : Item), (tokenize source)[n]? = some item →
      ((Lexer.ofString source).after n).next.1 = item ∧
      ((Lexer.ofString source).after n).AtOffset source) ∧
    ∀ n, (∀ k < n, Item.isUnterminated ((Lexer.ofString source).after k).next.1 = false) →
      ((Lexer.ofString source).after n).AtOffset source := by
  refine ⟨fun n item hitem => ?_, fun n => Lexer.atOffset_after⟩
  obtain ⟨hnext, htokens⟩ := Lexer.next_after_of_items hitem
  refine ⟨hnext, Lexer.atOffset_after fun k hk => ?_⟩
  obtain ⟨token, htoken⟩ := htokens k hk
  rw [htoken]
  rfl

/-- A source text with two faults in front of a name and of a comment that is never closed; a line
ends inside of another comment. -/
def faultySource : String := "# \x7b\n\x7d é y\r\n \x7b\n"

/-- The first item of this source text, and the one behind three others. -/
theorem faultySource_atOffset :
    (∃ item : Item, (tokenize faultySource)[0]? = some item ∧
      ((Lexer.ofString faultySource).after 0).next.1 = item ∧
      ((Lexer.ofString faultySource).after 0).AtOffset faultySource) ∧
    (∀ k < 3, Item.isUnterminated ((Lexer.ofString faultySource).after k).next.1 = false) ∧
      ((Lexer.ofString faultySource).after 3).AtOffset faultySource := by
  obtain ⟨hitems, hfaults⟩ := items_atOffset faultySource
  have hclosed : ∀ k < 3,
      Item.isUnterminated ((Lexer.ofString faultySource).after k).next.1 = false := by
    decide +kernel
  have hlength : 0 < (tokenize faultySource).length := by decide +kernel
  obtain ⟨item, hitem⟩ : ∃ item, (tokenize faultySource)[0]? = some item :=
    ⟨_, List.getElem?_eq_getElem hlength⟩
  exact ⟨⟨item, hitem, hitems 0 item hitem⟩, hclosed, hfaults 3 hclosed⟩

/-- The comment that is never closed starts at offset 13, on the third line. -/
example : ((Lexer.ofString faultySource).after 3).skip.offset = 13 ∧
    ((Lexer.ofString faultySource).after 3).skip.extras = ⟨3, 12⟩ := by decide +kernel

end MiniPascal
