/-
# Patterns of lexemes

The patterns of the language compete at every place of a text: reserved words,
identifiers, literals and symbols, and what is passed over between them.  The pattern with
the longest match is picked; a reserved word is preferred to an identifier of its length.

* `Pattern.Matches` : the texts of a pattern;
* `Pattern.beginsSeparator_of_mem` : no lexeme contains a blank or the brace of a comment;
* `Picks.unique` : at most one text is picked at a place, by one pattern;
* `Picks.append` : what is picked stays picked in front of a separator;
* `picks_word`, `picks_integer`, `picks_real`, `picks_symbol`, `picks_spaces`,
  `picks_lineFeed`, `picks_comment` : what is picked, by the text behind it;
* `Separator.picks`, `Separator.read?_of_picks` : the separator at the front of a text is what the
  patterns that are passed over pick there;
* `Denotes.unique` : a picked text is read in one way.
-/
import Mathlib.Algebra.Group.Nat.Defs
import MiniPascal.Token.Lexer

set_option autoImplicit false

namespace MiniPascal

/-! ## Runs of characters -/

/-- A run of characters of a class is over: no further one follows. -/
def Stops (P : Char → Bool) (rest : List Char) : Prop :=
  ∀ c behind, rest = c :: behind → P c = false

section Runs

variable {P : Char → Bool}

theorem stops_nil : Stops P [] := nofun

theorem stops_cons {c : Char} (h : P c = false) (behind : List Char) : Stops P (c :: behind) := by
  intro d rest heq
  rw [← (List.cons.inj heq).1]
  exact h

theorem stops_dropWhile (text : List Char) : Stops P (text.dropWhile P) := by
  intro c behind h
  have hstop := List.head?_dropWhile_not P text
  rw [h] at hstop
  exact hstop

theorem of_mem_takeWhile {text : List Char} {c : Char} (h : c ∈ text.takeWhile P) : P c = true :=
  List.all_eq_true.1 List.all_takeWhile c h

/-- **Runs that are over** at the front of one text are the same. -/
theorem eq_of_runs {s t u v : List Char} (h : s ++ u = t ++ v) (hs : ∀ c ∈ s, P c = true)
    (ht : ∀ c ∈ t, P c = true) (hu : Stops P u) (hv : Stops P v) : s = t ∧ u = v := by
  -- the longer one of two runs would go on where the shorter one is over
  rcases List.append_eq_append_iff.1 h with ⟨more, rfl, rfl⟩ | ⟨more, rfl, rfl⟩
  · cases more with
    | nil => exact ⟨(List.append_nil s).symm, rfl⟩
    | cons c more =>
        have hc := ht c (by simp)
        rw [hu c (more ++ v) rfl] at hc
        cases hc
  · cases more with
    | nil => exact ⟨List.append_nil t, rfl⟩
    | cons c more =>
        have hc := hs c (by simp)
        rw [hv c (more ++ u) rfl] at hc
        cases hc

/-- No front part of a text that lies in the class is longer than a run that is over. -/
theorem length_le_of_run {run rest other : List Char} (hother : ∀ c ∈ other, P c = true)
    (hstarts : other <+: run ++ rest) (hrest : Stops P rest) : other.length ≤ run.length := by
  obtain ⟨behind, hbehind⟩ := hstarts
  rcases List.append_eq_append_iff.1 hbehind with ⟨more, rfl, -⟩ | ⟨more, rfl, rfl⟩
  · rw [List.length_append]
    omega
  · cases more with
    | nil => simp
    | cons c more =>
        have hc := hother c (by simp)
        rw [hrest c (more ++ behind) rfl] at hc
        cases hc

end Runs

/-! ## Patterns -/

/-- The blanks: space, tab, carriage return, form feed and line feed. -/
def isBlank (c : Char) : Bool :=
  c = ' ' || c = '\t' || c = '\r' || c = '\x0c' || c = '\n'

theorem isBlank_eq (c : Char) : isBlank c = (isSpace c || c = '\n') := rfl

/-- Whether a character begins a separator. -/
def beginsSeparator (c : Char) : Bool := isBlank c || c = '\x7b'

/-- One digit or more. -/
def IsDigits (text : List Char) : Prop := text ≠ [] ∧ ∀ c ∈ text, c.isDigit = true

/-- Whether a text consists of digits can be decided. -/
instance (text : List Char) : Decidable (IsDigits text) :=
  decidable_of_iff ((!text.isEmpty && text.all Char.isDigit) = true) (by
    simp only [IsDigits, Bool.and_eq_true, Bool.not_eq_true', List.isEmpty_eq_false_iff,
      List.all_eq_true])

/-- What competes at the front of a text.  The last three are passed over. -/
inductive Pattern where
  | keyword (k : Keyword)
  | identifier
  | integer
  | real
  | symbol (s : Punctuation)
  | spaces
  | lineFeed
  | comment
  deriving DecidableEq

namespace Pattern

/-- The texts of a pattern. -/
def Matches : Pattern → List Char → Prop
  | .keyword k, text => text.map Char.toUpper = k.text.toList
  | .identifier, text => ∃ first rest, text = first :: rest ∧ first.isAlpha = true ∧
      ∀ c ∈ rest, c.isAlphanum = true
  | .integer, text => IsDigits text
  | .real, text => ∃ whole fraction, text = whole ++ '.' :: fraction ∧ IsDigits whole ∧
      IsDigits fraction
  | .symbol s, text => text = s.text.toList
  | .spaces, text => text ≠ [] ∧ ∀ c ∈ text, isSpace c = true
  | .lineFeed, text => text = ['\n']
  | .comment, text => ∃ inside, text = '\x7b' :: (inside ++ ['\x7d']) ∧ '\x7d' ∉ inside

/-- Whether a pattern is passed over. -/
def isSkipped : Pattern → Bool
  | .spaces | .lineFeed | .comment => true
  | _ => false

end Pattern

/-- **The longest match**: at the front of `text ++ rest` the text of the pattern is as long
as that of any pattern, and an identifier only if no reserved word is spelled alike. -/
structure Picks (pattern : Pattern) (text rest : List Char) : Prop where
  matched : pattern.Matches text
  longest : ∀ (other : Pattern) (front : List Char), other.Matches front →
    front <+: text ++ rest → front.length ≤ text.length
  preferred : ∀ k, (Pattern.keyword k).Matches text → pattern = .keyword k

/-! ## First characters -/

/-- The classes of characters that patterns begin with. -/
inductive CharClass where
  | letter
  | digit
  | space
  | lineFeed
  | brace
  | other
  deriving DecidableEq

/-- The class of a character. -/
def CharClass.of (c : Char) : CharClass :=
  if c.isAlpha then .letter
  else if c.isDigit then .digit
  else if isSpace c then .space
  else if c = '\n' then .lineFeed
  else if c = '\x7b' then .brace
  else .other

/-- The class that the texts of a pattern begin with. -/
def Pattern.first : Pattern → CharClass
  | .keyword _ | .identifier => .letter
  | .integer | .real => .digit
  | .symbol _ => .other
  | .spaces => .space
  | .lineFeed => .lineFeed
  | .comment => .brace

namespace CharClass

theorem of_isAlpha {c : Char} (h : c.isAlpha = true) : of c = .letter := if_pos h

/-- A digit is no letter. -/
theorem isAlpha_of_isDigit {c : Char} (h : c.isDigit = true) : c.isAlpha = false := by
  have halpha : c.isAlpha = (decide ('A'.val ≤ c.val ∧ c.val ≤ 'Z'.val) ||
      (decide ('a'.val ≤ c.val) && decide (c.val ≤ 'z'.val))) := rfl
  rw [halpha]
  simp only [Char.isDigit, Bool.and_eq_true, decide_eq_true_eq, Bool.or_eq_false_iff,
    decide_eq_false_iff_not, ge_iff_le, UInt32.le_iff_toNat_le] at h ⊢
  simp at h ⊢
  omega

theorem of_isDigit {c : Char} (h : c.isDigit = true) : of c = .digit := by
  rw [of, isAlpha_of_isDigit h, h]
  rfl

theorem of_isSpace {c : Char} (h : isSpace c = true) : of c = .space := by
  simp only [isSpace, Bool.or_eq_true, decide_eq_true_eq] at h
  rcases h with ((rfl | rfl) | rfl) | rfl <;> decide

/-- What begins a separator has a class of its own. -/
theorem of_beginsSeparator {c : Char} (h : beginsSeparator c = true) :
    of c = .space ∨ of c = .lineFeed ∨ of c = .brace := by
  rw [beginsSeparator, isBlank_eq, Bool.or_eq_true, Bool.or_eq_true, decide_eq_true_eq,
    decide_eq_true_eq] at h
  rcases h with (hspace | rfl) | rfl
  · exact Or.inl (of_isSpace hspace)
  · exact Or.inr (Or.inl (by decide))
  · exact Or.inr (Or.inr (by decide))

/-- A symbol begins with a character of the last class. -/
theorem of_mem_symbol {s : Punctuation} {c : Char} (h : c ∈ s.text.toList) : of c = .other := by
  have hall : s.text.toList.all (fun c => of c = .other) = true := by cases s <;> decide
  exact of_decide_eq_true (List.all_eq_true.1 hall c h)

end CharClass

theorem Keyword.isAlpha_of_mem {k : Keyword} {c : Char} (h : c ∈ k.text.toList) :
    c.isAlpha = true := by
  have hall : k.text.toList.all Char.isAlpha = true := by cases k <;> decide
  exact List.all_eq_true.1 hall c h

/-- A character that is a letter in upper case is a letter. -/
theorem isAlpha_of_toUpper {c : Char} (h : c.toUpper.isAlpha = true) : c.isAlpha = true := by
  unfold Char.toUpper at h
  split at h
  next hlower =>
    have hlow : c.isLower = true := by
      show (decide ('a'.val ≤ c.val) && decide (c.val ≤ 'z'.val)) = true
      simpa using hlower
    show (c.isUpper || c.isLower) = true
    rw [hlow, Bool.or_true]
  next => exact h

namespace Pattern

/-- **A reserved word** is spelled like an identifier. -/
theorem identifier_of_keyword {k : Keyword} {text : List Char} (h : (keyword k).Matches text) :
    identifier.Matches text := by
  have hletters : ∀ c ∈ text, c.isAlpha = true := by
    intro c hc
    refine isAlpha_of_toUpper (Keyword.isAlpha_of_mem (k := k) ?_)
    rw [← h]
    exact List.mem_map_of_mem hc
  cases text with
  | nil => cases k <;> cases h
  | cons first rest =>
      refine ⟨first, rest, rfl, hletters first List.mem_cons_self, fun c hc => ?_⟩
      rw [Char.isAlphanum, hletters c (List.mem_cons_of_mem _ hc)]
      rfl

/-- **The first character** of a text shows its class. -/
theorem Matches.head {pattern : Pattern} {text : List Char} (h : pattern.Matches text) :
    ∃ c behind, text = c :: behind ∧ CharClass.of c = pattern.first := by
  cases pattern with
  | keyword k =>
      obtain ⟨first, rest, rfl, hfirst, -⟩ := identifier_of_keyword h
      exact ⟨first, rest, rfl, CharClass.of_isAlpha hfirst⟩
  | identifier =>
      obtain ⟨first, rest, rfl, hfirst, -⟩ := h
      exact ⟨first, rest, rfl, CharClass.of_isAlpha hfirst⟩
  | integer =>
      obtain ⟨hne, hdigits⟩ := h
      obtain ⟨c, behind, rfl⟩ := List.exists_cons_of_ne_nil hne
      exact ⟨c, behind, rfl, CharClass.of_isDigit (hdigits c List.mem_cons_self)⟩
  | real =>
      obtain ⟨whole, fraction, rfl, ⟨hne, hdigits⟩, -⟩ := h
      obtain ⟨c, behind, rfl⟩ := List.exists_cons_of_ne_nil hne
      exact ⟨c, _, rfl, CharClass.of_isDigit (hdigits c List.mem_cons_self)⟩
  | symbol s =>
      obtain rfl : text = s.text.toList := h
      obtain ⟨c, behind, htext⟩ : ∃ c behind, s.text.toList = c :: behind := by
        cases s <;> exact ⟨_, _, rfl⟩
      exact ⟨c, behind, htext, CharClass.of_mem_symbol (htext ▸ List.mem_cons_self)⟩
  | spaces =>
      obtain ⟨hne, hspaces⟩ := h
      obtain ⟨c, behind, rfl⟩ := List.exists_cons_of_ne_nil hne
      exact ⟨c, behind, rfl, CharClass.of_isSpace (hspaces c List.mem_cons_self)⟩
  | lineFeed =>
      obtain rfl : text = ['\n'] := h
      exact ⟨_, _, rfl, by decide⟩
  | comment =>
      obtain ⟨inside, rfl, -⟩ := h
      exact ⟨_, _, rfl, by decide⟩

theorem Matches.ne_nil {pattern : Pattern} {text : List Char} (h : pattern.Matches text) :
    text ≠ [] := by
  obtain ⟨c, behind, rfl, -⟩ := h.head
  exact List.cons_ne_nil c behind

/-- Only the patterns of the class of the first character match a front part. -/
theorem first_of_front {pattern : Pattern} {front behind : List Char} {c : Char}
    (h : pattern.Matches front) (hstarts : front <+: c :: behind) :
    pattern.first = CharClass.of c := by
  obtain ⟨d, more, rfl, hclass⟩ := h.head
  obtain ⟨rest, hrest⟩ := hstarts
  rw [← hclass, (List.cons.inj hrest).1]

/-- All characters of an identifier are letters and digits. -/
theorem isAlphanum_of_mem {text : List Char} (h : identifier.Matches text) :
    ∀ c ∈ text, c.isAlphanum = true := by
  obtain ⟨first, rest, rfl, hfirst, hrest⟩ := h
  intro c hc
  rcases List.mem_cons.1 hc with rfl | hc
  · rw [Char.isAlphanum, hfirst]
    rfl
  · exact hrest c hc

/-- **The characters of a lexeme** are letters, digits and those of symbols. -/
theorem class_of_mem {pattern : Pattern} {text : List Char} (h : pattern.Matches text)
    (hlexeme : pattern.isSkipped = false) : ∀ c ∈ text,
    CharClass.of c = .letter ∨ CharClass.of c = .digit ∨ CharClass.of c = .other := by
  have hword : identifier.Matches text → ∀ c ∈ text,
      CharClass.of c = .letter ∨ CharClass.of c = .digit ∨ CharClass.of c = .other := by
    intro hidentifier c hc
    rcases Bool.or_eq_true_iff.1 (isAlphanum_of_mem hidentifier c hc) with hletter | hdigit
    · exact Or.inl (CharClass.of_isAlpha hletter)
    · exact Or.inr (Or.inl (CharClass.of_isDigit hdigit))
  have hdigits : ∀ {digits : List Char}, IsDigits digits → ∀ c ∈ digits,
      CharClass.of c = .digit := fun h c hc => CharClass.of_isDigit (h.2 c hc)
  cases pattern with
  | keyword k => exact hword (identifier_of_keyword h)
  | identifier => exact hword h
  | integer => exact fun c hc => Or.inr (Or.inl (hdigits h c hc))
  | real =>
      obtain ⟨whole, fraction, rfl, hwhole, hfraction⟩ := h
      intro c hc
      rcases List.mem_append.1 hc with hc | hc
      · exact Or.inr (Or.inl (hdigits hwhole c hc))
      · rcases List.mem_cons.1 hc with rfl | hc
        · exact Or.inr (Or.inr (by decide))
        · exact Or.inr (Or.inl (hdigits hfraction c hc))
  | symbol s =>
      obtain rfl : text = s.text.toList := h
      exact fun c hc => Or.inr (Or.inr (CharClass.of_mem_symbol hc))
  | spaces => cases hlexeme
  | lineFeed => cases hlexeme
  | comment => cases hlexeme

/-- **No lexeme contains what begins a separator**, a blank or the brace of a comment. -/
theorem beginsSeparator_of_mem {pattern : Pattern} {text : List Char} (h : pattern.Matches text)
    (hlexeme : pattern.isSkipped = false) : ∀ c ∈ text, beginsSeparator c = false := by
  intro c hc
  refine Bool.eq_false_iff.2 fun hbegins => ?_
  have hclass := class_of_mem h hlexeme c hc
  rcases CharClass.of_beginsSeparator hbegins with hother | hother | hother <;>
    simp [hother] at hclass

theorem isBlank_of_mem {pattern : Pattern} {text : List Char} (h : pattern.Matches text)
    (hlexeme : pattern.isSkipped = false) : ∀ c ∈ text, isBlank c = false := fun c hc =>
  (Bool.or_eq_false_iff.1 (beginsSeparator_of_mem h hlexeme c hc)).1

/-- A lexeme begins neither with a blank nor with a brace. -/
theorem head_of_not_skipped {pattern : Pattern} {text : List Char}
    (h : pattern.Matches text) (hlexeme : pattern.isSkipped = false) :
    ∃ c behind, text = c :: behind ∧ isBlank c = false ∧ c ≠ '\x7b' := by
  obtain ⟨c, behind, rfl, -⟩ := h.head
  have hbegins := beginsSeparator_of_mem h hlexeme c List.mem_cons_self
  obtain ⟨hblank, hbrace⟩ := Bool.or_eq_false_iff.1 hbegins
  exact ⟨c, behind, rfl, hblank, of_decide_eq_false hbrace⟩

/-- Patterns of one class are passed over alike. -/
theorem isSkipped_of_first_eq {p q : Pattern} (h : p.first = q.first) :
    p.isSkipped = q.isSkipped := by
  cases p <;> cases q <;> first | rfl | cases h

theorem stops_point (behind : List Char) : Stops Char.isDigit ('.' :: behind) :=
  stops_cons (by decide) behind

theorem not_integer_and_real {text : List Char} (hinteger : integer.Matches text)
    (hreal : real.Matches text) : False := by
  obtain ⟨whole, fraction, rfl, -⟩ := hreal
  have hpoint := hinteger.2 '.' (by simp)
  exact absurd hpoint (by decide)

/-- **A text has one pattern** at most, apart from reserved words. -/
theorem eq_of_matches {p q : Pattern} {text : List Char} (hp : p.Matches text)
    (hq : q.Matches text) (hpk : ∀ k, p ≠ .keyword k) (hqk : ∀ k, q ≠ .keyword k) : p = q := by
  have hfirst : p.first = q.first := by
    obtain ⟨c, behind, rfl, hclass⟩ := hp.head
    rw [first_of_front hq (List.prefix_refl _), hclass]
  cases p with
  | keyword k => exact absurd rfl (hpk k)
  | identifier =>
      cases q with
      | keyword k => exact absurd rfl (hqk k)
      | identifier => rfl
      | _ => cases hfirst
  | integer =>
      cases q with
      | integer => rfl
      | real => exact (not_integer_and_real hp hq).elim
      | _ => cases hfirst
  | real =>
      cases q with
      | real => rfl
      | integer => exact (not_integer_and_real hq hp).elim
      | _ => cases hfirst
  | symbol s =>
      cases q with
      | symbol t =>
          have htext : s.text.toList = t.text.toList := hp.symm.trans hq
          revert htext
          cases s <;> cases t <;> decide
      | _ => cases hfirst
  | spaces =>
      cases q with
      | spaces => rfl
      | _ => cases hfirst
  | lineFeed =>
      cases q with
      | lineFeed => rfl
      | _ => cases hfirst
  | comment =>
      cases q with
      | comment => rfl
      | _ => cases hfirst

end Pattern

/-- **One text is picked** at a place at most, and by one pattern. -/
theorem Picks.unique {p q : Pattern} {s t u v : List Char} (hp : Picks p s u) (hq : Picks q t v)
    (h : s ++ u = t ++ v) : p = q ∧ s = t ∧ u = v := by
  have hle : s.length ≤ t.length := hq.longest p s hp.matched ⟨u, h⟩
  have hge : t.length ≤ s.length := hp.longest q t hq.matched ⟨v, h.symm⟩
  obtain ⟨rfl, rfl⟩ := List.append_inj h (Nat.le_antisymm hle hge)
  refine ⟨?_, rfl, rfl⟩
  by_cases hkeyword : ∃ k, (Pattern.keyword k).Matches s
  · obtain ⟨k, hk⟩ := hkeyword
    rw [hp.preferred k hk, hq.preferred k hk]
  · refine Pattern.eq_of_matches hp.matched hq.matched ?_ ?_
    · rintro k rfl
      exact hkeyword ⟨k, hp.matched⟩
    · rintro k rfl
      exact hkeyword ⟨k, hq.matched⟩

/-- **A picked lexeme stays picked** when a separator, and any text behind it, follows the text:
a longer match would contain what begins the separator. -/
theorem Picks.append {pattern : Pattern} {text rest more : List Char} (h : Picks pattern text rest)
    (hlexeme : pattern.isSkipped = false) (hmore : Stops (fun c => !beginsSeparator c) more) :
    Picks pattern text (rest ++ more) := by
  refine ⟨h.matched, fun other front hfront hstarts => ?_, h.preferred⟩
  obtain ⟨c, behind, htext, hclass⟩ := h.matched.head
  have hsame : other.isSkipped = pattern.isSkipped := by
    rw [htext] at hstarts
    exact Pattern.isSkipped_of_first_eq ((Pattern.first_of_front hfront hstarts).trans hclass)
  rw [← List.append_assoc] at hstarts
  have hle : front.length ≤ (text ++ rest).length := by
    refine length_le_of_run (P := fun c => !beginsSeparator c) (fun d hd => ?_) hstarts hmore
    rw [Pattern.beginsSeparator_of_mem hfront (hsame.trans hlexeme) d hd]
    rfl
  exact h.longest other front hfront
    (List.prefix_of_prefix_length_le hstarts (List.prefix_append _ _) hle)

/-! ## What is picked -/

/-- Outside of words the longest match is picked. -/
theorem picks_of_longest {pattern : Pattern} {text rest : List Char}
    (hmatches : pattern.Matches text) (hclass : pattern.first ≠ .letter)
    (hlongest : ∀ (other : Pattern) (front : List Char), other.Matches front →
      other.first = pattern.first → front <+: text ++ rest → front.length ≤ text.length) :
    Picks pattern text rest := by
  obtain ⟨c, behind, rfl, hhead⟩ := hmatches.head
  refine ⟨hmatches, fun other front hfront hstarts => ?_, fun k hk => ?_⟩
  · exact hlongest other front hfront ((Pattern.first_of_front hfront hstarts).trans hhead)
      hstarts
  · have hletter := Pattern.first_of_front hk (List.prefix_refl _)
    exact absurd (hhead.symm.trans hletter.symm) hclass

/-- The pattern of a word. -/
def wordPattern (word : List Char) : Pattern :=
  match Keyword.ofWord? word with
  | some k => .keyword k
  | none => .identifier

/-- **A whole run of letters and digits** behind a letter is picked as a word. -/
theorem picks_word {word rest : List Char} (hword : Pattern.identifier.Matches word)
    (hrest : Stops Char.isAlphanum rest) : Picks (wordPattern word) word rest := by
  refine ⟨?_, fun other front hfront hstarts => ?_, fun k hk => ?_⟩
  · unfold wordPattern
    split
    next k hk => exact (Keyword.ofWord?_eq_some_iff.1 hk).symm
    next => exact hword
  · obtain ⟨first, behind, rfl, hfirst, -⟩ := id hword
    have hletter := Pattern.first_of_front hfront hstarts
    rw [CharClass.of_isAlpha hfirst] at hletter
    refine length_le_of_run (Pattern.isAlphanum_of_mem ?_) hstarts hrest
    cases other with
    | keyword k => exact Pattern.identifier_of_keyword hfront
    | identifier => exact hfront
    | _ => cases hletter
  · rw [wordPattern, Keyword.ofWord?_eq_some_iff.2 (Eq.symm hk)]

/-- A real literal in front of a text has the run of digits of that text for its whole
part. -/
theorem eq_of_real_front {whole fraction digits rest : List Char} (hwhole : IsDigits whole)
    (hdigits : IsDigits digits) (hrest : Stops Char.isDigit rest)
    (hstarts : whole ++ '.' :: fraction <+: digits ++ rest) :
    whole = digits ∧ '.' :: fraction <+: rest := by
  obtain ⟨behind, hbehind⟩ := hstarts
  rw [List.append_assoc] at hbehind
  obtain ⟨rfl, hpoint⟩ := eq_of_runs hbehind hwhole.2 hdigits.2 (Pattern.stops_point _) hrest
  exact ⟨rfl, behind, hpoint⟩

/-- **A whole run of digits** is picked as an integer literal, if no point with a digit
follows. -/
theorem picks_integer {digits rest : List Char} (hdigits : IsDigits digits)
    (hrest : Stops Char.isDigit rest)
    (hpoint : ∀ behind, rest = '.' :: behind → Stops Char.isDigit behind) :
    Picks .integer digits rest := by
  refine picks_of_longest hdigits nofun fun other front hfront hclass hstarts => ?_
  cases other with
  | integer => exact length_le_of_run hfront.2 hstarts hrest
  | real =>
      obtain ⟨whole, fraction, rfl, hwhole, hne, hfraction⟩ := hfront
      obtain ⟨-, behind, rfl⟩ := eq_of_real_front hwhole hdigits hrest hstarts
      -- the fraction would begin behind the point
      obtain ⟨d, more, rfl⟩ := List.exists_cons_of_ne_nil hne
      have hd := hfraction d List.mem_cons_self
      rw [hpoint _ rfl d _ rfl] at hd
      cases hd
  | _ => cases hclass

/-- **Whole runs of digits around a point** are picked as a real literal. -/
theorem picks_real {whole fraction rest : List Char} (hwhole : IsDigits whole)
    (hfraction : IsDigits fraction) (hrest : Stops Char.isDigit rest) :
    Picks .real (whole ++ '.' :: fraction) rest := by
  refine picks_of_longest ⟨whole, fraction, rfl, hwhole, hfraction⟩ nofun
    fun other front hfront hclass hstarts => ?_
  rw [List.append_assoc] at hstarts
  cases other with
  | integer =>
      have hle := length_le_of_run hfront.2 hstarts (Pattern.stops_point _)
      rw [List.length_append]
      omega
  | real =>
      obtain ⟨whole', fraction', rfl, hwhole', hfraction'⟩ := hfront
      obtain ⟨rfl, hmore⟩ := eq_of_real_front hwhole' hwhole (Pattern.stops_point _) hstarts
      have hfront : fraction' <+: fraction ++ rest := (List.cons_prefix_cons.1 hmore).2
      have hle := length_le_of_run hfraction'.2 hfront hrest
      simp only [List.length_append, List.length_cons]
      omega
  | _ => cases hclass

/-- **A symbol** is picked, unless it is a colon with an equals sign behind it. -/
theorem picks_symbol {s : Punctuation} {rest : List Char}
    (hcolon : s = .colon → ∀ behind, rest ≠ '=' :: behind) :
    Picks (.symbol s) s.text.toList rest := by
  refine picks_of_longest rfl nofun fun other front hfront hclass hstarts => ?_
  cases other with
  | symbol t =>
      obtain rfl : front = t.text.toList := hfront
      -- only `:=` is longer than another symbol, and only `:` is a part of it
      by_cases hs : s = .colon
      · subst hs
        obtain ⟨behind, hbehind⟩ := hstarts
        cases t with
        | assign => exact absurd (List.cons.inj hbehind).2.symm (hcolon rfl behind)
        | _ => exact Nat.le_refl _
      · by_cases ht : t = .assign
        · subst ht
          obtain ⟨behind, hbehind⟩ := hstarts
          cases s with
          | assign => exact Nat.le_refl _
          | colon => exact absurd rfl hs
          | _ => exact absurd (List.cons.inj hbehind).1 (by decide)
        · revert hs ht
          cases s <;> cases t <;> decide
  | _ => cases hclass

/-- **A whole run of spaces** is picked. -/
theorem picks_spaces {spaces rest : List Char} (hspaces : Pattern.spaces.Matches spaces)
    (hrest : Stops isSpace rest) : Picks .spaces spaces rest := by
  refine picks_of_longest hspaces nofun fun other front hfront hclass hstarts => ?_
  cases other with
  | spaces => exact length_le_of_run hfront.2 hstarts hrest
  | _ => cases hclass

/-- **A line feed** is picked by itself. -/
theorem picks_lineFeed (rest : List Char) : Picks .lineFeed ['\n'] rest := by
  refine picks_of_longest rfl nofun fun other front hfront hclass _ => ?_
  cases other with
  | lineFeed => exact Nat.le_of_eq (congrArg List.length hfront)
  | _ => cases hclass

/-- **A comment** is picked up to the first brace that closes it. -/
theorem picks_comment {inside : List Char} (hinside : '\x7d' ∉ inside) (rest : List Char) :
    Picks .comment ('\x7b' :: (inside ++ ['\x7d'])) rest := by
  have hopen : ∀ {s : List Char}, '\x7d' ∉ s → ∀ c ∈ s, (c != '\x7d') = true := by
    intro s hs c hc
    simp only [bne_iff_ne, ne_eq]
    rintro rfl
    exact hs hc
  refine picks_of_longest ⟨inside, rfl, hinside⟩ nofun
    fun other front hfront hclass hstarts => ?_
  cases other with
  | comment =>
      obtain ⟨inside', rfl, hinside'⟩ := hfront
      obtain ⟨behind, hbehind⟩ := hstarts
      have hruns : inside' ++ '\x7d' :: behind = inside ++ '\x7d' :: rest := by
        simpa using hbehind
      have hstops : ∀ more, Stops (fun c => c != '\x7d') ('\x7d' :: more) :=
        stops_cons (by decide)
      obtain ⟨rfl, -⟩ := eq_of_runs hruns (hopen hinside') (hopen hinside) (hstops _) (hstops _)
      exact Nat.le_refl _
  | _ => cases hclass

/-! ## What is passed over -/

/-- The pattern of a separator. -/
def SeparatorKind.pattern : SeparatorKind → Pattern
  | .ignored => .spaces
  | .newLine => .lineFeed
  | .comment => .comment

theorem SeparatorKind.isSkipped_pattern (kind : SeparatorKind) : kind.pattern.isSkipped = true := by
  cases kind <;> rfl

theorem SeparatorKind.eq_of_pattern_eq {kind other : SeparatorKind}
    (h : kind.pattern = other.pattern) : kind = other := by
  cases kind <;> cases other <;> first | rfl | cases h

namespace Separator

theorem ofBrace?_eq_none_iff {behind : List Char} : ofBrace? behind = none ↔ '\x7d' ∉ behind := by
  rcases ofBrace?_cases behind with ⟨hopen, hnone⟩ | ⟨inside, rest, -, rfl, hsome⟩
  · simp [hopen, hnone]
  · simp [hsome]

/-- **Where no separator stands**: in front of no blank, and of no comment that is closed. -/
theorem read?_eq_none_iff {c : Char} {behind : List Char} : read? (c :: behind) = none ↔
    isBlank c = false ∧ ¬(c = '\x7b' ∧ '\x7d' ∈ behind) := by
  rw [isBlank_eq, Bool.or_eq_false_iff, decide_eq_false_iff_not, read?]
  split
  next hspace => simp [hspace]
  next hspace =>
    split
    next hfeed => simp [hfeed]
    next hfeed =>
      split
      next hbrace =>
        subst hbrace
        simp [Bool.eq_false_iff.2 hspace, ofBrace?_eq_none_iff]
      next hbrace => simp [Bool.eq_false_iff.2 hspace, hfeed, hbrace]

/-- **A separator is picked**, by the pattern of its kind. -/
theorem picks {text : List Char} {separator : Separator} (h : read? text = some separator) :
    Picks separator.kind.pattern separator.text separator.rest := by
  obtain ⟨c, behind, rfl, ⟨hspace, rfl⟩ | ⟨rfl, rfl⟩ | ⟨rfl, hcomment⟩⟩ := read?_cases h
  · refine picks_spaces ⟨?_, fun d hd => of_mem_takeWhile hd⟩ (stops_dropWhile _)
    rw [List.takeWhile_cons_of_pos hspace]
    exact List.cons_ne_nil _ _
  · exact picks_lineFeed behind
  · rcases ofBrace?_cases behind with ⟨-, hnone⟩ | ⟨inside, rest, hinside, -, hsome⟩
    · simp [hnone] at hcomment
    · obtain rfl := Option.some.inj (hsome.symm.trans hcomment)
      exact picks_comment hinside rest

/-- **What a separator's pattern picks** is the separator at the front of the text. -/
theorem read?_of_picks {kind : SeparatorKind} {gap rest : List Char}
    (h : Picks kind.pattern gap rest) : read? (gap ++ rest) = some ⟨kind, gap, rest⟩ := by
  cases hread : read? (gap ++ rest) with
  | some separator =>
      obtain ⟨other, text, behind⟩ := separator
      obtain ⟨hpattern, rfl, rfl⟩ := (picks hread).unique h (text_append_rest hread).1
      obtain rfl : other = kind := SeparatorKind.eq_of_pattern_eq hpattern
      rfl
  | none =>
      exfalso
      cases kind with
      | ignored =>
          obtain ⟨hne, hspaces⟩ := h.matched
          cases gap with
          | nil => exact hne rfl
          | cons c more =>
              have hblank := (read?_eq_none_iff.1 hread).1
              rw [isBlank_eq, hspaces c List.mem_cons_self] at hblank
              cases hblank
      | newLine =>
          obtain rfl : gap = ['\n'] := h.matched
          exact absurd (read?_eq_none_iff.1 hread).1 (by decide)
      | comment =>
          obtain ⟨inside, rfl, -⟩ := h.matched
          exact (read?_eq_none_iff.1 hread).2 ⟨rfl, by simp⟩

end Separator

/-! ## What a lexeme denotes -/

/-- The number that digits denote by their places. -/
def placeValue : List Char → Nat
  | [] => 0
  | digit :: rest => (digit.toNat - '0'.toNat) * 10 ^ rest.length + placeValue rest

/-- **Reading digits in turn** gives each the value of its place. -/
theorem digitsValue_eq_placeValue (digits : List Char) :
    digitsValue digits = placeValue digits := by
  have hfold : ∀ n : Nat, digits.foldl (fun n c => 10 * n + (c.toNat - '0'.toNat)) n
      = n * 10 ^ digits.length + placeValue digits := by
    induction digits with
    | nil => simp [placeValue]
    | cons digit rest ih =>
        intro n
        rw [List.foldl_cons, ih, placeValue, List.length_cons, Nat.pow_succ', Nat.add_mul,
          Nat.mul_comm 10 n, Nat.mul_assoc, Nat.add_assoc]
  rw [digitsValue, hfold, Nat.zero_mul, Nat.zero_add]

/-- What the text of a pattern is read as.  What is passed over denotes nothing. -/
inductive Denotes : Pattern → List Char → Except LexicalFault Token → Prop
  | keyword {k : Keyword} {text : List Char} : Denotes (.keyword k) text (.ok (.keyword k))
  | identifier {text : List Char} :
      Denotes .identifier text (.ok (.identifier (String.ofList text)))
  | integer {text : List Char} {n : Int64} (h : n.toInt = placeValue text) :
      Denotes .integer text (.ok (.number (.integer n)))
  | tooLarge {text : List Char} (h : 2 ^ 63 - 1 < placeValue text) :
      Denotes .integer text (.error (.literalTooLarge (String.ofList text)))
  | real {whole fraction : List Char} (hwhole : IsDigits whole) (hfraction : IsDigits fraction) :
      Denotes .real (whole ++ '.' :: fraction) (.ok (.number (.real
        (Float.ofScientific (placeValue (whole ++ fraction)) true fraction.length))))
  | symbol {s : Punctuation} {text : List Char} : Denotes (.symbol s) text (.ok (.symbol s))

/-- **A text is read in one way.** -/
theorem Denotes.unique {pattern : Pattern} {text : List Char}
    {x y : Except LexicalFault Token} (hx : Denotes pattern text x) (hy : Denotes pattern text y) :
    x = y := by
  have hrange : ∀ {n : Int64}, n.toInt = placeValue text → ¬2 ^ 63 - 1 < placeValue text := by
    intro n hn
    have hlt := n.toInt_lt
    omega
  cases hx with
  | keyword => cases hy; rfl
  | identifier => cases hy; rfl
  | @integer _ n hn =>
      cases hy with
      | @integer _ m hm => rw [Int64.toInt_inj.1 (hn.trans hm.symm)]
      | tooLarge h => exact absurd h (hrange hn)
  | tooLarge h =>
      cases hy with
      | integer hn => exact absurd h (hrange hn)
      | tooLarge _ => rfl
  | @real whole fraction hwhole hfraction =>
      generalize htext : whole ++ '.' :: fraction = text at hy
      cases hy with
      | @real whole' fraction' hwhole' _ =>
          obtain ⟨rfl, hpoint⟩ := eq_of_runs htext hwhole.2 hwhole'.2
            (Pattern.stops_point _) (Pattern.stops_point _)
          rw [(List.cons.inj hpoint).2]
  | symbol => cases hy; rfl

theorem Denotes.not_isSkipped {pattern : Pattern} {text : List Char}
    {x : Except LexicalFault Token} (h : Denotes pattern text x) : pattern.isSkipped = false := by
  cases h <;> rfl

end MiniPascal
