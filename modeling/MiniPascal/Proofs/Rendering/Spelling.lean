/-
# Spelling of tokens

A text spells tokens if it consists of a word for each of them, with blanks around and at
least one blank between any two words.  Blanks keep words apart, so each word is read in the
text as it is by itself.

* `Picks.before_blank` : what is picked alone is picked in front of a blank;
* `spells_keyword`, `spells_symbol`, `spells_identifier`, `spells_integer`, `spells_real` :
  words of the tokens;
* `Spaced.items_eq` : the tokens of a text are those that it spells.
-/
import MiniPascal.Proofs.Lexical.Separation
import MiniPascal.Proofs.Rendering

set_option autoImplicit false

namespace MiniPascal

/-! ## Words -/

/-- A word that by itself is read as a token. -/
def Spells (token : Token) (word : List Char) : Prop :=
  ∃ pattern, Picks pattern word [] ∧ Denotes pattern word (.ok token)

/-- **Words between blanks**, one for each token: nothing stands behind a word but a blank or
the end of the text. -/
inductive Spaced : List Token → List Char → Prop
  | last {gap : List Char} (hgap : ∀ c ∈ gap, isBlank c = true) : Spaced [] gap
  | word {token : Token} {tokens : List Token} {gap word rest : List Char}
      (hgap : ∀ c ∈ gap, isBlank c = true) (hword : Spells token word)
      (hnext : Stops (fun c => !isBlank c) rest) (hrest : Spaced tokens rest) :
      Spaced (token :: tokens) (gap ++ (word ++ rest))

/-- What is picked alone is picked in front of a blank. -/
theorem Picks.before_blank {pattern : Pattern} {word rest : List Char} (h : Picks pattern word [])
    (hlexeme : pattern.isSkipped = false) (hrest : Stops (fun c => !isBlank c) rest) :
    Picks pattern word rest := by
  refine h.append hlexeme fun c behind heq => ?_
  have hblank : isBlank c = true := by simpa using hrest c behind heq
  simp [beginsSeparator, hblank]

/-! ## Words of the tokens -/

/-- A reserved word is spelled in capital letters. -/
theorem spells_keyword (k : Keyword) : Spells (.keyword k) k.text.toList := by
  have hmatches : (Pattern.keyword k).Matches k.text.toList := by
    show k.text.toList.map Char.toUpper = k.text.toList
    cases k <;> decide
  have hpattern : wordPattern k.text.toList = .keyword k := by
    rw [wordPattern, Keyword.ofWord?_eq_some_iff.2 (Eq.symm hmatches)]
  have hpicks := picks_word (Pattern.identifier_of_keyword hmatches) stops_nil
  rw [hpattern] at hpicks
  exact ⟨_, hpicks, .keyword⟩

theorem spells_symbol (s : Punctuation) : Spells (.symbol s) s.text.toList :=
  ⟨_, picks_symbol fun _ _ => nofun, .symbol⟩

/-- An identifier is spelled by its name. -/
theorem spells_identifier {name : String} (h : IsIdentifier name) :
    Spells (.identifier name) name.toList := by
  have hpattern : wordPattern name.toList = .identifier := by
    unfold wordPattern
    cases hk : Keyword.ofWord? name.toList with
    | none => rfl
    | some k => exact absurd (Keyword.ofWord?_eq_some_iff.1 hk).symm (h.2 k)
  have hpicks := picks_word h.1 stops_nil
  have hdenotes : Denotes .identifier name.toList (.ok (.identifier (String.ofList name.toList))) :=
    .identifier
  rw [hpattern] at hpicks
  rw [String.ofList_toList] at hdenotes
  exact ⟨_, hpicks, hdenotes⟩

/-- An integer that is not negative is spelled by its decimal digits. -/
theorem spells_integer {n : Int64} (h : 0 ≤ n.toInt) :
    Spells (.number (.integer n)) (Nat.toDigits 10 n.toInt.toNat) := by
  have hdigits : IsDigits (Nat.toDigits 10 n.toInt.toNat) :=
    ⟨Nat.toDigits_ne_nil, fun c hc =>
      Nat.isDigit_of_mem_toDigits (by decide) (by decide) hc⟩
  have hvalue : placeValue (Nat.toDigits 10 n.toInt.toNat) = n.toInt.toNat := by
    rw [← digitsValue_eq_placeValue]
    exact Nat.ofDigitChars_toDigits (by decide) (by decide)
  refine ⟨.integer, picks_integer hdigits stops_nil nofun, .integer ?_⟩
  rw [hvalue, Int.toNat_of_nonneg h]

theorem spells_real {x : Float} {text : List Char}
    (h : Denotes .real text (.ok (.number (.real x)))) : Spells (.number (.real x)) text := by
  refine ⟨.real, ?_, h⟩
  cases h with
  | real hwhole hfraction => exact picks_real hwhole hfraction stops_nil

/-! ## Texts -/

/-- A blank may be added in front of a text. -/
theorem Spaced.cons_blank {tokens : List Token} {text : List Char} (h : Spaced tokens text)
    {c : Char} (hc : isBlank c = true) : Spaced tokens (c :: text) := by
  have hcons : ∀ {gap : List Char}, (∀ d ∈ gap, isBlank d = true) →
      ∀ d ∈ c :: gap, isBlank d = true :=
    fun hgap => List.forall_mem_cons.2 ⟨hc, hgap⟩
  cases h with
  | last hgap => exact .last (hcons hgap)
  | @word _ _ gap _ _ hgap hword hnext hrest =>
      rw [← List.cons_append]
      exact .word (hcons hgap) hword hnext hrest

/-- **Tokens that have words** have a text. -/
theorem exists_spaced {tokens : List Token} (h : ∀ token ∈ tokens, ∃ word, Spells token word) :
    ∃ text, Spaced tokens text := by
  induction tokens with
  | nil => exact ⟨[], .last nofun⟩
  | cons token rest ih =>
      obtain ⟨hword, hrest⟩ := List.forall_mem_cons.1 h
      obtain ⟨word, hspells⟩ := hword
      obtain ⟨text, htext⟩ := ih hrest
      have hblank : isBlank ' ' = true := by decide
      exact ⟨[] ++ (word ++ ' ' :: text), .word nofun hspells
        (stops_cons (by rw [hblank]; rfl) text) (htext.cons_blank hblank)⟩

/-- **The tokens of a text** are those that it spells. -/
theorem Spaced.items_eq {tokens : List Token} {text : List Char} (h : Spaced tokens text)
    (before : List Char) : ∃ (ts : List (Located Token)) (q : Position),
      ts.map Located.value = tokens ∧
      (Lexer.between before text).items = ts.map Except.ok ++ [.ok ⟨.endOfInput, q⟩] := by
  induction h generalizing before with
  | @last gap hgap =>
      have hpassed := Lexer.items_of_separator (IsSeparator.of_blanks hgap) before []
      rw [List.append_nil] at hpassed
      refine ⟨[], .behind (before ++ gap), rfl, hpassed.trans ?_⟩
      rw [Lexer.items_eq, Lexer.next_between_nil]
      rfl
  | @word token tokens gap word rest hgap hword hnext _ ih =>
      obtain ⟨pattern, hpicks, hdenotes⟩ := hword
      have hread := hpicks.before_blank hdenotes.not_isSkipped hnext
      obtain ⟨ts, q, hvalues, hitems⟩ := ih (before ++ gap ++ word)
      refine ⟨⟨token, .behind (before ++ gap)⟩ :: ts, q, ?_, ?_⟩
      · rw [List.map_cons, hvalues]
      · rw [Lexer.items_of_separator (IsSeparator.of_blanks hgap),
          Lexer.items_of_word hread hdenotes, hitems]
        rfl

end MiniPascal
