/-
# Tokens on demand

A text is scanned as far as it is read.  Where reading a program ends, whatever was looked ahead
at has been taken: the tokens scanned by then are those up to the last one that reading had to
look at, each of them once, and nothing behind it has been scanned.

* `TokenStream.Reached` : a stream at a token of a text, with nothing scanned behind it;
* `TokenStream.demand` : the course of readers that scan on demand;
* `TokenStream.endsAt_read` : what has been scanned when a text has been read, or refused;
* `runLogged_onDemand` : the tokens that are logged when a text is run.
-/
import MiniPascal.Proofs.Grammar.Progress
import MiniPascal.Proofs.Grammar.Soundness
import MiniPascal.Proofs.Lexical.Offsets
import MiniPascal.Source

set_option autoImplicit false

namespace MiniPascal

/-- The token that a grammar fault is about. -/
def GrammarFault.found : GrammarFault → Token
  | .unexpectedToken token _ => token
  | .trailingTokens token => token

/-- One item more is scanned behind those that have been. -/
theorem Lexer.after_succ (lx : Lexer) (n : Nat) : lx.after (n + 1) = (lx.after n).next.2 := by
  induction n generalizing lx with
  | zero => rfl
  | succ n ih => exact ih lx.next.2

namespace TokenStream

/-! ## Scanning -/

section Scanning

variable {s t : TokenStream} {token : Located Token} {halt : Halt}

/-- Without a look ahead, advancing scans one item. -/
theorem advance_of_lookahead (hlook : s.lookahead = none) :
    advance s = match s.lexer.next with
      | (.ok token, lexer) =>
        .ok s.current { s with lexer := lexer, current := token, scanned := note token s.scanned }
      | (.error e, lexer) => .error (.failed (.lexical e)) { s with lexer := lexer } := by
  unfold advance scan
  rw [hlook]
  rcases s.lexer.next with ⟨e | token, lexer⟩ <;> rfl

/-- If it succeeds, the token that has been scanned is the current one. -/
theorem scanned_advance (hlook : s.lookahead = none) (h : advance s = .ok token t) :
    t.lookahead = none ∧ t.scanned = note t.current s.scanned ∧ t.lexer = s.lexer.next.2 := by
  rw [advance_of_lookahead hlook] at h
  split at h
  next hnext =>
    cases h
    exact ⟨hlook, rfl, by rw [hnext]⟩
  next => cases h

/-- If it fails, no token has been scanned. -/
theorem scanned_advance_error (hlook : s.lookahead = none) (h : advance s = .error halt t) :
    t.lookahead = none ∧ t.scanned = s.scanned ∧ t.lexer = s.lexer.next.2 := by
  rw [advance_of_lookahead hlook] at h
  split at h
  next => cases h
  next hnext =>
    cases h
    exact ⟨hlook, rfl, by rw [hnext]⟩

/-- A token other than the end counts as scanned. -/
theorem note_of_ne (h : token.value ≠ .endOfInput) (scanned : List (Located Token)) :
    note token scanned = token :: scanned := by
  unfold note
  split
  next heq => exact absurd heq h
  next => rfl

end Scanning

/-! ## What has been scanned -/

/-- A stream stands in a text behind some tokens.  They and the current token have been scanned,
and nothing behind it. -/
structure Reached (source : String) (ts : List (Located Token)) (s : TokenStream) : Prop where
  items : tokenize source = ts.map Except.ok ++ s.upcoming
  scanned : s.scanned = note s.current ts.reverse
  lookahead : s.lookahead = none
  lexer : s.lexer = (Lexer.ofString source).after (ts.length + 1)

/-- Where an error ends reading a text: behind the tokens in front of a lexical error, which has
been scanned, or at the token that a grammar error is about. -/
inductive StopsAt (source : String) : ParseError → TokenStream → Prop
  | lexical {ts : List (Located Token)} {e : LexicalError} {t : TokenStream}
      (hitems : tokenize source = ts.map Except.ok ++ [.error e])
      (hscanned : t.scanned = ts.reverse) (hlook : t.lookahead = none)
      (hlexer : t.lexer = (Lexer.ofString source).after (ts.length + 1)) :
      StopsAt source (.lexical e) t
  | grammar {ts : List (Located Token)} {e : GrammarError} {t : TokenStream}
      (hreached : Reached source ts t) (hfound : e.value.found = t.current.value)
      (hposition : e.position = t.current.position) : StopsAt source (.grammar e) t

section Reached

variable {source : String} {s t : TokenStream} {ts : List (Located Token)}

/-- At the start of a text its first token has been scanned. -/
theorem reached_ofString (h : ofString source = .ok s) : Reached source [] s := by
  have hupcoming := (upcoming_ofString h).1
  unfold ofString at h
  split at h
  next token lexer hnext =>
    obtain rfl := Except.ok.inj h
    refine ⟨hupcoming.symm, rfl, rfl, ?_⟩
    show lexer = (Lexer.ofString source).next.2
    rw [hnext]
  next => cases h

/-- Advancing reaches the next token. -/
theorem reached_advance {token : Located Token} (h : Reached source ts s)
    (hs : s.current.value ≠ .endOfInput) (hadvance : advance s = .ok token t) :
    Reached source (ts ++ [s.current]) t := by
  obtain ⟨-, hupcoming, -⟩ := advance_eq_ok hs hadvance
  obtain ⟨hlook, hscanned, hlexer⟩ := scanned_advance h.lookahead hadvance
  refine ⟨?_, ?_, hlook, ?_⟩
  · rw [h.items, hupcoming, List.map_append, List.append_assoc]
    rfl
  · rw [hscanned, h.scanned, note_of_ne hs, List.reverse_append]
    rfl
  · rw [hlexer, h.lexer, ← Lexer.after_succ, List.length_append]
    rfl

/-- If advancing fails, it has scanned a lexical error. -/
theorem stopsAt_advance {e : LexicalError} (h : Reached source ts s)
    (hs : s.current.value ≠ .endOfInput) (hadvance : advance s = .error (.failed (.lexical e)) t) :
    StopsAt source (.lexical e) t := by
  obtain ⟨e', he, hupcoming⟩ := advance_eq_error hs hadvance
  cases he
  obtain ⟨hlook, hscanned, hlexer⟩ := scanned_advance_error h.lookahead hadvance
  have hitems : tokenize source = (ts ++ [s.current]).map Except.ok ++ [.error e] := by
    rw [h.items, hupcoming, List.map_append, List.append_assoc]
    rfl
  refine .lexical hitems ?_ hlook ?_
  · rw [hscanned, h.scanned, note_of_ne hs, List.reverse_append]
    rfl
  · rw [hlexer, h.lexer, ← Lexer.after_succ, List.length_append]
    rfl

end Reached

/-- **The course of demand**: readers leave nothing scanned behind the current token, neither
when they succeed nor when they fail. -/
def demand (source : String) : Course where
  Moves _ s t := (∃ ts, Reached source ts s) → ∃ ts, Reached source ts t
  Fails s e t := (∃ ts, Reached source ts s) → StopsAt source e t
  refl _ h := h
  trans hst htu h := htu (hst h)
  mono h _ := h
  fails_behind hst htu h := htu (hst h)
  moves_takeId := by
    rintro s ⟨ts, h⟩
    exact ⟨ts, h.items, h.scanned, h.lookahead, h.lexer⟩
  moves_advance := by
    rintro s t token hs hadvance ⟨ts, h⟩
    exact ⟨_, reached_advance h hs hadvance⟩
  fails_advance := by
    rintro s t e hs hadvance ⟨ts, h⟩
    exact stopsAt_advance h hs hadvance
  fails_unexpected := by
    rintro s expected ⟨ts, h⟩
    exact .grammar h rfl rfl
  fails_trailing := by
    rintro s ⟨ts, h⟩
    exact .grammar h rfl rfl

/-! ## Where reading ends -/

/-- Where reading a text ends: with which tokens scanned, the end of the input left out, and after
how many scans. -/
inductive EndsAt (source : String) :
    Except ParseError Program → List (Located Token) → Nat → Prop
  /-- A program is scanned to the end. -/
  | program {tree : Program} {ts : List (Located Token)} {p : Position}
      (hitems : tokenize source = ts.map Except.ok ++ [.ok ⟨.endOfInput, p⟩]) :
      EndsAt source (.ok tree) ts (ts.length + 1)
  /-- A lexical error is the last item that is scanned. -/
  | lexical {e : LexicalError} {ts : List (Located Token)}
      (hitems : tokenize source = ts.map Except.ok ++ [.error e]) :
      EndsAt source (.error (.lexical e)) ts (ts.length + 1)
  /-- The token that a grammar error is about is the last item that is scanned. -/
  | grammar {e : GrammarError} {ts : List (Located Token)} {token : Located Token}
      {behind : List Item} (hitems : tokenize source = ts.map Except.ok ++ .ok token :: behind)
      (hfound : e.value.found = token.value) (hposition : e.position = token.position) :
      EndsAt source (.error (.grammar e)) (ts ++ tokensOf [.ok token]) (ts.length + 1)

section Ends

variable {source : String} {s t : TokenStream} {ts : List (Located Token)} {tree : Program}
  {e : ParseError}

/-- The tokens that have been scanned are those passed and the current one. -/
theorem Reached.scanned_eq (h : Reached source ts s) :
    s.scanned.reverse = ts ++ tokensOf [.ok s.current] := by
  rw [h.scanned]
  obtain ⟨value, position⟩ := s.current
  cases value with
  | endOfInput => exact ts.reverse_reverse.trans (List.append_nil ts).symm
  | _ => exact List.reverse_cons.trans (congrArg (· ++ [_]) ts.reverse_reverse)

/-- What a whole program ends at is the end of the input. -/
theorem current_of_wholeProgram {n : Nat} (h : Reader.wholeProgram n s = .ok tree t) :
    t.current.value = .endOfInput := by
  unfold Reader.wholeProgram at h
  obtain ⟨found, u, -, h⟩ := Reader.bind_eq_ok.1 h
  obtain ⟨token, v, hpeek, h⟩ := Reader.bind_eq_ok.1 h
  cases hpeek
  cases hvalue : u.current.value with
  | endOfInput =>
      simp only [hvalue] at h
      cases h
      exact hvalue
  | _ =>
      simp only [hvalue] at h
      cases h

/-- A program that has been read ends where its text does. -/
theorem Reached.endsAt (h : Reached source ts t) (ht : t.current.value = .endOfInput) :
    EndsAt source (.ok tree) t.scanned.reverse (ts.length + 1) := by
  have hcurrent : t.current = ⟨.endOfInput, t.current.position⟩ := by rw [← ht]
  have hscanned : t.scanned.reverse = ts := by
    rw [h.scanned_eq, hcurrent]
    exact List.append_nil ts
  rw [hscanned]
  refine .program (p := t.current.position) ?_
  rw [h.items, upcoming, itemsFrom_of_eq _ ht, ← hcurrent]

/-- A text that is refused ends where the error is. -/
theorem StopsAt.endsAt (h : StopsAt source e t) :
    ∃ k, EndsAt source (.error e) t.scanned.reverse k ∧ t.lookahead = none ∧
      t.lexer = (Lexer.ofString source).after k := by
  cases h with
  | lexical hitems hscanned hlook hlexer =>
      refine ⟨_, ?_, hlook, hlexer⟩
      rw [hscanned, List.reverse_reverse]
      exact .lexical hitems
  | grammar hreached hfound hposition =>
      refine ⟨_, ?_, hreached.lookahead, hreached.lexer⟩
      obtain ⟨behind, hbehind⟩ := t.exists_upcoming_eq
      rw [hreached.scanned_eq]
      exact .grammar (hbehind ▸ hreached.items) hfound hposition

/-- **A text is scanned as far as it is read.** -/
theorem endsAt_read {outcome : Except ParseError Program} (hs : ofString source = .ok s)
    (hread : s.read Phrase.wholeProgram = (outcome, t)) :
    ∃ k, EndsAt source outcome t.scanned.reverse k ∧ t.lookahead = none ∧
      t.lexer = (Lexer.ofString source).after k := by
  have hstart : ∃ ts, Reached source ts s := ⟨[], reached_ofString hs⟩
  have henough : (demand source).Enough True s 0 (s.remaining + 1) (s.remaining + 1) :=
    Course.Enough.same trivial
  have hends := (Reader.alike_wholeProgram henough s ((demand source).refl s)).2
  rcases s.read_eq Phrase.wholeProgram (Nat.lt_succ_self _) with
    ⟨tree, u, hreader, heq⟩ | ⟨e, u, hreader, heq⟩
  · rw [heq] at hread
    cases hread
    rw [show Reader.wholeProgram (s.remaining + 1) s = .ok tree t from hreader] at hends
    obtain ⟨ts, hreached⟩ := hends hstart
    exact ⟨_, hreached.endsAt (current_of_wholeProgram hreader), hreached.lookahead,
      hreached.lexer⟩
  · rw [heq] at hread
    cases hread
    rw [show Reader.wholeProgram (s.remaining + 1) s = .error (.failed e) t from hreader] at hends
    exact (hends hstart).endsAt

end Ends

end TokenStream

/-- Where reading a text ends, and what has been scanned then. -/
theorem exists_endsAt (source : String) :
    ∃ k, TokenStream.EndsAt source (parse source) (readProgram source).2 k ∧
      ∀ s, TokenStream.ofString source = .ok s →
        (s.read Phrase.wholeProgram).2.lookahead = none ∧
          (s.read Phrase.wholeProgram).2.lexer = (Lexer.ofString source).after k := by
  unfold parse readProgram
  cases hs : TokenStream.ofString source with
  | error e =>
      have hitems := TokenStream.tokenize_of_ofString_error hs
      exact ⟨1, .lexical hitems, fun s h => by cases h⟩
  | ok s =>
      rcases hread : s.read Phrase.wholeProgram with ⟨outcome, t⟩
      obtain ⟨k, hends, hlook, hlexer⟩ := TokenStream.endsAt_read hs hread
      refine ⟨k, ?_, ?_⟩
      · simp only [hread]
        exact hends
      · rintro _ ⟨⟩
        rw [hread]
        exact ⟨hlook, hlexer⟩

/-! ## The log -/

/-- The token that an event reports, if it reports one. -/
def Event.token? : Event → Option (Located Token)
  | .token t => some t
  | .scope _ => none
  | .run _ => none

/-- The tokens that a log shows, in order, when it is limited to a level. -/
def tokensShown (limit : LogLevel) (log : List Event) : List (Located Token) :=
  (log.filter (Event.isShown limit)).filterMap Event.token?

theorem tokensShown_append (limit : LogLevel) (log log' : List Event) :
    tokensShown limit (log ++ log') = tokensShown limit log ++ tokensShown limit log' := by
  rw [tokensShown, List.filter_append, List.filterMap_append]
  rfl

theorem tokensShown_eq_nil {limit : LogLevel} {log : List Event}
    (h : ∀ e ∈ log, e.token? = none) : tokensShown limit log = [] :=
  List.filterMap_eq_nil_iff.2 fun e he => h e (List.mem_filter.1 he).1

theorem tokensShown_map_token (ts : List (Located Token)) :
    tokensShown .trace (ts.map Event.token) = ts := by
  induction ts with
  | nil => rfl
  | cons first rest ih => exact congrArg (first :: ·) ih

/-- A log begins with the tokens that have been scanned to read its text; the later stages
report none. -/
theorem exists_log_eq (source : String) (maxCallDepth : Nat) :
    ∃ later, (runLogged source maxCallDepth).2
        = (readProgram source).2.map Event.token ++ later ∧ ∀ e ∈ later, e.token? = none := by
  unfold runLogged
  rcases readProgram source with ⟨parsed, tokens⟩
  cases parsed with
  | error e => exact ⟨[], (List.append_nil _).symm, fun _ hmem => absurd hmem List.not_mem_nil⟩
  | ok tree =>
      rcases hcheck : tree.check with ⟨checked, scopeEvents⟩
      cases checked with
      | error e =>
          refine ⟨scopeEvents.map Event.scope, by simp only [hcheck], ?_⟩
          simp [Event.token?]
      | ok a =>
          refine ⟨scopeEvents.map Event.scope ++ (interpret tree a maxCallDepth).2.map Event.run,
            by simp only [hcheck, List.append_assoc], ?_⟩
          simp only [List.mem_append, List.mem_map]
          rintro e (⟨event, -, rfl⟩ | ⟨event, -, rfl⟩)
          · rfl
          · rfl

/-- **Scanning runs on demand.**  The tokens logged when a text is run come first in the log and
are, in order, those of the text up to where reading it ends: all of them for a program, those in
front of the lexical error that is returned, or those up to the token that a grammar error is
about.  Exactly these items have been scanned then, and nothing that stands behind them. -/
theorem runLogged_onDemand (source : String) (maxCallDepth : Nat) :
    ∃ tokens k, TokenStream.EndsAt source (parse source) tokens k ∧
      tokensShown .trace (runLogged source maxCallDepth).2 = tokens ∧
      (∃ later, (runLogged source maxCallDepth).2 = tokens.map Event.token ++ later ∧
        ∀ e ∈ later, e.token? = none) ∧
      ∀ s, TokenStream.ofString source = .ok s →
        (s.read Phrase.wholeProgram).2.lookahead = none ∧
          (s.read Phrase.wholeProgram).2.lexer = (Lexer.ofString source).after k := by
  obtain ⟨later, hlog, hlater⟩ := exists_log_eq source maxCallDepth
  have hshown : tokensShown .trace (runLogged source maxCallDepth).2 = (readProgram source).2 := by
    rw [hlog, tokensShown_append, tokensShown_map_token, tokensShown_eq_nil hlater,
      List.append_nil]
  obtain ⟨k, hends, hscanned⟩ := exists_endsAt source
  exact ⟨_, k, hends, hshown, ⟨later, hlog, hlater⟩, hscanned⟩

/-- A semicolon is missing in front of the second name, and what stands behind that name is no
token. -/
example : (tokensShown .trace (runLogged "PROGRAM a b $" 0).2).map (fun t => t.value.describe)
    = ["'PROGRAM'", "identifier 'a'", "identifier 'b'"] := by decide +kernel

end MiniPascal
