/-
# The token stream

A reader of tokens stands at a current token and may look one token ahead.  Tokens are
scanned on demand: advancing and looking ahead scan at most one token each, and a fault
of that scan leaves the current token in place.

* `TokenStream.advance_peekNext` : the token that a look ahead shows is the one that the
  next advance makes current;
* `TokenStream.advance_eq_peekNext` : advancing is looking ahead and taking what is shown.
-/
import MiniPascal.Token.Lexer

set_option autoImplicit false

namespace MiniPascal

/-! ## Errors -/

/-- Why a sequence of tokens is no program. -/
inductive GrammarFault where
  | unexpectedToken (found : Token) (expected : String)
  | trailingTokens (found : Token)

/-- The wording of a grammar fault. -/
def GrammarFault.text : GrammarFault → String
  | .unexpectedToken found expected =>
    "Unexpected token " ++ found.describe ++ ", expected " ++ expected ++ "."
  | .trailingTokens found =>
    "Extra tokens after the end of the program: " ++ found.describe ++ "."

/-- A grammar fault and its place. -/
abbrev GrammarError := Located GrammarFault

/-- The wording of a grammar error. -/
def GrammarError.message (e : GrammarError) : String :=
  "Syntax error on " ++ e.position.text ++ ": " ++ e.value.text

/-- Why a text cannot be read: a part of it is no token, or the tokens are no program. -/
inductive ParseError where
  | lexical (e : LexicalError)
  | grammar (e : GrammarError)

namespace ParseError

/-- The wording of a parse error. -/
def message : ParseError → String
  | .lexical e => e.message
  | .grammar e => GrammarError.message e

/-- The place of a parse error. -/
def position : ParseError → Position
  | .lexical e => e.position
  | .grammar e => e.position

end ParseError

/-- Why reading stops early: an error in the text, or a budget of steps that does not
suffice. -/
inductive Halt where
  | failed (e : ParseError)
  | outOfSteps

/-! ## The stream -/

/-- The state of a reader: the cursor behind the scanned tokens, the current token, the
token after it if it has been looked at, the next free node number, and the tokens
scanned so far, the latest first. -/
structure TokenStream where
  lexer : Lexer
  current : Located Token
  lookahead : Option (Located Token)
  nextId : Nat
  scanned : List (Located Token)

/-- An action on a stream; what it does to the stream stays done if it fails. -/
abbrev Reader := EStateM Halt TokenStream

namespace TokenStream

/-- The tokens scanned once `token` has been; the end of the input does not count. -/
def note (token : Located Token) (scanned : List (Located Token)) : List (Located Token) :=
  match token.value with
  | .endOfInput => scanned
  | _ => token :: scanned

/-- The stream at the first token of a text. -/
def ofString (source : String) : Except LexicalError TokenStream :=
  match (Lexer.ofString source).next with
  | (.ok token, lexer) => .ok ⟨lexer, token, none, 0, note token []⟩
  | (.error e, _) => .error e

/-- Scan one more token. -/
def scan : Reader (Located Token) := fun s =>
  match s.lexer.next with
  | (.ok token, lexer) => .ok token { s with lexer := lexer, scanned := note token s.scanned }
  | (.error e, lexer) => .error (.failed (.lexical e)) { s with lexer := lexer }

/-- Stop with a grammar fault at the current token. -/
def unexpected {α : Type} (expected : String) : Reader α := fun s =>
  .error (.failed (.grammar ⟨.unexpectedToken s.current.value expected, s.current.position⟩)) s

/-- Stop because the current token stands behind a complete program. -/
def trailing {α : Type} : Reader α := fun s =>
  .error (.failed (.grammar ⟨.trailingTokens s.current.value, s.current.position⟩)) s

/-- The current token. -/
def peekCurrent : Reader (Located Token) := fun s => .ok s.current s

/-- The token after the current one, which stays where it is. -/
def peekNext : Reader (Located Token) := fun s =>
  match s.lookahead with
  | some token => .ok token s
  | none =>
    match scan s with
    | .ok token s => .ok token { s with lookahead := some token }
    | .error e s => .error e s

/-- Move on to the next token; the answer is the token that was current. -/
def advance : Reader (Located Token) := fun s =>
  match s.lookahead with
  | some token => .ok s.current { s with current := token, lookahead := none }
  | none =>
    match scan s with
    | .ok token t => .ok s.current { t with current := token }
    | .error e t => .error e t

/-- Whether the current token equals `token`. -/
def check (token : Token) : Reader Bool := fun s => .ok (s.current.value == token) s

/-- Move past the current token if it equals `expected`. -/
def eat (expected : Token) : Reader (Located Token) := do
  if ← check expected then advance else unexpected expected.describe

/-- Move past the current token and go on with `yes` if it equals `token`; otherwise go
on with `no`. -/
def ifTaken {α : Type} (token : Token) (yes no : Reader α) : Reader α := do
  if ← check token then
    let _ ← advance
    yes
  else no

/-- The next free node number, which is then taken. -/
def takeId : Reader Nat := fun s => .ok s.nextId { s with nextId := s.nextId + 1 }

/-! ## Looking ahead -/

/-- **Looking ahead shows the next token:** after it, advancing answers as before and
makes the token current that was shown. -/
theorem advance_peekNext {s t : TokenStream} {token : Located Token}
    (h : peekNext s = .ok token t) :
    advance t = .ok s.current { t with current := token, lookahead := none } := by
  unfold peekNext at h
  split at h
  next found hlook =>
    simp only [EStateM.Result.ok.injEq] at h
    obtain ⟨rfl, rfl⟩ := h
    unfold advance
    rw [hlook]
  next hlook =>
    split at h
    next found u hscan =>
      simp only [EStateM.Result.ok.injEq] at h
      obtain ⟨rfl, rfl⟩ := h
      unfold scan at hscan
      split at hscan
      · simp only [EStateM.Result.ok.injEq] at hscan
        obtain ⟨rfl, rfl⟩ := hscan
        rfl
      · cases hscan
    next => cases h

/-- Looking ahead leaves the current token in place. -/
theorem current_peekNext {s t : TokenStream} {token : Located Token}
    (h : peekNext s = .ok token t) : t.current = s.current := by
  have hadvance := advance_peekNext h
  unfold advance at hadvance
  split at hadvance
  next =>
    simp only [EStateM.Result.ok.injEq] at hadvance
    exact hadvance.1
  next =>
    split at hadvance
    next =>
      simp only [EStateM.Result.ok.injEq] at hadvance
      exact hadvance.1
    next => cases hadvance

/-- **Advancing** is looking ahead and taking what is shown. -/
theorem advance_eq_peekNext (s : TokenStream) :
    advance s = match peekNext s with
      | .ok token t => .ok s.current { t with current := token, lookahead := none }
      | .error halt t => .error halt t := by
  unfold advance peekNext
  cases hlook : s.lookahead with
  | some token => rfl
  | none =>
      cases hscan : scan s with
      | error halt t => rfl
      | ok token t =>
          have hsame : t.lookahead = none := by
            unfold scan at hscan
            split at hscan
            · cases hscan
              exact hlook
            · cases hscan
          simp only [← hsame]

end TokenStream

end MiniPascal
