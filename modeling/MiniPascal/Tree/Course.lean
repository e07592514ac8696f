/-
# Courses

What readers do to a stream is told by a *course*: how far they move it, and how they fail.
All readers of the grammar keep to every course, and they do so in rounds: a reader that nests
or repeats comes round to itself with one step less, behind a token.  So a budget of more steps
than tokens remain is enough, and a larger one makes no difference.

* `Course.AlikeAt.bind` : readers that are alike on a course stay so when they read in turn;
* `Reader.alike_of_rounds` : readers that come round are alike if their rounds are;
* `Reader.named_eq` : a token that has been looked at is taken at once;
* `Reader.alike_factor`, `Reader.alike_statement`, `Reader.alike_procedure` : the three readers
  that nest;
* `Reader.alike_wholeProgram` : the reader of a whole program.
-/
import MiniPascal.Tree.Parser

set_option autoImplicit false

namespace MiniPascal

open TokenStream

/-! ## Courses -/

/-- How far readers may move a stream, and how they may fail. -/
structure Course where
  /-- One state of a stream stands behind another one, `i` tokens or more further on. -/
  Moves (i : Nat) (s t : TokenStream) : Prop
  /-- Reading from one state may fail with an error in another one. -/
  Fails (s : TokenStream) (e : ParseError) (t : TokenStream) : Prop
  refl (s : TokenStream) : Moves 0 s s
  trans {i j : Nat} {s t u : TokenStream} : Moves i s t → Moves j t u → Moves (i + j) s u
  mono {i j : Nat} {s t : TokenStream} : Moves j s t → i ≤ j → Moves i s t
  fails_behind {i : Nat} {s t u : TokenStream} {e : ParseError} :
    Moves i s t → Fails t e u → Fails s e u
  moves_takeId (s : TokenStream) : Moves 0 s { s with nextId := s.nextId + 1 }
  moves_advance {s t : TokenStream} {token : Located Token} : s.current.value ≠ .endOfInput →
    advance s = .ok token t → Moves 1 s t
  fails_advance {s t : TokenStream} {e : LexicalError} : s.current.value ≠ .endOfInput →
    advance s = .error (.failed (.lexical e)) t → Fails s (.lexical e) t
  fails_unexpected (s : TokenStream) (expected : String) :
    Fails s (.grammar ⟨.unexpectedToken s.current.value expected, s.current.position⟩) s
  fails_trailing (s : TokenStream) :
    Fails s (.grammar ⟨.trailingTokens s.current.value, s.current.position⟩) s

namespace Course

section Alike

variable {α β : Type} {C : Course} {spare : Prop} {origin s t : TokenStream}
  {i j k n m : Nat} {p q : Reader α} {f g : α → Reader β}

/-- How a reader ends that takes `i` tokens or more; `spare` says whether it may run out of
steps. -/
def Ends (C : Course) (spare : Prop) (i : Nat) (s : TokenStream) :
    EStateM.Result Halt TokenStream α → Prop
  | .ok _ t => C.Moves i s t
  | .error (.failed e) t => C.Fails s e t
  | .error .outOfSteps _ => spare

/-- Two readers answer the same here, and keep to the course. -/
def AlikeAt (C : Course) (spare : Prop) (i : Nat) (p q : Reader α) (s : TokenStream) : Prop :=
  p s = q s ∧ C.Ends spare i s (p s)

/-- Two readers are alike wherever `j` tokens or more have been taken since the origin. -/
def Alike (C : Course) (spare : Prop) (origin : TokenStream) (j i : Nat)
    (p q : Reader α) : Prop :=
  ∀ s, C.Moves j origin s → C.AlikeAt spare i p q s

/-- Two budgets are enough where `j` tokens or more have been taken since the origin: both are
larger than the number of tokens that remain, or they are the same and may run out. -/
def Enough (C : Course) (spare : Prop) (origin : TokenStream) (j n m : Nat) : Prop :=
  n = m ∧ spare ∨ ∀ i s, C.Moves i origin s → i < n + j ∧ i < m + j

/-- To take fewer tokens is a weaker condition. -/
theorem Ends.mono {r : EStateM.Result Halt TokenStream α} (h : C.Ends spare j s r)
    (hij : i ≤ j) : C.Ends spare i s r := by
  cases r with
  | ok x t => exact C.mono h hij
  | error halt t =>
      cases halt with
      | failed e => exact h
      | outOfSteps => exact h

/-- What ends behind tokens that have been taken. -/
theorem Ends.behind {r : EStateM.Result Halt TokenStream α} (hst : C.Moves i s t)
    (h : C.Ends spare j t r) : C.Ends spare (i + j) s r := by
  cases r with
  | ok x u => exact C.trans hst h
  | error halt u =>
      cases halt with
      | failed e => exact C.fails_behind hst h
      | outOfSteps => exact h

theorem AlikeAt.weaken (h : C.AlikeAt spare j p q s) (hij : i ≤ j) : C.AlikeAt spare i p q s :=
  ⟨h.1, h.2.mono hij⟩

/-- **Reading in turn.**  The tokens that are taken add up. -/
theorem AlikeAt.bind (hp : C.AlikeAt spare i p q s)
    (hf : ∀ x t, C.Moves i s t → C.AlikeAt spare j (f x) (g x) t) (hk : k ≤ i + j) :
    C.AlikeAt spare k (p >>= f) (q >>= g) s := by
  obtain ⟨heq, hends⟩ := hp
  show EStateM.bind p f s = EStateM.bind q g s ∧ C.Ends spare k s (EStateM.bind p f s)
  unfold EStateM.bind
  rw [← heq]
  cases hps : p s with
  | ok x t =>
      rw [hps] at hends
      obtain ⟨hsame, hrest⟩ := hf x t hends
      exact ⟨hsame, (hrest.behind hends).mono hk⟩
  | error halt t =>
      rw [hps] at hends
      cases halt with
      | failed e => exact ⟨rfl, hends⟩
      | outOfSteps => exact ⟨rfl, hends⟩

/-- Readers that take tokens may as well take none. -/
theorem Alike.weaken (h : C.Alike spare origin j i p q) : C.Alike spare origin j 0 p q :=
  fun s hs => (h s hs).weaken (Nat.zero_le i)

theorem Alike.further (h : C.Alike spare origin j i p q) (hjk : j ≤ k) :
    C.Alike spare origin k i p q :=
  fun s hs => h s (C.mono hs hjk)

theorem Alike.bind (hp : C.Alike spare origin j 0 p q)
    (hf : ∀ x, C.Alike spare origin j i (f x) (g x)) :
    C.Alike spare origin j i (p >>= f) (q >>= g) :=
  fun s hs => (hp s hs).bind (fun x t ht => hf x t (C.trans hs ht)) (by omega)

theorem Alike.bind_eat (hp : C.Alike spare origin j 1 p q)
    (hf : ∀ x, C.Alike spare origin (j + 1) 0 (f x) (g x)) :
    C.Alike spare origin j 1 (p >>= f) (q >>= g) :=
  fun s hs => (hp s hs).bind (fun x t ht => hf x t (C.trans hs ht)) (by omega)

/-- As many steps for both are enough if they may run out. -/
theorem Enough.same (hspare : spare) : C.Enough spare origin j n n := Or.inl ⟨rfl, hspare⟩

/-- Enough steps stay enough further on. -/
theorem Enough.further (h : C.Enough spare origin j n m) (hjk : j ≤ k) :
    C.Enough spare origin k n m := by
  rcases h with h | h
  · exact Or.inl h
  · refine Or.inr fun i s hs => ?_
    have hless := h i s hs
    omega

/-- One step less is enough behind one more token. -/
theorem Enough.step (h : C.Enough spare origin j (n + 1) (m + 1)) :
    C.Enough spare origin (j + 1) n m := by
  rcases h with ⟨hsame, hspare⟩ | h
  · exact Or.inl ⟨Nat.succ.inj hsame, hspare⟩
  · refine Or.inr fun i s hs => ?_
    have hless := h i s hs
    omega

theorem Enough.zero (h : C.Enough spare origin j 0 m) (hs : C.Moves j origin s) :
    m = 0 ∧ spare := by
  rcases h with ⟨hsame, hspare⟩ | h
  · exact ⟨hsame.symm, hspare⟩
  · have hless := (h j s hs).1
    omega

theorem Enough.succ (h : C.Enough spare origin j (n + 1) m) (hs : C.Moves j origin s) :
    ∃ k, m = k + 1 := by
  rcases h with ⟨hsame, -⟩ | h
  · exact ⟨n, hsame.symm⟩
  · have hless := (h j s hs).2
    exact ⟨m - 1, by omega⟩

end Alike

end Course

namespace Reader

open Course

variable {α β : Type} {C : Course} {spare : Prop} {origin s : TokenStream} {i j n m : Nat}

/-! ## Steps -/

theorem alikeAt_peekCurrent {f g : Located Token → Reader α}
    (h : C.AlikeAt spare i (f s.current) (g s.current) s) :
    C.AlikeAt spare i (peekCurrent >>= f) (peekCurrent >>= g) s := h

theorem alike_pure (x : α) : C.Alike spare origin j 0 (pure x) (pure x) :=
  fun s _ => ⟨rfl, C.refl s⟩

theorem alike_unexpected (expected : String) :
    C.Alike spare origin j i (unexpected expected : Reader α) (unexpected expected) :=
  fun s _ => ⟨rfl, C.fails_unexpected s expected⟩

theorem alike_trailing : C.Alike spare origin j i (trailing : Reader α) trailing :=
  fun s _ => ⟨rfl, C.fails_trailing s⟩

theorem alike_takeId : C.Alike spare origin j 0 takeId takeId :=
  fun s _ => ⟨rfl, C.moves_takeId s⟩

theorem alike_check (token : Token) : C.Alike spare origin j 0 (check token) (check token) :=
  fun s _ => ⟨rfl, C.refl s⟩

theorem alike_atIdentifier : C.Alike spare origin j 0 atIdentifier atIdentifier :=
  fun s _ => ⟨rfl, C.refl s⟩

/-- **Advancing** fails only where scanning does. -/
theorem lexical_of_advance {t : TokenStream} {halt : Halt} (h : advance s = .error halt t) :
    ∃ e, halt = .failed (.lexical e) := by
  unfold advance at h
  split at h
  · cases h
  · split at h
    · cases h
    next halt' u hscan =>
      cases h
      unfold scan at hscan
      split at hscan
      · cases hscan
      next e _ _ =>
        cases hscan
        exact ⟨e, rfl⟩

/-- Advancing past a token takes it. -/
theorem alikeAt_advance (h : s.current.value ≠ .endOfInput) :
    C.AlikeAt spare 1 advance advance s := by
  refine ⟨rfl, ?_⟩
  cases hadvance : advance s with
  | ok token t => exact C.moves_advance h hadvance
  | error halt t =>
      obtain ⟨e, rfl⟩ := lexical_of_advance hadvance
      exact C.fails_advance h hadvance

theorem alikeAt_advance_bind {f g : Located Token → Reader α} (hs : C.Moves j origin s)
    (h : s.current.value ≠ .endOfInput)
    (hf : ∀ x, C.Alike spare origin (j + 1) 0 (f x) (g x)) :
    C.AlikeAt spare 1 (advance >>= f) (advance >>= g) s :=
  (alikeAt_advance h).bind (fun x t ht => hf x t (C.trans hs ht)) (by omega)

/-- A token that equals a reserved word or a symbol is not the end of the input. -/
theorem ne_endOfInput_of_beq {value token : Token} (h : (value == token) = true)
    (htoken : token ≠ .endOfInput) : value ≠ .endOfInput := by
  rintro rfl
  cases token <;> first | exact htoken rfl | cases h

/-- Going on behind a token, or without it. -/
theorem alike_ifTaken {token : Token} {yes yes' no no' : Reader α}
    (htoken : token ≠ .endOfInput) (hyes : C.Alike spare origin (j + 1) 0 yes yes')
    (hno : C.Alike spare origin j i no no') (hi : i ≤ 1) :
    C.Alike spare origin j i (ifTaken token yes no) (ifTaken token yes' no') := by
  intro s hs
  cases hcheck : s.current.value == token with
  | true =>
      have hyes_eq : ∀ r r' : Reader α,
          ifTaken token r r' s = (advance >>= fun _ => r) s := by
        intro r r'
        show (if s.current.value == token then advance >>= fun _ => r else r') s = _
        rw [hcheck, if_pos rfl]
      have halike := alikeAt_advance_bind hs (ne_endOfInput_of_beq hcheck htoken) fun _ => hyes
      unfold AlikeAt
      rw [hyes_eq, hyes_eq]
      exact halike.weaken hi
  | false =>
      have hno_eq : ∀ r r' : Reader α, ifTaken token r r' s = r' s := by
        intro r r'
        show (if s.current.value == token then advance >>= fun _ => r else r') s = _
        rw [hcheck, if_neg Bool.false_ne_true]
      unfold AlikeAt
      rw [hno_eq, hno_eq]
      exact hno s hs

/-- Moving past a required token takes it. -/
theorem alike_eat {token : Token} (htoken : token ≠ .endOfInput) :
    C.Alike spare origin j 1 (eat token) (eat token) := by
  intro s hs
  cases hcheck : s.current.value == token with
  | true =>
      have heat : eat token s = advance s := by
        show (if s.current.value == token then advance else unexpected token.describe) s = _
        rw [hcheck, if_pos rfl]
      unfold AlikeAt
      rw [heat]
      exact alikeAt_advance (ne_endOfInput_of_beq hcheck htoken)
  | false =>
      have heat : eat token s = unexpected token.describe s := by
        show (if s.current.value == token then advance else unexpected token.describe) s = _
        rw [hcheck, if_neg Bool.false_ne_true]
      unfold AlikeAt
      rw [heat]
      exact alike_unexpected _ s hs

/-! ## Rounds -/

theorem alike_outOfSteps (hspare : spare) :
    C.Alike spare origin j i (outOfSteps : Reader α) outOfSteps :=
  fun _ _ => ⟨rfl, hspare⟩

/-- **Readers that come round** are alike if their rounds are, with one more token taken
wherever a round comes to the next one. -/
theorem alike_of_rounds {reader reader' : Nat → Reader α} {round round' : Nat → Reader α → Reader α}
    (hzero : reader 0 = outOfSteps) (hzero' : reader' 0 = outOfSteps)
    (hsucc : ∀ n, reader (n + 1) = round n (reader n))
    (hsucc' : ∀ n, reader' (n + 1) = round' n (reader' n))
    (hround : ∀ {k n m}, j ≤ k → C.Enough spare origin k (n + 1) (m + 1) →
      ∀ {again again'}, C.Alike spare origin (k + 1) i again again' →
        C.Alike spare origin k i (round n again) (round' m again'))
    (h : C.Enough spare origin j n m) :
    C.Alike spare origin j i (reader n) (reader' m) := by
  induction n generalizing j m with
  | zero =>
      intro s hs
      obtain ⟨rfl, hspare⟩ := h.zero hs
      rw [hzero, hzero']
      exact alike_outOfSteps hspare s hs
  | succ n ih =>
      intro s hs
      obtain ⟨m, rfl⟩ := h.succ hs
      have hagain := ih (fun hk => hround (Nat.le_of_succ_le hk)) h.step
      rw [hsucc, hsucc']
      exact hround (Nat.le_refl j) h hagain s hs

/-! ## Repetition -/

/-- One item, and what comes round behind a separator. -/
def separatedRound (item : Reader α) (separator : Token) (again : Reader (List α)) :
    Reader (List α) := do
  let first ← item
  ifTaken separator
    (do
      let rest ← again
      return first :: rest)
    (return [first])

/-- One item if it may start, and what comes round behind it. -/
def whileStartsRound (starts : Reader Bool) (item : Reader α) (again : Reader (List α)) :
    Reader (List α) := do
  if ← starts then
    let first ← item
    let rest ← again
    return first :: rest
  else return []

/-- An operator that belongs here and an operand, and what comes round behind them. -/
def chainRound (operand : Reader Expr) (belongs : Operator → Bool)
    (again : Expr → Reader Expr) (left : Expr) : Reader Expr := do
  let token ← peekCurrent
  match token.value.operator? with
  | some op =>
    if belongs op then
      let _ ← advance
      let right ← operand
      again (.binary op left right token.position)
    else return left
  | none => return left

/-- One round of items behind separators. -/
theorem alike_separatedRound {item item' : Reader α} {separator : Token}
    {again again' : Reader (List α)} (htoken : separator ≠ .endOfInput)
    (hitem : C.Alike spare origin j i item item')
    (hagain : C.Alike spare origin (j + 1) 0 again again') :
    C.Alike spare origin j i (separatedRound item separator again)
      (separatedRound item' separator again') := by
  intro s hs
  refine (hitem s hs).bind (j := 0) (fun x t ht => ?_) (Nat.le_refl i)
  refine alike_ifTaken htoken ?_ (alike_pure [x]) (Nat.zero_le 1) t
    (C.mono (C.trans hs ht) (Nat.le_add_right j i))
  exact hagain.bind fun _ => alike_pure _

theorem alike_separated {item item' : Reader α} {separator : Token}
    (htoken : separator ≠ .endOfInput) (hitem : C.Alike spare origin j i item item')
    (h : C.Enough spare origin j n m) :
    C.Alike spare origin j i (separated item separator n) (separated item' separator m) :=
  alike_of_rounds rfl rfl (fun _ => rfl) (fun _ => rfl)
    (fun hk _ _ _ hagain => alike_separatedRound htoken (hitem.further hk) hagain.weaken) h

/-- One round of items as long as one may start. -/
theorem alike_whileStartsRound {starts : Reader Bool} {item item' : Reader α}
    {again again' : Reader (List α)} (hstarts : C.Alike spare origin j 0 starts starts)
    (hitem : C.Alike spare origin j 1 item item')
    (hagain : C.Alike spare origin (j + 1) 0 again again') :
    C.Alike spare origin j 0 (whileStartsRound starts item again)
      (whileStartsRound starts item' again') := by
  refine hstarts.bind fun more => ?_
  cases more with
  | false => exact alike_pure []
  | true => exact (hitem.bind_eat fun _ => hagain.bind fun _ => alike_pure _).weaken

theorem alike_whileStarts {starts : Reader Bool} {item item' : Reader α}
    (hstarts : C.Alike spare origin j 0 starts starts)
    (hitem : C.Alike spare origin j 1 item item') (h : C.Enough spare origin j n m) :
    C.Alike spare origin j 0 (whileStarts starts item n) (whileStarts starts item' m) :=
  alike_of_rounds rfl rfl (fun _ => rfl) (fun _ => rfl)
    (fun hk _ _ _ => alike_whileStartsRound (hstarts.further hk) (hitem.further hk)) h

/-- A token that stands for an operator is not the end of the input. -/
theorem ne_endOfInput_of_operator {token : Token} {op : Operator}
    (h : token.operator? = some op) : token ≠ .endOfInput := by
  rintro rfl
  cases h

/-- One round of operands joined by operators. -/
theorem alike_chainRound {operand operand' : Reader Expr} {belongs : Operator → Bool}
    {again again' : Expr → Reader Expr} (hoperand : C.Alike spare origin (j + 1) 0 operand operand')
    (hagain : ∀ left, C.Alike spare origin (j + 1) 0 (again left) (again' left)) (left : Expr) :
    C.Alike spare origin j 0 (chainRound operand belongs again left)
      (chainRound operand' belongs again' left) := by
  refine fun s hs => alikeAt_peekCurrent ?_
  cases hop : s.current.value.operator? with
  | none => exact alike_pure left s hs
  | some op =>
      dsimp only
      cases belongs op with
      | false => exact alike_pure left s hs
      | true =>
          exact (alikeAt_advance_bind hs (ne_endOfInput_of_operator hop) fun _ =>
            hoperand.bind fun _ => hagain _).weaken (Nat.zero_le 1)

/-- Operands joined by operators. -/
theorem alike_chain {operand operand' : Reader Expr} {belongs : Operator → Bool}
    (hoperand : C.Alike spare origin j 0 operand operand') (h : C.Enough spare origin j n m)
    (left : Expr) :
    C.Alike spare origin j 0 (chain operand belongs n left) (chain operand' belongs m left) := by
  -- what has been read so far changes from round to round
  induction n generalizing j m left with
  | zero =>
      intro s hs
      obtain ⟨rfl, hspare⟩ := h.zero hs
      exact alike_outOfSteps hspare s hs
  | succ n ih =>
      intro s hs
      obtain ⟨m, rfl⟩ := h.succ hs
      have hfurther := hoperand.further (Nat.le_succ j)
      exact alike_chainRound hfurther (fun left => ih hfurther h.step left) left s hs

/-! ## Names and types -/

theorem alike_identifier : C.Alike spare origin j 1 identifier identifier := by
  refine fun s hs => alikeAt_peekCurrent ?_
  split
  next name hvalue => exact alikeAt_advance_bind hs (by rw [hvalue]; simp) fun _ => alike_pure _
  next => exact alike_unexpected _ s hs

theorem alike_typeName : C.Alike spare origin j 1 typeName typeName := by
  refine fun s hs => alikeAt_peekCurrent ?_
  split
  next hvalue => exact alikeAt_advance_bind hs (by rw [hvalue]; simp) fun _ => alike_pure _
  next hvalue => exact alikeAt_advance_bind hs (by rw [hvalue]; simp) fun _ => alike_pure _
  next => exact alike_unexpected _ s hs

theorem alike_occurrence : C.Alike spare origin j 1 occurrence occurrence :=
  alike_identifier.bind_eat fun _ => alike_takeId.bind fun _ => alike_pure _

theorem alike_identifiers (h : C.Enough spare origin j n m) :
    C.Alike spare origin j 1 (identifiers n) (identifiers m) :=
  alike_separated (by simp) alike_identifier h

/-! ## Expressions -/

/-- A factor, given readers of signed factors and of expressions in parentheses. -/
def factorFrom (signed inner : Reader Expr) : Reader Expr := do
  let token ← peekCurrent
  match token.value with
  | .symbol .plus =>
    let _ ← advance
    let operand ← signed
    return .signed .plus operand token.position
  | .symbol .minus =>
    let _ ← advance
    let operand ← signed
    return .signed .minus operand token.position
  | .number value =>
    let _ ← advance
    return .literal value token.position
  | .symbol .leftParen =>
    let _ ← advance
    let inner ← inner
    let _ ← eat (.symbol .rightParen)
    return inner
  | .identifier _ =>
    let v ← occurrence
    return .occurrence v
  | _ => unexpected "expression"

/-- An expression, given a reader of terms. -/
def expressionFrom (term : Reader Expr) (steps : Nat) : Reader Expr := do
  let left ← term
  chain term isAdditive steps left

/-- A factor around a factor: behind a sign, or first in parentheses. -/
def factorRound (steps : Nat) (again : Reader Expr) : Reader Expr :=
  factorFrom again (expressionOf again steps)

/-- What stands in a factor stands behind its first token. -/
theorem alike_factorFrom {signed signed' inner inner' : Reader Expr}
    (hsigned : C.Alike spare origin (j + 1) 0 signed signed')
    (hinner : C.Alike spare origin (j + 1) 0 inner inner') :
    C.Alike spare origin j 1 (factorFrom signed inner) (factorFrom signed' inner') := by
  refine fun s hs => alikeAt_peekCurrent ?_
  split
  next hvalue =>
    exact alikeAt_advance_bind hs (by rw [hvalue]; simp) fun _ =>
      hsigned.bind fun _ => alike_pure _
  next hvalue =>
    exact alikeAt_advance_bind hs (by rw [hvalue]; simp) fun _ =>
      hsigned.bind fun _ => alike_pure _
  next hvalue => exact alikeAt_advance_bind hs (by rw [hvalue]; simp) fun _ => alike_pure _
  next hvalue =>
    exact alikeAt_advance_bind hs (by rw [hvalue]; simp) fun _ =>
      hinner.bind fun _ => (alike_eat (by simp)).weaken.bind fun _ => alike_pure _
  next => exact alike_occurrence.bind_eat (fun _ => alike_pure _) s hs
  next => exact alike_unexpected _ s hs

/-- A term, given a reader of factors. -/
theorem alike_termOf {factor factor' : Reader Expr}
    (hfactor : C.Alike spare origin j i factor factor') (h : C.Enough spare origin j n m) :
    C.Alike spare origin j i (termOf factor n) (termOf factor' m) := by
  refine fun s hs => (hfactor s hs).bind (j := 0) (fun left t ht => ?_) (Nat.le_refl i)
  have hagain : C.Alike spare origin j 0 factor factor' :=
    fun u hu => (hfactor u hu).weaken (Nat.zero_le i)
  exact alike_chain hagain h left t (C.mono (C.trans hs ht) (Nat.le_add_right j i))

/-- An expression, given a reader of terms. -/
theorem alike_expressionFrom {term term' : Reader Expr}
    (hterm : C.Alike spare origin j i term term') (h : C.Enough spare origin j n m) :
    C.Alike spare origin j i (expressionFrom term n) (expressionFrom term' m) := by
  refine fun s hs => (hterm s hs).bind (j := 0) (fun left t ht => ?_) (Nat.le_refl i)
  have hagain : C.Alike spare origin j 0 term term' :=
    fun u hu => (hterm u hu).weaken (Nat.zero_le i)
  exact alike_chain hagain h left t (C.mono (C.trans hs ht) (Nat.le_add_right j i))

/-- Factors come round. -/
theorem alike_factorRound {again again' : Reader Expr} (h : C.Enough spare origin (j + 1) n m)
    (hagain : C.Alike spare origin (j + 1) 1 again again') :
    C.Alike spare origin j 1 (factorRound n again) (factorRound m again') :=
  alike_factorFrom hagain.weaken (alike_expressionFrom (alike_termOf hagain h) h).weaken

/-- **Factors.** -/
theorem alike_factor (h : C.Enough spare origin j n m) :
    C.Alike spare origin j 1 (factor n) (factor m) :=
  alike_of_rounds rfl rfl (fun _ => rfl) (fun _ => rfl)
    (fun _ henough _ _ => alike_factorRound henough.step) h

theorem alike_term (h : C.Enough spare origin j n m) :
    C.Alike spare origin j 1 (term n) (term m) :=
  alike_termOf (alike_factor h) h

theorem alike_expression (h : C.Enough spare origin j n m) :
    C.Alike spare origin j 1 (expression n) (expression m) :=
  alike_expressionFrom (alike_term h) h

/-! ## Statements -/

theorem alike_arguments (h : C.Enough spare origin j n m) :
    C.Alike spare origin j 1 (arguments n) (arguments m) := by
  refine alike_ifTaken (by simp) (alike_pure _) ?_ (Nat.le_refl 1)
  refine (alike_separated (by simp) (alike_expression h) h).bind_eat fun _ => ?_
  exact alike_ifTaken (by simp) (alike_pure _) (alike_unexpected _) (Nat.zero_le 1)

theorem alike_call (h : C.Enough spare origin j n m) :
    C.Alike spare origin j 1 (call n) (call m) := by
  have hfurther := h.further (Nat.le_succ j)
  exact alike_identifier.bind_eat fun _ => (alike_eat (by simp)).weaken.bind fun _ =>
    (alike_arguments hfurther).weaken.bind fun _ => alike_takeId.bind fun _ => alike_pure _

theorem alike_assignment (h : C.Enough spare origin j n m) :
    C.Alike spare origin j 1 (assignment n) (assignment m) := by
  have hfurther := h.further (Nat.le_succ j)
  exact alike_occurrence.bind_eat fun _ => (alike_eat (by simp)).weaken.bind fun _ =>
    (alike_expression hfurther).weaken.bind fun _ => alike_pure _

/-- A statement that begins with a name: the token behind it tells a call from an
assignment. -/
def named (steps : Nat) : Reader Statement := do
  let next ← peekNext
  if next.value == .symbol .leftParen then
    let c ← call steps
    return .call c
  else assignment steps

/-- A call behind its name. -/
def callBehind (name : Located String) (steps : Nat) : Reader Call := do
  let _ ← eat (.symbol .leftParen)
  let values ← arguments steps
  let id ← takeId
  return ⟨name.value, id, values, name.position⟩

/-- An assignment behind the name of its target. -/
def assignmentBehind (name : Located String) (steps : Nat) : Reader Statement := do
  let id ← takeId
  let sign ← eat (.symbol .assign)
  let value ← expression steps
  return .assign ⟨name.value, id, name.position⟩ value sign.position

/-- A statement behind the name that it begins with. -/
def namedBehind (name : Located String) (steps : Nat) : Reader Statement := do
  if ← check (.symbol .leftParen) then
    let c ← callBehind name steps
    return .call c
  else assignmentBehind name steps

/-- **Looking ahead is spent at once**: a statement that begins with a name is read as if the
name were passed before the token behind it is looked at. -/
theorem named_eq {name : String} (hs : s.current.value = .identifier name) (steps : Nat) :
    named steps s
      = (advance >>= fun _ => namedBehind ⟨name, s.current.position⟩ steps) s := by
  show EStateM.bind peekNext _ s = EStateM.bind advance _ s
  unfold EStateM.bind
  rw [advance_eq_peekNext]
  cases hpeek : peekNext s with
  | error halt t => rfl
  | ok next t =>
      dsimp only
      have hcurrent : t.current = s.current := current_peekNext hpeek
      have hidentifier : identifier t = .ok ⟨name, s.current.position⟩
          { t with current := next, lookahead := none } := by
        unfold identifier
        simp only [bind, EStateM.bind, peekCurrent, hcurrent, hs, advance_peekNext hpeek]
        rfl
      have hcheck : ∀ yes no : Reader Statement,
          (check (.symbol .leftParen) >>= fun more => if more = true then yes else no)
              { t with current := next, lookahead := none }
            = (if (next.value == .symbol .leftParen) = true then yes else no)
              { t with current := next, lookahead := none } := fun _ _ => rfl
      unfold namedBehind
      rw [hcheck]
      by_cases hparen : (next.value == .symbol .leftParen) = true
      · rw [if_pos hparen, if_pos hparen]
        show EStateM.bind (EStateM.bind identifier fun name => callBehind name steps) _ t = _
        unfold EStateM.bind
        rw [hidentifier]
        rfl
      · rw [if_neg hparen, if_neg hparen]
        show EStateM.bind (EStateM.bind identifier _) _ t = _
        unfold EStateM.bind
        rw [hidentifier]
        rfl

/-- A statement that begins with a name takes it. -/
theorem alikeAt_named {name : String} (hname : s.current.value = .identifier name)
    (hs : C.Moves j origin s) (h : C.Enough spare origin (j + 1) n m) :
    C.AlikeAt spare 1 (named n) (named m) s := by
  have hbehind : C.Alike spare origin (j + 1) 0
      (namedBehind ⟨name, s.current.position⟩ n) (namedBehind ⟨name, s.current.position⟩ m) := by
    refine (alike_check _).bind fun more => ?_
    cases more with
    | true =>
        exact Alike.bind ((alike_eat (by simp)).weaken.bind fun _ =>
          (alike_arguments h).weaken.bind fun _ => alike_takeId.bind fun _ => alike_pure _)
          fun _ => alike_pure _
    | false =>
        exact alike_takeId.bind fun _ => (alike_eat (by simp)).weaken.bind fun _ =>
          (alike_expression h).weaken.bind fun _ => alike_pure _
  have halike := alikeAt_advance_bind hs (by rw [hname]; simp) fun _ => hbehind
  unfold AlikeAt
  rw [named_eq hname, named_eq hname]
  exact halike

/-- A statement, given a reader of compound statements. -/
def statementFrom (compound : Reader (List Statement)) (steps : Nat) : Reader Statement := do
  let token ← peekCurrent
  match token.value with
  | .keyword .blockBegin =>
    let body ← compound
    return .compound body
  | .identifier _ => named steps
  | _ => return .empty

/-- A statement around statements. -/
def statementRound (steps : Nat) (again : Reader Statement) : Reader Statement :=
  statementFrom (compoundOf again steps) steps

/-- A compound statement takes a token before its first statement. -/
theorem alike_compoundOf {statement statement' : Reader Statement}
    (hstatement : C.Alike spare origin (j + 1) 0 statement statement')
    (h : C.Enough spare origin (j + 1) n m) :
    C.Alike spare origin j 1 (compoundOf statement n) (compoundOf statement' m) :=
  (alike_eat (by simp)).bind_eat fun _ =>
    (alike_separated (by simp) hstatement h).bind fun _ =>
      (alike_eat (by simp)).weaken.bind fun _ => alike_pure _

/-- A statement may take no token. -/
theorem alike_statementFrom {compound compound' : Reader (List Statement)}
    (hcompound : C.Alike spare origin j 0 compound compound')
    (h : C.Enough spare origin (j + 1) n m) :
    C.Alike spare origin j 0 (statementFrom compound n) (statementFrom compound' m) := by
  refine fun s hs => alikeAt_peekCurrent ?_
  split
  next => exact hcompound.bind (fun _ => alike_pure _) s hs
  next name hname => exact (alikeAt_named hname hs h).weaken (Nat.zero_le 1)
  next => exact alike_pure _ s hs

/-- Statements come round. -/
theorem alike_statementRound {again again' : Reader Statement}
    (h : C.Enough spare origin (j + 1) n m)
    (hagain : C.Alike spare origin (j + 1) 0 again again') :
    C.Alike spare origin j 0 (statementRound n again) (statementRound m again') :=
  alike_statementFrom (alike_compoundOf hagain h).weaken h

/-- **Statements.** -/
theorem alike_statement (h : C.Enough spare origin j n m) :
    C.Alike spare origin j 0 (statement n) (statement m) :=
  alike_of_rounds rfl rfl (fun _ => rfl) (fun _ => rfl)
    (fun _ henough _ _ => alike_statementRound henough.step) h

theorem alike_compound (h : C.Enough spare origin j n m) :
    C.Alike spare origin j 1 (compound n) (compound m) :=
  have hfurther := h.further (Nat.le_succ j)
  alike_compoundOf (alike_statement hfurther) hfurther

/-! ## Declarations -/

theorem alike_typed (h : C.Enough spare origin j n m) :
    C.Alike spare origin j 1 (typed n) (typed m) :=
  (alike_identifiers h).bind_eat fun _ => (alike_eat (by simp)).weaken.bind fun _ =>
    alike_typeName.weaken.bind fun _ => alike_pure _

theorem alike_variableLine (h : C.Enough spare origin j n m) :
    C.Alike spare origin j 1 (variableLine n) (variableLine m) :=
  (alike_typed h).bind_eat fun _ => (alike_eat (by simp)).weaken.bind fun _ => alike_pure _

theorem alike_variableSection (h : C.Enough spare origin j n m) :
    C.Alike spare origin j 1 (variableSection n) (variableSection m) := by
  have hfurther := h.further (Nat.le_succ j)
  have hline := alike_variableLine hfurther
  exact (alike_eat (by simp)).bind_eat fun _ => hline.weaken.bind fun _ =>
    (alike_whileStarts alike_atIdentifier hline hfurther).bind fun _ => alike_pure _

theorem alike_parameterGroup (h : C.Enough spare origin j n m) :
    C.Alike spare origin j 1 (parameterGroup n) (parameterGroup m) :=
  (alike_typed h).bind_eat fun _ => alike_pure _

/-- Parameters. -/
theorem alike_parameters (h : C.Enough spare origin j n m) :
    C.Alike spare origin j 0 (parameters n) (parameters m) := by
  have hfurther := h.further (Nat.le_succ j)
  refine alike_ifTaken (by simp) ?_ (alike_pure _) (Nat.zero_le 1)
  refine alike_ifTaken (by simp) (alike_pure _) ?_ (Nat.zero_le 1)
  exact (alike_separated (by simp) (alike_parameterGroup hfurther)
    hfurther).weaken.bind fun _ => (alike_eat (by simp)).weaken.bind fun _ => alike_pure _

theorem alike_declarationsOf {procedure procedure' : Reader Declaration}
    (hprocedure : C.Alike spare origin j 1 procedure procedure')
    (h : C.Enough spare origin j n m) :
    C.Alike spare origin j 0 (declarationsOf procedure n) (declarationsOf procedure' m) :=
  (alike_whileStarts (alike_check _) (alike_variableSection h) h).bind fun _ =>
    (alike_whileStarts (alike_check _) hprocedure h).bind fun _ => alike_pure _

/-- A block, given readers of its parts. -/
def blockFrom (declarations : Reader (List Declaration)) (compound : Reader (List Statement)) :
    Reader Block := do
  let declarations ← declarations
  let body ← compound
  return ⟨declarations, body⟩

/-- A procedure declaration, given a reader of blocks. -/
def procedureFrom (block : Reader Block) (steps : Nat) : Reader Declaration := do
  let _ ← eat (.keyword .procedure)
  let name ← identifier
  let params ← parameters steps
  let _ ← eat (.symbol .semicolon)
  let block ← block
  let _ ← eat (.symbol .semicolon)
  return .procedure name.value params block.declarations block.body name.position

/-- A procedure declaration around procedure declarations. -/
def procedureRound (steps : Nat) (again : Reader Declaration) : Reader Declaration :=
  procedureFrom (blockOf again steps) steps

/-- A block takes a token, at the latest with its body. -/
theorem alike_blockFrom {declarations declarations' : Reader (List Declaration)}
    {compound compound' : Reader (List Statement)}
    (hdeclarations : C.Alike spare origin j 0 declarations declarations')
    (hcompound : C.Alike spare origin j 1 compound compound') :
    C.Alike spare origin j 1 (blockFrom declarations compound)
      (blockFrom declarations' compound') :=
  hdeclarations.bind fun _ => hcompound.bind_eat fun _ => alike_pure _

theorem alike_blockOf {procedure procedure' : Reader Declaration}
    (hprocedure : C.Alike spare origin j 1 procedure procedure')
    (h : C.Enough spare origin j n m) :
    C.Alike spare origin j 1 (blockOf procedure n) (blockOf procedure' m) :=
  alike_blockFrom (alike_declarationsOf hprocedure h) (alike_compound h)

/-- A procedure takes tokens before its block. -/
theorem alike_procedureFrom {block block' : Reader Block}
    (hblock : C.Alike spare origin (j + 1) 0 block block')
    (h : C.Enough spare origin (j + 1) n m) :
    C.Alike spare origin j 1 (procedureFrom block n) (procedureFrom block' m) :=
  (alike_eat (by simp)).bind_eat fun _ => alike_identifier.weaken.bind fun _ =>
    (alike_parameters h).bind fun _ => (alike_eat (by simp)).weaken.bind fun _ =>
      hblock.bind fun _ => (alike_eat (by simp)).weaken.bind fun _ => alike_pure _

/-- Procedures come round. -/
theorem alike_procedureRound {again again' : Reader Declaration}
    (h : C.Enough spare origin (j + 1) n m)
    (hagain : C.Alike spare origin (j + 1) 1 again again') :
    C.Alike spare origin j 1 (procedureRound n again) (procedureRound m again') :=
  alike_procedureFrom (alike_blockOf hagain h).weaken h

/-- **Procedure declarations.** -/
theorem alike_procedure (h : C.Enough spare origin j n m) :
    C.Alike spare origin j 1 (procedure n) (procedure m) :=
  alike_of_rounds rfl rfl (fun _ => rfl) (fun _ => rfl)
    (fun _ henough _ _ => alike_procedureRound henough.step) h

theorem alike_declarations (h : C.Enough spare origin j n m) :
    C.Alike spare origin j 0 (declarations n) (declarations m) :=
  alike_declarationsOf (alike_procedure h) h

theorem alike_block (h : C.Enough spare origin j n m) :
    C.Alike spare origin j 1 (block n) (block m) :=
  alike_blockOf (alike_procedure h) h

/-! ## Programs -/

theorem alike_program (h : C.Enough spare origin j n m) :
    C.Alike spare origin j 1 (program n) (program m) :=
  (alike_eat (by simp)).bind_eat fun _ => alike_identifier.weaken.bind fun _ =>
    (alike_eat (by simp)).weaken.bind fun _ =>
      (alike_block (h.further (Nat.le_succ j))).weaken.bind fun _ =>
        (alike_eat (by simp)).weaken.bind fun _ => alike_pure _

/-- **Whole programs.** -/
theorem alike_wholeProgram (h : C.Enough spare origin j n m) :
    C.Alike spare origin j 1 (wholeProgram n) (wholeProgram m) := by
  refine (alike_program h).bind_eat fun tree => ?_
  refine fun s hs => alikeAt_peekCurrent ?_
  split
  next => exact alike_pure tree s hs
  next => exact alike_trailing s hs

end Reader

end MiniPascal
