/-
# What the readers accept

A reader that succeeds has taken a phrase of the grammar off the front of what its stream
had to offer, and answers with what the phrase denotes.

* `Reader.reads_expression`, `Reader.reads_statement`, `Reader.reads_block` : the readers of
  expressions, statements and blocks read phrases of the grammar;
* `Reader.wholeProgram_eq_ok` : a text that is read as a program consists of the tokens of a
  program and the end of the input.
-/
import MiniPascal.Proofs.Grammar
import MiniPascal.Proofs.Grammar.Upcoming
import MiniPascal.Tree.Parser

set_option autoImplicit false

namespace MiniPascal

/-- Whether a token is a reserved word or a symbol, which have no value of their own. -/
def Token.isFixed : Token → Bool
  | .keyword _ => true
  | .symbol _ => true
  | _ => false

theorem Token.beq_iff_eq_of_isFixed {value token : Token} (h : token.isFixed = true) :
    (value == token) = true ↔ value = token := by
  cases token with
  | keyword k => cases value <;> simp [BEq.beq, instBEqToken.beq]
  | symbol s => cases value <;> simp [BEq.beq, instBEqToken.beq]
  | _ => cases h

theorem Token.ne_endOfInput_of_isFixed {token : Token} (h : token.isFixed = true) :
    token ≠ .endOfInput := by
  rintro rfl
  cases h

namespace Reader

open TokenStream Grammar

variable {α β : Type}

/-! ## Readers that succeed -/

/-- Reading in turn succeeds if both readers do. -/
theorem bind_eq_ok {p : Reader α} {f : α → Reader β} {s t : TokenStream} {y : β} :
    (p >>= f) s = .ok y t ↔ ∃ x u, p s = .ok x u ∧ f x u = .ok y t := by
  show EStateM.bind p f s = .ok y t ↔ _
  unfold EStateM.bind
  cases p s with
  | ok x u =>
      constructor
      · intro h
        exact ⟨x, u, rfl, h⟩
      · rintro ⟨_, _, heq, h⟩
        cases heq
        exact h
  | error e u => simp

/-- Reading in turn fails if the first reader does, or the second one behind it. -/
theorem bind_eq_error {p : Reader α} {f : α → Reader β} {s t : TokenStream} {halt : Halt} :
    (p >>= f) s = .error halt t ↔
      p s = .error halt t ∨ ∃ x u, p s = .ok x u ∧ f x u = .error halt t := by
  show EStateM.bind p f s = .error halt t ↔ _
  unfold EStateM.bind
  cases p s with
  | ok x u =>
      constructor
      · intro h
        exact Or.inr ⟨x, u, rfl, h⟩
      · rintro (heq | ⟨_, _, heq, h⟩)
        · cases heq
        · cases heq
          exact h
  | error e u => simp

/-- Advancing past a token that has been looked at. -/
theorem advance_of_value {s t : TokenStream} {token : Token} {x : Located Token}
    (hs : s.current.value = token) (htoken : token ≠ .endOfInput)
    (h : advance s = .ok x t) :
    s.upcoming = .ok ⟨token, s.current.position⟩ :: t.upcoming ∧ t.nextId = s.nextId := by
  subst hs
  obtain ⟨-, hupcoming, hid⟩ := advance_eq_ok htoken h
  exact ⟨hupcoming, hid⟩

/-- A required token has been there. -/
theorem eat_eq_ok {s t : TokenStream} {token : Token} {x : Located Token}
    (htoken : token.isFixed = true) (h : eat token s = .ok x t) :
    x = ⟨token, x.position⟩ ∧ s.upcoming = .ok x :: t.upcoming ∧ t.nextId = s.nextId := by
  have heat : eat token s =
      (if s.current.value == token then advance else unexpected token.describe) s := rfl
  rw [heat] at h
  split at h
  next hcheck =>
    have hvalue := (Token.beq_iff_eq_of_isFixed htoken).1 hcheck
    have hne : s.current.value ≠ .endOfInput := by
      rw [hvalue]
      exact Token.ne_endOfInput_of_isFixed htoken
    obtain ⟨rfl, hupcoming, hid⟩ := advance_eq_ok hne h
    exact ⟨by rw [← hvalue], hupcoming, hid⟩
  next => cases h

/-- An optional token has been there, or has not. -/
theorem ifTaken_eq_ok {s t : TokenStream} {token : Token} {yes no : Reader α} {x : α}
    (htoken : token.isFixed = true) (h : ifTaken token yes no s = .ok x t) :
    (∃ p u, s.upcoming = .ok ⟨token, p⟩ :: u.upcoming ∧ u.nextId = s.nextId ∧
      yes u = .ok x t) ∨ no s = .ok x t := by
  have htaken : ifTaken token yes no s =
      (if s.current.value == token then advance >>= fun _ => yes else no) s := rfl
  rw [htaken] at h
  split at h
  next hcheck =>
    have hvalue := (Token.beq_iff_eq_of_isFixed htoken).1 hcheck
    obtain ⟨y, u, hadvance, hyes⟩ := bind_eq_ok.1 h
    obtain ⟨hupcoming, hid⟩ :=
      advance_of_value hvalue (Token.ne_endOfInput_of_isFixed htoken) hadvance
    exact Or.inl ⟨_, u, hupcoming, hid, hyes⟩
  next => exact Or.inr h

theorem takeId_eq_ok {s t : TokenStream} {id : Nat} (h : takeId s = .ok id t) :
    id = s.nextId ∧ t.upcoming = s.upcoming ∧ t.nextId = s.nextId + 1 := by
  cases h
  exact ⟨rfl, rfl, rfl⟩

/-! ## Reading phrases -/

/-- A reader reads a phrase here: if it succeeds, it has taken one, and answers with what
the phrase denotes. -/
def ReadsAt (p : Reader α) (phrase : Language α) (s : TokenStream) : Prop :=
  ∀ ⦃x : α⦄ ⦃t : TokenStream⦄, p s = .ok x t →
    ∃ ts : List (Located Token),
      s.upcoming = ts.map Except.ok ++ t.upcoming ∧ phrase ts s.nextId x t.nextId

/-- A reader reads phrases wherever it stands. -/
def Reads (p : Reader α) (phrase : Language α) : Prop :=
  ∀ ⦃s : TokenStream⦄, ReadsAt p phrase s

theorem readsAt_peekCurrent {f : Located Token → Reader α} {phrase : Language α}
    {s : TokenStream} (h : ReadsAt (f s.current) phrase s) :
    ReadsAt (peekCurrent >>= f) phrase s := h

/-- A reader that always fails reads nothing wrong. -/
theorem readsAt_unexpected (phrase : Language α) (expected : String) (s : TokenStream) :
    ReadsAt (unexpected expected) phrase s := by
  intro x t h
  cases h

/-- Separated items are read one by one. -/
theorem reads_separated {item : Reader α} {phrase : Language α} {separator : Token}
    (hseparator : separator.isFixed = true) (hitem : Reads item phrase) (n : Nat) :
    Reads (separated item separator n) (Separated phrase separator) := by
  induction n with
  | zero => exact fun s x t h => by cases h
  | succ n ih =>
      intro s xs t h
      unfold separated at h
      obtain ⟨x, u, hx, h⟩ := bind_eq_ok.1 h
      obtain ⟨ts, hts, hphrase⟩ := hitem hx
      rcases ifTaken_eq_ok hseparator h with ⟨p, v, hv, hid, h⟩ | h
      · obtain ⟨rest, w, hrest, h⟩ := bind_eq_ok.1 h
        cases h
        obtain ⟨us, hus, hphrases⟩ := ih hrest
        rw [hid] at hphrases
        refine ⟨ts ++ ⟨separator, p⟩ :: us, ?_, Separated.more hphrase hphrases⟩
        rw [hts, hv, hus]
        simp
      · cases h
        exact ⟨ts, hts, Separated.one hphrase⟩

/-- Items that start with a token of their own are read one by one. -/
theorem reads_whileStarts {item : Reader α} {phrase : Language α} {starts : Reader Bool}
    (hstarts : ∀ s b t, starts s = .ok b t → t = s) (hitem : Reads item phrase) (n : Nat) :
    Reads (whileStarts starts item n) (Repeated phrase) := by
  induction n with
  | zero => exact fun s x t h => by cases h
  | succ n ih =>
      intro s xs t h
      unfold whileStarts at h
      obtain ⟨more, u, hmore, h⟩ := bind_eq_ok.1 h
      obtain rfl := hstarts s more u hmore
      cases more with
      | true =>
          rw [if_pos rfl] at h
          obtain ⟨x, v, hx, h⟩ := bind_eq_ok.1 h
          obtain ⟨rest, w, hrest, h⟩ := bind_eq_ok.1 h
          cases h
          obtain ⟨ts, hts, hphrase⟩ := hitem hx
          obtain ⟨us, hus, hphrases⟩ := ih hrest
          refine ⟨ts ++ us, ?_, Repeated.more hphrase hphrases⟩
          rw [hts, hus]
          simp
      | false =>
          rw [if_neg Bool.false_ne_true] at h
          cases h
          exact ⟨[], rfl, Repeated.none⟩

theorem eq_of_check {token : Token} {s t : TokenStream} {b : Bool} (h : check token s = .ok b t) :
    t = s := by
  cases h
  rfl

theorem eq_of_atIdentifier {s t : TokenStream} {b : Bool} (h : atIdentifier s = .ok b t) :
    t = s := by
  cases h
  rfl

/-! ## Names and types -/

/-- Identifiers are read as names. -/
theorem reads_identifier : Reads identifier IsName := by
  intro s
  refine readsAt_peekCurrent ?_
  split
  next name hvalue =>
    intro x t h
    obtain ⟨_, u, hadvance, h⟩ := bind_eq_ok.1 h
    obtain ⟨hupcoming, hid⟩ := advance_of_value hvalue (by simp) hadvance
    cases h
    refine ⟨[_], hupcoming, ?_⟩
    rw [hid]
    exact IsName.mk
  next => exact readsAt_unexpected _ _ s

/-- Types are read by their names. -/
theorem reads_typeName : Reads typeName IsType := by
  intro s
  refine readsAt_peekCurrent ?_
  split
  next hvalue =>
    intro x t h
    obtain ⟨_, u, hadvance, h⟩ := bind_eq_ok.1 h
    obtain ⟨hupcoming, hid⟩ := advance_of_value hvalue (by simp) hadvance
    cases h
    refine ⟨[_], hupcoming, ?_⟩
    rw [hid]
    exact IsType.integer
  next hvalue =>
    intro x t h
    obtain ⟨_, u, hadvance, h⟩ := bind_eq_ok.1 h
    obtain ⟨hupcoming, hid⟩ := advance_of_value hvalue (by simp) hadvance
    cases h
    refine ⟨[_], hupcoming, ?_⟩
    rw [hid]
    exact IsType.real
  next => exact readsAt_unexpected _ _ s

/-- An identifier is a name, and takes no number. -/
theorem identifier_eq_ok {s t : TokenStream} {name : Located String}
    (h : identifier s = .ok name t) :
    s.upcoming = .ok ⟨.identifier name.value, name.position⟩ :: t.upcoming ∧
      t.nextId = s.nextId := by
  obtain ⟨ts, hts, hname⟩ := reads_identifier h
  generalize t.nextId = j at hname ⊢
  cases hname
  exact ⟨hts, rfl⟩

/-- An occurrence of a variable is a name, and takes the next number. -/
theorem occurrence_eq_ok {s t : TokenStream} {v : Variable} (h : occurrence s = .ok v t) :
    s.upcoming = .ok ⟨.identifier v.name, v.position⟩ :: t.upcoming ∧ v.id = s.nextId ∧
      t.nextId = s.nextId + 1 := by
  unfold occurrence at h
  obtain ⟨name, u, hname, h⟩ := bind_eq_ok.1 h
  obtain ⟨id, w, hid, h⟩ := bind_eq_ok.1 h
  cases h
  obtain ⟨hupcoming, hsame⟩ := identifier_eq_ok hname
  obtain ⟨rfl, hw, hnext⟩ := takeId_eq_ok hid
  rw [hupcoming, ← hw, hnext, hsame]
  exact ⟨rfl, rfl, rfl⟩

/-- Names with a type are read as such. -/
theorem reads_typed (n : Nat) : Reads (typed n) IsTyped := by
  intro s x t h
  unfold typed at h
  obtain ⟨names, u, hnames, h⟩ := bind_eq_ok.1 h
  obtain ⟨colon, v, hcolon, h⟩ := bind_eq_ok.1 h
  obtain ⟨type, w, htype, h⟩ := bind_eq_ok.1 h
  cases h
  obtain ⟨ts, hts, hids⟩ := reads_separated rfl reads_identifier n hnames
  obtain ⟨hx, hv, hid⟩ := eat_eq_ok rfl hcolon
  obtain ⟨us, hus, htypes⟩ := reads_typeName htype
  rw [hid] at htypes
  refine ⟨ts ++ ⟨.symbol .colon, colon.position⟩ :: us, ?_, IsTyped.mk hids htypes⟩
  rw [hts, hv, hus, hx]
  simp

/-! ## Expressions -/

theorem eq_operatorToken {token : Token} {op : Operator} (h : token.operator? = some op) :
    token = operatorToken op := by
  unfold Token.operator? at h
  split at h <;> cases h <;> rfl

theorem operatorToken_ne_endOfInput (op : Operator) : operatorToken op ≠ .endOfInput := by
  cases op <;> simp [operatorToken]

/-- Operands and operators are read from the left. -/
theorem reads_chain {operand : Reader Expr} {phrase : Language Expr} {belongs : Operator → Bool}
    {operators : List Operator} (hbelongs : ∀ op, belongs op = true ↔ op ∈ operators)
    (hoperand : Reads operand phrase) (n : Nat) (left : Expr) :
    Reads (chain operand belongs n left) (Chain phrase operators left) := by
  induction n generalizing left with
  | zero => exact fun s x t h => by cases h
  | succ n ih =>
      intro s
      unfold chain
      refine readsAt_peekCurrent ?_
      split
      next op hop =>
        split
        next hmember =>
          intro e t h
          obtain ⟨_, u, hadvance, h⟩ := bind_eq_ok.1 h
          obtain ⟨right, v, hright, h⟩ := bind_eq_ok.1 h
          obtain ⟨hupcoming, hid⟩ :=
            advance_of_value (eq_operatorToken hop) (operatorToken_ne_endOfInput op) hadvance
          obtain ⟨ts, hts, hphrase⟩ := hoperand hright
          obtain ⟨us, hus, hchain⟩ := ih _ h
          rw [hid] at hphrase
          refine ⟨⟨operatorToken op, s.current.position⟩ :: (ts ++ us), ?_,
            Chain.more ((hbelongs op).1 hmember) hphrase hchain⟩
          rw [hupcoming, hts, hus]
          simp
        next =>
          intro e t h
          cases h
          exact ⟨[], rfl, Chain.done⟩
      next =>
        intro e t h
        cases h
        exact ⟨[], rfl, Chain.done⟩

theorem isAdditive_iff (op : Operator) :
    isAdditive op = true ↔ op ∈ [Operator.add, .subtract] := by
  cases op <;> decide

theorem isMultiplicative_iff (op : Operator) :
    isMultiplicative op = true ↔
      op ∈ [Operator.multiply, .divideInteger, .divideReal] := by
  cases op <;> decide

/-- Terms are read if factors are. -/
theorem reads_termOf {p : Reader Expr} (hp : Reads p IsFactor) (n : Nat) :
    Reads (termOf p n) IsTerm := by
  intro s e t h
  unfold termOf at h
  obtain ⟨left, u, hleft, h⟩ := bind_eq_ok.1 h
  obtain ⟨ts, hts, hfactor⟩ := hp hleft
  obtain ⟨us, hus, hchain⟩ := reads_chain isMultiplicative_iff hp n left h
  refine ⟨ts ++ us, ?_, IsTerm.mk hfactor hchain⟩
  rw [hts, hus]
  simp

/-- Expressions are read if factors are. -/
theorem reads_expressionOf {p : Reader Expr} (hp : Reads p IsFactor) (n : Nat) :
    Reads (expressionOf p n) IsExpression := by
  intro s e t h
  unfold expressionOf at h
  obtain ⟨left, u, hleft, h⟩ := bind_eq_ok.1 h
  obtain ⟨ts, hts, hterm⟩ := reads_termOf hp n hleft
  obtain ⟨us, hus, hchain⟩ := reads_chain isAdditive_iff (reads_termOf hp n) n left h
  refine ⟨ts ++ us, ?_, IsExpression.mk hterm hchain⟩
  rw [hts, hus]
  simp

/-- A signed factor is read behind its sign. -/
theorem readsAt_signed {p : Reader Expr} (hp : Reads p IsFactor) {sign : Sign}
    {s : TokenStream} (hs : s.current.value = signToken sign) :
    ReadsAt (advance >>= fun _ => p >>= fun operand =>
      pure (.signed sign operand s.current.position)) IsFactor s := by
  intro e t h
  obtain ⟨_, u, hadvance, h⟩ := bind_eq_ok.1 h
  obtain ⟨operand, v, hoperand, h⟩ := bind_eq_ok.1 h
  cases h
  obtain ⟨hupcoming, hid⟩ :=
    advance_of_value hs (by cases sign <;> simp [signToken]) hadvance
  obtain ⟨ts, hts, hfactor⟩ := hp hoperand
  rw [hid] at hfactor
  refine ⟨⟨signToken sign, s.current.position⟩ :: ts, ?_, IsFactor.signed hfactor⟩
  rw [hupcoming, hts]
  simp

/-- **Factors are read** whatever the budget, if it suffices. -/
theorem reads_factor (n : Nat) : Reads (factor n) IsFactor := by
  induction n with
  | zero => exact fun s x t h => by cases h
  | succ n ih =>
      intro s
      unfold factor
      refine readsAt_peekCurrent ?_
      split
      next hvalue => exact readsAt_signed ih hvalue
      next hvalue => exact readsAt_signed ih hvalue
      next value hvalue =>
        intro e t h
        obtain ⟨_, u, hadvance, h⟩ := bind_eq_ok.1 h
        obtain ⟨hupcoming, hid⟩ := advance_of_value hvalue (by simp) hadvance
        cases h
        refine ⟨[_], hupcoming, ?_⟩
        rw [hid]
        exact IsFactor.literal
      next hvalue =>
        intro e t h
        obtain ⟨_, u, hadvance, h⟩ := bind_eq_ok.1 h
        obtain ⟨inner, v, hinner, h⟩ := bind_eq_ok.1 h
        obtain ⟨paren, w, hparen, h⟩ := bind_eq_ok.1 h
        cases h
        obtain ⟨hupcoming, hid⟩ := advance_of_value hvalue (by simp) hadvance
        obtain ⟨ts, hts, hexpression⟩ := reads_expressionOf ih n hinner
        obtain ⟨hx, hv, hlast⟩ := eat_eq_ok rfl hparen
        rw [hid, ← hlast] at hexpression
        refine ⟨⟨.symbol .leftParen, s.current.position⟩ ::
          (ts ++ [⟨.symbol .rightParen, paren.position⟩]), ?_,
          IsFactor.parenthesized hexpression⟩
        rw [hupcoming, hts, hv, hx]
        simp
      next =>
        intro e t h
        obtain ⟨v, u, hv, h⟩ := bind_eq_ok.1 h
        cases h
        obtain ⟨hupcoming, hid, hnext⟩ := occurrence_eq_ok hv
        obtain ⟨name, id, position⟩ := v
        dsimp only at hid
        refine ⟨[_], hupcoming, ?_⟩
        rw [hnext, hid]
        exact IsFactor.occurrence
      next => exact readsAt_unexpected _ _ s

theorem reads_expression (n : Nat) : Reads (expression n) IsExpression :=
  reads_expressionOf (reads_factor n) n

/-! ## Statements -/

/-- Calls are read. -/
theorem reads_call (n : Nat) : Reads (call n) IsCall := by
  intro s c t h
  unfold call at h
  obtain ⟨name, u, hname, h⟩ := bind_eq_ok.1 h
  obtain ⟨opening, v, hopening, h⟩ := bind_eq_ok.1 h
  obtain ⟨values, w, hvalues, h⟩ := bind_eq_ok.1 h
  obtain ⟨id, x, hid, h⟩ := bind_eq_ok.1 h
  cases h
  obtain ⟨rfl, hlast, hnext⟩ := takeId_eq_ok hid
  obtain ⟨hupcoming, hfirst⟩ := identifier_eq_ok hname
  obtain ⟨hx, hv, hsame⟩ := eat_eq_ok rfl hopening
  -- the arguments end with the closing parenthesis, whether there are any or not
  have harguments : ∃ (us : List (Located Token)) (p : Position),
      v.upcoming = us.map Except.ok ++ .ok ⟨.symbol .rightParen, p⟩ :: w.upcoming ∧
        IsArguments us v.nextId values w.nextId := by
    unfold arguments at hvalues
    rcases ifTaken_eq_ok rfl hvalues with ⟨p, y, hy, hid, h⟩ | h
    · cases h
      refine ⟨[], p, hy, ?_⟩
      rw [hid]
      exact IsArguments.none
    · obtain ⟨found, y, hfound, h⟩ := bind_eq_ok.1 h
      obtain ⟨us, hus, hexpressions⟩ := reads_separated rfl (reads_expression n) n hfound
      rcases ifTaken_eq_ok rfl h with ⟨p, z, hz, hid, h⟩ | h
      · cases h
        refine ⟨us, p, ?_, ?_⟩
        · rw [hus, hz]
        · rw [hid]
          exact IsArguments.some hexpressions
      · cases h
  obtain ⟨us, p, hus, hexpressions⟩ := harguments
  rw [hsame, hfirst] at hexpressions
  rw [hnext, hupcoming, hv, hus, hx, ← hlast]
  refine ⟨⟨.identifier name.value, name.position⟩ ::
    ⟨.symbol .leftParen, opening.position⟩ :: (us ++ [⟨.symbol .rightParen, p⟩]), ?_,
    IsCall.mk hexpressions⟩
  simp

/-- Assignments are read. -/
theorem reads_assignment (n : Nat) : Reads (assignment n) IsStatement := by
  intro s st t h
  unfold assignment at h
  obtain ⟨target, u, htarget, h⟩ := bind_eq_ok.1 h
  obtain ⟨sign, v, hsign, h⟩ := bind_eq_ok.1 h
  obtain ⟨value, w, hvalue, h⟩ := bind_eq_ok.1 h
  cases h
  obtain ⟨hupcoming, hid, hnext⟩ := occurrence_eq_ok htarget
  obtain ⟨hx, hv, hsame⟩ := eat_eq_ok rfl hsign
  obtain ⟨ts, hts, hexpression⟩ := reads_expression n hvalue
  rw [hsame, hnext] at hexpression
  obtain ⟨name, id, position⟩ := target
  dsimp only at hid hupcoming
  rw [hid, hupcoming, hv, hts, hx]
  refine ⟨⟨.identifier name, position⟩ :: ⟨.symbol .assign, sign.position⟩ :: ts, ?_,
    IsStatement.assign hexpression⟩
  simp

/-- Compound statements are read if their statements are. -/
theorem reads_compoundOf {p : Reader Statement} (hp : Reads p IsStatement) (n : Nat) :
    Reads (compoundOf p n) IsCompound := by
  intro s body t h
  unfold compoundOf at h
  obtain ⟨first, u, hfirst, h⟩ := bind_eq_ok.1 h
  obtain ⟨statements, v, hstatements, h⟩ := bind_eq_ok.1 h
  obtain ⟨last, w, hlast, h⟩ := bind_eq_ok.1 h
  cases h
  obtain ⟨hx, hu, hid⟩ := eat_eq_ok rfl hfirst
  obtain ⟨ts, hts, hbody⟩ := reads_separated rfl hp n hstatements
  obtain ⟨hy, hv, hsame⟩ := eat_eq_ok rfl hlast
  rw [hid, ← hsame] at hbody
  rw [hu, hts, hv, hx, hy]
  refine ⟨⟨.keyword .blockBegin, first.position⟩ ::
    (ts ++ [⟨.keyword .blockEnd, last.position⟩]), ?_, IsCompound.mk hbody⟩
  simp

/-- **Statements are read** whatever the budget, if it suffices. -/
theorem reads_statement (n : Nat) : Reads (statement n) IsStatement := by
  induction n with
  | zero => exact fun s x t h => by cases h
  | succ n ih =>
      intro s
      unfold statement
      refine readsAt_peekCurrent ?_
      split
      next =>
        intro st t h
        obtain ⟨body, u, hbody, h⟩ := bind_eq_ok.1 h
        cases h
        obtain ⟨ts, hts, hcompound⟩ := reads_compoundOf ih n hbody
        exact ⟨ts, hts, IsStatement.compound hcompound⟩
      next name hvalue =>
        intro st t h
        obtain ⟨next, u, hnext, h⟩ := bind_eq_ok.1 h
        -- the look ahead decides which reader goes on, but takes nothing away
        obtain ⟨-, hsame, hid⟩ := peekNext_eq_ok (by rw [hvalue]; simp) hnext
        rw [← hsame, ← hid]
        split at h
        next =>
          obtain ⟨c, v, hc, h⟩ := bind_eq_ok.1 h
          cases h
          obtain ⟨ts, hts, hcall⟩ := reads_call n hc
          exact ⟨ts, hts, IsStatement.call hcall⟩
        next => exact reads_assignment n h
      next =>
        intro st t h
        cases h
        exact ⟨[], rfl, IsStatement.empty⟩

theorem reads_compound (n : Nat) : Reads (compound n) IsCompound :=
  reads_compoundOf (reads_statement n) n

/-! ## Declarations -/

/-- Lines of variables are read. -/
theorem reads_variableLine (n : Nat) : Reads (variableLine n) IsVariableLine := by
  intro s line t h
  unfold variableLine at h
  obtain ⟨⟨names, type⟩, u, htyped, h⟩ := bind_eq_ok.1 h
  obtain ⟨last, v, hlast, h⟩ := bind_eq_ok.1 h
  cases h
  obtain ⟨ts, hts, hphrase⟩ := reads_typed n htyped
  obtain ⟨hx, hu, hid⟩ := eat_eq_ok rfl hlast
  rw [← hid] at hphrase
  rw [hts, hu, hx]
  refine ⟨ts ++ [⟨.symbol .semicolon, last.position⟩], ?_, IsVariableLine.mk hphrase⟩
  simp

/-- Sections of variables are read. -/
theorem reads_variableSection (n : Nat) : Reads (variableSection n) IsSection := by
  intro s vars t h
  unfold variableSection at h
  obtain ⟨word, u, hword, h⟩ := bind_eq_ok.1 h
  obtain ⟨first, v, hfirst, h⟩ := bind_eq_ok.1 h
  obtain ⟨rest, w, hrest, h⟩ := bind_eq_ok.1 h
  cases h
  obtain ⟨hx, hu, hid⟩ := eat_eq_ok rfl hword
  obtain ⟨ts, hts, hline⟩ := reads_variableLine n hfirst
  obtain ⟨us, hus, hlines⟩ :=
    reads_whileStarts (fun _ _ _ => eq_of_atIdentifier) (reads_variableLine n) n hrest
  rw [hid] at hline
  rw [hu, hts, hus, hx]
  refine ⟨⟨.keyword .var, word.position⟩ :: (ts ++ us), ?_, IsSection.mk hline hlines⟩
  simp

/-- Groups of parameters are read. -/
theorem reads_parameterGroup (n : Nat) : Reads (parameterGroup n) IsParameterGroup := by
  intro s group t h
  unfold parameterGroup at h
  obtain ⟨⟨names, type⟩, u, htyped, h⟩ := bind_eq_ok.1 h
  cases h
  obtain ⟨ts, hts, hphrase⟩ := reads_typed n htyped
  exact ⟨ts, hts, IsParameterGroup.mk hphrase⟩

/-- Parameters are read. -/
theorem reads_parameters (n : Nat) : Reads (parameters n) IsParameters := by
  intro s params t h
  unfold parameters at h
  rcases ifTaken_eq_ok rfl h with ⟨p, u, hu, hid, h⟩ | h
  · rcases ifTaken_eq_ok rfl h with ⟨q, v, hv, hsame, h⟩ | h
    · cases h
      rw [hu, hv, hsame, hid]
      exact ⟨[_, _], rfl, IsParameters.none⟩
    · obtain ⟨groups, v, hgroups, h⟩ := bind_eq_ok.1 h
      obtain ⟨last, w, hlast, h⟩ := bind_eq_ok.1 h
      cases h
      obtain ⟨ts, hts, hphrase⟩ := reads_separated rfl (reads_parameterGroup n) n hgroups
      obtain ⟨hx, hv, hsame⟩ := eat_eq_ok rfl hlast
      rw [hid, ← hsame] at hphrase
      rw [hu, hts, hv, hx]
      refine ⟨⟨.symbol .leftParen, p⟩ :: (ts ++ [⟨.symbol .rightParen, last.position⟩]), ?_,
        IsParameters.some hphrase⟩
      simp
  · cases h
    exact ⟨[], rfl, IsParameters.absent⟩

/-- Blocks are read if their procedures are. -/
theorem reads_blockOf {p : Reader Declaration} (hp : Reads p IsProcedure) (n : Nat) :
    Reads (blockOf p n) IsBlock := by
  intro s b t h
  unfold blockOf declarationsOf at h
  obtain ⟨found, u, hfound, h⟩ := bind_eq_ok.1 h
  obtain ⟨sections, v, hsections, hfound⟩ := bind_eq_ok.1 hfound
  obtain ⟨procedures, w, hprocedures, hfound⟩ := bind_eq_ok.1 hfound
  obtain ⟨body, x, hbody, h⟩ := bind_eq_ok.1 h
  cases h
  cases hfound
  obtain ⟨ts, hts, hvars⟩ :=
    reads_whileStarts (fun _ _ _ => eq_of_check) (reads_variableSection n) n hsections
  obtain ⟨us, hus, hprocs⟩ := reads_whileStarts (fun _ _ _ => eq_of_check) hp n hprocedures
  obtain ⟨vs, hvs, hcompound⟩ := reads_compound n hbody
  rw [hts, hus, hvs]
  refine ⟨ts ++ (us ++ vs), ?_, IsBlock.mk hvars hprocs hcompound⟩
  simp

/-- **Procedures are read** whatever the budget, if it suffices. -/
theorem reads_procedure (n : Nat) : Reads (procedure n) IsProcedure := by
  induction n with
  | zero => exact fun s x t h => by cases h
  | succ n ih =>
      intro s declaration t h
      unfold procedure at h
      obtain ⟨word, s1, hword, h⟩ := bind_eq_ok.1 h
      obtain ⟨name, s2, hname, h⟩ := bind_eq_ok.1 h
      obtain ⟨params, s3, hparams, h⟩ := bind_eq_ok.1 h
      obtain ⟨middle, s4, hmiddle, h⟩ := bind_eq_ok.1 h
      obtain ⟨block, s5, hblock, h⟩ := bind_eq_ok.1 h
      obtain ⟨last, s6, hlast, h⟩ := bind_eq_ok.1 h
      cases h
      obtain ⟨hx, hs, hid⟩ := eat_eq_ok rfl hword
      obtain ⟨hs1, hid1⟩ := identifier_eq_ok hname
      obtain ⟨ts, hs2, hparameters⟩ := reads_parameters n hparams
      obtain ⟨hy, hs3, hid3⟩ := eat_eq_ok rfl hmiddle
      obtain ⟨us, hs4, hphrase⟩ := reads_blockOf ih n hblock
      obtain ⟨hz, hs5, hid5⟩ := eat_eq_ok rfl hlast
      rw [hid1, hid] at hparameters
      rw [hid3, ← hid5] at hphrase
      rw [hs, hs1, hs2, hs3, hs4, hs5, hx, hy, hz]
      refine ⟨_, ?_, IsProcedure.mk (p := word.position) (r := middle.position)
        (t := last.position) hparameters hphrase⟩
      simp

theorem reads_block (n : Nat) : Reads (block n) IsBlock :=
  reads_blockOf (reads_procedure n) n

/-! ## Programs -/

/-- **A text that is read as a program** consists of the tokens of a program and the end of
the input. -/
theorem wholeProgram_eq_ok {n : Nat} {s t : TokenStream} {tree : Program} (hs : s.nextId = 0)
    (h : wholeProgram n s = .ok tree t) :
    ∃ (ts : List (Located Token)) (p : Position),
      s.upcoming = ts.map Except.ok ++ [.ok ⟨.endOfInput, p⟩] ∧ IsProgram ts tree := by
  unfold wholeProgram program at h
  obtain ⟨found, u, hfound, h⟩ := bind_eq_ok.1 h
  obtain ⟨word, s1, hword, hfound⟩ := bind_eq_ok.1 hfound
  obtain ⟨name, s2, hname, hfound⟩ := bind_eq_ok.1 hfound
  obtain ⟨middle, s3, hmiddle, hfound⟩ := bind_eq_ok.1 hfound
  obtain ⟨body, s4, hbody, hfound⟩ := bind_eq_ok.1 hfound
  obtain ⟨last, s5, hlast, hfound⟩ := bind_eq_ok.1 hfound
  cases hfound
  obtain ⟨hx, hs0, hid⟩ := eat_eq_ok rfl hword
  obtain ⟨hs1, hid1⟩ := identifier_eq_ok hname
  obtain ⟨hy, hs2, hid2⟩ := eat_eq_ok rfl hmiddle
  obtain ⟨ts, hs3, hphrase⟩ := reads_block n hbody
  obtain ⟨hz, hs4, -⟩ := eat_eq_ok rfl hlast
  rw [hid2, hid1, hid, hs] at hphrase
  -- behind the final point stands the end of the input
  have hend : tree = ⟨name.value, body, word.position⟩ ∧ u.current.value = .endOfInput := by
    obtain ⟨token, v, hpeek, h⟩ := bind_eq_ok.1 h
    cases hpeek
    cases hvalue : u.current.value with
    | endOfInput =>
        simp only [hvalue] at h
        cases h
        exact ⟨rfl, rfl⟩
    | _ =>
        simp only [hvalue] at h
        cases h
  obtain ⟨rfl, hvalue⟩ := hend
  have hu : u.upcoming = [.ok ⟨.endOfInput, u.current.position⟩] := by
    rw [upcoming, itemsFrom_of_eq _ hvalue, ← hvalue]
  rw [hs0, hs1, hs2, hs3, hs4, hu, hx, hy, hz]
  refine ⟨_, u.current.position, ?_, IsProgram.mk (p := word.position) (q := name.position)
    (r := middle.position) (t := last.position) hphrase⟩
  simp

end Reader

end MiniPascal
