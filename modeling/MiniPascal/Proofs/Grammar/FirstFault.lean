/-
# The first fault wins

Every reader of the grammar tracks its phrase.  So the tokens that have been read when a fault
is found can be completed to a program, and with the token of the fault they cannot: a
text is read up to its first fault, be it a lexical error or a token that does not belong there.

* `Reader.tracks_expression`, `Reader.tracks_statement`, `Reader.tracks_block` : the readers of
  expressions, statements and blocks track their phrases;
* `firstFault_of_parse` : a text that is not read is read up to its first fault;
* `parse_firstFault` : where a text is faulty, and what is reported.
-/
import MiniPascal.Proofs.Grammar.Tracking

set_option autoImplicit false

namespace MiniPascal

open Grammar TokenStream

namespace Reader

/-! ## Names and types -/

theorem words_name (name : String) (p : Position) : wordsOf IsName [⟨.identifier name, p⟩] :=
  words_of (i := 0) .mk

/-- Names are tracked. -/
theorem tracks_identifier : Recognizes identifier IsName anyToken := by
  have hproductive : Productive IsName := fun i => ⟨[⟨.identifier "", .origin⟩], _, i, .mk⟩
  refine ⟨hproductive, fun s => tracksAt_peekCurrent ?_⟩
  split
  next name hvalue =>
    have hcurrent : s.current = ⟨.identifier name, s.current.position⟩ := by rw [← hvalue]
    refine tracksAt_advance (by rw [hvalue]; simp) (tracks_pure (fun i => ?_) ?_) fun hnil => ?_
    · rw [hcurrent]
      exact .mk
    · rintro w ⟨i, x, j, hw⟩
      generalize s.current = token at hw
      cases hw
      rfl
    · obtain ⟨i, x, j, hw⟩ := hnil
      cases hw
  next hno =>
    refine tracksAt_unexpected (hproductive _) ?_
    rintro w cont behind ⟨i, x, j, hw⟩ - heq
    cases hw
    exact hno _ (value_of_append_eq heq)

/-- The names of types are tracked. -/
theorem tracks_typeName : Recognizes typeName IsType anyToken := by
  have hproductive : Productive IsType := fun i => ⟨[⟨.keyword .integer, .origin⟩], _, i, .integer⟩
  have hword : ∀ {token : Located Token} {w : List (Located Token)},
      wordsOf IsType (token :: w) → w = [] := by
    rintro token w ⟨i, x, j, hw⟩
    cases hw <;> rfl
  have hnil : ¬wordsOf IsType [] := by
    rintro ⟨i, x, j, hw⟩
    cases hw
  refine ⟨hproductive, fun s => tracksAt_peekCurrent ?_⟩
  split
  next hvalue =>
    have hcurrent : s.current = ⟨.keyword .integer, s.current.position⟩ := by rw [← hvalue]
    refine tracksAt_advance (by rw [hvalue]; simp) (tracks_pure (fun i => ?_) hword)
      fun h _ => hnil h
    rw [hcurrent]
    exact .integer
  next hvalue =>
    have hcurrent : s.current = ⟨.keyword .real, s.current.position⟩ := by rw [← hvalue]
    refine tracksAt_advance (by rw [hvalue]; simp) (tracks_pure (fun i => ?_) hword)
      fun h _ => hnil h
    rw [hcurrent]
    exact .real
  next hinteger hreal =>
    refine tracksAt_unexpected (hproductive _) ?_
    rintro w cont behind ⟨i, x, j, hw⟩ - heq
    cases hw with
    | integer => exact hinteger (value_of_append_eq heq)
    | real => exact hreal (value_of_append_eq heq)

/-- Names with a type are tracked. -/
theorem tracks_typed (n : Nat) : Recognizes (typed n) IsTyped anyToken := by
  have hnames : Recognizes (identifiers n) (Separated IsName (.symbol .comma))
      (· = .symbol .colon) :=
    tracks_separated rfl tracks_identifier trivial (by rintro v rfl; exact ⟨trivial, by simp⟩) n
  refine (hnames.andThen (fun names => (tracks_eat rfl).bind fun _ => tracks_typeName.map
    fun type => (names, type)) fun w cont hw _ => begins_token hw cont).mono ?_ ?_
  · rintro ts i x k ⟨us, vs, names, j, rfl, hids, _, _, _, l, rfl, ⟨p, rfl, rfl, rfl⟩, type,
      htype, rfl⟩
    exact .mk hids htype
  · rintro w ⟨i, x, k, hw⟩
    cases hw with
    | @mk ts us p _ _ _ _ _ hids htype =>
        exact words_append (words_of hids) <| words_append (words_token _ p) (words_of htype)

/-! ## Expressions -/

/-- Terms are tracked if factors are. -/
theorem tracks_termOf {p : Reader Expr} (hp : Recognizes p IsFactor anyToken) (n : Nat) :
    Recognizes (termOf p n) IsTerm endsTerm := by
  refine (hp.bind fun left => tracks_chain isMultiplicative_iff hp (fun _ _ => trivial)
    (fun v hv => ⟨trivial, hv⟩) n left).mono ?_ ?_
  · rintro ts i e k ⟨us, vs, left, j, rfl, hleft, hchain⟩
    exact .mk hleft hchain
  · rintro w ⟨i, e, k, hw⟩
    cases hw with
    | mk hleft hchain => exact words_append (words_of hleft) ⟨_, _, _, _, hchain⟩

/-- Expressions are tracked if factors are. -/
theorem tracks_expressionOf {p : Reader Expr} (hp : Recognizes p IsFactor anyToken) (n : Nat) :
    Recognizes (expressionOf p n) IsExpression endsExpression := by
  have hterm := tracks_termOf hp n
  refine (hterm.andThen (fun left => tracks_chain isAdditive_iff hterm endsTerm_of_additive
    (fun _ => endsTerm_of_endsExpression) n left) ?_).mono ?_ ?_
  · intro w cont hw hcont
    exact begins_chain endsTerm_of_additive (fun _ hv => (endsTerm_of_endsExpression hv).1) hw hcont
  · rintro ts i e k ⟨us, vs, left, j, rfl, hleft, hchain⟩
    exact .mk hleft hchain
  · rintro w ⟨i, e, k, hw⟩
    cases hw with
    | mk hleft hchain => exact words_append (words_of hleft) ⟨_, _, _, _, hchain⟩

/-- A signed factor is tracked behind its sign. -/
theorem tracksAt_signed {p : Reader Expr} (hp : Recognizes p IsFactor anyToken) {sign : Sign}
    {s : TokenStream} (hs : s.current.value = signToken sign) :
    TracksAt (advance >>= fun _ => p >>= fun operand =>
      pure (.signed sign operand s.current.position)) IsFactor (wordsOf IsFactor) anyToken s := by
  have hcurrent : s.current = ⟨signToken sign, s.current.position⟩ := by rw [← hs]
  have hoperand := hp.map fun operand => Expr.signed sign operand s.current.position
  refine tracksAt_advance ?_ (hoperand.mono ?_ ?_) ?_
  · rw [hs]
    cases sign <;> simp [signToken]
  · rintro ts i e j ⟨operand, hoperand, rfl⟩
    rw [hcurrent]
    exact .signed hoperand
  · rintro w ⟨i, e, j, hw⟩
    generalize s.current = token at hw hs
    cases hw with
    | signed hoperand => exact words_of hoperand
    | literal => cases sign <;> cases hs
    | parenthesized _ => cases sign <;> cases hs
    | occurrence => cases sign <;> cases hs
  · rintro ⟨i, e, j, hw⟩
    cases hw

/-- An expression in parentheses is tracked behind the opening one. -/
theorem tracksAt_parenthesized {p : Reader Expr} (hp : Recognizes p IsExpression endsExpression)
    {s : TokenStream} (hs : s.current.value = .symbol .leftParen) :
    TracksAt (advance >>= fun _ => p >>= fun inner => eat (.symbol .rightParen) >>= fun _ =>
      pure inner) IsFactor (wordsOf IsFactor) anyToken s := by
  have hcurrent : s.current = ⟨.symbol .leftParen, s.current.position⟩ := by rw [← hs]
  refine tracksAt_advance (by rw [hs]; simp) ((hp.andThen (fun inner => (tracks_eat rfl).map
    fun _ => inner) fun w cont hw _ => (begins_word hw cont).mono ?_).mono ?_ ?_) ?_
  · rintro v rfl
    exact endsExpression_of_mem (by simp)
  · rintro ts i e k ⟨us, vs, inner, j, rfl, hinner, _, ⟨q, rfl, -, rfl⟩, rfl⟩
    rw [hcurrent]
    exact .parenthesized hinner
  · rintro w ⟨i, e, j, hw⟩
    generalize s.current = token at hw hs
    cases hw with
    | @signed sign => cases sign <;> cases hs
    | literal => cases hs
    | parenthesized hinner => exact words_append (words_of hinner) (words_token _ _)
    | occurrence => cases hs
  · rintro ⟨i, e, j, hw⟩
    cases hw

/-- An occurrence of a variable. -/
def IsOccurrence : Language Variable :=
  fun ts i v j => ∃ name p, ts = [⟨.identifier name, p⟩] ∧ v = ⟨name, i, p⟩ ∧ j = i + 1

/-- Occurrences of variables are tracked. -/
theorem tracks_occurrence : Recognizes occurrence IsOccurrence anyToken := by
  refine (tracks_identifier.bind fun name => tracks_takeId.map fun id =>
    (⟨name.value, id, name.position⟩ : Variable)).mono ?_ ?_
  · rintro ts i v k ⟨us, vs, name, j, rfl, hname, id, ⟨rfl, rfl, rfl⟩, rfl⟩
    cases hname
    exact ⟨_, _, rfl, rfl, rfl⟩
  · rintro w ⟨i, v, j, name, p, rfl, -, -⟩
    exact ⟨[_], [], rfl, ⟨0, _, _, .mk⟩, rfl⟩

/-- **Factors are tracked.** -/
theorem tracks_factor (n : Nat) : Recognizes (factor n) IsFactor anyToken := by
  have hproductive : Productive IsFactor :=
    fun i => ⟨[⟨.identifier "", .origin⟩], _, i + 1, .occurrence⟩
  have hnil : ¬wordsOf IsFactor [] := by
    rintro ⟨i, e, j, hw⟩
    cases hw
  induction n with
  | zero => exact ⟨hproductive, fun s => .outOfSteps⟩
  | succ n ih =>
      refine ⟨hproductive, fun s => ?_⟩
      unfold factor
      refine tracksAt_peekCurrent ?_
      split
      next hvalue => exact tracksAt_signed ih hvalue
      next hvalue => exact tracksAt_signed ih hvalue
      next value hvalue =>
        have hcurrent : s.current = ⟨.number value, s.current.position⟩ := by rw [← hvalue]
        refine tracksAt_advance (by rw [hvalue]; simp) (tracks_pure (fun i => ?_) ?_)
          fun h _ => hnil h
        · rw [hcurrent]
          exact .literal
        · rintro w ⟨i, e, j, hw⟩
          generalize s.current = token at hw hvalue
          cases hw with
          | @signed sign => cases sign <;> cases hvalue
          | literal => rfl
          | parenthesized _ => cases hvalue
          | occurrence => rfl
      next hvalue => exact tracksAt_parenthesized (tracks_expressionOf ih n) hvalue
      next name hvalue =>
        refine (tracks_occurrence.map Expr.occurrence).here s |>.mono ?_ ?_
        · rintro ts i e j ⟨v, ⟨name, p, rfl, rfl, rfl⟩, rfl⟩
          exact .occurrence
        · rintro w cont behind ⟨i, e, j, hw⟩ - heq
          cases hw with
          | @signed sign =>
              rw [value_of_append_eq heq] at hvalue
              cases sign <;> cases hvalue
          | literal =>
              rw [value_of_append_eq heq] at hvalue
              cases hvalue
          | parenthesized _ =>
              rw [value_of_append_eq heq] at hvalue
              cases hvalue
          | occurrence => exact ⟨i, _, _, _, _, rfl, rfl, rfl⟩
      next hplus hminus hnumber hparen hidentifier =>
        refine tracksAt_unexpected (hproductive _) ?_
        rintro w cont behind ⟨i, e, j, hw⟩ - heq
        cases hw with
        | @signed sign =>
            cases sign with
            | plus => exact hplus (value_of_append_eq heq)
            | minus => exact hminus (value_of_append_eq heq)
        | literal => exact hnumber _ (value_of_append_eq heq)
        | parenthesized _ => exact hparen (value_of_append_eq heq)
        | occurrence => exact hidentifier _ (value_of_append_eq heq)

theorem tracks_expression (n : Nat) : Recognizes (expression n) IsExpression endsExpression :=
  tracks_expressionOf (tracks_factor n) n

/-! ## What stands in parentheses -/

/-- A phrase with a closing parenthesis behind it. -/
def Closed {α : Type} (inside : Language α) : Language α :=
  fun ts i x j => ∃ us p, ts = us ++ [⟨.symbol .rightParen, p⟩] ∧ inside us i x j

/-- **What stands before a closing parenthesis** may be nothing, or items that begin with
another token. -/
theorem tracks_closed {α β : Type} {items : Reader β} {closing : β → Reader α} {phrase : Language β}
    {inside : Language α} {none : α} {g : β → α}
    (hitems : Recognizes items phrase (· = .symbol .rightParen))
    (hclosing : ∀ y, Tracks (closing y) (Denoting (fun _ => g y) (IsToken (.symbol .rightParen)))
      (wordsOf (IsToken (.symbol .rightParen))) anyToken)
    (hnone : ∀ i, inside [] i none i)
    (hsome : ∀ {ts i y j}, phrase ts i y j → inside ts i (g y) j)
    (hcases : ∀ {w}, wordsOf inside w →
      w = [] ∨ wordsOf phrase w ∧ Begins (· ≠ .symbol .rightParen) w) :
    Recognizes (ifTaken (.symbol .rightParen) (pure none) (items >>= closing)) (Closed inside)
      anyToken := by
  have hproductive : Productive (Closed inside) :=
    fun i => ⟨[⟨.symbol .rightParen, .origin⟩], none, i, [], .origin, rfl, hnone i⟩
  refine ⟨hproductive, fun s => ?_⟩
  refine tracksAt_ifTaken rfl (fun p => tracks_pure (fun i => ⟨[], p, rfl, hnone i⟩) ?_) ?_
    fun hne => ?_
  · rintro w ⟨i, x, j, us, q, hw, hinside⟩
    rcases hcases ⟨i, x, j, hinside⟩ with rfl | ⟨-, token, vs, rfl, htoken⟩
    · exact (List.cons.inj hw).2
    · exact absurd (congrArg Located.value (List.cons.inj hw).1).symm htoken
  · rintro ⟨i, x, j, us, q, hw, -⟩
    exact absurd hw.symm (List.append_ne_nil_of_right_ne_nil _ (List.cons_ne_nil _ _))
  · refine ((hitems.andThen hclosing fun w cont hw _ => begins_word hw cont).here s).mono ?_ ?_
    · rintro ts i x k ⟨us, vs, y, j, rfl, hphrase, _, ⟨p, rfl, -, rfl⟩, rfl⟩
      exact ⟨us, p, rfl, hsome hphrase⟩
    · rintro w cont behind ⟨i, x, j, us, q, rfl, hinside⟩ - heq
      rcases hcases ⟨i, x, j, hinside⟩ with rfl | ⟨hphrase, -⟩
      · exact absurd (value_of_append_eq heq) hne
      · exact words_append hphrase (words_token _ q)

/-! ## Statements -/

/-- Arguments are tracked. -/
theorem tracks_arguments (n : Nat) : Recognizes (arguments n) (Closed IsArguments) anyToken := by
  have hvalues : Recognizes (separated (expression n) (.symbol .comma) n)
      (Separated IsExpression (.symbol .comma)) (· = .symbol .rightParen) :=
    tracks_separated rfl (tracks_expression n) (endsExpression_of_mem (by simp))
      (by rintro v rfl; exact ⟨endsExpression_of_mem (by simp), by simp⟩) n
  refine tracks_closed hvalues (g := id) (fun values => ?_) (fun _ => .none) .some ?_
  · have hopen : Productive (Denoting (fun _ => values) (IsToken (.symbol .rightParen))) :=
      fun i => ⟨[⟨_, .origin⟩], values, i, _, ⟨.origin, rfl, rfl, rfl⟩, rfl⟩
    refine ⟨hopen, fun t => tracksAt_ifTaken rfl (fun p => tracks_pure ?_ ?_) ?_ fun hne => ?_⟩
    · exact fun i => ⟨_, ⟨p, rfl, rfl, rfl⟩, rfl⟩
    · rintro w ⟨i, x, j, q, hw, -, -⟩
      exact (List.cons.inj hw).2
    · rintro ⟨i, x, j, q, hw, -, -⟩
      cases hw
    · refine tracksAt_unexpected (hopen _) ?_
      rintro w cont behind ⟨i, x, j, q, rfl, -, -⟩ - heq
      exact hne (value_of_append_eq heq)
  · rintro w ⟨i, values, j, hw⟩
    cases hw with
    | none => exact Or.inl rfl
    | some hphrase =>
        exact Or.inr ⟨words_of hphrase, begins_separated exists_cons_of_isExpression hphrase⟩

/-- Calls are tracked. -/
theorem tracks_call (n : Nat) : Recognizes (call n) IsCall anyToken := by
  refine (tracks_identifier.bind fun name => (tracks_eat rfl).bind fun _ =>
    (tracks_arguments n).bind fun values => tracks_takeId.map fun id =>
      (⟨name.value, id, values, name.position⟩ : Call)).mono ?_ ?_
  · rintro ts i c k ⟨_, _, name, _, rfl, hname, _, _, _, _, rfl, ⟨q, rfl, rfl, rfl⟩, _, _, values,
      _, rfl, ⟨us, r, rfl, harguments⟩, _, ⟨rfl, rfl, rfl⟩, rfl⟩
    cases hname
    rw [List.append_nil]
    exact .mk harguments
  · rintro w ⟨i, c, k, hw⟩
    cases hw with
    | @mk name p q r us _ _ values harguments =>
        have hclosed : Closed IsArguments (us ++ [⟨.symbol .rightParen, r⟩]) i values _ :=
          ⟨us, r, rfl, harguments⟩
        rw [← List.append_nil (us ++ _)]
        exact words_append (words_name name p) <| words_append (words_token _ q) <|
          words_append (words_of hclosed) rfl

/-- An assignment. -/
def IsAssignment : Language Statement :=
  fun ts i st j => ∃ name p q us e, ts = ⟨.identifier name, p⟩ :: ⟨.symbol .assign, q⟩ :: us ∧
    IsExpression us (i + 1) e j ∧ st = .assign ⟨name, i, p⟩ e q

/-- Assignments are tracked. -/
theorem tracks_assignment (n : Nat) : Recognizes (assignment n) IsAssignment endsExpression := by
  refine (tracks_occurrence.bind fun target => (tracks_eat rfl).bind fun sign =>
    (tracks_expression n).map fun value => Statement.assign target value sign.position).mono ?_ ?_
  · rintro ts i st k ⟨_, _, _, _, rfl, ⟨name, p, rfl, rfl, rfl⟩, _, us, _, _, rfl,
      ⟨q, rfl, rfl, rfl⟩, e, he, rfl⟩
    exact ⟨name, p, q, us, e, rfl, he, rfl⟩
  · rintro w ⟨i, st, k, name, p, q, us, e, rfl, he, -⟩
    have htarget : IsOccurrence [⟨.identifier name, p⟩] i ⟨name, i, p⟩ (i + 1) :=
      ⟨name, p, rfl, rfl, rfl⟩
    exact words_append (words_of htarget) <| words_append (words_token _ q) (words_of he)

/-- Compound statements are tracked if their statements are. -/
theorem tracks_compoundOf {p : Reader Statement} (hp : Recognizes p IsStatement endsStatement)
    (n : Nat) : Recognizes (compoundOf p n) IsCompound anyToken := by
  have hbody : Recognizes (separated p (.symbol .semicolon) n)
      (Separated IsStatement (.symbol .semicolon)) (· = .keyword .blockEnd) :=
    tracks_separated rfl hp (Or.inl rfl) (by rintro v rfl; exact ⟨Or.inr rfl, by simp⟩) n
  refine ((tracks_eat rfl).bind fun _ => hbody.andThen (fun body =>
    (tracks_eat rfl).map fun _ => body) fun w cont hw _ => begins_word hw cont).mono ?_ ?_
  · rintro ts i body k ⟨_, _, _, _, rfl, ⟨q, rfl, rfl, rfl⟩, us, _, statements, _, rfl,
      hstatements, _, ⟨r, rfl, -, rfl⟩, rfl⟩
    exact .mk hstatements
  · rintro w ⟨i, body, k, hw⟩
    cases hw with
    | @mk q r us _ _ _ hstatements =>
        exact words_append (words_token _ q) <|
          words_append (words_of hstatements) (words_token _ r)

theorem begins_semicolon : Begins endsStatement [⟨.symbol .semicolon, .origin⟩] :=
  ⟨_, _, rfl, Or.inl rfl⟩

/-- What stands behind a statement does not go on as the stream does, unless the current token
ends a statement. -/
theorem ne_of_endsStatement {s : TokenStream} {cont behind : List (Located Token)}
    (hs : ¬endsStatement s.current.value) (hcont : Begins endsStatement cont) :
    cont ≠ s.current :: behind := by
  rintro rfl
  obtain ⟨token, more, heq, htoken⟩ := hcont
  rw [← (List.cons.inj heq).1] at htoken
  exact hs htoken

section Named

variable {s t : TokenStream} {name : String} {next : Located Token} {rest : List Item}

/-- Before a name and an opening parenthesis stands a call. -/
theorem tracksAt_called (n : Nat) {a : Located Token} (ha : a.value = .identifier name)
    (ht : t.upcoming = .ok a :: .ok next :: rest) (hnext : next.value = .symbol .leftParen) :
    TracksAt (call n >>= fun c => pure (.call c)) IsStatement (wordsOf IsStatement)
      endsStatement t := by
  have hends : ¬endsStatement t.current.value := by simp [current_eq ht, ha, endsStatement]
  have hcalled : wordsOf IsCall [a, next, ⟨.symbol .rightParen, .origin⟩] := by
    rw [show a = ⟨.identifier name, a.position⟩ by rw [← ha],
      show next = ⟨.symbol .leftParen, next.position⟩ by rw [← hnext]]
    exact ⟨0, _, _, .mk .none⟩
  have hcall := ((tracks_call n).map Statement.call).before fun v (_ : endsStatement v) => trivial
  refine (hcall.here t).mono_two ht hcalled begins_semicolon ?_ ?_
  · rintro ts i st j ⟨c, hc, rfl⟩
    exact .call hc
  · rintro w cont behind ⟨i, st, j, hw⟩ hcont heq
    cases hw with
    | compound hbody =>
        cases hbody
        rw [value_of_append_eq heq] at ha
        cases ha
    | call hc => exact words_of hc
    | assign _ =>
        rw [value_of_append_eq (List.cons.inj heq).2] at hnext
        cases hnext
    | empty =>
        rw [← current_eq ht] at heq
        exact absurd heq (ne_of_endsStatement hends hcont)

/-- Before a name and any other token stands an assignment. -/
theorem tracksAt_assigned (n : Nat) {a : Located Token} (ha : a.value = .identifier name)
    (ht : t.upcoming = .ok a :: .ok next :: rest) (hnext : next.value ≠ .symbol .leftParen) :
    TracksAt (assignment n) IsStatement (wordsOf IsStatement) endsStatement t := by
  have hends : ¬endsStatement t.current.value := by simp [current_eq ht, ha, endsStatement]
  have hassigned : wordsOf IsAssignment
      [a, ⟨.symbol .assign, .origin⟩, ⟨.identifier "", .origin⟩] := by
    rw [show a = ⟨.identifier name, a.position⟩ by rw [← ha]]
    exact ⟨0, _, 2, _, _, _, _, _, rfl, .mk (.mk .occurrence .done) .done, rfl⟩
  have hassignment := (tracks_assignment n).before fun _ => endsExpression_of_endsStatement
  refine (hassignment.here t).mono_two ht hassigned begins_semicolon ?_ ?_
  · rintro ts i st j ⟨name, p, q, us, e, rfl, he, rfl⟩
    exact .assign he
  · rintro w cont behind ⟨i, st, j, hw⟩ hcont heq
    cases hw with
    | compound hbody =>
        cases hbody
        rw [value_of_append_eq heq] at ha
        cases ha
    | call hc =>
        cases hc
        exact absurd (value_of_append_eq (List.cons.inj heq).2) hnext
    | assign he => exact ⟨i, _, _, _, _, _, _, _, rfl, he, rfl⟩
    | empty =>
        rw [← current_eq ht] at heq
        exact absurd heq (ne_of_endsStatement hends hcont)

/-- A statement that begins with an identifier is a call or an assignment, as the token behind
it tells. -/
theorem tracksAt_named (n : Nat) (hs : s.current.value = .identifier name) :
    TracksAt (do
      let next ← peekNext
      if next.value == .symbol .leftParen then
        let c ← call n
        return .call c
      else assignment n) IsStatement (wordsOf IsStatement) endsStatement s := by
  refine tracksAt_peekNext (by simp [hs]) ?_ fun {next rest t} hnext _ => ?_
  · -- a lexical error behind the name leaves a call to come
    rw [show s.current = ⟨.identifier name, s.current.position⟩ by rw [← hs]]
    exact ⟨[⟨.symbol .leftParen, .origin⟩, ⟨.symbol .rightParen, .origin⟩], _, _, .call (.mk .none)⟩
  · by_cases hparen : (next.value == .symbol .leftParen) = true
    · rw [if_pos hparen]
      exact tracksAt_called n hs hnext ((Token.beq_iff_eq_of_isFixed rfl).1 hparen)
    · rw [if_neg hparen]
      exact tracksAt_assigned n hs hnext fun hvalue =>
        hparen ((Token.beq_iff_eq_of_isFixed rfl).2 hvalue)

end Named

/-- **Statements are tracked** before a token that ends them. -/
theorem tracks_statement (n : Nat) : Recognizes (statement n) IsStatement endsStatement := by
  have hproductive : Productive IsStatement := fun i => ⟨[], _, i, .empty⟩
  induction n with
  | zero => exact ⟨hproductive, fun s => .outOfSteps⟩
  | succ n ih =>
      refine ⟨hproductive, fun s => ?_⟩
      unfold statement
      refine tracksAt_peekCurrent ?_
      split
      next hvalue =>
        have hends : ¬endsStatement s.current.value := by simp [hvalue, endsStatement]
        have hcompound := ((tracks_compoundOf ih n).map Statement.compound).before
          fun v (_ : endsStatement v) => trivial
        refine (hcompound.here s).mono ?_ ?_
        · rintro ts i st j ⟨body, hbody, rfl⟩
          exact .compound hbody
        · rintro w cont behind ⟨i, st, j, hw⟩ hcont heq
          cases hw with
          | compound hbody => exact words_of hbody
          | call hc =>
              cases hc
              rw [value_of_append_eq heq] at hvalue
              cases hvalue
          | assign _ =>
              rw [value_of_append_eq heq] at hvalue
              cases hvalue
          | empty => exact absurd heq (ne_of_endsStatement hends hcont)
      next name hvalue => exact tracksAt_named n hvalue
      next hbegin hidentifier =>
        refine tracksAt_pure .empty ?_
        rintro w cont behind ⟨i, st, j, hw⟩ - heq
        cases hw with
        | compound hbody =>
            cases hbody
            exact absurd (value_of_append_eq heq) hbegin
        | call hc =>
            cases hc
            exact absurd (value_of_append_eq heq) (hidentifier _)
        | assign _ => exact absurd (value_of_append_eq heq) (hidentifier _)
        | empty => rfl

theorem tracks_compound (n : Nat) : Recognizes (compound n) IsCompound anyToken :=
  tracks_compoundOf (tracks_statement n) n

/-! ## Declarations -/

/-- Lines of variables are tracked. -/
theorem tracks_variableLine (n : Nat) : Recognizes (variableLine n) IsVariableLine anyToken := by
  have hsemicolon : Recognizes (eat (.symbol .semicolon)) (IsToken (.symbol .semicolon))
      anyToken := tracks_eat rfl
  refine ((tracks_typed n).bind fun x => hsemicolon.map fun _ =>
    x.1.map fun name => Declaration.var name.value x.2 name.position).mono ?_ ?_
  · rintro ts i line k ⟨us, _, ⟨names, type⟩, j, rfl, htyped, _, ⟨p, rfl, -, rfl⟩, rfl⟩
    exact .mk htyped
  · rintro w ⟨i, line, j, hw⟩
    cases hw with
    | @mk us p _ _ names type htyped => exact words_append (words_of htyped) (words_token _ p)

/-- Sections of variables are tracked before a token that is no identifier. -/
theorem tracks_variableSection (n : Nat) :
    Recognizes (variableSection n) IsSection endsSection := by
  have hlines : Recognizes (whileStarts atIdentifier (variableLine n) n)
      (Repeated IsVariableLine) endsSection :=
    tracks_whileStarts (fun v => v.name?.isSome) (fun _ => rfl) (tracks_variableLine n)
      exists_cons_of_isVariableLine (fun _ _ => trivial) (fun _ h => ⟨trivial, h⟩) n
  refine ((tracks_eat rfl).bind fun _ => (tracks_variableLine n).bind fun first =>
    hlines.map fun rest => first ++ rest.flatten).mono ?_ ?_
  · rintro ts i vars l ⟨_, _, _, _, rfl, ⟨p, rfl, rfl, rfl⟩, us, vs, first, j, rfl, hline, rest,
      hrest, rfl⟩
    show IsSection (⟨.keyword .var, p⟩ :: (us ++ vs)) _ _ l
    exact .mk hline hrest
  · rintro w ⟨i, vars, j, hw⟩
    cases hw with
    | @mk p us vs _ _ _ _ _ hline hrest =>
        exact words_append (words_token _ p) <| words_append (words_of hline) (words_of hrest)

/-- Groups of parameters are tracked. -/
theorem tracks_parameterGroup (n : Nat) :
    Recognizes (parameterGroup n) IsParameterGroup anyToken := by
  refine ((tracks_typed n).map fun x =>
    x.1.map fun name => (⟨name.value, x.2, name.position⟩ : Parameter)).mono ?_ ?_
  · rintro ts i group j ⟨⟨names, type⟩, htyped, rfl⟩
    exact .mk htyped
  · rintro w ⟨i, group, j, hw⟩
    cases hw with
    | mk htyped => exact words_of htyped

/-- Groups of parameters, or none. -/
def IsGroups : Language (List Parameter) :=
  fun ts i params j => ts = [] ∧ params = [] ∧ j = i ∨
    ∃ groups, Separated IsParameterGroup (.symbol .semicolon) ts i groups j ∧
      params = groups.flatten

/-- Behind an opening parenthesis stand groups of parameters and the closing one. -/
theorem isParameters_cons_iff {p : Position} {ts : List (Located Token)} {i j : Nat}
    {params : List Parameter} :
    IsParameters (⟨.symbol .leftParen, p⟩ :: ts) i params j ↔ Closed IsGroups ts i params j := by
  constructor
  · intro h
    cases h with
    | none => exact ⟨[], _, rfl, Or.inl ⟨rfl, rfl, rfl⟩⟩
    | some hgroups => exact ⟨_, _, rfl, Or.inr ⟨_, hgroups, rfl⟩⟩
  · rintro ⟨us, q, rfl, ⟨rfl, rfl, rfl⟩ | ⟨groups, hgroups, rfl⟩⟩
    · exact .none
    · exact .some hgroups

/-- Parameters are tracked, unless a parenthesis stands behind them. -/
theorem tracks_parameters (n : Nat) :
    Recognizes (parameters n) IsParameters (· ≠ .symbol .leftParen) := by
  have hgroups : Recognizes (separated (parameterGroup n) (.symbol .semicolon) n)
      (Separated IsParameterGroup (.symbol .semicolon)) (· = .symbol .rightParen) :=
    tracks_separated rfl (tracks_parameterGroup n) trivial
      (by rintro v rfl; exact ⟨trivial, by simp⟩) n
  have hclosed : Recognizes (ifTaken (.symbol .rightParen) (pure []) (do
      let groups ← separated (parameterGroup n) (.symbol .semicolon) n
      let _ ← eat (.symbol .rightParen)
      return groups.flatten)) (Closed IsGroups) anyToken := by
    refine tracks_closed hgroups (fun groups => (tracks_eat rfl).map fun _ => groups.flatten)
      (fun _ => Or.inl ⟨rfl, rfl, rfl⟩) (fun h => Or.inr ⟨_, h, rfl⟩) ?_
    rintro w ⟨i, params, j, ⟨rfl, -, -⟩ | ⟨groups, hphrase, -⟩⟩
    · exact Or.inl rfl
    · exact Or.inr ⟨words_of hphrase, begins_separated exists_cons_of_isParameterGroup hphrase⟩
  refine ⟨fun i => ⟨[], [], i, .absent⟩, fun s => ?_⟩
  unfold parameters
  refine tracksAt_ifTaken rfl (fun p => ?_) (fun _ h => h rfl) fun hne => ?_
  · refine (hclosed.before fun _ _ => trivial).mono isParameters_cons_iff.2 ?_
    rintro w ⟨i, params, j, hw⟩
    exact ⟨i, params, j, isParameters_cons_iff.1 hw⟩
  · refine tracksAt_pure .absent ?_
    rintro w cont behind ⟨i, params, j, hw⟩ - heq
    cases hw with
    | absent => rfl
    | none => exact absurd (value_of_append_eq heq) hne
    | some _ => exact absurd (value_of_append_eq heq) hne

/-- Blocks are tracked if their procedures are. -/
theorem tracks_blockOf {p : Reader Declaration} (hp : Recognizes p IsProcedure anyToken)
    (n : Nat) : Recognizes (blockOf p n) IsBlock anyToken := by
  have hsections : Recognizes (whileStarts (check (.keyword .var)) (variableSection n) n)
      (Repeated IsSection) (fun v => v = .keyword .procedure ∨ v = .keyword .blockBegin) :=
    tracks_whileStarts (· == .keyword .var) (fun _ => rfl) (tracks_variableSection n)
      (fun h => by cases h; exact ⟨_, _, rfl, by rfl⟩)
      (fun v hv => by rw [(Token.beq_iff_eq_of_isFixed rfl).1 hv]; rfl)
      (fun v hv => by
        rcases hv with rfl | rfl
        · exact ⟨rfl, check_eq_false rfl (by simp)⟩
        · exact ⟨rfl, check_eq_false rfl (by simp)⟩) n
  have hprocedures : Recognizes (whileStarts (check (.keyword .procedure)) p n)
      (Repeated IsProcedure) (· = .keyword .blockBegin) :=
    tracks_whileStarts (· == .keyword .procedure) (fun _ => rfl) hp
      (fun h => by cases h; exact ⟨_, _, rfl, by rfl⟩) (fun _ _ => trivial)
      (fun v hv => ⟨trivial, check_eq_false hv (by simp)⟩) n
  have hfirst : ∀ {us : List (Located Token)} {i : Nat} {d : Declaration} {j : Nat},
      IsProcedure us i d j → Begins (· = .keyword .procedure) us := by
    intro us i d j h
    cases h
    exact ⟨_, _, rfl, rfl⟩
  have hdeclarations := hsections.andThen (fun sections => hprocedures.map fun procedures =>
    sections.flatten ++ procedures) fun _ _ hw hcont =>
      begins_repeated hfirst (fun _ => Or.inl) (fun _ => Or.inr) hw hcont
  refine (hdeclarations.andThen (fun declarations => (tracks_compound n).map fun body =>
    (⟨declarations, body⟩ : Block)) ?_).mono ?_ ?_
  · rintro w cont ⟨i, body, j, hw⟩ -
    cases hw
    exact ⟨_, _, rfl, rfl⟩
  · rintro ts i block l ⟨_, vs, _, _, rfl, ⟨ts, us, sections, _, rfl, hs, procedures, hps, rfl⟩,
      body, hbody, rfl⟩
    rw [List.append_assoc]
    exact .mk hs hps hbody
  · rintro w ⟨i, block, j, hw⟩
    cases hw with
    | @mk ts us vs _ _ _ _ _ _ _ hs hps hbody =>
        rw [← List.append_assoc]
        exact words_append (words_append (words_of hs) (words_of hps)) (words_of hbody)

/-- **Procedures are tracked.** -/
theorem tracks_procedure (n : Nat) : Recognizes (procedure n) IsProcedure anyToken := by
  have hproductive : Productive IsProcedure := by
    intro i
    have hblock : IsBlock [⟨.keyword .blockBegin, .origin⟩, ⟨.keyword .blockEnd, .origin⟩] i
        ⟨[], [.empty]⟩ i := .mk .none .none (.mk (.one .empty))
    exact ⟨[⟨.keyword .procedure, .origin⟩, ⟨.identifier "", .origin⟩,
      ⟨.symbol .semicolon, .origin⟩, ⟨.keyword .blockBegin, .origin⟩,
      ⟨.keyword .blockEnd, .origin⟩, ⟨.symbol .semicolon, .origin⟩], _, i, .mk .absent hblock⟩
  induction n with
  | zero => exact ⟨hproductive, fun s => .outOfSteps⟩
  | succ n ih =>
      unfold procedure
      refine ((tracks_eat rfl).bind fun _ => tracks_identifier.bind fun name =>
        (tracks_parameters n).andThen (fun params => (tracks_eat rfl).bind fun _ =>
          (tracks_blockOf ih n).bind fun block => (tracks_eat rfl).map fun _ =>
            Declaration.procedure name.value params block.declarations block.body name.position)
          ?_).mono ?_ ?_
      · intro w cont hw _
        exact (begins_token hw cont).mono (by rintro v rfl; simp)
      · rintro ts i declaration k ⟨_, _, _, _, rfl, ⟨p, rfl, rfl, rfl⟩, _, _, name, _, rfl, hname,
          us, _, params, _, rfl, hparams, _, _, _, _, rfl, ⟨r, rfl, rfl, rfl⟩, vs, _, block, _, rfl,
          hblock, _, ⟨t, rfl, -, rfl⟩, rfl⟩
        cases hname
        exact .mk hparams hblock
      · rintro w ⟨i, declaration, j, hw⟩
        cases hw with
        | @mk name p q r t ts us _ _ _ _ _ hparams hblock =>
            exact words_append (words_token _ p) <| words_append (words_name name q) <|
              words_append (words_of hparams) <| words_append (words_token _ r) <|
              words_append (words_of hblock) (words_token _ t)

theorem tracks_block (n : Nat) : Recognizes (block n) IsBlock anyToken :=
  tracks_blockOf (tracks_procedure n) n

/-! ## Programs -/

/-- A program with its nodes numbered from any number on. -/
def IsProgramFrom : Language Program :=
  fun ts i tree k => ∃ name p q r t us block,
    ts = ⟨.keyword .program, p⟩ :: ⟨.identifier name, q⟩ :: ⟨.symbol .semicolon, r⟩ ::
      (us ++ [⟨.symbol .dot, t⟩]) ∧ IsBlock us i block k ∧ tree = ⟨name, block, p⟩

/-- The nodes of a program are numbered from zero. -/
theorem isProgram_iff {ts : List (Located Token)} {tree : Program} :
    IsProgram ts tree ↔ ∃ k, IsProgramFrom ts 0 tree k := by
  constructor
  · intro h
    cases h with
    | mk hblock => exact ⟨_, _, _, _, _, _, _, _, rfl, hblock, rfl⟩
  · rintro ⟨k, name, p, q, r, t, us, block, rfl, hblock, rfl⟩
    exact .mk hblock

/-- **Programs are tracked.** -/
theorem tracks_program (n : Nat) : Recognizes (program n) IsProgramFrom anyToken := by
  refine ((tracks_eat rfl).bind fun first => tracks_identifier.bind fun name =>
    (tracks_eat rfl).bind fun _ => (tracks_block n).bind fun body =>
      (tracks_eat rfl).map fun _ => (⟨name.value, body, first.position⟩ : Program)).mono ?_ ?_
  · rintro ts i tree k ⟨_, _, _, _, rfl, ⟨p, rfl, rfl, rfl⟩, _, _, name, _, rfl, hname, _, _, _, _,
      rfl, ⟨r, rfl, rfl, rfl⟩, us, _, block, _, rfl, hblock, _, ⟨t, rfl, -, rfl⟩, rfl⟩
    cases hname
    exact ⟨_, p, _, r, t, us, block, rfl, hblock, rfl⟩
  · rintro w ⟨i, tree, k, name, p, q, r, t, us, block, rfl, hblock, -⟩
    exact words_append (words_token _ p) <| words_append (words_name name q) <|
      words_append (words_token _ r) <| words_append (words_of hblock) (words_token _ t)

/-- Reading a whole program fails with the program, or in front of a token behind it. -/
theorem wholeProgram_eq_error {n : Nat} {s t : TokenStream} {halt : Halt}
    (h : wholeProgram n s = .error halt t) :
    program n s = .error halt t ∨
      ∃ tree, program n s = .ok tree t ∧ t.current.value ≠ .endOfInput ∧
        halt = .failed (.grammar ⟨.trailingTokens t.current.value, t.current.position⟩) := by
  unfold wholeProgram at h
  rcases bind_eq_error.1 h with hprogram | ⟨tree, u, hprogram, h⟩
  · exact Or.inl hprogram
  · rcases bind_eq_error.1 h with hpeek | ⟨token, v, hpeek, h⟩
    · cases hpeek
    · cases hpeek
      cases hvalue : u.current.value with
      | endOfInput =>
          simp only [hvalue] at h
          cases h
      | _ =>
          simp only [hvalue] at h
          cases h
          exact Or.inr ⟨tree, hprogram, by simp [hvalue], by rw [hvalue]⟩

/-- The tokens of a program are a word, whatever the number of its first node. -/
theorem words_of_isProgram {ts : List (Located Token)} {tree : Program} (h : IsProgram ts tree) :
    wordsOf IsProgramFrom ts := by
  obtain ⟨k, hk⟩ := isProgram_iff.1 h
  exact words_of hk

end Reader

/-! ## The first fault -/

/-- Tokens that a program and the end of the input begin with. -/
def Viable (ts : List (Located Token)) : Prop :=
  ∃ us tree p more, IsProgram us tree ∧ us ++ [⟨.endOfInput, p⟩] = ts ++ more

theorem Viable.of_append {ts us : List (Located Token)} (h : Viable (ts ++ us)) : Viable ts := by
  obtain ⟨vs, tree, p, more, htree, heq⟩ := h
  exact ⟨vs, tree, p, us ++ more, htree, by rw [heq, List.append_assoc]⟩

theorem viable_of_open {ts : List (Located Token)} (h : Open Reader.IsProgramFrom 0 ts) :
    Viable ts := by
  obtain ⟨us, tree, k, hprogram⟩ := h
  refine ⟨ts ++ us, tree, .origin, us ++ [⟨.endOfInput, .origin⟩], ?_, ?_⟩
  · exact Reader.isProgram_iff.2 ⟨k, hprogram⟩
  · rw [List.append_assoc]

/-- The first fault among the items of a text, and the error that reports it. -/
inductive FirstFault (items : List Item) : ParseError → Prop where
  /-- A lexical error behind tokens of which a program may begin. -/
  | lexical {ts : List (Located Token)} {e : LexicalError}
      (hitems : items = ts.map Except.ok ++ [.error e]) (hviable : Viable ts) :
      FirstFault items (.lexical e)
  /-- A token that no program goes on with. -/
  | unexpected {ts : List (Located Token)} {token : Located Token} {behind : List Item}
      {expected : String} (hitems : items = ts.map Except.ok ++ .ok token :: behind)
      (hviable : Viable ts) (hnot : ¬Viable (ts ++ [token])) (hno : ¬∃ tree, IsProgram ts tree) :
      FirstFault items (.grammar ⟨.unexpectedToken token.value expected, token.position⟩)
  /-- A token behind a whole program. -/
  | trailing {ts : List (Located Token)} {token : Located Token} {behind : List Item}
      {tree : Program} (hitems : items = ts.map Except.ok ++ .ok token :: behind)
      (hviable : Viable ts) (hnot : ¬Viable (ts ++ [token])) (htree : IsProgram ts tree) :
      FirstFault items (.grammar ⟨.trailingTokens token.value, token.position⟩)

theorem viable_nil : Viable [] :=
  viable_of_open ((Reader.tracks_program 0).productive 0)

/-- **Reading a whole program** ends at the first fault. -/
theorem firstFault_of_wholeProgram {n : Nat} {s t : TokenStream} {e : ParseError}
    (hid : s.nextId = 0) (h : Reader.wholeProgram n s = .error (.failed e) t) :
    FirstFault s.upcoming e := by
  have htracked : Reader.Tracked s.upcoming s.nextId Reader.IsProgramFrom
      (wordsOf Reader.IsProgramFrom) Reader.anyToken (Reader.program n s) :=
    (Reader.tracks_program n).here s
  have hlast : ∀ token : Located Token, Begins Reader.anyToken [token] :=
    fun _ => ⟨_, _, rfl, trivial⟩
  rw [hid] at htracked
  obtain ⟨behind, hbehind⟩ := t.exists_upcoming_eq
  rcases Reader.wholeProgram_eq_error h with hprogram | ⟨tree, hprogram, hvalue, herror⟩
  · rw [hprogram] at htracked
    cases htracked with
    | lexical ts hitems hopen => exact .lexical hitems (viable_of_open hopen)
    | fault ts hitems hopen hfault =>
        rw [hbehind] at hitems
        refine .unexpected hitems (viable_of_open hopen) ?_ ?_
        · rintro ⟨us, tree, p, more, htree, heq⟩
          rw [List.append_assoc] at heq
          exact hfault us _ more (Reader.words_of_isProgram htree) (hlast _) heq
        · rintro ⟨tree, htree⟩
          exact hfault ts [t.current] [] (Reader.words_of_isProgram htree) (hlast _) rfl
  · cases herror
    rw [hprogram] at htracked
    cases htracked with
    | ok ts hitems hphrase hend =>
        have htree : IsProgram ts tree := Reader.isProgram_iff.2 ⟨_, hphrase⟩
        rw [hbehind] at hitems
        refine .trailing hitems ⟨ts, tree, .origin, _, htree, rfl⟩ ?_ htree
        rintro ⟨us, other, p, more, hother, heq⟩
        rw [List.append_assoc] at heq
        -- the other program is the one that has been read, and ends here
        obtain rfl := hend us _ more (Reader.words_of_isProgram hother) (hlast _) heq
        have hsame := (List.cons.inj (List.append_cancel_left heq)).1
        exact hvalue (by rw [← hsame])

/-- A text that is not read is read up to its first fault. -/
theorem firstFault_of_parse {source : String} {e : ParseError} (h : parse source = .error e) :
    FirstFault (tokenize source) e := by
  unfold parse readProgram at h
  cases hstream : TokenStream.ofString source with
  | error fault =>
      rw [hstream] at h
      obtain ⟨⟩ := h
      have hitems : tokenize source = ([] : List (Located Token)).map Except.ok ++ [.error fault] :=
        TokenStream.tokenize_of_ofString_error hstream
      exact .lexical hitems viable_nil
  | ok s =>
      rw [hstream] at h
      dsimp only at h
      obtain ⟨hupcoming, hid⟩ := TokenStream.upcoming_ofString hstream
      rw [← hupcoming]
      rcases s.read_eq Phrase.wholeProgram (Nat.lt_succ_self _) with
        ⟨tree, t, -, heq⟩ | ⟨found, t, hread, heq⟩
      · rw [heq] at h
        cases h
      · rw [heq] at h
        obtain ⟨⟩ := h
        exact firstFault_of_wholeProgram hid hread

/-- A token that is read before a lexical error stands among the tokens before it. -/
theorem exists_eq_append_cons {ts us : List (Located Token)} {token : Located Token}
    {behind : List Item} {e : LexicalError}
    (h : us.map Except.ok ++ [.error e] = ts.map Except.ok ++ .ok token :: behind) :
    ∃ more, us = ts ++ token :: more := by
  induction ts generalizing us with
  | nil =>
      cases us with
      | nil => cases h
      | cons first us =>
          obtain rfl : first = token := Except.ok.inj (List.cons.inj h).1
          exact ⟨us, rfl⟩
  | cons first ts ih =>
      cases us with
      | nil => cases h
      | cons other us =>
          obtain ⟨hsame, hrest⟩ := List.cons.inj h
          obtain rfl : other = first := Except.ok.inj hsame
          obtain ⟨more, rfl⟩ := ih hrest
          exact ⟨more, rfl⟩

/-- A lexical error behind viable tokens is reported. -/
theorem parse_eq_lexical {source : String} {ts : List (Located Token)} {e : LexicalError}
    (hitems : tokenize source = ts.map Except.ok ++ [.error e]) (hviable : Viable ts) :
    parse source = .error (.lexical e) := by
  cases hparse : parse source with
  | ok tree =>
      obtain ⟨us, p, hus, -⟩ := parse_eq_ok_iff.1 hparse
      refine absurd ?_ (error_not_mem_tokens e us ⟨.endOfInput, p⟩)
      rw [← hus, hitems]
      exact List.mem_append_right _ (List.mem_singleton_self _)
  | error found =>
      -- the token of a fault before the lexical error would be among the viable ones
      have hno : ∀ {us : List (Located Token)} {token : Located Token} {behind : List Item},
          tokenize source = us.map Except.ok ++ .ok token :: behind →
          Viable (us ++ [token]) := by
        intro us token behind hother
        obtain ⟨more, rfl⟩ := exists_eq_append_cons (hitems.symm.trans hother)
        rw [List.append_cons] at hviable
        exact hviable.of_append
      cases firstFault_of_parse hparse with
      | lexical hother _ =>
          obtain ⟨-, hlast⟩ := List.append_inj' (hitems.symm.trans hother) rfl
          rw [Except.error.inj (List.cons.inj hlast).1]
      | unexpected hother _ hnot _ => exact absurd (hno hother) hnot
      | trailing hother _ hnot _ => exact absurd (hno hother) hnot

/-- **The first fault wins.**  If a text has a lexical error, and a program may begin with the
tokens before it, the lexical error is reported.  Otherwise, if the text is no program, the
tokens before the first one that no program goes on with are read, and this one is reported:
as standing behind the program if they are one, and as unexpected if not. -/
theorem parse_firstFault (source : String) :
    (∀ ts e, tokenize source = ts.map Except.ok ++ [.error e] → Viable ts →
      parse source = .error (.lexical e)) ∧
    ((∀ ts e, tokenize source = ts.map Except.ok ++ [.error e] → ¬Viable ts) →
      (∀ ts p tree, tokenize source = ts.map Except.ok ++ [.ok ⟨.endOfInput, p⟩] →
        ¬IsProgram ts tree) →
      ∃ before token behind, tokenize source = before.map Except.ok ++ .ok token :: behind ∧
        (∀ ts, ts <+: before → Viable ts) ∧ ¬Viable (before ++ [token]) ∧
        ((∃ tree, IsProgram before tree) ∧
            parse source = .error (.grammar ⟨.trailingTokens token.value, token.position⟩) ∨
          (¬∃ tree, IsProgram before tree) ∧ ∃ expected, parse source =
            .error (.grammar ⟨.unexpectedToken token.value expected, token.position⟩))) := by
  have hprefixes : ∀ {before : List (Located Token)}, Viable before →
      ∀ ts, ts <+: before → Viable ts := by
    rintro _ hviable ts ⟨more, rfl⟩
    exact hviable.of_append
  refine ⟨fun _ _ => parse_eq_lexical, fun hlexical hprogram => ?_⟩
  cases hparse : parse source with
  | ok tree =>
      obtain ⟨ts, p, hitems, htree⟩ := parse_eq_ok_iff.1 hparse
      exact absurd htree (hprogram ts p tree hitems)
  | error found =>
      cases firstFault_of_parse hparse with
      | lexical hitems hviable => exact absurd hviable (hlexical _ _ hitems)
      | unexpected hitems hviable hnot hno =>
          exact ⟨_, _, _, hitems, hprefixes hviable, hnot, Or.inr ⟨hno, _, rfl⟩⟩
      | trailing hitems hviable hnot htree =>
          exact ⟨_, _, _, hitems, hprefixes hviable, hnot, Or.inl ⟨⟨_, htree⟩, rfl⟩⟩

/-- An assignment without a value and a lexical error behind it: the first one is reported. -/
example : (match parse "PROGRAM P; BEGIN x := END. @" with
    | .ok _ => ""
    | .error e => e.message) =
    "Syntax error on line 1, column 23: Unexpected token 'END', expected expression." := by
  decide +kernel

end MiniPascal
