/-
# Reading the same tokens at other places

A reader looks at the values of tokens only.  So where the same tokens are to come, at
whatever places, it reads trees that differ in places only, and it takes the same number
of tokens and of node numbers; or it fails in the same way.

* `TokenStream.advance_moved`, `TokenStream.peekNext_moved` : the two steps that scan;
* `Reader.moved_factor`, `Reader.moved_statement`, `Reader.moved_procedure` : the readers that
  nest;
* `parse_moved` : what is read from texts with the same tokens.
-/
import MiniPascal.Proofs.Grammar.Upcoming
import MiniPascal.Proofs.Likeness
import MiniPascal.Proofs.Lockstep
import MiniPascal.Tree.Phrase

set_option autoImplicit false

namespace MiniPascal

variable {places : Position → Position → Prop}

/-! ## The same values at other places -/

/-- The same value at another place. -/
structure Located.Moved {α : Type} (places : Position → Position → Prop) (x x' : Located α) :
    Prop where
  value : x'.value = x.value
  position : places x.position x'.position

theorem error_not_mem (ts : List (Located Token)) (e : LexicalError) :
    (.error e : Item) ∉ ts.map .ok := by
  intro h
  obtain ⟨t, -, ht⟩ := List.mem_map.1 h
  cases ht

/-- The same tokens at other places, up to the end of the input. -/
def SameTokens (places : Position → Position → Prop) (items items' : List Item) : Prop :=
  ∃ ts ts' : List (Located Token), items = ts.map .ok ∧ items' = ts'.map .ok ∧
    List.Forall₂ (Located.Moved places) ts ts'

namespace SameTokens

variable {items items' : List Item}

/-- Behind the same tokens stand the same tokens. -/
theorem tail {item item' : Item}
    (h : SameTokens places (item :: items) (item' :: items')) :
    SameTokens places items items' := by
  obtain ⟨ts, ts', hts, hts', hsame⟩ := h
  cases hsame with
  | nil => cases hts
  | cons _ hrest => exact ⟨_, _, (List.cons.inj hts).2, (List.cons.inj hts').2, hrest⟩

/-- Among the same tokens there is no lexical error. -/
theorem ne_error (h : SameTokens places items items') (e : LexicalError) :
    items ≠ [.error e] ∧ items' ≠ [.error e] := by
  obtain ⟨ts, ts', rfl, rfl, -⟩ := h
  constructor
  · intro heq
    exact error_not_mem ts e (heq ▸ List.mem_singleton_self _)
  · intro heq
    exact error_not_mem ts' e (heq ▸ List.mem_singleton_self _)

end SameTokens

/-- The same stop at another place. -/
inductive Halt.Moved (places : Position → Position → Prop) : Halt → Halt → Prop where
  | grammar {e e' : GrammarError} (h : e.Moved places e') :
      Moved places (.failed (.grammar e)) (.failed (.grammar e'))
  | outOfSteps : Moved places .outOfSteps .outOfSteps

/-- Streams that offer the same tokens and number nodes alike. -/
structure TokenStream.Moved (places : Position → Position → Prop) (s s' : TokenStream) :
    Prop where
  nextId : s'.nextId = s.nextId
  upcoming : SameTokens places s.upcoming s'.upcoming

/-- Two readers in lock step. -/
abbrev ReadersAlike {α α' : Type} (places : Position → Position → Prop)
    (values : α → α' → Prop) (read : Reader α) (read' : Reader α') : Prop :=
  Lockstep (TokenStream.Moved places) (Halt.Moved places) values read read'

/-- A reader that reads the same wherever the tokens stand. -/
abbrev ReadsAlike {α : Type} (places : Position → Position → Prop) (values : α → α → Prop)
    (read : Reader α) : Prop :=
  ReadersAlike places values read read

namespace TokenStream

variable {s s' : TokenStream}

/-- The current tokens are the same. -/
theorem Moved.current (h : s.Moved places s') : s.current.Moved places s'.current := by
  obtain ⟨ts, ts', hts, hts', hsame⟩ := h.upcoming
  obtain ⟨rest, hrest⟩ := s.exists_upcoming_eq
  obtain ⟨rest', hrest'⟩ := s'.exists_upcoming_eq
  rw [hts] at hrest
  rw [hts'] at hrest'
  cases hsame with
  | nil => cases hrest
  | cons htoken _ =>
      cases hrest
      cases hrest'
      exact htoken

/-- Before tokens alone, advancing succeeds. -/
theorem advance_of_tokens {ts : List (Located Token)} (hts : s.upcoming = ts.map .ok)
    (hs : s.current.value ≠ .endOfInput) :
    ∃ t, advance s = .ok s.current t ∧ s.upcoming = .ok s.current :: t.upcoming ∧
      t.nextId = s.nextId := by
  cases hadvance : advance s with
  | ok token t =>
      obtain ⟨rfl, hupcoming, hid⟩ := advance_eq_ok hs hadvance
      exact ⟨t, rfl, hupcoming, hid⟩
  | error halt t =>
      -- the error would stand among the tokens
      obtain ⟨e, -, herror⟩ := advance_eq_error hs hadvance
      refine absurd ?_ (error_not_mem ts e)
      rw [← hts, herror]
      exact List.mem_cons_of_mem _ List.mem_cons_self

/-- Before tokens alone, looking ahead succeeds. -/
theorem peekNext_of_tokens {ts : List (Located Token)} (hts : s.upcoming = ts.map .ok)
    (hs : s.current.value ≠ .endOfInput) :
    ∃ next t rest, peekNext s = .ok next t ∧ s.upcoming = .ok s.current :: .ok next :: rest ∧
      t.upcoming = s.upcoming ∧ t.nextId = s.nextId := by
  cases hpeek : peekNext s with
  | ok token t =>
      obtain ⟨⟨rest, hrest⟩, hupcoming, hid⟩ := peekNext_eq_ok hs hpeek
      exact ⟨token, t, rest, rfl, hrest, hupcoming, hid⟩
  | error halt t =>
      obtain ⟨e, -, herror⟩ := peekNext_eq_error hs hpeek
      refine absurd ?_ (error_not_mem ts e)
      rw [← hts, herror]
      exact List.mem_cons_of_mem _ List.mem_cons_self

/-- **Advancing** takes the same token away. -/
theorem advance_moved (h : s.Moved places s') (hs : s.current.value ≠ .endOfInput) :
    EndAlike (TokenStream.Moved places) (Halt.Moved places) (Located.Moved places) (advance s)
      (advance s') := by
  have hcurrent := h.current
  have hsame := h.upcoming
  obtain ⟨ts, ts', hts, hts', -⟩ := h.upcoming
  obtain ⟨t, ht, hupcoming, hid⟩ := advance_of_tokens hts hs
  obtain ⟨t', ht', hupcoming', hid'⟩ := advance_of_tokens hts' (hcurrent.value ▸ hs)
  rw [hupcoming, hupcoming'] at hsame
  rw [ht, ht']
  exact .ok hcurrent ⟨hid'.trans (h.nextId.trans hid.symm), hsame.tail⟩

/-- **Looking ahead** shows the same token. -/
theorem peekNext_moved (h : s.Moved places s') (hs : s.current.value ≠ .endOfInput) :
    EndAlike (TokenStream.Moved places) (Halt.Moved places) (Located.Moved places)
      (peekNext s) (peekNext s') := by
  have hcurrent := h.current
  have hsame := h.upcoming
  obtain ⟨ts, ts', hts, hts', -⟩ := h.upcoming
  obtain ⟨next, t, rest, ht, hrest, hupcoming, hid⟩ := peekNext_of_tokens hts hs
  obtain ⟨next', t', rest', ht', hrest', hupcoming', hid'⟩ :=
    peekNext_of_tokens hts' (hcurrent.value ▸ hs)
  rw [ht, ht']
  refine .ok ?_ ⟨hid'.trans (h.nextId.trans hid.symm), ?_⟩
  · rw [hrest, hrest'] at hsame
    obtain ⟨us, us', hus, hus', hmoved⟩ := hsame.tail
    cases hmoved with
    | nil => cases hus
    | cons hnext _ =>
        cases hus
        cases hus'
        exact hnext
  · rw [hupcoming, hupcoming']
    exact hsame

end TokenStream

namespace Reader

open TokenStream

variable {α : Type} {values : α → α → Prop}

/-! ## Steps of a reader -/

/-- Readers that begin by looking at the current token. -/
theorem moved_peekCurrent {read read' : Located Token → Reader α}
    (h : ∀ value p p' s s', places p p' → s.Moved places s' → s.current = ⟨value, p⟩ →
      EndAlike (TokenStream.Moved places) (Halt.Moved places) values (read ⟨value, p⟩ s)
        (read' ⟨value, p'⟩ s')) :
    ReadersAlike places values (peekCurrent >>= read) (peekCurrent >>= read') := by
  intro s s' hs
  have hcurrent := hs.current
  have hvalue : s'.current = ⟨s.current.value, s'.current.position⟩ := by
    rw [← hcurrent.value]
  have hmoved := h s.current.value s.current.position s'.current.position s s'
    hcurrent.position hs rfl
  rw [← hvalue] at hmoved
  exact hmoved

theorem moved_unexpected (expected : String) :
    ReadsAlike places values (unexpected expected : Reader α) := by
  intro s s' hs
  refine .error (.grammar ⟨?_, hs.current.position⟩) hs
  show GrammarFault.unexpectedToken s'.current.value expected = _
  rw [hs.current.value]

theorem moved_trailing : ReadsAlike places values (trailing : Reader α) := by
  intro s s' hs
  refine .error (.grammar ⟨?_, hs.current.position⟩) hs
  show GrammarFault.trailingTokens s'.current.value = _
  rw [hs.current.value]

theorem moved_outOfSteps : ReadsAlike places values (outOfSteps : Reader α) := by
  intro s s' hs
  exact .error .outOfSteps hs

theorem moved_check (token : Token) : ReadsAlike places Eq (check token) := by
  intro s s' hs
  refine .ok ?_ hs
  rw [hs.current.value]

theorem moved_takeId : ReadsAlike places Eq takeId := by
  intro s s' hs
  exact .ok hs.nextId.symm ⟨congrArg (· + 1) hs.nextId, hs.upcoming⟩

/-- Going on behind a token, or without it. -/
theorem moved_ifTaken {token : Token} (htoken : token ≠ .endOfInput)
    {yes yes' no no' : Reader α} (hyes : ReadersAlike places values yes yes')
    (hno : ReadersAlike places values no no') :
    ReadersAlike places values (ifTaken token yes no) (ifTaken token yes' no') := by
  intro s s' hs
  have htaken : ∀ (u : TokenStream) (r r' : Reader α), ifTaken token r r' u =
      (if u.current.value == token then advance >>= fun _ => r else r') u := fun _ _ _ => rfl
  rw [htaken, htaken, hs.current.value]
  by_cases hcheck : (s.current.value == token) = true
  · rw [if_pos hcheck, if_pos hcheck]
    exact (advance_moved hs (ne_endOfInput_of_beq hcheck htoken)).bind fun _ _ _ => hyes
  · rw [if_neg hcheck, if_neg hcheck]
    exact hno s s' hs

/-- Moving past a required token. -/
theorem moved_eat {token : Token} (htoken : token ≠ .endOfInput) :
    ReadsAlike places (Located.Moved places) (eat token) := by
  intro s s' hs
  have heat : ∀ u : TokenStream, eat token u =
      (if u.current.value == token then advance else unexpected token.describe) u :=
    fun _ => rfl
  rw [heat, heat, hs.current.value]
  by_cases hcheck : (s.current.value == token) = true
  · rw [if_pos hcheck]
    exact advance_moved hs (ne_endOfInput_of_beq hcheck htoken)
  · rw [if_neg hcheck]
    exact moved_unexpected token.describe s s' hs

/-! ## Repetition -/

/-- Items behind separators. -/
theorem moved_separated {separator : Token} (hseparator : separator ≠ .endOfInput)
    {item : Reader α} (hitem : ReadsAlike places values item) (steps : Nat) :
    ReadsAlike places (List.Forall₂ values) (separated item separator steps) := by
  induction steps with
  | zero => exact moved_outOfSteps
  | succ n ih =>
      rw [separated]
      refine Lockstep.bind hitem fun first first' hfirst => ?_
      refine moved_ifTaken hseparator ?_ (Lockstep.pure (.cons hfirst .nil))
      exact Lockstep.bind ih fun rest rest' hrest => Lockstep.pure (.cons hfirst hrest)

/-- Items as long as the next one may start. -/
theorem moved_whileStarts {starts : Reader Bool} (hstarts : ReadsAlike places Eq starts)
    {item : Reader α} (hitem : ReadsAlike places values item) (steps : Nat) :
    ReadsAlike places (List.Forall₂ values) (whileStarts starts item steps) := by
  induction steps with
  | zero => exact moved_outOfSteps
  | succ n ih =>
      rw [whileStarts]
      refine Lockstep.bind hstarts fun more more' hmore => ?_
      obtain rfl : more = more' := hmore
      by_cases hmore : more = true
      · rw [if_pos hmore]
        refine Lockstep.bind hitem fun first first' hfirst => ?_
        exact Lockstep.bind ih fun rest rest' hrest => Lockstep.pure (.cons hfirst hrest)
      · rw [if_neg hmore]
        exact Lockstep.pure .nil

/-- Expressions that differ in places only. -/
abbrev ExprsMoved (places : Position → Position → Prop) : Expr → Expr → Prop :=
  Expr.Matches (.layout places)

/-- Operands joined by operators. -/
theorem moved_chain {operand : Reader Expr}
    (hoperand : ReadsAlike places (ExprsMoved places) operand)
    (belongs : Operator → Bool) (steps : Nat) {left left' : Expr}
    (hleft : ExprsMoved places left left') :
    ReadersAlike places (ExprsMoved places) (chain operand belongs steps left)
      (chain operand belongs steps left') := by
  induction steps generalizing left left' with
  | zero => exact moved_outOfSteps
  | succ n ih =>
      rw [chain, chain]
      refine moved_peekCurrent fun value p p' s s' hposition hs hcurrent => ?_
      dsimp only
      cases hop : value.operator? with
      | none => exact Lockstep.pure hleft s s' hs
      | some op =>
          dsimp only
          by_cases hbelongs : belongs op = true
          · rw [if_pos hbelongs, if_pos hbelongs]
            have hne : s.current.value ≠ .endOfInput := by
              rw [hcurrent]
              exact ne_endOfInput_of_operator hop
            refine (advance_moved hs hne).bind fun _ _ _ => ?_
            refine Lockstep.bind hoperand fun right right' hright => ?_
            exact ih (.binary hleft hright hposition)
          · rw [if_neg hbelongs, if_neg hbelongs]
            exact Lockstep.pure hleft s s' hs

/-! ## Names and types -/

/-- Identifiers. -/
theorem moved_identifier : ReadsAlike places (Located.Moved places) identifier := by
  rw [identifier]
  refine moved_peekCurrent fun value p p' s s' hposition hs hcurrent => ?_
  dsimp only
  split
  next name =>
    refine (advance_moved hs (by simp [hcurrent])).bind fun _ _ _ => ?_
    exact Lockstep.pure ⟨rfl, hposition⟩
  next => exact moved_unexpected "identifier" s s' hs

theorem moved_atIdentifier : ReadsAlike places Eq atIdentifier := by
  rw [atIdentifier]
  exact moved_peekCurrent fun value p p' s s' _ hs _ => Lockstep.pure rfl s s' hs

/-- Type names. -/
theorem moved_typeName : ReadsAlike places (TypeName.Matches (.layout places)) typeName := by
  rw [typeName]
  refine moved_peekCurrent fun value p p' s s' hposition hs hcurrent => ?_
  dsimp only
  split
  next =>
    refine (advance_moved hs (by simp [hcurrent])).bind fun _ _ _ => Lockstep.pure ?_
    show TypeName.Matches _ ⟨BuiltinType.integer.name, p⟩ ⟨BuiltinType.integer.name, p'⟩
    exact .builtin rfl hposition
  next =>
    refine (advance_moved hs (by simp [hcurrent])).bind fun _ _ _ => Lockstep.pure ?_
    show TypeName.Matches _ ⟨BuiltinType.real.name, p⟩ ⟨BuiltinType.real.name, p'⟩
    exact .builtin rfl hposition
  next => exact moved_unexpected "type name 'INTEGER' or 'REAL'" s s' hs

theorem moved_occurrence : ReadsAlike places (Variable.Matches (.layout places)) occurrence := by
  rw [occurrence]
  refine Lockstep.bind moved_identifier fun name name' hname => ?_
  refine Lockstep.bind moved_takeId fun id id' hid => ?_
  exact Lockstep.pure ⟨hname.value, hid.symm, hname.position⟩

/-! ## Expressions -/

theorem moved_termOf {factor : Reader Expr} (h : ReadsAlike places (ExprsMoved places) factor)
    (steps : Nat) : ReadsAlike places (ExprsMoved places) (termOf factor steps) := by
  rw [termOf]
  exact Lockstep.bind h fun left left' hleft => moved_chain h isMultiplicative steps hleft

theorem moved_expressionOf {factor : Reader Expr}
    (h : ReadsAlike places (ExprsMoved places) factor) (steps : Nat) :
    ReadsAlike places (ExprsMoved places) (expressionOf factor steps) := by
  rw [expressionOf]
  exact Lockstep.bind (moved_termOf h steps) fun left left' hleft =>
    moved_chain (moved_termOf h steps) isAdditive steps hleft

/-- **Factors.** -/
theorem moved_factor (steps : Nat) : ReadsAlike places (ExprsMoved places) (factor steps) := by
  induction steps with
  | zero => exact moved_outOfSteps
  | succ n ih =>
      rw [factor]
      -- both readers look at the same value, so they take the same way
      refine moved_peekCurrent fun value p p' s s' hposition hs hcurrent => ?_
      dsimp only
      split
      next =>
        refine (advance_moved hs (by simp [hcurrent])).bind fun _ _ _ => ?_
        exact Lockstep.bind ih fun operand operand' hoperand =>
          Lockstep.pure (.signed hoperand hposition)
      next =>
        refine (advance_moved hs (by simp [hcurrent])).bind fun _ _ _ => ?_
        exact Lockstep.bind ih fun operand operand' hoperand =>
          Lockstep.pure (.signed hoperand hposition)
      next =>
        refine (advance_moved hs (by simp [hcurrent])).bind fun _ _ _ => ?_
        exact Lockstep.pure (.literal hposition)
      next =>
        refine (advance_moved hs (by simp [hcurrent])).bind fun _ _ _ => ?_
        refine Lockstep.bind (moved_expressionOf ih n) fun inner inner' hinner => ?_
        exact Lockstep.bind (moved_eat (by simp)) fun _ _ _ => Lockstep.pure hinner
      next =>
        refine EndAlike.bind (moved_occurrence s s' hs) fun v v' hv => ?_
        exact Lockstep.pure (.occurrence hv)
      next => exact moved_unexpected "expression" s s' hs

theorem moved_expression (steps : Nat) :
    ReadsAlike places (ExprsMoved places) (expression steps) :=
  moved_expressionOf (moved_factor steps) steps

/-! ## Statements -/

/-- Arguments. -/
theorem moved_arguments (steps : Nat) :
    ReadsAlike places (List.Forall₂ (ExprsMoved places)) (arguments steps) := by
  rw [arguments]
  refine moved_ifTaken (by simp) (Lockstep.pure .nil) ?_
  refine Lockstep.bind (moved_separated (by simp) (moved_expression steps) steps)
    fun values values' hvalues => ?_
  exact moved_ifTaken (by simp) (Lockstep.pure hvalues) (moved_unexpected _)

/-- Calls. -/
theorem moved_call (steps : Nat) :
    ReadsAlike places (Call.Matches (.layout places)) (call steps) := by
  rw [call]
  refine Lockstep.bind moved_identifier fun name name' hname => ?_
  refine Lockstep.bind (moved_eat (by simp)) fun _ _ _ => ?_
  refine Lockstep.bind (moved_arguments steps) fun values values' hvalues => ?_
  refine Lockstep.bind moved_takeId fun id id' hid => ?_
  exact Lockstep.pure ⟨hname.value, hid.symm, hvalues, hname.position⟩

/-- Statements that differ in places only. -/
abbrev StatementsMoved (places : Position → Position → Prop) : Statement → Statement → Prop :=
  Statement.Matches (.layout places)

/-- Assignments. -/
theorem moved_assignment (steps : Nat) :
    ReadsAlike places (StatementsMoved places) (assignment steps) := by
  rw [assignment]
  refine Lockstep.bind moved_occurrence fun target target' htarget => ?_
  refine Lockstep.bind (moved_eat (by simp)) fun sign sign' hsign => ?_
  refine Lockstep.bind (moved_expression steps) fun value value' hvalue => ?_
  exact Lockstep.pure (.assign htarget hvalue hsign.position)

/-- Compound statements, if statements are read alike. -/
theorem moved_compoundOf {statement : Reader Statement}
    (h : ReadsAlike places (StatementsMoved places) statement) (steps : Nat) :
    ReadsAlike places (List.Forall₂ (StatementsMoved places)) (compoundOf statement steps) := by
  rw [compoundOf]
  refine Lockstep.bind (moved_eat (by simp)) fun _ _ _ => ?_
  refine Lockstep.bind (moved_separated (by simp) h steps) fun body body' hbody => ?_
  exact Lockstep.bind (moved_eat (by simp)) fun _ _ _ => Lockstep.pure hbody

/-- **Statements.** -/
theorem moved_statement (steps : Nat) :
    ReadsAlike places (StatementsMoved places) (statement steps) := by
  induction steps with
  | zero => exact moved_outOfSteps
  | succ n ih =>
      rw [statement]
      refine moved_peekCurrent fun value p p' s s' hposition hs hcurrent => ?_
      dsimp only
      split
      next =>
        refine EndAlike.bind (moved_compoundOf ih n s s' hs) fun body body' hbody => ?_
        exact Lockstep.pure (.compound hbody)
      next =>
        refine (peekNext_moved hs (by simp [hcurrent])).bind fun next next' hnext => ?_
        rw [hnext.value]
        by_cases hparen : (next.value == .symbol .leftParen) = true
        · rw [if_pos hparen]
          exact Lockstep.bind (moved_call n) fun c c' hc => Lockstep.pure (.call hc)
        · rw [if_neg hparen]
          exact moved_assignment n
      next => exact Lockstep.pure .empty s s' hs

theorem moved_compound (steps : Nat) :
    ReadsAlike places (List.Forall₂ (StatementsMoved places)) (compound steps) :=
  moved_compoundOf (moved_statement steps) steps

/-! ## Declarations -/

/-- Names with their type. -/
theorem moved_typed (steps : Nat) :
    ReadsAlike places (fun x x' => List.Forall₂ (Located.Moved places) x.1 x'.1 ∧
      x.2.Matches (.layout places) x'.2) (typed steps) := by
  rw [typed]
  refine Lockstep.bind (moved_separated (by simp) moved_identifier steps)
    fun names names' hnames => ?_
  refine Lockstep.bind (moved_eat (by simp)) fun _ _ _ => ?_
  exact Lockstep.bind moved_typeName fun type type' htype => Lockstep.pure ⟨hnames, htype⟩

/-- Declarations that differ in places only. -/
abbrev DeclarationsMoved (places : Position → Position → Prop) :
    List Declaration → List Declaration → Prop :=
  List.Forall₂ (Declaration.Matches (.layout places))

/-- Lines of variables. -/
theorem moved_variableLine (steps : Nat) :
    ReadsAlike places (DeclarationsMoved places) (variableLine steps) := by
  rw [variableLine]
  refine Lockstep.bind (moved_typed steps) fun x x' hx => ?_
  refine Lockstep.bind (moved_eat (by simp)) fun _ _ _ => Lockstep.pure ?_
  rw [DeclarationsMoved, List.forall₂_map_left_iff, List.forall₂_map_right_iff]
  refine hx.1.imp fun name name' hname => ?_
  rw [hname.value]
  exact .var trivial hx.2 hname.position

/-- Sections of variables. -/
theorem moved_variableSection (steps : Nat) :
    ReadsAlike places (DeclarationsMoved places) (variableSection steps) := by
  rw [variableSection]
  refine Lockstep.bind (moved_eat (by simp)) fun _ _ _ => ?_
  refine Lockstep.bind (moved_variableLine steps) fun first first' hfirst => ?_
  refine Lockstep.bind (moved_whileStarts moved_atIdentifier (moved_variableLine steps) steps)
    fun rest rest' hrest => Lockstep.pure ?_
  exact List.rel_append hfirst (List.rel_flatten hrest)

/-- Groups of parameters. -/
theorem moved_parameterGroup (steps : Nat) :
    ReadsAlike places (List.Forall₂ (Parameter.Matches (.layout places)))
      (parameterGroup steps) := by
  rw [parameterGroup]
  refine Lockstep.bind (moved_typed steps) fun x x' hx => Lockstep.pure ?_
  rw [List.forall₂_map_left_iff, List.forall₂_map_right_iff]
  exact hx.1.imp fun name name' hname => ⟨trivial, hname.value, hx.2, hname.position⟩

/-- Parameters. -/
theorem moved_parameters (steps : Nat) :
    ReadsAlike places (List.Forall₂ (Parameter.Matches (.layout places)))
      (parameters steps) := by
  rw [parameters]
  refine moved_ifTaken (by simp) (moved_ifTaken (by simp) (Lockstep.pure .nil) ?_)
    (Lockstep.pure .nil)
  refine Lockstep.bind (moved_separated (by simp) (moved_parameterGroup steps) steps)
    fun groups groups' hgroups => ?_
  exact Lockstep.bind (moved_eat (by simp)) fun _ _ _ => Lockstep.pure (List.rel_flatten hgroups)

/-- Declarations, if procedures are read alike. -/
theorem moved_declarationsOf {procedure : Reader Declaration}
    (h : ReadsAlike places (Declaration.Matches (.layout places)) procedure) (steps : Nat) :
    ReadsAlike places (DeclarationsMoved places) (declarationsOf procedure steps) := by
  rw [declarationsOf]
  refine Lockstep.bind (moved_whileStarts (moved_check _) (moved_variableSection steps) steps)
    fun sections sections' hsections => ?_
  refine Lockstep.bind (moved_whileStarts (moved_check _) h steps)
    fun procedures procedures' hprocedures => Lockstep.pure ?_
  exact List.rel_append (List.rel_flatten hsections) hprocedures

/-- Blocks, if procedures are read alike. -/
theorem moved_blockOf {procedure : Reader Declaration}
    (h : ReadsAlike places (Declaration.Matches (.layout places)) procedure) (steps : Nat) :
    ReadsAlike places (Block.Matches (.layout places)) (blockOf procedure steps) := by
  rw [blockOf]
  refine Lockstep.bind (moved_declarationsOf h steps)
    fun declarations declarations' hdeclarations => ?_
  exact Lockstep.bind (moved_compound steps) fun body body' hbody =>
    Lockstep.pure ⟨hdeclarations, hbody⟩

/-- **Procedures.** -/
theorem moved_procedure (steps : Nat) :
    ReadsAlike places (Declaration.Matches (.layout places)) (procedure steps) := by
  induction steps with
  | zero => exact moved_outOfSteps
  | succ n ih =>
      rw [procedure]
      refine Lockstep.bind (moved_eat (by simp)) fun _ _ _ => ?_
      refine Lockstep.bind moved_identifier fun name name' hname => ?_
      refine Lockstep.bind (moved_parameters n) fun params params' hparams => ?_
      refine Lockstep.bind (moved_eat (by simp)) fun _ _ _ => ?_
      refine Lockstep.bind (moved_blockOf ih n) fun block block' hblock => ?_
      refine Lockstep.bind (moved_eat (by simp)) fun _ _ _ => Lockstep.pure ?_
      rw [hname.value]
      exact .procedure trivial hparams hblock.declarations hblock.body hname.position

/-! ## Programs -/

/-- Programs up to their final point. -/
theorem moved_program (steps : Nat) :
    ReadsAlike places (Program.Matches (.layout places)) (program steps) := by
  rw [program]
  refine Lockstep.bind (moved_eat (by simp)) fun first first' hfirst => ?_
  refine Lockstep.bind moved_identifier fun name name' hname => ?_
  refine Lockstep.bind (moved_eat (by simp)) fun _ _ _ => ?_
  refine Lockstep.bind (moved_blockOf (moved_procedure steps) steps)
    fun block block' hblock => ?_
  exact Lockstep.bind (moved_eat (by simp)) fun _ _ _ =>
    Lockstep.pure ⟨hname.value, hblock, hfirst.position⟩

/-- **Whole programs.** -/
theorem moved_wholeProgram (steps : Nat) :
    ReadsAlike places (Program.Matches (.layout places)) (wholeProgram steps) := by
  rw [wholeProgram]
  refine Lockstep.bind (moved_program steps) fun tree tree' htree => ?_
  refine moved_peekCurrent fun value p p' s s' _ hs _ => ?_
  dsimp only
  split
  next => exact Lockstep.pure htree s s' hs
  next => exact moved_trailing s s' hs

end Reader

/-! ## Texts -/

theorem TokenStream.exists_ofString {source : String}
    (h : ∀ e, tokenize source ≠ [.error e]) : ∃ s, TokenStream.ofString source = .ok s := by
  cases hstream : TokenStream.ofString source with
  | ok s => exact ⟨s, rfl⟩
  | error e => exact absurd (TokenStream.tokenize_of_ofString_error hstream) (h e)

/-- What is read from a text is read from its stream. -/
theorem parse_of_ofString {source : String} {s : TokenStream}
    (h : TokenStream.ofString source = .ok s) :
    parse source = (s.read Phrase.wholeProgram).1 := by
  rw [parse, readProgram, h]

/-- The same parse error at another place. -/
inductive ParseError.Moved (places : Position → Position → Prop) :
    ParseError → ParseError → Prop where
  | grammar {e e' : GrammarError} (h : e.Moved places e') :
      Moved places (.grammar e) (.grammar e')

/-- What a phrase reads from streams that offer the same tokens. -/
theorem TokenStream.read_moved {α : Type} {values : α → α → Prop} {p : Phrase α}
    (h : ∀ steps, ReadsAlike places values (p.reader steps)) {s s' : TokenStream}
    (hs : s.Moved places s') :
    AnswersAlike (ParseError.Moved places) values (s.read p).1 (s'.read p).1 := by
  -- both are read with a budget that suffices for either
  have hends := h (s.remaining + s'.remaining + 1) s s' hs
  rcases s.read_eq p (show s.remaining < s.remaining + s'.remaining + 1 by omega) with
    ⟨tree, t, hrun, hread⟩ | ⟨e, t, hrun, hread⟩
  · rcases s'.read_eq p (show s'.remaining < s.remaining + s'.remaining + 1 by omega) with
      ⟨tree', t', hrun', hread'⟩ | ⟨e', t', hrun', hread'⟩
    · rw [hrun, hrun'] at hends
      rw [hread, hread']
      cases hends with
      | ok htree _ => exact .ok htree
    · rw [hrun, hrun'] at hends
      cases hends
  · rcases s'.read_eq p (show s'.remaining < s.remaining + s'.remaining + 1 by omega) with
      ⟨tree', t', hrun', hread'⟩ | ⟨e', t', hrun', hread'⟩
    · rw [hrun, hrun'] at hends
      cases hends
    · rw [hrun, hrun'] at hends
      rw [hread, hread']
      cases hends with
      | error hhalt _ =>
          cases hhalt with
          | grammar he => exact .error (.grammar he)

/-- **Texts with the same tokens** have trees that differ in places only, or the same
error at places that may stand for each other. -/
theorem parse_moved {source source' : String}
    (h : SameTokens places (tokenize source) (tokenize source')) :
    AnswersAlike (ParseError.Moved places) (Program.Matches (.layout places)) (parse source)
      (parse source') := by
  obtain ⟨s, hs⟩ := TokenStream.exists_ofString fun e => (h.ne_error e).1
  obtain ⟨s', hs'⟩ := TokenStream.exists_ofString fun e => (h.ne_error e).2
  obtain ⟨hupcoming, hid⟩ := TokenStream.upcoming_ofString hs
  obtain ⟨hupcoming', hid'⟩ := TokenStream.upcoming_ofString hs'
  rw [parse_of_ofString hs, parse_of_ofString hs']
  refine TokenStream.read_moved (p := Phrase.wholeProgram) Reader.moved_wholeProgram
    ⟨hid'.trans hid.symm, ?_⟩
  rw [hupcoming, hupcoming']
  exact h

end MiniPascal
