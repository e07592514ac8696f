/-
# Reading ends

Whatever a stream has to offer, every production ends with an answer or an error in the text,
within one step for each token.  A round of a loop, and all that lies between a phrase and a
phrase of the same kind inside of it, consumes a token other than the end of the input: what a
production answers depends on the readers that it comes round to only behind a token.

* `TokenStream.consumption` : the course of the tokens that readers consume;
* `Reader.Nests.nestsBehind` : the phrases that nest come round behind a token;
* `Reader.Loop.repeatsBehind`, `Reader.Joins.joinsBehind` : so do the loops;
* `Reader.Production.endsWithin` : more steps than tokens are enough;
* `parse_withinSteps` : what is read from any stream, and in how many steps.
-/
import MiniPascal.Proofs.Grammar.Upcoming
import MiniPascal.Tree.Phrase

set_option autoImplicit false

namespace MiniPascal

/-! ## Tokens that are consumed -/

/-- The token that an item is, unless it is the end of the input. -/
def Item.token? : Item → Option (Located Token)
  | .ok ⟨.endOfInput, _⟩ => none
  | .ok token => some token
  | .error _ => none

/-- The tokens among items, the end of the input left out. -/
def tokensOf (items : List Item) : List (Located Token) := items.filterMap Item.token?

theorem Item.token?_of_ne {token : Located Token} (h : token.value ≠ .endOfInput) :
    Item.token? (.ok token) = some token := by
  obtain ⟨value, position⟩ := token
  cases value with
  | endOfInput => exact absurd rfl h
  | _ => rfl

/-- Tokens in front of items. -/
theorem tokensOf_append {ts : List (Located Token)} (h : ∀ token ∈ ts, token.value ≠ .endOfInput)
    (items : List Item) : tokensOf (ts.map Except.ok ++ items) = ts ++ tokensOf items := by
  induction ts with
  | nil => rfl
  | cons first rest ih =>
      obtain ⟨hfirst, hrest⟩ := List.forall_mem_cons.1 h
      have hthere : tokensOf (.ok first :: (rest.map Except.ok ++ items))
          = first :: tokensOf (rest.map Except.ok ++ items) :=
        List.filterMap_cons_some (Item.token?_of_ne hfirst)
      rw [List.map_cons, List.cons_append, hthere, ih hrest, List.cons_append]

namespace TokenStream

/-- Between two states of a stream these tokens are consumed.  The end of the input is never
consumed. -/
structure Consumes (s : TokenStream) (ts : List (Located Token)) (t : TokenStream) : Prop where
  tokens : ∀ token ∈ ts, token.value ≠ .endOfInput
  upcoming : s.upcoming = ts.map Except.ok ++ t.upcoming

/-- One state of a stream stands behind another one: `n` tokens or more are consumed in
between. -/
def Behind (n : Nat) (s t : TokenStream) : Prop :=
  ∃ ts : List (Located Token), n ≤ ts.length ∧ s.Consumes ts t

section Consumes

variable {s t u : TokenStream} {ts us : List (Located Token)} {n k : Nat}

theorem consumes_nil (h : t.upcoming = s.upcoming) : s.Consumes [] t :=
  ⟨fun _ hmem => absurd hmem List.not_mem_nil, h.symm⟩

/-- Tokens are consumed in turn. -/
theorem Consumes.append (hts : s.Consumes ts t) (hus : t.Consumes us u) :
    s.Consumes (ts ++ us) u := by
  refine ⟨fun token hmem => ?_, ?_⟩
  · rcases List.mem_append.1 hmem with hmem | hmem
    · exact hts.tokens token hmem
    · exact hus.tokens token hmem
  · rw [hts.upcoming, hus.upcoming, List.map_append, List.append_assoc]

theorem consumes_advance {token : Located Token} (hs : s.current.value ≠ .endOfInput)
    (h : advance s = .ok token t) : s.Consumes [s.current] t := by
  obtain ⟨-, hupcoming, -⟩ := advance_eq_ok hs h
  refine ⟨fun token hmem => ?_, hupcoming⟩
  rw [List.mem_singleton.1 hmem]
  exact hs

/-- No more tokens are consumed than there are. -/
theorem Behind.le_length (h : s.Behind n t) : n ≤ (tokensOf s.upcoming).length := by
  obtain ⟨ts, hn, hts⟩ := h
  rw [hts.upcoming, tokensOf_append hts.tokens, List.length_append]
  omega

end Consumes

/-- **The course of consumption**: how many tokens readers consume. -/
def consumption : Course where
  Moves n s t := s.Behind n t
  Fails _ _ _ := True
  refl s := ⟨[], Nat.le_refl 0, consumes_nil rfl⟩
  trans := by
    rintro i j s t u ⟨ts, hi, hts⟩ ⟨us, hj, hus⟩
    refine ⟨ts ++ us, ?_, hts.append hus⟩
    rw [List.length_append]
    omega
  mono := by
    rintro i j s t ⟨ts, hj, hts⟩ hij
    exact ⟨ts, Nat.le_trans hij hj, hts⟩
  fails_behind _ _ := trivial
  moves_takeId s := ⟨[], Nat.le_refl 0, consumes_nil rfl⟩
  moves_advance hs h := ⟨[_], Nat.le_refl 1, consumes_advance hs h⟩
  fails_advance _ _ := trivial
  fails_unexpected _ _ := trivial
  fails_trailing _ := trivial

end TokenStream

namespace Reader

open TokenStream Course

/-! ## Behind a token -/

/-- A reader that succeeds has consumed `i` tokens or more. -/
def Takes {α : Type} (i : Nat) (p : Reader α) : Prop :=
  ∀ ⦃s : TokenStream⦄ ⦃x : α⦄ ⦃t : TokenStream⦄, p s = .ok x t → s.Behind i t

/-- Two readers answer the same wherever a token has been consumed since `s`. -/
def SameBehind {α : Type} (s : TokenStream) (p q : Reader α) : Prop :=
  ∀ t, s.Behind 1 t → p t = q t

section Behind

variable {α : Type} {i : Nat} {p q : Reader α} {s origin : TokenStream}

theorem enough_same {j n : Nat} : consumption.Enough True origin j n n := Enough.same trivial

/-- What a reader takes, told by the course of consumption. -/
theorem takes_of_alike (h : ∀ {origin}, consumption.Alike True origin 0 i p p) : Takes i p := by
  intro s x t hps
  have hends := (@h s s (consumption.refl s)).2
  rw [hps] at hends
  exact hends

/-- Readers that answer the same behind a token keep to the course of consumption there. -/
theorem alike_of_sameBehind (htakes : Takes i p) (h : SameBehind s p q) :
    consumption.Alike True s 1 i p q := by
  refine fun t ht => ⟨h t ht, ?_⟩
  cases hanswer : p t with
  | ok x u => exact htakes hanswer
  | error halt u => cases halt <;> trivial

end Behind

/-! ## Nesting -/

/-- The readers that a phrase of the same kind is come to through, from inside of a phrase. -/
structure Inner where
  factor : Reader Expr
  expression : Reader Expr
  statement : Reader Statement
  compound : Reader (List Statement)
  block : Reader Block

namespace Inner

/-- The readers of the grammar. -/
def ofSteps (steps : Nat) : Inner :=
  ⟨Reader.factor steps, Reader.expression steps, Reader.statement steps, Reader.compound steps,
    Reader.block steps⟩

/-- They all take a token, except that a statement may be empty. -/
structure Takes (inner : Inner) : Prop where
  factor : Reader.Takes 1 inner.factor
  expression : Reader.Takes 1 inner.expression
  statement : Reader.Takes 0 inner.statement
  compound : Reader.Takes 1 inner.compound
  block : Reader.Takes 1 inner.block

/-- They all answer the same wherever a token has been consumed since `s`. -/
structure SameBehind (s : TokenStream) (inner inner' : Inner) : Prop where
  factor : Reader.SameBehind s inner.factor inner'.factor
  expression : Reader.SameBehind s inner.expression inner'.expression
  statement : Reader.SameBehind s inner.statement inner'.statement
  compound : Reader.SameBehind s inner.compound inner'.compound
  block : Reader.SameBehind s inner.block inner'.block

end Inner

/-- The phrases that nest, and how each is read around the readers inside of it. -/
inductive Nests : {α : Type} → (Nat → Reader α) → (Nat → Inner → Reader α) → Prop
  | factor : Nests factor fun _ inner => factorFrom inner.factor inner.expression
  | term : Nests term fun steps inner =>
      termOf (factorFrom inner.factor inner.expression) (steps + 1)
  | expression : Nests expression fun steps inner =>
      expressionOf (factorFrom inner.factor inner.expression) (steps + 1)
  | statement : Nests statement fun steps inner =>
      statementFrom (compoundOf inner.statement steps) steps
  | compound : Nests compound fun steps inner =>
      compoundOf (statementFrom inner.compound steps) (steps + 1)
  | procedure : Nests procedure fun steps inner => procedureFrom inner.block steps
  | declarations : Nests declarations fun steps inner =>
      declarationsOf (procedureFrom inner.block steps) (steps + 1)
  | block : Nests block fun steps inner =>
      blockOf (procedureFrom inner.block steps) (steps + 1)

/-- A phrase is read around the readers inside of it, and what it answers depends on them only
behind a token: they can differ elsewhere, and it makes no difference. -/
structure NestsBehind {α : Type} (reader : Nat → Reader α) (around : Nat → Inner → Reader α) :
    Prop where
  succ : ∀ n, reader (n + 1) = around n (Inner.ofSteps n)
  guarded : ∀ n s inner inner', inner.Takes → inner.SameBehind s inner' →
    around n inner s = around n inner' s

section Nests

variable {α : Type} {reader : Nat → Reader α} {around : Nat → Inner → Reader α}

theorem Inner.takes_ofSteps (n : Nat) : (Inner.ofSteps n).Takes :=
  ⟨takes_of_alike (alike_factor enough_same), takes_of_alike (alike_expression enough_same),
    takes_of_alike (alike_statement enough_same), takes_of_alike (alike_compound enough_same),
    takes_of_alike (alike_block enough_same)⟩

/-- **What nests comes round behind a token.** -/
theorem Nests.nestsBehind (h : Nests reader around) : NestsBehind reader around := by
  refine ⟨fun n => by cases h <;> rfl, fun n s inner inner' htakes hsame => ?_⟩
  have hfactor := alike_factorFrom (C := consumption) (j := 0)
    (alike_of_sameBehind htakes.factor hsame.factor).weaken
    (alike_of_sameBehind htakes.expression hsame.expression).weaken
  have hcompound : consumption.Alike True s 0 1
      (compoundOf inner.statement n) (compoundOf inner'.statement n) :=
    alike_compoundOf (alike_of_sameBehind htakes.statement hsame.statement) enough_same
  have hstatement : consumption.Alike True s 1 0
      (statementFrom inner.compound n) (statementFrom inner'.compound n) :=
    alike_statementFrom (alike_of_sameBehind htakes.compound hsame.compound).weaken enough_same
  have hblock := (alike_of_sameBehind htakes.block hsame.block).weaken
  have hs := consumption.refl s
  cases h with
  | factor => exact (hfactor s hs).1
  | term => exact (alike_termOf hfactor enough_same s hs).1
  | expression => exact (alike_expressionFrom (alike_termOf hfactor enough_same) enough_same s hs).1
  | statement => exact (alike_statementFrom hcompound.weaken enough_same s hs).1
  | compound => exact (alike_compoundOf hstatement enough_same s hs).1
  | procedure => exact (alike_procedureFrom hblock enough_same s hs).1
  | declarations =>
      exact (alike_declarationsOf (alike_procedureFrom hblock enough_same) enough_same s hs).1
  | block => exact (alike_blockOf (alike_procedureFrom hblock enough_same) enough_same s hs).1

end Nests

/-! ## Loops -/

/-- The loops of the grammar, with one round of each around what comes round, and a number of
tokens that each takes at least. -/
inductive Loop : {α : Type} → Nat → (Nat → Reader α) → (Reader α → Reader α) → Prop
  | names : Loop 1 identifiers (separatedRound identifier (.symbol .comma))
  | arguments (k : Nat) : Loop 1 (separated (expression k) (.symbol .comma))
      (separatedRound (expression k) (.symbol .comma))
  | statements (k : Nat) : Loop 0 (separated (statement k) (.symbol .semicolon))
      (separatedRound (statement k) (.symbol .semicolon))
  | groups (k : Nat) : Loop 1 (separated (parameterGroup k) (.symbol .semicolon))
      (separatedRound (parameterGroup k) (.symbol .semicolon))
  | sections (k : Nat) : Loop 0 (whileStarts (check (.keyword .var)) (variableSection k))
      (whileStartsRound (check (.keyword .var)) (variableSection k))
  | lines (k : Nat) : Loop 0 (whileStarts atIdentifier (variableLine k))
      (whileStartsRound atIdentifier (variableLine k))
  | procedures (k : Nat) : Loop 0 (whileStarts (check (.keyword .procedure)) (procedure k))
      (whileStartsRound (check (.keyword .procedure)) (procedure k))

/-- The operands that are joined by operators, and which operators belong between them. -/
inductive Joins : Reader Expr → (Operator → Bool) → Prop
  | factors (k : Nat) : Joins (factor k) isMultiplicative
  | terms (k : Nat) : Joins (term k) isAdditive

/-- A loop reads in rounds, and what it answers depends on what comes round only behind a token.
If it succeeds, it has taken `i` tokens or more. -/
structure RepeatsBehind {α : Type} (i : Nat) (reader : Nat → Reader α)
    (round : Reader α → Reader α) : Prop where
  succ : ∀ n, reader (n + 1) = round (reader n)
  takes : ∀ n, Takes i (reader n)
  guarded : ∀ s again again', Takes i again → SameBehind s again again' →
    round again s = round again' s

/-- Operands are joined in rounds, whatever has been read so far. -/
structure JoinsBehind (operand : Reader Expr) (belongs : Operator → Bool) : Prop where
  succ : ∀ n left, chain operand belongs (n + 1) left
    = chainRound operand belongs (chain operand belongs n) left
  takes : ∀ n left, Takes 0 (chain operand belongs n left)
  guarded : ∀ s left again again', (∀ x, Takes 0 (again x)) →
    (∀ x, SameBehind s (again x) (again' x)) →
      chainRound operand belongs again left s = chainRound operand belongs again' left s

section Loops

variable {α : Type} {i : Nat} {reader : Nat → Reader α} {round : Reader α → Reader α}
  {operand : Reader Expr} {belongs : Operator → Bool}

/-- Loops keep to the course of consumption. -/
theorem Loop.alike (h : Loop i reader round) {origin : TokenStream} (n : Nat) :
    consumption.Alike True origin 0 i (reader n) (reader n) := by
  cases h with
  | names => exact alike_identifiers enough_same
  | arguments k => exact alike_separated (by simp) (alike_expression enough_same) enough_same
  | statements k => exact alike_separated (by simp) (alike_statement enough_same) enough_same
  | groups k => exact alike_separated (by simp) (alike_parameterGroup enough_same) enough_same
  | sections k =>
      exact alike_whileStarts (alike_check _) (alike_variableSection enough_same) enough_same
  | lines k =>
      exact alike_whileStarts alike_atIdentifier (alike_variableLine enough_same) enough_same
  | procedures k =>
      exact alike_whileStarts (alike_check _) (alike_procedure enough_same) enough_same

/-- So do their rounds, if what comes round does so behind a token. -/
theorem Loop.alike_round (h : Loop i reader round) {origin : TokenStream}
    {again again' : Reader α} (hagain : consumption.Alike True origin 1 i again again') :
    consumption.Alike True origin 0 i (round again) (round again') := by
  cases h with
  | names => exact alike_separatedRound (by simp) alike_identifier hagain.weaken
  | arguments k => exact alike_separatedRound (by simp) (alike_expression enough_same) hagain.weaken
  | statements k => exact alike_separatedRound (by simp) (alike_statement enough_same) hagain
  | groups k =>
      exact alike_separatedRound (by simp) (alike_parameterGroup enough_same) hagain.weaken
  | sections k =>
      exact alike_whileStartsRound (alike_check _) (alike_variableSection enough_same) hagain
  | lines k =>
      exact alike_whileStartsRound alike_atIdentifier (alike_variableLine enough_same) hagain
  | procedures k =>
      exact alike_whileStartsRound (alike_check _) (alike_procedure enough_same) hagain

/-- **A loop comes round behind a token**: every round that is completed has consumed one. -/
theorem Loop.repeatsBehind (h : Loop i reader round) : RepeatsBehind i reader round where
  succ n := by cases h <;> rfl
  takes n := takes_of_alike (h.alike n)
  guarded s _ _ htakes hsame :=
    (h.alike_round (alike_of_sameBehind htakes hsame) s (consumption.refl s)).1

theorem Joins.alike (h : Joins operand belongs) {origin : TokenStream} :
    consumption.Alike True origin 0 0 operand operand := by
  cases h with
  | factors k => exact (alike_factor enough_same).weaken
  | terms k => exact (alike_term enough_same).weaken

/-- **Joining operands comes round behind a token**, the operator. -/
theorem Joins.joinsBehind (h : Joins operand belongs) : JoinsBehind operand belongs where
  succ _ _ := rfl
  takes _ left := takes_of_alike (alike_chain h.alike enough_same left)
  guarded s left _ _ htakes hsame :=
    (alike_chainRound (h.alike.further (Nat.zero_le 1))
      (fun x => alike_of_sameBehind (htakes x) (hsame x)) left s (consumption.refl s)).1

end Loops

/-! ## Productions -/

/-- The productions of the grammar. -/
inductive Production : {α : Type} → (Nat → Reader α) → Prop
  | wholeProgram : Production wholeProgram
  | program : Production program
  | block : Production block
  | declarations : Production declarations
  | variableSection : Production variableSection
  | variableLine : Production variableLine
  | procedure : Production procedure
  | parameters : Production parameters
  | parameterList : Production fun steps =>
      separated (parameterGroup steps) (.symbol .semicolon) steps
  | parameterGroup : Production parameterGroup
  | typed : Production typed
  | typeName : Production fun _ => typeName
  | compound : Production compound
  | statementList : Production fun steps =>
      separated (statement steps) (.symbol .semicolon) steps
  | statement : Production statement
  | call : Production call
  | assignment : Production assignment
  | arguments : Production arguments
  | argumentList : Production fun steps => separated (expression steps) (.symbol .comma) steps
  | expression : Production expression
  | term : Production term
  | factor : Production factor
  | occurrence : Production fun _ => occurrence
  | identifiers : Production identifiers
  | identifier : Production fun _ => identifier

/-- From a state of a stream, a production ends with an answer or an error in the text in more
than `bound` steps, and how many more makes no difference. -/
structure EndsWithin {α : Type} (bound : Nat) (p : Nat → Reader α) (s : TokenStream) : Prop where
  answers : ∀ n, bound < n → (∃ x t, p n s = .ok x t) ∨ ∃ e t, p n s = .error (.failed e) t
  same : ∀ n m, bound < n → bound < m → p n s = p m s

section Production

variable {α : Type} {p : Nat → Reader α} {n m : Nat}

/-- All productions are alike where both budgets are enough. -/
theorem Production.alike (h : Production p) {C : Course} {spare : Prop} {origin : TokenStream}
    (henough : C.Enough spare origin 0 n m) : C.Alike spare origin 0 0 (p n) (p m) := by
  cases h with
  | wholeProgram => exact (alike_wholeProgram henough).weaken
  | program => exact (alike_program henough).weaken
  | block => exact (alike_block henough).weaken
  | declarations => exact alike_declarations henough
  | variableSection => exact (alike_variableSection henough).weaken
  | variableLine => exact (alike_variableLine henough).weaken
  | procedure => exact (alike_procedure henough).weaken
  | parameters => exact alike_parameters henough
  | parameterList =>
      exact (alike_separated (by simp) (alike_parameterGroup henough) henough).weaken
  | parameterGroup => exact (alike_parameterGroup henough).weaken
  | typed => exact (alike_typed henough).weaken
  | typeName => exact alike_typeName.weaken
  | compound => exact (alike_compound henough).weaken
  | statementList => exact alike_separated (by simp) (alike_statement henough) henough
  | statement => exact alike_statement henough
  | call => exact (alike_call henough).weaken
  | assignment => exact (alike_assignment henough).weaken
  | arguments => exact (alike_arguments henough).weaken
  | argumentList => exact (alike_separated (by simp) (alike_expression henough) henough).weaken
  | expression => exact (alike_expression henough).weaken
  | term => exact (alike_term henough).weaken
  | factor => exact (alike_factor henough).weaken
  | occurrence => exact alike_occurrence.weaken
  | identifiers => exact (alike_identifiers henough).weaken
  | identifier => exact alike_identifier.weaken

/-- **More steps than tokens are enough.** -/
theorem Production.endsWithin (h : Production p) (s : TokenStream) :
    EndsWithin (tokensOf s.upcoming).length p s := by
  have halike : ∀ {n m}, (tokensOf s.upcoming).length < n → (tokensOf s.upcoming).length < m →
      consumption.AlikeAt False 0 (p n) (p m) s := by
    refine fun hn hm => h.alike (Or.inr fun i t ht => ?_) s (consumption.refl s)
    have hless := TokenStream.Behind.le_length ht
    omega
  refine ⟨fun n hn => ?_, fun n m hn hm => (halike hn hm).1⟩
  have hends := (halike hn hn).2
  cases hanswer : p n s with
  | ok x t => exact Or.inl ⟨x, t, rfl⟩
  | error halt t =>
      rw [hanswer] at hends
      cases halt with
      | failed e => exact Or.inr ⟨e, t, rfl⟩
      | outOfSteps => exact hends.elim

end Production

end Reader

/-! ## Reading ends -/

/-- **The end of the input comes again and again.** -/
theorem Lexer.next_of_endOfInput {lx behind : Lexer} {token : Located Token}
    (h : lx.next = (.ok token, behind)) (htoken : token.value = .endOfInput) :
    behind.next = (.ok token, behind) := by
  unfold next at h
  split at h
  next hnone =>
    obtain ⟨hend, rfl⟩ := Prod.mk.inj h
    have hrest : lx.skip.rest = [] := by
      unfold scan? at hnone
      simp only at hnone
      split at hnone
      next hnil => exact hnil
      next => cases hnone
    have hskip : lx.skip.skip = lx.skip := skip_of_none (hrest ▸ rfl)
    unfold next scan?
    simp only [hskip, hrest]
    rw [hend]
  next hscan =>
    subst h
    exact absurd htoken (scan?_ne_endOfInput hscan)

/-- **Reading ends, within one step for each token.**  Every production ends with an answer or an
error in the text, from every state of a stream; more steps make no difference.  Between a phrase
and one of the same kind inside of it, and in every round of a loop, a token is consumed that is
not the end of the input, which comes again and again.  So every text is read, or refused. -/
theorem parse_withinSteps :
    (∀ {α : Type} {p : Nat → Reader α}, Reader.Production p →
        ∀ s, Reader.EndsWithin (tokensOf s.upcoming).length p s) ∧
      (∀ n, (Reader.Inner.ofSteps n).Takes) ∧
      (∀ {α : Type} {reader : Nat → Reader α} {around : Nat → Reader.Inner → Reader α},
        Reader.Nests reader around → Reader.NestsBehind reader around) ∧
      (∀ {α : Type} {i : Nat} {reader : Nat → Reader α} {round : Reader α → Reader α},
        Reader.Loop i reader round → Reader.RepeatsBehind i reader round) ∧
      (∀ {operand belongs}, Reader.Joins operand belongs → Reader.JoinsBehind operand belongs) ∧
      (∀ {lx behind : Lexer} {token : Located Token}, lx.next = (.ok token, behind) →
        token.value = .endOfInput → behind.next = (.ok token, behind)) ∧
      ∀ source, match TokenStream.ofString source with
        | .error e => parse source = .error (.lexical e)
        | .ok s => ∀ n, (tokensOf (tokenize source)).length < n →
            (∃ tree t, Reader.wholeProgram n s = .ok tree t ∧ parse source = .ok tree) ∨
              ∃ e t, Reader.wholeProgram n s = .error (.failed e) t ∧
                parse source = .error e := by
  refine ⟨fun h => h.endsWithin, Reader.Inner.takes_ofSteps, fun h => h.nestsBehind,
    fun h => h.repeatsBehind, fun h => h.joinsBehind, Lexer.next_of_endOfInput, fun source => ?_⟩
  unfold parse readProgram
  cases hstream : TokenStream.ofString source with
  | error e => rfl
  | ok s =>
      intro n hn
      dsimp only
      -- the tokens are fewer than the steps that the text is read with
      rw [← (TokenStream.upcoming_ofString hstream).1] at hn
      have hsame : Reader.wholeProgram n s = Reader.wholeProgram (n + s.remaining + 1) s :=
        Reader.Production.wholeProgram.endsWithin s |>.same _ _ hn (by omega)
      rw [hsame]
      have hremaining : s.remaining < n + s.remaining + 1 := by omega
      rcases s.read_eq Phrase.wholeProgram hremaining with ⟨tree, t, hreader, hread⟩ |
        ⟨e, t, hreader, hread⟩
      · exact Or.inl ⟨tree, t, hreader, by rw [hread]⟩
      · exact Or.inr ⟨e, t, hreader, by rw [hread]⟩

end MiniPascal
