/-
# What diagnostics point at

Every diagnostic points at the text that it is about: a lexical fault at the character, the
digits or the brace, a grammar fault at the token that was found, a scope fault at the name,
and a runtime fault at the variable, the call or the operator that failed.  The faults of a
tree point at its landmarks, which the tokens of the text show; a run only executes
statements of the program, so that what it executes stands at landmarks too.

* `Site.concerns_of_error?` : a misused name is the one at the site;
* `Expr.concerns_of_eval` : why an evaluation fails stands in the expression;
* `Moment.Marked` : what is left of each body stands in the program, kept by every step;
* `runSource_pointsAt` : what the diagnostic of a source text points at.
-/
import MiniPascal.Proofs.Grammar.FirstFault
import MiniPascal.Proofs.Grammar.Landmarks
import MiniPascal.Proofs.Lexical.Coordinates
import MiniPascal.Proofs.Moments.Reads
import MiniPascal.Proofs.StaticLinks
import MiniPascal.Source

set_option autoImplicit false

namespace MiniPascal

/-! ## What faults are about -/

/-- The tokens that a scope fault is about: the word of a type, or the identifier of the
reported name. -/
def ScopeFault.Concerns (stand : List Token → Prop) : ScopeFault → Prop
  | .undefinedType name => stand [wordToken name.toList]
  | .undefinedIdentifier name => stand [.identifier name]
  | .duplicateIdentifier name => stand [.identifier name]
  | .notAVariable name => stand [.identifier name]
  | .notAProcedure name => stand [.identifier name]
  | .argumentCountMismatch name _ _ => stand [.identifier name]

/-- The tokens that a runtime fault is about: the identifier of a variable, an identifier with
a parenthesis behind it, or an operator that can fail in this way. -/
def RuntimeFault.Concerns (stand : List Token → Prop) : RuntimeFault → Prop
  | .undefinedVariable name => stand [.identifier name]
  | .unresolvedProcedure name => stand [.identifier name, .symbol .leftParen]
  | .callDepthExceeded _ => ∃ name, stand [.identifier name, .symbol .leftParen]
  | .arithmetic .divisionByZero => stand [.symbol .slash] ∨ stand [.keyword .div]
  | .arithmetic .overflow =>
    stand [.symbol .plus] ∨ stand [.symbol .minus] ∨ stand [.symbol .star] ∨ stand [.keyword .div]

/-- Tokens of a source text stand in a row from a position on, each of them at its own. -/
def TokensAt (source : String) (p : Position) (tokens : List Token) : Prop :=
  ∃ (before behind : List Item) (found : List (Located Token)),
    tokenize source = before ++ (found.map Except.ok ++ behind) ∧
    found.map Located.value = tokens ∧ found.head?.map Located.position = some p ∧
    ∀ token ∈ found, StartsAt source token.position token.value

/-- A grammar fault reports the token that stands at its place, or the end of the input. -/
def GrammarFault.PointsAt (source : String) (p : Position) : GrammarFault → Prop
  | .unexpectedToken found _ =>
    TokensAt source p [found] ∨ found = .endOfInput ∧ StandsAt source p []
  | .trailingTokens found =>
    TokensAt source p [found] ∨ found = .endOfInput ∧ StandsAt source p []

/-- **What a diagnostic says** about the text at its position. -/
def Diagnostic.PointsAt (source : String) : Diagnostic → Prop
  | .lexical e => e.value.PointsAt source e.position
  | .grammar e => e.value.PointsAt source e.position
  | .scope e => e.value.Concerns (TokensAt source e.position)
  | .runtime e => e.value.Concerns (TokensAt source e.position)

section Concerns

variable {stand other : List Token → Prop}

theorem ScopeFault.Concerns.mono {fault : ScopeFault} (h : fault.Concerns stand)
    (hother : ∀ tokens, stand tokens → other tokens) : fault.Concerns other := by
  cases fault <;> exact hother _ h

/-- A runtime fault is about tokens that stand elsewhere too. -/
theorem RuntimeFault.Concerns.mono {fault : RuntimeFault} (h : fault.Concerns stand)
    (hother : ∀ tokens, stand tokens → other tokens) : fault.Concerns other := by
  cases fault with
  | undefinedVariable name => exact hother _ h
  | unresolvedProcedure name => exact hother _ h
  | callDepthExceeded limit =>
      obtain ⟨name, hname⟩ := h
      exact ⟨name, hother _ hname⟩
  | arithmetic fault =>
      cases fault with
      | divisionByZero => exact h.imp (hother _) (hother _)
      | overflow => exact h.imp (hother _) (Or.imp (hother _) (Or.imp (hother _) (hother _)))

end Concerns

/-! ## Faults in the use of names -/

/-- A landmark begins with its first token. -/
theorem Shows.first {ts : List (Located Token)} {token : Token} {more : List Token}
    {p : Position} (h : Shows ts ⟨token :: more, p⟩) : Shows ts ⟨[token], p⟩ := by
  obtain ⟨before, found, behind, rfl, hvalues, hposition⟩ := h
  cases found with
  | nil => cases hvalues
  | cons first rest =>
      refine ⟨before, [first], rest ++ behind, rfl, ?_, hposition⟩
      exact congrArg (fun token => [token]) (List.cons.inj hvalues).1

/-- **A misused name** is the one that stands at the site. -/
theorem Site.concerns_of_error? {ts : List (Located Token)} {s : Site} {e : ScopeError}
    (hshows : Shows ts s.duty.landmark) (h : s.error? = some e) :
    e.value.Concerns fun tokens => Shows ts ⟨tokens, e.position⟩ := by
  obtain ⟨Γ, duty⟩ := s
  cases duty with
  | fresh name position =>
      simp only [error?] at h
      split at h
      · cases h
        exact hshows
      · cases h
  | typed type =>
      simp only [error?] at h
      split at h
      · cases h
      · cases h
        exact hshows
  | occurrence v =>
      simp only [error?] at h
      split at h
      · split at h
        · cases h
        · cases h
          exact hshows
      · cases h
        exact hshows
  | call c =>
      simp only [error?] at h
      split at h
      · split at h
        · cases h
        · cases h
          exact hshows.first
      · cases h
        exact hshows.first
      · cases h
        exact hshows.first

/-- The first misuse of a name in a program is about tokens of the program. -/
theorem concerns_of_analyze {ts : List (Located Token)} {tree : Program} {e : ScopeError}
    (htree : Grammar.IsProgram ts tree) (h : analyze tree = .error e) :
    e.value.Concerns fun tokens => Shows ts ⟨tokens, e.position⟩ := by
  have hcases := analyze_cases tree
  rw [h] at hcases
  obtain ⟨s, hs, herror⟩ := List.exists_of_findSome?_eq_some hcases
  have hshows : Shows ts s.duty.landmark :=
    Grammar.showsAll_program htree _ (Program.landmark_of_mem_sites hs)
  exact s.concerns_of_error? hshows herror

/-! ## Faults of evaluation -/

section Evaluation

variable {a : Analysis} {s : CallStack} {stand : List Token → Prop}

/-- A mixed operation fails only by overflow. -/
theorem error_of_mixed {exact : Int → Int → Int} {approximate : Float → Float → Float}
    {l r : Number} {fault : ArithmeticFault} (h : mixed exact approximate l r = .error fault) :
    fault = .overflow := by
  cases l with
  | integer n =>
      cases r with
      | integer k => exact (checked_eq_error_iff.1 h).1
      | real y => cases h
  | real x => cases h

/-- **An operator fails** in the ways that its token stands for. -/
theorem Operator.concerns_of_apply {op : Operator} {l r : Number} {fault : ArithmeticFault}
    (hop : stand [Grammar.operatorToken op]) (h : op.apply l r = .error fault) :
    (RuntimeFault.arithmetic fault).Concerns stand := by
  cases op with
  | add =>
      rw [error_of_mixed h]
      exact Or.inl hop
  | subtract =>
      rw [error_of_mixed h]
      exact Or.inr (Or.inl hop)
  | multiply =>
      rw [error_of_mixed h]
      exact Or.inr (Or.inr (Or.inl hop))
  | divideInteger =>
      -- the whole parts of the operands may be out of range as well as the quotient
      cases fault with
      | divisionByZero => exact Or.inr hop
      | overflow => exact Or.inr (Or.inr (Or.inr hop))
  | divideReal =>
      have hquotient : realQuotient l r = .error fault := h
      unfold realQuotient at hquotient
      split at hquotient
      · cases hquotient
        exact Or.inl hop
      · cases hquotient

/-- A sign fails only by overflow, and only a minus sign does. -/
theorem Sign.concerns_of_apply {sign : Sign} {v : Number} {fault : ArithmeticFault}
    (hsign : stand [Grammar.signToken sign]) (h : sign.apply v = .error fault) :
    (RuntimeFault.arithmetic fault).Concerns stand := by
  cases sign with
  | plus => cases h
  | minus =>
      cases v with
      | integer n =>
          rw [(checked_eq_error_iff.1 h).1]
          exact Or.inr (Or.inl hsign)
      | real x => cases h

/-- A fault is about a node of an expression: its tokens stand at a landmark, at the place of
the error. -/
def RuntimeError.IsIn (landmarks : List Landmark) (e : RuntimeError) : Prop :=
  e.value.Concerns fun tokens => ⟨tokens, e.position⟩ ∈ landmarks

theorem RuntimeError.IsIn.mono {ls ms : List Landmark} {e : RuntimeError}
    (h : RuntimeError.IsIn ls e) (hmore : ∀ l ∈ ls, l ∈ ms) : RuntimeError.IsIn ms e :=
  RuntimeFault.Concerns.mono h fun _ => hmore _

/-- The fault of an operation is reported at the place of its operator. -/
theorem isIn_of_atOperator {landmarks : List Landmark} {p : Position}
    {result : Except ArithmeticFault Number} {e : RuntimeError}
    (hfault : ∀ fault, result = .error fault →
      (RuntimeFault.arithmetic fault).Concerns fun tokens => ⟨tokens, p⟩ ∈ landmarks)
    (h : atOperator p result = .error e) : RuntimeError.IsIn landmarks e := by
  cases result with
  | ok value => cases h
  | error fault =>
      cases h
      exact hfault fault rfl

/-- **Why an evaluation fails** stands in the expression: a variable, a sign or an
operator. -/
theorem Expr.concerns_of_eval {e : Expr} {err : RuntimeError} (h : e.eval a s = .error err) :
    RuntimeError.IsIn e.landmarks err := by
  induction e generalizing err with
  | literal value position => cases h
  | occurrence v =>
      unfold Expr.eval at h
      split at h
      · cases h
      · cases h
        exact List.mem_singleton.2 rfl
  | signed sign operand position ih =>
      unfold Expr.eval at h
      rcases error_of_bind h with hoperand | ⟨value, -, h⟩
      · exact (ih hoperand).mono fun l => List.mem_cons_of_mem _
      · exact isIn_of_atOperator (fun fault => Sign.concerns_of_apply List.mem_cons_self) h
  | binary op left right position ihleft ihright =>
      unfold Expr.eval at h
      rcases error_of_bind h with hleft | ⟨l, -, h⟩
      · exact (ihleft hleft).mono fun l => List.mem_append_left _
      · rcases error_of_bind h with hright | ⟨r, -, h⟩
        · exact (ihright hright).mono fun l hl =>
            List.mem_append_right _ (List.mem_cons_of_mem _ hl)
        · refine isIn_of_atOperator (fun fault => Operator.concerns_of_apply ?_) h
          exact List.mem_append_right _ List.mem_cons_self

/-- Why an evaluation in turn fails stands in one of the expressions. -/
theorem Expr.concerns_of_evalAll {es : List Expr} {err : RuntimeError}
    (h : Expr.evalAll a s es = .error err) :
    RuntimeError.IsIn (es.flatMap Expr.landmarks) err := by
  induction es with
  | nil => cases h
  | cons first rest ih =>
      unfold Expr.evalAll at h
      rcases error_of_bind h with hfirst | ⟨value, -, h⟩
      · exact (Expr.concerns_of_eval hfirst).mono fun l => List.mem_append_left _
      · rcases error_of_bind h with hrest | ⟨more, -, h⟩
        · exact (ih hrest).mono fun l => List.mem_append_right _
        · cases h

end Evaluation

/-! ## Faults of a run -/

/-- What is left of each entered body stands in the program. -/
def Moment.Marked (tree : Program) (m : Moment) : Prop :=
  ∀ act ∈ m.running :: m.waiting, ∀ l ∈ Statement.landmarksAll act.rest, l ∈ tree.landmarks

theorem Statement.landmarksAll_append (body more : List Statement) :
    Statement.landmarksAll (body ++ more)
      = Statement.landmarksAll body ++ Statement.landmarksAll more := by
  rw [Statement.landmarksAll_eq_flatMap, Statement.landmarksAll_eq_flatMap,
    Statement.landmarksAll_eq_flatMap, List.flatMap_append]

namespace Moment

variable {tree : Program} {a : Analysis} {limit : Nat} {m n : Moment}

theorem Marked.next (h : m.Marked tree) {st : Statement} {rest : List Statement}
    (hrest : m.running.rest = st :: rest) : ∀ l ∈ st.landmarks, l ∈ tree.landmarks := by
  intro l hl
  refine h m.running List.mem_cons_self l ?_
  rw [hrest, Statement.landmarksAll]
  exact List.mem_append_left _ hl

/-- What is left behind the next statement stands in the program. -/
theorem Marked.rest (h : m.Marked tree) {st : Statement} {rest : List Statement}
    (hrest : m.running.rest = st :: rest) :
    ∀ l ∈ Statement.landmarksAll rest, l ∈ tree.landmarks := by
  intro l hl
  refine h m.running List.mem_cons_self l ?_
  rw [hrest, Statement.landmarksAll]
  exact List.mem_append_right _ hl

/-- Going on with other statements of the program. -/
theorem Marked.goOn (h : m.Marked tree) {rest : List Statement}
    (hrest : ∀ l ∈ Statement.landmarksAll rest, l ∈ tree.landmarks) :
    (m.goOn rest).Marked tree := by
  intro act hact
  rcases List.mem_cons.1 hact with rfl | hact
  · exact hrest
  · exact h act (List.mem_cons_of_mem _ hact)

/-- The body of a procedure that is called stands in the program. -/
theorem Sound.landmarks_of_callee (hm : m.Sound tree) (ha : a.Resolves tree.sites) {c : Call}
    {rest : List Statement} {p : Procedure} (hrest : m.running.rest = .call c :: rest)
    (hp : a.procedure? c.id = some p) :
    ∀ l ∈ Statement.landmarksAll p.block.body, l ∈ tree.landmarks := by
  obtain ⟨q, d, Λ, bindings, -, -, hq, -, -, hbody, -, hblock, -⟩ :=
    hm.callee ha (hm.mem_of_call hrest)
  obtain rfl : p = q := Option.some.inj (hp.symm.trans hq)
  intro l hl
  refine hbody.arises.landmarks l (List.mem_append_right _ ?_)
  rwa [hblock] at hl

/-- **Every step** leaves statements of the program to each body. -/
theorem marked_step (ha : a.Resolves tree.sites) (hm : m.Sound tree) (h : m.Marked tree)
    (hstep : m.Step a limit n) : n.Marked tree := by
  cases hstep with
  | fail _ _ => exact h
  | skip _ hrest => exact h.goOn (h.rest hrest)
  | @expand body rest _ hrest =>
      refine h.goOn fun l hl => ?_
      rw [Statement.landmarksAll_append] at hl
      rcases List.mem_append.1 hl with hl | hl
      · refine h.next hrest l ?_
        rw [Statement.landmarks]
        exact hl
      · exact h.rest hrest l hl
  | assign _ hrest _ _ _ => exact h.goOn (h.rest hrest)
  | @enter c rest p values _ hrest hp _ _ =>
      intro act hact
      rcases List.mem_cons.1 hact with rfl | hact
      · exact hm.landmarks_of_callee ha hrest hp
      · exact h.goOn (h.rest hrest) act hact
  | leave _ hwaiting =>
      intro act hact
      refine h act (List.mem_cons_of_mem _ ?_)
      rw [hwaiting]
      exact hact

theorem marked_start (tree : Program) : (Moment.start tree).Marked tree := by
  intro act hact
  rw [List.mem_singleton.1 hact]
  exact fun l hl => List.mem_cons_of_mem _ (List.mem_append_right _ hl)

/-- **Every moment of a run** leaves statements of the program to each body. -/
theorem marked_of_leads (ha : a.Resolves tree.sites) (h : Leads a limit (.start tree) m) :
    m.Marked tree := by
  refine (h.preserves (P := fun m => m.Marked tree ∧ m.Sound tree) (fun m n hm hstep => ?_)
    ⟨marked_start tree, sound_start tree⟩).1
  obtain ⟨hmarked, hsound⟩ := hm
  exact ⟨marked_step ha hsound hmarked hstep, sound_next ha hsound (next_eq_some_iff.2 hstep)⟩

/-- **What a statement fails for** stands in the program. -/
theorem Marked.isIn_of_fails (h : m.Marked tree) {e : RuntimeError} (hfails : m.Fails a limit e) :
    RuntimeError.IsIn tree.landmarks e := by
  -- each case is about the next statement
  have hcall : ∀ {c rest}, m.running.rest = .call c :: rest →
      ∀ l ∈ c.landmarks, l ∈ tree.landmarks := by
    intro c rest hrest l hl
    refine h.next hrest l ?_
    rw [Statement.landmarks]
    exact hl
  have hassign : ∀ {target value position rest},
      m.running.rest = .assign target value position :: rest →
      target.landmark ∈ tree.landmarks ∧ ∀ l ∈ value.landmarks, l ∈ tree.landmarks := by
    intro target value position rest hrest
    have hnext := h.next hrest
    rw [Statement.landmarks] at hnext
    exact ⟨hnext _ List.mem_cons_self,
      fun l hl => hnext l (List.mem_cons_of_mem _ (List.mem_cons_of_mem _ hl))⟩
  cases hfails with
  | value hrest hvalue => exact (Expr.concerns_of_eval hvalue).mono (hassign hrest).2
  | target hrest _ _ => exact (hassign hrest).1
  | @callee c _ hrest _ => exact hcall hrest c.landmark List.mem_cons_self
  | @depth c _ _ hrest _ _ => exact ⟨c.name, hcall hrest c.landmark List.mem_cons_self⟩
  | argument hrest _ _ hvalues =>
      exact (Expr.concerns_of_evalAll hvalues).mono fun l hl =>
        hcall hrest l (List.mem_cons_of_mem _ hl)

end Moment

/-- The error of a run is about tokens of the program. -/
theorem concerns_of_run {ts : List (Located Token)} {tree : Program} {a : Analysis}
    {limit : Nat} {e : RuntimeError} (htree : Grammar.IsProgram ts tree)
    (ha : a.Resolves tree.sites)
    (h : ((Interpreter.new a limit).run tree).outcome = .error e) :
    e.value.Concerns fun tokens => Shows ts ⟨tokens, e.position⟩ := by
  obtain ⟨m, hm, -, hfails⟩ := (outcome_eq_error_iff tree a limit e).1 h
  have hin : RuntimeError.IsIn tree.landmarks e :=
    (Moment.marked_of_leads ha hm).isIn_of_fails hfails
  exact RuntimeFault.Concerns.mono hin fun _ => Grammar.showsAll_program htree _

/-! ## From tokens to the source text -/

/-- In front of the end of the input stand other tokens. -/
theorem ne_endOfInput_of_mem {source : String} {ts : List (Located Token)} {p : Position}
    (h : tokenize source = ts.map Except.ok ++ [.ok ⟨.endOfInput, p⟩]) :
    ∀ token ∈ ts, token.value ≠ .endOfInput := by
  obtain ⟨pieces, hpieces, -⟩ := munches_items [] source.toList
  obtain ⟨tokens, last, hitems, hne, -⟩ := hpieces.items_cases .origin
  rw [tokenize_eq_of_munches hpieces, hitems] at h
  obtain ⟨hsame, -⟩ := List.append_inj' h rfl
  have htokens : tokens = ts := (List.map_inj_right fun x y => Except.ok.inj).1 hsame
  rw [← htokens]
  exact hne

/-- **Landmarks among the tokens** of a source text stand in the text. -/
theorem tokensAt_of_shows {source : String} {ts : List (Located Token)} {p q : Position}
    {tokens : List Token} (hitems : tokenize source = ts.map Except.ok ++ [.ok ⟨.endOfInput, p⟩])
    (h : Shows ts ⟨tokens, q⟩) : TokensAt source q tokens := by
  have hne := ne_endOfInput_of_mem hitems
  obtain ⟨before, found, behind, rfl, hvalues, hposition⟩ := h
  refine ⟨before.map Except.ok, behind.map Except.ok ++ [.ok ⟨.endOfInput, p⟩], found, ?_, hvalues,
    hposition, fun token htoken => ?_⟩
  · rw [hitems]
    simp only [List.map_append, List.append_assoc]
  · have hmem : token ∈ before ++ (found ++ behind) := by simp [htoken]
    have hitem : .ok token ∈ tokenize source := by
      rw [hitems]
      exact List.mem_append_left _ (List.mem_map_of_mem hmem)
    rcases startsAt_of_mem_tokenize hitem with hstarts | ⟨hend, -⟩
    · exact hstarts
    · exact absurd hend (hne token hmem)

/-- A token of a source text stands at its position, unless it is the end of the input. -/
theorem tokensAt_of_tokenize {source : String} {before behind : List Item}
    {token : Located Token} (h : tokenize source = before ++ .ok token :: behind) :
    TokensAt source token.position [token.value] ∨
      token.value = .endOfInput ∧ StandsAt source token.position [] := by
  have hitem : .ok token ∈ tokenize source := by simp [h]
  refine (startsAt_of_mem_tokenize hitem).imp_left fun hstarts => ?_
  refine ⟨before, behind, [token], h, rfl, rfl, fun other hother => ?_⟩
  rw [List.mem_singleton.1 hother]
  exact hstarts

/-- The error of a text that cannot be read points at what it is about. -/
theorem pointsAt_of_parse {source : String} {e : ParseError} (h : parse source = .error e) :
    (Diagnostic.ofParseError e).PointsAt source := by
  cases firstFault_of_parse h with
  | lexical hitems _ =>
      refine pointsAt_of_mem_tokenize ?_
      rw [hitems]
      exact List.mem_append_right _ (List.mem_singleton.2 rfl)
  | unexpected hitems _ _ _ => exact tokensAt_of_tokenize hitems
  | trailing hitems _ _ _ => exact tokensAt_of_tokenize hitems

/-! ## The diagnostic of a source text -/

/-- The stage that a diagnostic comes from: reading, checking names, or execution. -/
theorem runSource_eq_error {source : String} {limit : Nat} {d : Diagnostic}
    (h : runSource source limit = .error d) :
    (∃ e, parse source = .error e ∧ d = .ofParseError e) ∨
      ∃ tree, parse source = .ok tree ∧
        ((∃ e, analyze tree = .error e ∧ d = .scope e) ∨
          ∃ a e, analyze tree = .ok a ∧
            ((Interpreter.new a limit).run tree).outcome = .error e ∧ d = .runtime e) := by
  unfold runSource runLogged at h
  unfold parse analyze
  cases hparsed : (readProgram source).1 with
  | error e =>
      simp only [hparsed] at h
      exact Or.inl ⟨e, rfl, (Except.error.inj h).symm⟩
  | ok tree =>
      simp only [hparsed] at h
      refine Or.inr ⟨tree, rfl, ?_⟩
      cases hchecked : tree.check.1 with
      | error e =>
          simp only [hchecked] at h
          exact Or.inl ⟨e, rfl, (Except.error.inj h).symm⟩
      | ok a =>
          simp only [hchecked, interpret] at h
          cases houtcome : ((Interpreter.new a limit).run tree).outcome with
          | ok value =>
              rw [houtcome] at h
              cases h
          | error e =>
              rw [houtcome] at h
              exact Or.inr ⟨a, e, rfl, houtcome, (Except.error.inj h).symm⟩

/-- **Diagnostics point at what they describe.**  If a source text is rejected or its run
fails, under whatever limit, then what the diagnostic says of the text at its position, a
line and a byte column, is so. -/
theorem runSource_pointsAt {source : String} {limit : Nat} {d : Diagnostic}
    (h : runSource source limit = .error d) : d.PointsAt source := by
  rcases runSource_eq_error h with ⟨e, hparse, rfl⟩ | ⟨tree, hparse, hlater⟩
  · exact pointsAt_of_parse hparse
  · obtain ⟨ts, p, hitems, htree⟩ := parse_eq_ok_iff.1 hparse
    rcases hlater with ⟨e, hanalyze, rfl⟩ | ⟨a, e, hanalyze, hrun, rfl⟩
    · exact (concerns_of_analyze htree hanalyze).mono fun _ => tokensAt_of_shows hitems
    · have hresolves : a.Resolves tree.sites := resolves_of_analyze hanalyze (nodup_of_parse hparse)
      exact (concerns_of_run htree hresolves hrun).mono fun _ => tokensAt_of_shows hitems

/-- A source text in which a procedure calls itself, behind a comment with a character of two
bytes on the same line. -/
def deepSource : String :=
  "PROGRAM P;\nPROCEDURE Q;\nBEGIN \x7b \u00e9 \x7d Q() END;\nBEGIN Q() END."

/-- Whether a run ends at a position with a call that is nested too deep. -/
def tooDeepAt (source : String) (limit : Nat) (p : Position) : Bool :=
  match runSource source limit with
  | .error (.runtime ⟨.callDepthExceeded _, q⟩) => q = p
  | _ => false

/-- The call that is nested too deep is the one behind the comment. -/
theorem deepSource_pointsAt : ∃ d, runSource deepSource 2 = .error d ∧ d.position = ⟨3, 14⟩ ∧
    d.PointsAt deepSource := by
  have hdeep : tooDeepAt deepSource 2 ⟨3, 14⟩ = true := by decide +kernel
  unfold tooDeepAt at hdeep
  split at hdeep
  next limit q hrun => exact ⟨_, hrun, of_decide_eq_true hdeep, runSource_pointsAt hrun⟩
  next => cases hdeep

end MiniPascal
