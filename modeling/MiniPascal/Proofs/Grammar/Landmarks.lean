/-
# Landmarks

A landmark is a position together with the tokens that stand there in turn.  The nodes of a
tree have landmarks: a variable the identifier of its name, a call an identifier with a
parenthesis behind it, a signed or binary expression its sign or operator.  All of them are
found among the tokens that the tree was read from.

* `Grammar.showsAll_program` : the tokens of a program show all landmarks of its tree;
* `Program.landmark_of_mem_sites` : what the rules of scoping ask for stands at a landmark;
* `Arises.landmarks` : the landmarks of the blocks of a program are those of the program;
* `exists_token_of_landmark` : the tokens of landmarks are those of the source text.
-/
import MiniPascal.Proofs.Grammar.Completeness
import MiniPascal.Proofs.Scoping.Enclosure

set_option autoImplicit false

namespace MiniPascal

/-- A position, and the tokens that stand there one after another. -/
abbrev Landmark := Located (List Token)

/-! ## The landmarks of a tree -/

/-- A variable stands at its name. -/
def Variable.landmark (v : Variable) : Landmark := ⟨[.identifier v.name], v.position⟩

/-- The name of a type stands at its word. -/
def TypeName.landmark (type : TypeName) : Landmark :=
  ⟨[wordToken type.name.toList], type.position⟩

/-- A call stands at its name, which a parenthesis follows. -/
def Call.landmark (c : Call) : Landmark :=
  ⟨[.identifier c.name, .symbol .leftParen], c.position⟩

/-- The landmarks of an expression, from left to right. -/
def Expr.landmarks : Expr → List Landmark
  | .literal value position => [⟨[.number value], position⟩]
  | .occurrence v => [v.landmark]
  | .signed sign operand position =>
    ⟨[Grammar.signToken sign], position⟩ :: operand.landmarks
  | .binary op left right position =>
    left.landmarks ++ ⟨[Grammar.operatorToken op], position⟩ :: right.landmarks

/-- The landmarks of a call. -/
def Call.landmarks (c : Call) : List Landmark :=
  c.landmark :: c.arguments.flatMap Expr.landmarks

mutual

/-- The landmarks of a statement. -/
def Statement.landmarks : Statement → List Landmark
  | .compound body => Statement.landmarksAll body
  | .assign target value position =>
    target.landmark :: ⟨[.symbol .assign], position⟩ :: value.landmarks
  | .call c => c.landmarks
  | .empty => []

/-- The landmarks of statements. -/
def Statement.landmarksAll : List Statement → List Landmark
  | [] => []
  | first :: rest => first.landmarks ++ Statement.landmarksAll rest

end

/-- The landmarks of a parameter. -/
def Parameter.landmarks (p : Parameter) : List Landmark :=
  [⟨[.identifier p.name], p.position⟩, p.type.landmark]

mutual

/-- The landmarks of a declaration; it stands at the name that it declares. -/
def Declaration.landmarks : Declaration → List Landmark
  | .var name type position => [⟨[.identifier name], position⟩, type.landmark]
  | .procedure name params declarations body position =>
    ⟨[.identifier name], position⟩ :: (params.flatMap Parameter.landmarks
      ++ (Declaration.landmarksAll declarations ++ Statement.landmarksAll body))

/-- The landmarks of declarations. -/
def Declaration.landmarksAll : List Declaration → List Landmark
  | [] => []
  | first :: rest => first.landmarks ++ Declaration.landmarksAll rest

end

/-- The landmarks of a block. -/
def Block.landmarks (b : Block) : List Landmark :=
  Declaration.landmarksAll b.declarations ++ Statement.landmarksAll b.body

/-- The landmarks of a program. -/
def Program.landmarks (p : Program) : List Landmark :=
  ⟨[.keyword .program], p.position⟩ :: p.block.landmarks

theorem Statement.landmarksAll_eq_flatMap (body : List Statement) :
    Statement.landmarksAll body = body.flatMap Statement.landmarks := by
  induction body with
  | nil => rfl
  | cons first rest ih => rw [Statement.landmarksAll, ih, List.flatMap_cons]

theorem Declaration.landmarksAll_eq_flatMap (declarations : List Declaration) :
    Declaration.landmarksAll declarations = declarations.flatMap Declaration.landmarks := by
  induction declarations with
  | nil => rfl
  | cons first rest ih => rw [Declaration.landmarksAll, ih, List.flatMap_cons]

/-! ## Landmarks among tokens -/

/-- The tokens of a landmark stand in a row among some tokens, the first one of them at the
position of the landmark. -/
def Shows (ts : List (Located Token)) (l : Landmark) : Prop :=
  ∃ before found behind, ts = before ++ (found ++ behind) ∧
    found.map Located.value = l.value ∧ found.head?.map Located.position = some l.position

/-- All of some landmarks stand among some tokens. -/
def ShowsAll (ts : List (Located Token)) (landmarks : List Landmark) : Prop :=
  ∀ l ∈ landmarks, Shows ts l

section Shows

variable {ts us : List (Located Token)} {l : Landmark} {ls ms : List Landmark}

theorem shows_token (token : Token) (p : Position) (rest : List (Located Token)) :
    Shows (⟨token, p⟩ :: rest) ⟨[token], p⟩ :=
  ⟨[], [⟨token, p⟩], rest, rfl, rfl, rfl⟩

theorem Shows.append_left (h : Shows ts l) (us : List (Located Token)) : Shows (us ++ ts) l := by
  obtain ⟨before, found, behind, rfl, hvalues, hposition⟩ := h
  exact ⟨us ++ before, found, behind, by rw [List.append_assoc], hvalues, hposition⟩

theorem Shows.append_right (h : Shows ts l) (us : List (Located Token)) : Shows (ts ++ us) l := by
  obtain ⟨before, found, behind, rfl, hvalues, hposition⟩ := h
  exact ⟨before, found, behind ++ us, by simp only [List.append_assoc], hvalues, hposition⟩

theorem ShowsAll.nil : ShowsAll ts [] := nofun

theorem ShowsAll.cons (h : Shows ts l) (hrest : ShowsAll ts ls) : ShowsAll ts (l :: ls) := by
  intro m hm
  rcases List.mem_cons.1 hm with rfl | hm
  · exact h
  · exact hrest m hm

theorem ShowsAll.append_left (h : ShowsAll ts ls) (us : List (Located Token)) :
    ShowsAll (us ++ ts) ls :=
  fun l hl => (h l hl).append_left us

theorem ShowsAll.append_right (h : ShowsAll ts ls) (us : List (Located Token)) :
    ShowsAll (ts ++ us) ls :=
  fun l hl => (h l hl).append_right us

theorem ShowsAll.cons_left (h : ShowsAll ts ls) (token : Located Token) :
    ShowsAll (token :: ts) ls :=
  h.append_left [token]

/-- **Phrases in turn** show the landmarks of both. -/
theorem ShowsAll.append (h : ShowsAll ts ls) (h' : ShowsAll us ms) :
    ShowsAll (ts ++ us) (ls ++ ms) := by
  intro l hl
  rcases List.mem_append.1 hl with hl | hl
  · exact (h l hl).append_right us
  · exact (h' l hl).append_left ts

theorem ShowsAll.token (h : ShowsAll ts ls) (token : Token) (p : Position) :
    ShowsAll (⟨token, p⟩ :: ts) (⟨[token], p⟩ :: ls) :=
  .cons (shows_token token p ts) (h.cons_left _)

/-- The landmarks of several nodes are shown if those of each are. -/
theorem showsAll_flatMap {α : Type} {landmarks : α → List Landmark} {xs : List α}
    (h : ∀ x ∈ xs, ShowsAll ts (landmarks x)) : ShowsAll ts (xs.flatMap landmarks) := by
  intro l hl
  obtain ⟨x, hx, hmem⟩ := List.mem_flatMap.1 hl
  exact h x hx l hmem

end Shows

namespace Grammar

/-! ## Phrases show their landmarks -/

variable {α : Type}

/-- Phrases of fewer than `k` tokens show the landmarks of what they denote. -/
def Locates (k : Nat) (phrase : Language α) (landmarks : α → List Landmark) : Prop :=
  ∀ ⦃ts : List (Located Token)⦄ ⦃i : Nat⦄ ⦃x : α⦄ ⦃j : Nat⦄,
    ts.length < k → phrase ts i x j → ShowsAll ts (landmarks x)

variable {k : Nat} {phrase : Language α} {landmarks : α → List Landmark}

/-- Separated items show their landmarks if one item does. -/
theorem locates_separated {separator : Token} (h : Locates k phrase landmarks) :
    Locates k (Separated phrase separator) (List.flatMap landmarks) := by
  intro ts i xs j hk hxs
  induction hxs with
  | one hx =>
      rw [List.flatMap_singleton]
      exact h hk hx
  | more hx _ ih =>
      simp only [List.length_append, List.length_cons] at hk
      rw [List.flatMap_cons]
      exact (h (by omega) hx).append ((ih (by omega)).cons_left _)

/-- Repeated items show their landmarks if one item does. -/
theorem locates_repeated (h : Locates k phrase landmarks) :
    Locates k (Repeated phrase) (List.flatMap landmarks) := by
  intro ts i xs j hk hxs
  induction hxs with
  | none => exact .nil
  | more hx _ ih =>
      simp only [List.length_append] at hk
      rw [List.flatMap_cons]
      exact (h (by omega) hx).append (ih (by omega))

/-! ## Expressions -/

/-- Operands joined by operators show their landmarks behind those of the first one. -/
theorem showsAll_chain {operand : Language Expr} {operators : List Operator}
    (h : Locates k operand Expr.landmarks) {us ts : List (Located Token)} {left e : Expr}
    {i j : Nat} (hk : ts.length < k) (hleft : ShowsAll us left.landmarks)
    (hchain : Chain operand operators left ts i e j) : ShowsAll (us ++ ts) e.landmarks := by
  -- what has been read is the left operand of the next operator
  induction hchain generalizing us with
  | done => exact hleft.append_right []
  | @more left right e op p ts vs i j l _ hright _ ih =>
      simp only [List.length_cons, List.length_append] at hk
      have hnext : ShowsAll (us ++ ⟨operatorToken op, p⟩ :: ts)
          (Expr.binary op left right p).landmarks :=
        hleft.append ((h (by omega) hright).token (operatorToken op) p)
      have hrest := ih (by omega) hnext
      rwa [List.append_assoc, List.cons_append] at hrest

/-- Terms show their landmarks if factors do. -/
theorem locates_term (h : Locates k IsFactor Expr.landmarks) :
    Locates k IsTerm Expr.landmarks := by
  intro ts i e j hk hterm
  cases hterm with
  | mk hleft hchain =>
      rw [List.length_append] at hk
      exact showsAll_chain h (by omega) (h (by omega) hleft) hchain

/-- Expressions show their landmarks if factors do. -/
theorem locates_expression_of_factor (h : Locates k IsFactor Expr.landmarks) :
    Locates k IsExpression Expr.landmarks := by
  intro ts i e j hk hexpression
  cases hexpression with
  | mk hleft hchain =>
      rw [List.length_append] at hk
      exact showsAll_chain (locates_term h) (by omega) (locates_term h (by omega) hleft) hchain

/-- **Factors show their landmarks.** -/
theorem locates_factor (k : Nat) : Locates k IsFactor Expr.landmarks := by
  -- an operand is shorter than its factor, so the induction is on the number of tokens
  induction k with
  | zero => exact fun _ _ _ _ hk => absurd hk (Nat.not_lt_zero _)
  | succ k ih =>
      intro ts i e j hk hfactor
      cases hfactor with
      | signed hoperand =>
          rw [List.length_cons] at hk
          exact (ih (by omega) hoperand).token _ _
      | literal => exact ShowsAll.nil.token _ _
      | parenthesized hinner =>
          simp only [List.length_cons, List.length_append] at hk
          have hshows := locates_expression_of_factor ih (by omega) hinner
          exact (hshows.append_right _).cons_left _
      | occurrence => exact ShowsAll.nil.token _ _

theorem locates_expression (k : Nat) : Locates k IsExpression Expr.landmarks :=
  locates_expression_of_factor (locates_factor k)

/-! ## Statements -/

/-- Calls show their landmarks. -/
theorem locates_call (k : Nat) : Locates k IsCall Call.landmarks := by
  intro ts i c j hk hcall
  cases hcall with
  | @mk name p q r us _ _ values harguments =>
      have hvalues : ShowsAll us (values.flatMap Expr.landmarks) := by
        cases harguments with
        | none => exact .nil
        | some hseparated =>
            simp only [List.length_cons, List.length_append] at hk
            exact locates_separated (locates_expression k) (by omega) hseparated
      refine .cons ⟨[], [⟨.identifier name, p⟩, ⟨.symbol .leftParen, q⟩], _, rfl, rfl, rfl⟩ ?_
      exact ((hvalues.append_right _).cons_left _).cons_left _

/-- Compound statements show their landmarks if shorter statements do. -/
theorem locates_compound_of_statement (h : Locates k IsStatement Statement.landmarks) :
    Locates (k + 1) IsCompound Statement.landmarksAll := by
  intro ts i body j hk hcompound
  cases hcompound with
  | mk hbody =>
      simp only [List.length_cons, List.length_append] at hk
      rw [Statement.landmarksAll_eq_flatMap]
      exact ((locates_separated h (by omega) hbody).append_right _).cons_left _

/-- **Statements show their landmarks.** -/
theorem locates_statement (k : Nat) : Locates k IsStatement Statement.landmarks := by
  induction k with
  | zero => exact fun _ _ _ _ hk => absurd hk (Nat.not_lt_zero _)
  | succ k ih =>
      intro ts i st j hk hstatement
      cases hstatement with
      | compound hbody =>
          rw [Statement.landmarks]
          exact locates_compound_of_statement ih hk hbody
      | call hcall =>
          rw [Statement.landmarks]
          exact locates_call (k + 1) hk hcall
      | assign hvalue =>
          rw [Statement.landmarks]
          simp only [List.length_cons] at hk
          exact ((locates_expression k (by omega) hvalue).token _ _).token _ _
      | empty =>
          rw [Statement.landmarks]
          exact .nil

theorem locates_compound (k : Nat) : Locates k IsCompound Statement.landmarksAll :=
  fun _ _ _ _ hk h => locates_compound_of_statement (locates_statement k) (by omega) h

/-! ## Declarations -/

/-- Separated names show each of them. -/
theorem shows_name {ts : List (Located Token)} {i j : Nat} {names : List (Located String)}
    (h : Separated IsName (.symbol .comma) ts i names j) :
    ∀ name ∈ names, Shows ts ⟨[.identifier name.value], name.position⟩ := by
  have hone : Locates (ts.length + 1) IsName
      (fun name => [⟨[.identifier name.value], name.position⟩]) := by
    intro us i name j _ hname
    cases hname with
    | mk => exact ShowsAll.nil.token _ _
  have hall := locates_separated hone (Nat.lt_succ_self _) h
  intro name hname
  exact hall _ (List.mem_flatMap.2 ⟨name, hname, List.mem_singleton.2 rfl⟩)

theorem wordToken_text (k : Keyword) : wordToken k.text.toList = .keyword k := by
  have hword : Keyword.ofWord? k.text.toList = some k := by
    rw [Keyword.ofWord?_eq_some_iff]
    cases k <;> decide
  rw [wordToken, hword]

/-- The name of a type shows its word. -/
theorem shows_type {ts : List (Located Token)} {i j : Nat} {type : TypeName}
    (h : IsType ts i type j) : Shows ts type.landmark := by
  have hkeyword : ∀ (k : Keyword) (p : Position),
      Shows [⟨.keyword k, p⟩] (TypeName.landmark ⟨k.text, p⟩) := by
    intro k p
    rw [TypeName.landmark, wordToken_text]
    exact shows_token (.keyword k) p []
  cases h with
  | integer => exact hkeyword .integer _
  | real => exact hkeyword .real _

/-- **Names and their common type** show each name and the type. -/
theorem shows_typed {ts : List (Located Token)} {i j : Nat} {names : List (Located String)}
    {type : TypeName} (h : IsTyped ts i (names, type) j) :
    ∀ name ∈ names, ShowsAll ts [⟨[.identifier name.value], name.position⟩, type.landmark] := by
  cases h with
  | mk hnames htype =>
      intro name hname
      refine .cons ((shows_name hnames name hname).append_right _) (.cons ?_ .nil)
      exact ((shows_type htype).append_left [_]).append_left _

/-- Variables of one line show their landmarks. -/
theorem locates_variableLine (k : Nat) :
    Locates k IsVariableLine Declaration.landmarksAll := by
  intro ts i line j _ hline
  cases hline with
  | mk htyped =>
      rw [Declaration.landmarksAll_eq_flatMap, List.flatMap_map]
      refine showsAll_flatMap fun name hname => ?_
      rw [Declaration.landmarks]
      exact (shows_typed htyped name hname).append_right _

theorem landmarksAll_flatten (groups : List (List Declaration)) :
    Declaration.landmarksAll groups.flatten = groups.flatMap Declaration.landmarksAll := by
  have hgroup : Declaration.landmarksAll = List.flatMap Declaration.landmarks :=
    funext Declaration.landmarksAll_eq_flatMap
  rw [hgroup, List.flatten_eq_flatMap, List.flatMap_assoc]
  rfl

/-- Sections of variables show their landmarks. -/
theorem locates_section (k : Nat) : Locates k IsSection Declaration.landmarksAll := by
  intro ts i vars j hk hsection
  cases hsection with
  | mk hfirst hrest =>
      simp only [List.length_cons, List.length_append] at hk
      rw [Declaration.landmarksAll_eq_flatMap, List.flatMap_append,
        ← Declaration.landmarksAll_eq_flatMap, ← Declaration.landmarksAll_eq_flatMap,
        landmarksAll_flatten]
      have hlines := (locates_variableLine k (by omega) hfirst).append
        (locates_repeated (locates_variableLine k) (by omega) hrest)
      exact hlines.cons_left _

/-- Parameters show their landmarks. -/
theorem locates_parameters (k : Nat) :
    Locates k IsParameters (List.flatMap Parameter.landmarks) := by
  have hgroup : Locates k IsParameterGroup (List.flatMap Parameter.landmarks) := by
    intro ts i group j _ hgroup
    cases hgroup with
    | mk htyped =>
        rw [List.flatMap_map]
        exact showsAll_flatMap fun name hname => shows_typed htyped name hname
  intro ts i params j hk hparams
  cases hparams with
  | absent => exact .nil
  | none => exact .nil
  | some hgroups =>
      simp only [List.length_cons, List.length_append] at hk
      rw [List.flatten_eq_flatMap, List.flatMap_assoc]
      have hall := locates_separated hgroup (by omega) hgroups
      exact (hall.append_right _).cons_left _

/-- Blocks show their landmarks if procedures do. -/
theorem locates_block_of_procedure (h : Locates k IsProcedure Declaration.landmarks) :
    Locates k IsBlock Block.landmarks := by
  intro ts i block j hk hblock
  cases hblock with
  | mk hsections hprocedures hbody =>
      simp only [List.length_append] at hk
      have hvars := locates_repeated (locates_section k) (by omega) hsections
      have hprocs := locates_repeated h (by omega) hprocedures
      have hstatements := locates_compound k (by omega) hbody
      rw [Block.landmarks, Declaration.landmarksAll_eq_flatMap, List.flatMap_append,
        ← Declaration.landmarksAll_eq_flatMap, landmarksAll_flatten, List.append_assoc]
      exact hvars.append (hprocs.append hstatements)

/-- **Procedures show their landmarks.** -/
theorem locates_procedure (k : Nat) : Locates k IsProcedure Declaration.landmarks := by
  induction k with
  | zero => exact fun _ _ _ _ hk => absurd hk (Nat.not_lt_zero _)
  | succ k ih =>
      intro ts i declaration j hk hprocedure
      cases hprocedure with
      | mk hparams hblock =>
          simp only [List.length_cons, List.length_append] at hk
          have hheading := locates_parameters k (by omega) hparams
          have hbody := locates_block_of_procedure ih (by omega) hblock
          rw [Declaration.landmarks]
          refine ShowsAll.cons_left (ShowsAll.token ?_ _ _) _
          exact hheading.append ((hbody.append_right _).cons_left _)

/-- **The tokens of a program** show all landmarks of its tree. -/
theorem showsAll_program {ts : List (Located Token)} {tree : Program} (h : IsProgram ts tree) :
    ShowsAll ts tree.landmarks := by
  cases h with
  | mk hblock =>
      have hlandmarks := locates_block_of_procedure (locates_procedure _)
        (Nat.lt_succ_self _) hblock
      exact (((hlandmarks.append_right _).cons_left _).cons_left _).token _ _

end Grammar

/-! ## The landmarks of sites -/

/-- A site stands at the name that it is about. -/
def Duty.landmark : Duty → Landmark
  | .fresh name position => ⟨[.identifier name], position⟩
  | .typed type => type.landmark
  | .occurrence v => v.landmark
  | .call c => c.landmark

/-- What an expression asks for stands at one of its landmarks. -/
theorem Expr.landmark_of_mem_duties {e : Expr} {duty : Duty} (h : duty ∈ e.duties) :
    duty.landmark ∈ e.landmarks := by
  induction e with
  | literal value position => cases h
  | occurrence v =>
      rw [List.mem_singleton.1 h]
      exact List.mem_singleton.2 rfl
  | signed sign operand position ih => exact List.mem_cons_of_mem _ (ih h)
  | binary op left right position ihleft ihright =>
      rcases List.mem_append.1 h with h | h
      · exact List.mem_append_left _ (ihleft h)
      · exact List.mem_append_right _ (List.mem_cons_of_mem _ (ihright h))

/-- What a call asks for stands at one of its landmarks. -/
theorem Call.landmark_of_mem_duties {c : Call} {duty : Duty} (h : duty ∈ c.duties) :
    duty.landmark ∈ c.landmarks := by
  rcases List.mem_append.1 h with h | h
  · obtain ⟨e, he, hduty⟩ := List.mem_flatMap.1 h
    exact List.mem_cons_of_mem _
      (List.mem_flatMap.2 ⟨e, he, Expr.landmark_of_mem_duties hduty⟩)
  · rw [List.mem_singleton.1 h]
    exact List.mem_cons_self

mutual

/-- What a statement asks for stands at one of its landmarks. -/
theorem Statement.landmark_of_mem_duties {st : Statement} {duty : Duty} (h : duty ∈ st.duties) :
    duty.landmark ∈ st.landmarks := by
  cases st with
  | compound body =>
      rw [Statement.duties] at h
      rw [Statement.landmarks]
      exact Statement.landmark_of_mem_dutiesAll h
  | assign target value position =>
      rw [Statement.duties] at h
      rw [Statement.landmarks]
      rcases List.mem_append.1 h with h | h
      · exact List.mem_cons_of_mem _ (List.mem_cons_of_mem _ (Expr.landmark_of_mem_duties h))
      · rw [List.mem_singleton.1 h]
        exact List.mem_cons_self
  | call c =>
      rw [Statement.duties] at h
      rw [Statement.landmarks]
      exact Call.landmark_of_mem_duties h
  | empty => cases h

/-- What statements ask for stands at one of their landmarks. -/
theorem Statement.landmark_of_mem_dutiesAll {body : List Statement} {duty : Duty}
    (h : duty ∈ Statement.dutiesAll body) : duty.landmark ∈ Statement.landmarksAll body := by
  cases body with
  | nil => cases h
  | cons first rest =>
      rw [Statement.dutiesAll] at h
      rw [Statement.landmarksAll]
      rcases List.mem_append.1 h with h | h
      · exact List.mem_append_left _ (Statement.landmark_of_mem_duties h)
      · exact List.mem_append_right _ (Statement.landmark_of_mem_dutiesAll h)

end

/-- A site of duties is about one of them. -/
theorem Context.mem_of_mem_sitesOf {Γ : Context} {duties : List Duty} {s : Site}
    (h : s ∈ Γ.sitesOf duties) : s.duty ∈ duties := by
  obtain ⟨duty, hduty, rfl⟩ := List.mem_map.1 h
  exact hduty

/-- A declared parameter stands at its landmark. -/
theorem landmark_of_mem_parameterSites {Γ : Context} {params : List Parameter} {s : Site}
    (h : s ∈ Γ.parameterSites params) :
    s.duty.landmark ∈ params.flatMap Parameter.landmarks := by
  induction params generalizing Γ with
  | nil => cases h
  | cons first rest ih =>
      rw [List.flatMap_cons]
      rcases List.mem_cons.1 h with rfl | h
      · exact List.mem_append_left _ List.mem_cons_self
      · exact List.mem_append_right _ (ih h)

mutual

/-- **What a declaration asks for** stands at one of its landmarks. -/
theorem Declaration.landmark_of_mem_sites {d : Declaration} {Γ : Context} {s : Site}
    (h : s ∈ d.sites Γ) : s.duty.landmark ∈ d.landmarks := by
  cases d with
  | var name type position =>
      rw [Declaration.sites] at h
      rw [Declaration.landmarks]
      rcases List.mem_cons.1 h with rfl | h
      · exact List.mem_cons_of_mem _ List.mem_cons_self
      · rw [List.mem_singleton.1 h]
        exact List.mem_cons_self
  | procedure name params declarations body position =>
      rw [Declaration.sites] at h
      rw [Declaration.landmarks]
      simp only [List.mem_append, List.mem_cons] at h ⊢
      rcases h with (((htypes | hname) | hparams) | hdeclarations) | hbody
      · obtain ⟨p, hp, hduty⟩ := List.mem_map.1 (Context.mem_of_mem_sitesOf htypes)
        refine Or.inr (Or.inl (List.mem_flatMap.2 ⟨p, hp, ?_⟩))
        rw [← hduty]
        exact List.mem_cons_of_mem _ List.mem_cons_self
      · rcases hname with rfl | hname
        · exact Or.inl rfl
        · cases hname
      · exact Or.inr (Or.inl (landmark_of_mem_parameterSites hparams))
      · exact Or.inr (Or.inr (Or.inl (Declaration.landmark_of_mem_sitesAll hdeclarations)))
      · have hduty := Context.mem_of_mem_sitesOf hbody
        exact Or.inr (Or.inr (Or.inr (Statement.landmark_of_mem_dutiesAll hduty)))

/-- What declarations ask for stands at one of their landmarks. -/
theorem Declaration.landmark_of_mem_sitesAll {ds : List Declaration} {Γ : Context} {s : Site}
    (h : s ∈ Declaration.sitesAll Γ ds) : s.duty.landmark ∈ Declaration.landmarksAll ds := by
  cases ds with
  | nil => cases h
  | cons first rest =>
      rw [Declaration.sitesAll] at h
      rw [Declaration.landmarksAll]
      rcases List.mem_append.1 h with h | h
      · exact List.mem_append_left _ (Declaration.landmark_of_mem_sites h)
      · exact List.mem_append_right _ (Declaration.landmark_of_mem_sitesAll h)

end

/-- **What a program asks for** stands at one of its landmarks. -/
theorem Program.landmark_of_mem_sites {tree : Program} {s : Site} (h : s ∈ tree.sites) :
    s.duty.landmark ∈ tree.landmarks := by
  refine List.mem_cons_of_mem _ ?_
  rcases List.mem_append.1 h with h | h
  · exact List.mem_append_left _ (Declaration.landmark_of_mem_sitesAll h)
  · have hduty := Context.mem_of_mem_sitesOf h
    exact List.mem_append_right _ (Statement.landmark_of_mem_dutiesAll hduty)

/-! ## The landmarks of blocks -/

/-- A declared procedure has the landmarks of its block. -/
theorem Block.landmarks_of_mem {b : Block} {d : ProcedureDeclaration}
    (hd : d.declaration ∈ b.declarations) : ∀ l ∈ d.block.landmarks, l ∈ b.landmarks := by
  intro l hl
  refine List.mem_append_left _ ?_
  rw [Declaration.landmarksAll_eq_flatMap]
  refine List.mem_flatMap.2 ⟨d.declaration, hd, ?_⟩
  rw [ProcedureDeclaration.declaration, Declaration.landmarks]
  exact List.mem_cons_of_mem _ (List.mem_append_right _ hl)

/-- **The block around a point of a program** has landmarks of the program. -/
theorem Arises.landmarks {tree : Program} {Γ : Context} (h : Arises tree Γ) :
    ∀ l ∈ (Γ.block tree).landmarks, l ∈ tree.landmarks := by
  induction h with
  | initial => exact fun l hl => List.mem_cons_of_mem _ hl
  | declare _ _ _ ih =>
      rw [Context.block_declare]
      exact ih
  | parameter _ _ ih =>
      rw [Context.block_declare]
      exact ih
  | enter _ hd _ ih => exact fun l hl => ih l (Block.landmarks_of_mem hd l hl)

/-! ## Landmarks of source texts -/

/-- **The tokens of the landmarks** of a tree are among those of its source text. -/
theorem exists_token_of_landmark {source : String} {tree : Program}
    (h : parse source = .ok tree) {l : Landmark} (hl : l ∈ tree.landmarks) {token : Token}
    (htoken : token ∈ l.value) : ∃ t, .ok t ∈ tokenize source ∧ t.value = token := by
  obtain ⟨ts, p, hitems, htree⟩ := parse_eq_ok_iff.1 h
  obtain ⟨before, found, behind, rfl, hvalues, -⟩ := Grammar.showsAll_program htree l hl
  rw [← hvalues] at htoken
  obtain ⟨t, ht, rfl⟩ := List.mem_map.1 htoken
  refine ⟨t, ?_, rfl⟩
  rw [hitems]
  apply List.mem_append_left
  apply List.mem_map_of_mem
  exact List.mem_append_right _ (List.mem_append_left _ ht)

end MiniPascal
