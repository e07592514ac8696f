/-
# The names in a tree

The trees that are read from source texts do not use the names of builtin types for anything
else.  An identifier is never spelled like a reserved word, in letters of any case, and what
stands where a type is asked for is the name of a builtin type.

* `ofWord?_of_mem_tokenize` : no identifier is a reserved word;
* `Grammar.named_program` : all type names in a tree are those of builtin types;
* `plain_of_parse` : what a tree that was read declares and uses.
-/
import MiniPascal.Proofs.Grammar.Landmarks
import MiniPascal.Proofs.Lexical.Coordinates

set_option autoImplicit false

namespace MiniPascal

/-! ## Identifiers and reserved words -/

/-- **No identifier is a reserved word**, in letters of any case. -/
theorem ofWord?_of_mem_tokenize {source name : String} {p : Position}
    (h : .ok ⟨.identifier name, p⟩ ∈ tokenize source) : Keyword.ofWord? name.toList = none := by
  rcases startsAt_of_mem_tokenize h with ⟨pattern, text, rest, -, hpicks, hdenotes⟩ | ⟨heq, -⟩
  · cases hdenotes with
    | identifier =>
        rw [String.toList_ofList]
        refine Option.eq_none_iff_forall_ne_some.2 fun k hk => ?_
        -- the reserved word would have been preferred
        have hpattern := hpicks.preferred k (Keyword.ofWord?_eq_some_iff.1 hk).symm
        cases hpattern
  · cases heq

/-- The reserved word of a builtin type. -/
def BuiltinType.keyword : BuiltinType → Keyword
  | .integer => .integer
  | .real => .real

theorem BuiltinType.ofWord?_name (t : BuiltinType) :
    Keyword.ofWord? t.name.toList = some t.keyword := by
  rw [Keyword.ofWord?_eq_some_iff]
  cases t <;> decide

/-! ## The duties of a tree -/

mutual

/-- The duties in a declaration, those in its block included. -/
def Declaration.duties : Declaration → List Duty
  | .var name type position => [.typed type, .fresh name position]
  | .procedure name params declarations body position =>
    params.map (fun p => .typed p.type) ++ [.fresh name position]
      ++ params.map (fun p => .fresh p.name p.position)
      ++ Declaration.dutiesAll declarations ++ Statement.dutiesAll body

/-- The duties in declarations. -/
def Declaration.dutiesAll : List Declaration → List Duty
  | [] => []
  | first :: rest => first.duties ++ Declaration.dutiesAll rest

end

/-- The duties in a block. -/
def Block.duties (b : Block) : List Duty :=
  Declaration.dutiesAll b.declarations ++ Statement.dutiesAll b.body

/-- The duties in a program. -/
def Program.duties (p : Program) : List Duty := p.block.duties

theorem Declaration.dutiesAll_eq_flatMap (ds : List Declaration) :
    Declaration.dutiesAll ds = ds.flatMap Declaration.duties := by
  induction ds with
  | nil => rfl
  | cons first rest ih => rw [Declaration.dutiesAll, ih, List.flatMap_cons]

theorem duties_sitesOf (Γ : Context) (duties : List Duty) :
    (Γ.sitesOf duties).map Site.duty = duties := by
  unfold Context.sitesOf
  rw [List.map_map]
  exact List.map_id duties

/-- The sites of parameters are about their names. -/
theorem duties_parameterSites (Γ : Context) (params : List Parameter) :
    (Γ.parameterSites params).map Site.duty
      = params.map fun p => .fresh p.name p.position := by
  induction params generalizing Γ with
  | nil => rfl
  | cons first rest ih =>
      rw [Context.parameterSites, List.map_cons, List.map_cons, ih]

mutual

/-- The sites of a declaration are about its duties. -/
theorem duties_declaration (Γ : Context) (d : Declaration) :
    (d.sites Γ).map Site.duty = d.duties := by
  cases d with
  | var name type position =>
      rw [Declaration.sites, Declaration.duties]
      rfl
  | procedure name params declarations body position =>
      rw [Declaration.sites, Declaration.duties]
      simp only [List.map_append, duties_sitesOf, duties_parameterSites, duties_declarations,
        List.map_cons, List.map_nil]

/-- The sites of declarations are about their duties. -/
theorem duties_declarations (Γ : Context) (ds : List Declaration) :
    (Declaration.sitesAll Γ ds).map Site.duty = Declaration.dutiesAll ds := by
  cases ds with
  | nil =>
      rw [Declaration.sitesAll, Declaration.dutiesAll]
      rfl
  | cons first rest =>
      rw [Declaration.sitesAll, Declaration.dutiesAll, List.map_append, duties_declaration,
        duties_declarations]

end

/-- **The sites of a program** are about its duties. -/
theorem duties_program (tree : Program) : tree.sites.map Site.duty = tree.duties := by
  unfold Program.sites Block.sites
  rw [List.map_append, duties_declarations, duties_sitesOf]
  rfl

/-! ## Type names -/

/-- A type name is that of a builtin type. -/
def TypeName.Named (type : TypeName) : Prop := ∃ t : BuiltinType, type.name = t.name

/-- All type names among some duties are those of builtin types. -/
def Named (duties : List Duty) : Prop := ∀ type, .typed type ∈ duties → type.Named

theorem Named.append {duties more : List Duty} (h : Named duties) (hmore : Named more) :
    Named (duties ++ more) := by
  intro type htype
  rcases List.mem_append.1 htype with htype | htype
  · exact h type htype
  · exact hmore type htype

theorem named_flatMap {α : Type} {duties : α → List Duty} {xs : List α}
    (h : ∀ x ∈ xs, Named (duties x)) : Named (xs.flatMap duties) := by
  intro type htype
  obtain ⟨x, hx, hmem⟩ := List.mem_flatMap.1 htype
  exact h x hx type hmem

/-- An expression names no type. -/
theorem Expr.named (e : Expr) : Named e.duties := by
  induction e with
  | literal value position => exact nofun
  | occurrence v =>
      intro type htype
      cases List.mem_singleton.1 htype
  | signed sign operand position ih => exact ih
  | binary op left right position ihleft ihright => exact ihleft.append ihright

theorem Call.named (c : Call) : Named c.duties := by
  apply Named.append
  · exact named_flatMap fun e _ => e.named
  · intro type htype
    cases List.mem_singleton.1 htype

mutual

/-- A statement names no type. -/
theorem Statement.named (st : Statement) : Named st.duties := by
  cases st with
  | compound body =>
      rw [Statement.duties]
      exact Statement.named_all body
  | assign target value position =>
      rw [Statement.duties]
      apply value.named.append
      intro type htype
      cases List.mem_singleton.1 htype
  | call c =>
      rw [Statement.duties]
      exact c.named
  | empty =>
      rw [Statement.duties]
      exact nofun

/-- Statements name no type. -/
theorem Statement.named_all (body : List Statement) : Named (Statement.dutiesAll body) := by
  cases body with
  | nil =>
      rw [Statement.dutiesAll]
      exact nofun
  | cons first rest =>
      rw [Statement.dutiesAll]
      exact (Statement.named first).append (Statement.named_all rest)

end

namespace Grammar

variable {α : Type}

/-- Phrases of fewer than `k` tokens denote what has a property. -/
def Ensures (k : Nat) (phrase : Language α) (P : α → Prop) : Prop :=
  ∀ ⦃ts : List (Located Token)⦄ ⦃i : Nat⦄ ⦃x : α⦄ ⦃j : Nat⦄,
    ts.length < k → phrase ts i x j → P x

section Ensures

variable {k : Nat} {phrase : Language α} {P : α → Prop}

/-- What one item denotes is what separated items denote. -/
theorem ensures_separated {separator : Token} (h : Ensures k phrase P) :
    Ensures k (Separated phrase separator) fun xs => ∀ x ∈ xs, P x := by
  intro ts i xs j hk hxs
  induction hxs with
  | one hx =>
      intro y hy
      rw [List.mem_singleton.1 hy]
      exact h hk hx
  | more hx _ ih =>
      simp only [List.length_append, List.length_cons] at hk
      intro y hy
      rcases List.mem_cons.1 hy with rfl | hy
      · exact h (by omega) hx
      · exact ih (by omega) y hy

/-- What one item denotes is what repeated items denote. -/
theorem ensures_repeated (h : Ensures k phrase P) :
    Ensures k (Repeated phrase) fun xs => ∀ x ∈ xs, P x := by
  intro ts i xs j hk hxs
  induction hxs with
  | none => exact nofun
  | more hx _ ih =>
      simp only [List.length_append] at hk
      intro y hy
      rcases List.mem_cons.1 hy with rfl | hy
      · exact h (by omega) hx
      · exact ih (by omega) y hy

end Ensures

/-- The common type of names is a builtin type. -/
theorem named_typed {ts : List (Located Token)} {i j : Nat} {names : List (Located String)}
    {type : TypeName} (h : IsTyped ts i (names, type) j) : type.Named := by
  cases h with
  | mk _ htype =>
      cases htype with
      | integer => exact ⟨.integer, rfl⟩
      | real => exact ⟨.real, rfl⟩

/-- Variables of one line have builtin types. -/
theorem ensures_variableLine (k : Nat) :
    Ensures k IsVariableLine fun line => Named (Declaration.dutiesAll line) := by
  intro ts i line j _ hline
  cases hline with
  | mk htyped =>
      rw [Declaration.dutiesAll_eq_flatMap, List.flatMap_map]
      refine named_flatMap fun name _ type htype => ?_
      rw [Declaration.duties] at htype
      rcases List.mem_cons.1 htype with heq | htype
      · cases heq
        exact named_typed htyped
      · cases List.mem_singleton.1 htype

/-- The type names in lists of declarations. -/
theorem named_flatten {groups : List (List Declaration)}
    (h : ∀ group ∈ groups, Named (Declaration.dutiesAll group)) :
    Named (Declaration.dutiesAll groups.flatten) := by
  intro type htype
  rw [Declaration.dutiesAll_eq_flatMap] at htype
  obtain ⟨d, hd, hmem⟩ := List.mem_flatMap.1 htype
  obtain ⟨group, hgroup, hd⟩ := List.mem_flatten.1 hd
  apply h group hgroup type
  rw [Declaration.dutiesAll_eq_flatMap]
  exact List.mem_flatMap.2 ⟨d, hd, hmem⟩

theorem named_dutiesAll_append {ds more : List Declaration}
    (h : Named (Declaration.dutiesAll ds)) (hmore : Named (Declaration.dutiesAll more)) :
    Named (Declaration.dutiesAll (ds ++ more)) := by
  rw [Declaration.dutiesAll_eq_flatMap, List.flatMap_append, ← Declaration.dutiesAll_eq_flatMap,
    ← Declaration.dutiesAll_eq_flatMap]
  exact h.append hmore

/-- Sections of variables have builtin types. -/
theorem ensures_section (k : Nat) :
    Ensures k IsSection fun vars => Named (Declaration.dutiesAll vars) := by
  intro ts i vars j hk hsection
  cases hsection with
  | mk hfirst hrest =>
      simp only [List.length_cons, List.length_append] at hk
      apply named_dutiesAll_append
      · exact ensures_variableLine k (by omega) hfirst
      · exact named_flatten (ensures_repeated (ensures_variableLine k) (by omega) hrest)

/-- Parameters have builtin types. -/
theorem ensures_parameters (k : Nat) :
    Ensures k IsParameters fun params => ∀ p ∈ params, p.type.Named := by
  have hgroup : Ensures k IsParameterGroup fun group => ∀ p ∈ group, p.type.Named := by
    intro ts i group j _ hgroup
    cases hgroup with
    | mk htyped =>
        intro p hp
        obtain ⟨name, -, rfl⟩ := List.mem_map.1 hp
        exact named_typed htyped
  intro ts i params j hk hparams
  cases hparams with
  | absent => exact nofun
  | none => exact nofun
  | some hgroups =>
      simp only [List.length_cons, List.length_append] at hk
      intro p hp
      obtain ⟨group, hmem, hp⟩ := List.mem_flatten.1 hp
      exact ensures_separated hgroup (by omega) hgroups group hmem p hp

/-- Blocks name builtin types only if procedures do. -/
theorem ensures_block_of_procedure (k : Nat)
    (h : Ensures k IsProcedure fun d => Named d.duties) :
    Ensures k IsBlock fun b => Named b.duties := by
  intro ts i b j hk hblock
  cases hblock with
  | mk hsections hprocedures _ =>
      simp only [List.length_append] at hk
      refine Named.append (named_dutiesAll_append ?_ ?_) (Statement.named_all _)
      · exact named_flatten (ensures_repeated (ensures_section k) (by omega) hsections)
      · rw [Declaration.dutiesAll_eq_flatMap]
        exact named_flatMap (ensures_repeated h (by omega) hprocedures)

/-- **Procedures name builtin types only.** -/
theorem ensures_procedure (k : Nat) : Ensures k IsProcedure fun d => Named d.duties := by
  -- the block of a procedure has fewer tokens, so the induction is on their number
  induction k with
  | zero => exact fun _ _ _ _ hk => absurd hk (Nat.not_lt_zero _)
  | succ k ih =>
      intro ts i d j hk hprocedure
      cases hprocedure with
      | mk hparams hblock =>
          simp only [List.length_cons, List.length_append] at hk
          have hheading := ensures_parameters k (by omega) hparams
          have hbody := ensures_block_of_procedure k ih (by omega) hblock
          intro type htype
          rw [Declaration.duties] at htype
          simp only [List.append_assoc] at htype
          rcases List.mem_append.1 htype with htype | htype
          · obtain ⟨p, hp, heq⟩ := List.mem_map.1 htype
            cases heq
            exact hheading p hp
          rcases List.mem_append.1 htype with htype | htype
          · cases List.mem_singleton.1 htype
          rcases List.mem_append.1 htype with htype | htype
          · obtain ⟨p, -, heq⟩ := List.mem_map.1 htype
            cases heq
          · exact hbody type htype

/-- **All type names in a program** are those of builtin types. -/
theorem named_program {ts : List (Located Token)} {tree : Program} (h : IsProgram ts tree) :
    Named tree.duties := by
  cases h with
  | mk hblock =>
      exact ensures_block_of_procedure _ (ensures_procedure _) (Nat.lt_succ_self _) hblock

end Grammar

/-! ## Trees that were read -/

/-- A duty is about a builtin type exactly if a type is asked for. -/
def Duty.Plain : Duty → Prop
  | .fresh name _ => ∀ t : BuiltinType, name ≠ t.name
  | .typed type => type.Named
  | .occurrence v => ∀ t : BuiltinType, v.name ≠ t.name
  | .call c => ∀ t : BuiltinType, c.name ≠ t.name

/-- **A tree that was read** names the builtin types where a type is asked for, and nowhere
else. -/
theorem plain_of_parse {source : String} {tree : Program} (h : parse source = .ok tree) :
    ∀ duty ∈ tree.duties, duty.Plain := by
  intro duty hduty
  have hlandmark : duty.landmark ∈ tree.landmarks := by
    rw [← duties_program] at hduty
    obtain ⟨s, hs, rfl⟩ := List.mem_map.1 hduty
    exact Program.landmark_of_mem_sites hs
  have hname : ∀ name, .identifier name ∈ duty.landmark.value →
      ∀ t : BuiltinType, name ≠ t.name := by
    rintro name hmem t rfl
    obtain ⟨⟨token, p⟩, htoken, rfl⟩ := exists_token_of_landmark h hlandmark hmem
    have hnone := ofWord?_of_mem_tokenize htoken
    rw [t.ofWord?_name] at hnone
    cases hnone
  cases duty with
  | fresh name position => exact hname name List.mem_cons_self
  | typed type =>
      obtain ⟨ts, p, -, htree⟩ := parse_eq_ok_iff.1 h
      exact Grammar.named_program htree type hduty
  | occurrence v => exact hname v.name List.mem_cons_self
  | call c => exact hname c.name List.mem_cons_self

end MiniPascal
