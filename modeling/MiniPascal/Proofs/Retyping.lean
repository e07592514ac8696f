/-
# Declared types do not matter

The type of a variable or of a parameter is written down with its symbol, and then nothing asks
for it.  So if in a tree that was read some type names are exchanged for those of other builtin
types, then the check fails with the same error, or resolves the same nodes to the same
procedures up to the exchanged types, and every run has the same outcome and leaves the same
record of the program.

* `Program.Retyped` : trees that differ in the builtin types of declarations only;
* `Program.Retyped.alike` : such trees are alike;
* `Procedure.Matches.retyped` : what is resolved alike differs in builtin types only;
* `retyping_unobserved` : neither a check nor a run depends on declared types.
-/
import MiniPascal.Proofs.Renaming
import MiniPascal.Proofs.Scoping.BuiltinTypes

set_option autoImplicit false

namespace MiniPascal

/-! ## Retyped trees -/

/-- A type name that is kept, or exchanged for that of a builtin type at the same place. -/
inductive TypeName.Retyped : TypeName → TypeName → Prop where
  | kept (type : TypeName) : Retyped type type
  | exchanged (t t' : BuiltinType) (position : Position) :
      Retyped ⟨t.name, position⟩ ⟨t'.name, position⟩

/-- A parameter with a type that is kept or exchanged. -/
structure Parameter.Retyped (p p' : Parameter) : Prop where
  name : p'.name = p.name
  type : p.type.Retyped p'.type
  position : p'.position = p.position

/-- A declaration in which types are kept or exchanged. -/
inductive Declaration.Retyped : Declaration → Declaration → Prop where
  | var {name : String} {type type' : TypeName} {position : Position}
      (htype : type.Retyped type') : Retyped (.var name type position) (.var name type' position)
  | procedure {name : String} {params params' : List Parameter}
      {declarations declarations' : List Declaration} {body : List Statement}
      {position : Position} (hparams : List.Forall₂ Parameter.Retyped params params')
      (hdeclarations : List.Forall₂ Retyped declarations declarations') :
      Retyped (.procedure name params declarations body position)
        (.procedure name params' declarations' body position)

/-- A block with the same body, in which types are kept or exchanged. -/
structure Block.Retyped (b b' : Block) : Prop where
  declarations : List.Forall₂ Declaration.Retyped b.declarations b'.declarations
  body : b'.body = b.body

/-- **A program in which types are kept or exchanged**; all else is the same. -/
structure Program.Retyped (p p' : Program) : Prop where
  name : p'.name = p.name
  block : p.block.Retyped p'.block
  position : p'.position = p.position

/-- Resolved procedures that differ in the builtin types of parameters and declarations only. -/
structure Procedure.Retyped (p p' : Procedure) : Prop where
  name : p'.name = p.name
  params : p'.params.map TypedName.name = p.params.map TypedName.name
  scopeLevel : p'.scopeLevel = p.scopeLevel
  block : p.block.Retyped p'.block

/-- The likeness of trees that differ in builtin types only; their names are not declared. -/
def Likeness.retyping : Likeness :=
  { Likeness.layout Eq with
    types := fun _ _ => True
    declares := fun name => ∀ t : BuiltinType, name ≠ t.name
    hides := by
      intro t t' name _ hname
      constructor
      · intro h
        exact absurd h.symm (hname t')
      · intro h
        exact absurd h.symm (hname t) }

theorem Statement.retyping_iff (body body' : List Statement) :
    List.Forall₂ (Statement.Matches .retyping) body body' ↔ body' = body := by
  refine (Statement.matchesAll_iff (fun _ _ => Iff.rfl) body body').trans ?_
  show Statement.renameAll id body = body' ↔ _
  rw [Statement.renameAll_id]
  exact eq_comm

/-! ## Retyped trees are alike -/

section Alike

/-- Type names stay those of builtin types. -/
theorem TypeName.Retyped.alike {type type' : TypeName} (h : type.Retyped type')
    (htype : type.Named) : type.Matches .retyping type' := by
  cases h with
  | exchanged t t' position => exact .builtin trivial rfl
  | kept =>
      obtain ⟨name, position⟩ := type
      obtain ⟨t, rfl⟩ := htype
      exact .builtin trivial rfl

/-- Retyped parameters are alike. -/
theorem Parameter.Retyped.alike {params params' : List Parameter}
    (h : List.Forall₂ Parameter.Retyped params params') (htypes : ∀ p ∈ params, p.type.Named)
    (hnames : ∀ p ∈ params, ∀ t : BuiltinType, p.name ≠ t.name) :
    List.Forall₂ (Parameter.Matches .retyping) params params' := by
  induction h with
  | nil => exact .nil
  | cons hfirst _ ih =>
      obtain ⟨hnamed, hmore⟩ := List.forall_mem_cons.1 htypes
      obtain ⟨hname, hothers⟩ := List.forall_mem_cons.1 hnames
      exact .cons ⟨hname, hfirst.name, hfirst.type.alike hnamed, hfirst.position.symm⟩
        (ih hmore hothers)

mutual

/-- **Retyped declarations** are alike. -/
theorem Declaration.Retyped.alike (d : Declaration) {d' : Declaration} (h : d.Retyped d')
    (hplain : ∀ duty ∈ d.duties, duty.Plain) : d.Matches .retyping d' := by
  cases d with
  | var name type position =>
      rw [Declaration.duties] at hplain
      obtain ⟨htype, hname⟩ := List.forall_mem_cons.1 hplain
      have hdeclares : ∀ t : BuiltinType, name ≠ t.name := hname _ List.mem_cons_self
      cases h with
      | var hretyped => exact .var hdeclares (hretyped.alike htype) rfl
  | procedure name params declarations body position =>
      obtain ⟨htypes, hname, hnames, hblock⟩ := plain_procedure hplain
      cases h with
      | procedure hparams hdeclarations =>
          -- the block is as plain as the procedure, so the induction goes on inside of it
          refine .procedure hname (Parameter.Retyped.alike hparams htypes hnames) ?_
            ((Statement.retyping_iff body body).2 rfl) rfl
          exact Declaration.Retyped.alikeAll declarations hdeclarations fun duty hduty =>
            hblock duty (List.mem_append_left _ hduty)

/-- Retyped declarations in turn are alike. -/
theorem Declaration.Retyped.alikeAll (ds : List Declaration) {ds' : List Declaration}
    (h : List.Forall₂ Declaration.Retyped ds ds')
    (hplain : ∀ duty ∈ Declaration.dutiesAll ds, duty.Plain) :
    List.Forall₂ (Declaration.Matches .retyping) ds ds' := by
  cases ds with
  | nil =>
      cases h with
      | nil => exact .nil
  | cons first rest =>
      rw [Declaration.dutiesAll] at hplain
      obtain ⟨hfirst, hrest⟩ := List.forall_mem_append.1 hplain
      cases h with
      | cons hretyped hmore =>
          exact .cons (Declaration.Retyped.alike first hretyped hfirst)
            (Declaration.Retyped.alikeAll rest hmore hrest)

end

/-- **Retyped programs** are alike if they were read from source texts. -/
theorem Program.Retyped.alike {tree tree' : Program} (h : tree.Retyped tree')
    (hplain : ∀ duty ∈ tree.duties, duty.Plain) : tree.Matches .retyping tree' where
  name := h.name
  position := h.position.symm
  block := by
    refine ⟨Declaration.Retyped.alikeAll _ h.block.declarations fun duty hduty => ?_,
      (Statement.retyping_iff _ _).2 h.block.body⟩
    exact hplain duty (List.mem_append_left _ hduty)

end Alike

/-! ## What is alike is retyped -/

section Retyped

/-- Type names that are alike differ in builtin types only. -/
theorem TypeName.Matches.retyped {type type' : TypeName} (h : type.Matches .retyping type') :
    type.Retyped type' := by
  cases h with
  | builtin _ hposition =>
      obtain rfl := hposition
      exact .exchanged _ _ _
  | unknown _ hposition =>
      obtain rfl := hposition
      exact .kept _

mutual

/-- **Declarations that are alike** differ in builtin types only. -/
theorem Declaration.Matches.retyped (d : Declaration) {d' : Declaration}
    (h : d.Matches .retyping d') : d.Retyped d' := by
  cases d with
  | var name type position =>
      cases h with
      | var _ htype hposition =>
          obtain rfl := hposition
          exact .var htype.retyped
  | procedure name params declarations body position =>
      cases h with
      | procedure _ hparams hdeclarations hbody hposition =>
          obtain rfl := hposition
          obtain rfl := (Statement.retyping_iff _ _).1 hbody
          refine .procedure (hparams.imp fun p p' hp => ?_)
            (Declaration.Matches.retypedAll declarations hdeclarations)
          exact ⟨hp.name, hp.type.retyped, hp.position.symm⟩

/-- Declarations in turn that are alike differ in builtin types only. -/
theorem Declaration.Matches.retypedAll (ds : List Declaration) {ds' : List Declaration}
    (h : List.Forall₂ (Declaration.Matches .retyping) ds ds') :
    List.Forall₂ Declaration.Retyped ds ds' := by
  cases ds with
  | nil =>
      cases h with
      | nil => exact .nil
  | cons first rest =>
      cases h with
      | cons hfirst hrest =>
          exact .cons (Declaration.Matches.retyped first hfirst)
            (Declaration.Matches.retypedAll rest hrest)

end

/-- **Procedures that are alike** differ in builtin types only. -/
theorem Procedure.Matches.retyped {p p' : Procedure} (h : p.Matches .retyping p') :
    p.Retyped p' := by
  obtain ⟨hdeclarations, hbody⟩ := h.block
  have hnames : List.Forall₂ (fun v v' : TypedName => v'.name = v.name) p.params p'.params :=
    h.params.imp fun _ _ hv => hv.name
  refine ⟨h.name, ?_, h.scopeLevel, Declaration.Matches.retypedAll _ hdeclarations,
    (Statement.retyping_iff _ _).1 hbody⟩
  rw [← List.forall₂_eq_eq_eq, List.forall₂_map_left_iff, List.forall₂_map_right_iff]
  exact hnames.flip

end Retyped

/-! ## Checking and execution -/

/-- The check of a tree that was read finds no undefined type. -/
theorem ne_undefinedType_of_parse {source : String} {tree : Program} {e : ScopeError}
    (h : parse source = .ok tree) (he : analyze tree = .error e) (name : String) :
    e.value ≠ .undefinedType name := by
  intro heq
  obtain ⟨p, hp, hfails⟩ := exists_fails_of_analyze he
  have hspares := (Checkpoint.plain_of_proceeds h hp).sparesTypes hfails
  rw [heq] at hspares
  exact hspares

/-- Runtime errors of retyped programs are equal. -/
theorem RuntimeError.Matches.eq_of_retyping {e e' : RuntimeError}
    (h : RuntimeError.Matches .retyping e e') : e' = e := by
  obtain ⟨fault, position⟩ := e
  obtain ⟨fault', position'⟩ := e'
  obtain ⟨hfault, rfl⟩ := h
  obtain rfl : fault' = fault := hfault.trans (RuntimeFault.rename_id fault)
  rfl

/-- **Declared types have no effect.**  In a tree that was read from a source text let some names
of builtin types, in declarations of variables and of parameters, be exchanged for those of other
builtin types.  If the check of the tree fails, then that of the retyped tree fails with the same
error.  If it succeeds, so does the other: it knows the same levels and, up to exchanged types,
the same procedures, and under every limit the run of the retyped tree has the same outcome and
leaves the same record of the program. -/
theorem retyping_unobserved {source : String} {tree tree' : Program}
    (h : parse source = .ok tree) (hretyped : tree.Retyped tree') :
    (∀ e, analyze tree = .error e → analyze tree' = .error e) ∧
    ∀ a, analyze tree = .ok a → ∃ a', analyze tree' = .ok a' ∧
      (∀ id, a'.declaredLevel? id = a.declaredLevel? id) ∧
      (∀ id, Option.Rel Procedure.Retyped (a.procedure? id) (a'.procedure? id)) ∧
      ∀ limit,
        ((Interpreter.new a' limit).run tree').outcome
          = ((Interpreter.new a limit).run tree).outcome ∧
        ((Interpreter.new a' limit).run tree').interpreter.finished
          = ((Interpreter.new a limit).run tree).interpreter.finished := by
  have htree : tree.Matches .retyping tree' := hretyped.alike (plain_of_parse h)
  have hanalyze := analyze_matches htree
  constructor
  · intro e he
    rw [he] at hanalyze
    generalize analyze tree' = answer at hanalyze ⊢
    cases hanalyze with
    | @error _ e' herror =>
        obtain ⟨hfault, hposition⟩ := herror
        -- a fault could differ in the name of an undefined type only, and there is none
        have hvalue : e'.value = e.value := hfault.eq rfl fun type _ htype _ =>
          absurd htype (ne_undefinedType_of_parse h he type.name)
        exact congrArg Except.error (congrArg₂ Located.mk hvalue hposition.symm)
  · intro a ha
    rw [ha] at hanalyze
    generalize analyze tree' = answer at hanalyze ⊢
    cases hanalyze with
    | @ok _ a' hmatches =>
        refine ⟨a', rfl, hmatches.levels, fun id => ?_, fun limit => ?_⟩
        · have hprocedure := hmatches.procedures id
          generalize a.procedure? id = found at hprocedure ⊢
          generalize a'.procedure? id = found' at hprocedure ⊢
          cases hprocedure with
          | none => exact .none
          | some hp => exact .some hp.retyped
        · obtain ⟨houtcome, hfinished⟩ := run_matches htree hmatches limit
          constructor
          · generalize Run.outcome _ = outcome at houtcome ⊢
            generalize Run.outcome _ = outcome' at houtcome ⊢
            cases houtcome with
            | ok _ => rfl
            | error herror => rw [herror.eq_of_retyping]
          · generalize Interpreter.finished _ = finished at hfinished ⊢
            generalize Interpreter.finished _ = finished' at hfinished ⊢
            cases hfinished with
            | none => rfl
            | some hrecord => rw [hrecord.eq rfl]

/-- A source text with a variable and a parameter of different types. -/
def mixedSource : String :=
  "PROGRAM P; VAR x : INTEGER; PROCEDURE Q(a : REAL); BEGIN x := a / 2 END; BEGIN Q(7) END."

/-- Whether a block declares an integer variable and a procedure with a real parameter. -/
def Block.isMixed (b : Block) : Bool :=
  match b.declarations with
  | [.var _ type _, .procedure _ [param] [] _ _] =>
    type.name == BuiltinType.integer.name && param.type.name == BuiltinType.real.name
  | _ => false

/-- Its two types are exchanged for each other. -/
theorem mixedSource_unobserved : ∃ tree tree' a a', parse mixedSource = .ok tree ∧
    tree.Retyped tree' ∧ tree' ≠ tree ∧ analyze tree = .ok a ∧ analyze tree' = .ok a' ∧
    ∀ limit, ((Interpreter.new a' limit).run tree').outcome
        = ((Interpreter.new a limit).run tree).outcome ∧
      ((Interpreter.new a' limit).run tree').interpreter.finished
        = ((Interpreter.new a limit).run tree).interpreter.finished := by
  have haccepts : accepts mixedSource = true := by decide +kernel
  obtain ⟨⟨name, ⟨declarations, main⟩, start⟩, a, htree, ha⟩ := exists_analysis haccepts
  have hmixed : (parse mixedSource).toOption.any (fun tree => tree.block.isMixed) = true := by
    decide +kernel
  rw [htree] at hmixed
  have hshape : (Block.mk declarations main).isMixed = true := hmixed
  unfold Block.isMixed at hshape
  split at hshape
  next x type p q param body p' hdeclarations =>
    cases hdeclarations
    obtain ⟨htype, hother⟩ := Bool.and_eq_true_iff.1 hshape
    obtain ⟨_, here⟩ := type
    obtain ⟨v, ⟨_, there⟩, p''⟩ := param
    obtain rfl := eq_of_beq htype
    obtain rfl := eq_of_beq hother
    have hvariable : Declaration.Retyped (.var x ⟨BuiltinType.integer.name, here⟩ p)
        (.var x ⟨BuiltinType.real.name, here⟩ p) := .var (.exchanged .integer .real here)
    have hparameter : Parameter.Retyped ⟨v, ⟨BuiltinType.real.name, there⟩, p''⟩
        ⟨v, ⟨BuiltinType.integer.name, there⟩, p''⟩ := ⟨rfl, .exchanged .real .integer there, rfl⟩
    have hprocedure : Declaration.Retyped
        (.procedure q [⟨v, ⟨BuiltinType.real.name, there⟩, p''⟩] [] body p')
        (.procedure q [⟨v, ⟨BuiltinType.integer.name, there⟩, p''⟩] [] body p') :=
      .procedure (.cons hparameter .nil) .nil
    have hblock : Block.Retyped ⟨[_, _], main⟩ ⟨[_, _], main⟩ :=
      ⟨.cons hvariable (.cons hprocedure .nil), rfl⟩
    have hprogram : ∀ {b b' : Block}, b.Retyped b' →
        Program.Retyped ⟨name, b, start⟩ ⟨name, b', start⟩ := fun hb => ⟨rfl, hb, rfl⟩
    have hretyped := hprogram hblock
    obtain ⟨a', ha', -, -, hruns⟩ := (retyping_unobserved htree hretyped).2 a ha
    refine ⟨_, _, a, a', htree, hretyped, ?_, ha, ha', hruns⟩
    simp [BuiltinType.name]
  next => cases hshape

end MiniPascal
