/-
# The chain of open scopes

At every checkpoint of a check the open scopes are those of the procedures around the point that
is being checked, and around them the global scope.  A scope that stays open keeps its symbols,
and the visit of a procedure gives the scopes around it back, the innermost one with the symbol of
the procedure in it.

* `upheld_grows` : every check keeps the open scopes, and the innermost one keeps its symbols;
* `check_procedure_cases` : what the visit of a procedure can do;
* `chain_procedure_of_declared`, `chain_procedure_of_refused` : the chain behind the visit;
* `Checkpoint.enclosed_step` : what is open at a checkpoint encloses the chores that are left;
* `Proceeds.getElem?_reverse` : a scope that stays open keeps its symbols;
* `lookup_global_of_analyze` : the global scope at the end;
* `chain_disciplined` : the chain of scopes through a whole check.
-/
import Mathlib.Data.List.Forall2
import Mathlib.Data.List.Nodup
import MiniPascal.Proofs.Checks
import MiniPascal.Proofs.Scoping.Checkpoints
import MiniPascal.Proofs.Scoping.Parameters
import MiniPascal.Proofs.Scoping.Resolution
import MiniPascal.Proofs.Scoping.Tables

set_option autoImplicit false

namespace MiniPascal

open Check

/-! ## What all checks do to the chain -/

namespace Checker

/-- From one state of the checker to another one the same scopes are open, and the innermost
one has kept its symbols. -/
structure Grows (c d : Checker) : Prop where
  current : c.current.Keeps d.current
  outer : d.outer = c.outer

variable {c d e : Checker}

theorem Grows.of_chain_eq (h : d.chain = c.chain) : c.Grows d := by
  obtain ⟨hcurrent, houter⟩ := List.cons.inj h
  exact ⟨hcurrent ▸ .refl _, houter⟩

/-- **Closing a scope** in which a check has grown gives the open scopes back. -/
theorem Grows.chain_leave {name : String} (h : (c.enter name).Grows d) :
    d.leave.chain = c.chain := by
  have houter : d.outer = c.current :: c.outer := h.outer
  unfold leave
  rw [houter]
  rfl

end Checker

/-- **Every check** keeps the open scopes, and the innermost one keeps its symbols. -/
theorem upheld_grows : Upheld (fun _ => True) Checker.Grows where
  refl _ := .of_chain_eq rfl
  trans hcd hde := ⟨hcd.current.trans hde.current, hde.outer.trans hcd.outer⟩
  lookup _ _ := .of_chain_eq rfl
  inserting _ _ := .of_chain_eq rfl
  insert h := ⟨(Scope.gains_of_insert h).keeps, rfl⟩
  resolveVariable _ _ _ := .of_chain_eq rfl
  resolveCall _ _ _ := .of_chain_eq rfl
  inScope _ h := .of_chain_eq h.chain_leave

/-! ## The visit of a procedure -/

/-- The state of the checker behind a check, whether it succeeds or fails. -/
def Check.after {α : Type} (check : Check α) (c : Checker) : Checker :=
  match check c with
  | .ok _ d => d
  | .error _ d => d

/-- Parameters with the types that their type names mean in a chain of scopes. -/
def ResolveTo (chain : List Scope) (params : List Parameter) (formals : List TypedName) : Prop :=
  List.Forall₂ (fun p v => v.name = p.name ∧
    ∃ level, visible? p.type.name chain = some (.type v.type, level)) params formals

/-- Parameters resolve to one list of variables at most. -/
theorem ResolveTo.unique {chain : List Scope} {params : List Parameter}
    {formals others : List TypedName} (h : ResolveTo chain params formals)
    (hothers : ResolveTo chain params others) : others = formals := by
  induction h generalizing others with
  | nil =>
      cases hothers
      rfl
  | @cons p v _ _ hfirst _ ih =>
      cases hothers with
      | @cons _ w _ more hother hmore =>
          obtain ⟨hname, level, htype⟩ := hfirst
          obtain ⟨hname', level', htype'⟩ := hother
          rw [htype] at htype'
          have hsame : w = v := by
            obtain ⟨name, type⟩ := v
            obtain ⟨name', type'⟩ := w
            cases htype'
            exact congrArg (TypedName.mk · _) (hname'.trans hname.symm)
          rw [hsame, ih hmore]

section Visits

variable {α : Type} {m : Check α} {c : Checker}

/-- A type name is resolved to what it means, or the check fails. -/
theorem TypeName.resolve_cases (type : TypeName) (c : Checker) :
    ∃ d, d.chain = c.chain ∧
      ((∃ t level, visible? type.name c.chain = some (.type t, level) ∧
          type.resolve c = .ok t d) ∨
        (∀ t level, visible? type.name c.chain ≠ some (.type t, level)) ∧
          ∃ e, type.resolve c = .error e d) := by
  obtain ⟨d, hlookup, hchain⟩ := lookup_chain type.name c
  refine ⟨d, hchain, ?_⟩
  unfold resolve
  rw [bind_of_ok hlookup]
  cases visible? type.name c.chain with
  | none => exact Or.inr ⟨nofun, _, rfl⟩
  | some found =>
      obtain ⟨symbol, level⟩ := found
      cases symbol with
      | type t => exact Or.inl ⟨t, level, rfl, rfl⟩
      | var _ => exact Or.inr ⟨nofun, _, rfl⟩
      | procedure _ => exact Or.inr ⟨nofun, _, rfl⟩

/-- **The types of parameters** are resolved to what their names mean, or the check fails. -/
theorem resolveParameters_cases (params : List Parameter) (c : Checker) :
    ∃ d, d.chain = c.chain ∧
      ((∃ formals, ResolveTo c.chain params formals ∧
          resolveParameters params c = .ok formals d) ∨
        (∀ formals, ¬ResolveTo c.chain params formals) ∧
          ∃ e, resolveParameters params c = .error e d) := by
  induction params generalizing c with
  | nil => exact ⟨c, rfl, Or.inl ⟨[], .nil, rfl⟩⟩
  | cons first rest ih =>
      unfold resolveParameters
      obtain ⟨d, hd, ⟨t, level, hfound, htype⟩ | ⟨hnone, e, htype⟩⟩ := first.type.resolve_cases c
      · rw [bind_of_ok htype]
        obtain ⟨d', hd', ⟨more, hmore, hrest⟩ | ⟨hnone, e, hrest⟩⟩ := ih d
        · rw [hd] at hmore
          rw [bind_of_ok hrest]
          exact ⟨d', hd'.trans hd, Or.inl ⟨_, .cons ⟨rfl, level, hfound⟩ hmore, rfl⟩⟩
        · rw [hd] at hnone
          rw [bind_of_error hrest]
          refine ⟨d', hd'.trans hd, Or.inr ⟨fun formals hformals => ?_, e, rfl⟩⟩
          cases hformals with
          | cons _ hmore => exact hnone _ hmore
      · rw [bind_of_error htype]
        refine ⟨d, hd, Or.inr ⟨fun formals hformals => ?_, e, rfl⟩⟩
        cases hformals with
        | cons hfirst _ =>
            obtain ⟨-, level, hfound⟩ := hfirst
            exact hnone _ level hfound

/-- **A symbol** is declared if its name is free in the current scope, or the check fails. -/
theorem declare_cases (symbol : Symbol) (position : Position) (c : Checker) :
    (∃ grown d, c.current.Gains symbol grown ∧ d.chain = grown :: c.outer ∧
        declare symbol position c = .ok () d) ∨
      c.current.lookup symbol.name ≠ none ∧
        ∃ e d, d.chain = c.chain ∧ declare symbol position c = .error e d := by
  unfold declare
  simp only [Checker.report]
  cases hgrown : c.current.insert? symbol with
  | some grown => exact Or.inl ⟨grown, _, Scope.gains_of_insert hgrown, rfl, rfl⟩
  | none =>
      have htaken := Scope.insert?_eq_none_iff.1 hgrown
      exact Or.inr ⟨Option.isSome_iff_ne_none.1 htaken, _,
        c.report [.inserted symbol c.current.name], rfl, rfl⟩

/-- **The check inside a scope** gives the chain back, whether it succeeds or fails. -/
theorem chain_after_inScope (name : String) (hm : Follows Checker.Grows m) (c : Checker) :
    ((inScope name m).after c).chain = c.chain := by
  have hinside := hm (c.enter name)
  unfold after inScope
  cases hbody : m (c.enter name) with
  | ok x d =>
      rw [hbody] at hinside
      exact hinside.chain_leave
  | error e d =>
      rw [hbody] at hinside
      exact hinside.chain_leave

/-- What stands in a procedure is checked in the open scopes. -/
theorem grows_procedure (params : List Parameter) (formals : List TypedName)
    (declarations : List Declaration) (body : List Statement) :
    Follows Checker.Grows (do
      declareParameters params formals
      Declaration.checkAll declarations
      Statement.checkAll body) := by
  have hdeclarations : Follows Checker.Grows (Declaration.checkAll declarations) :=
    upheld_grows.declarations declarations
      fun p outer (_ : p :: outer ∈ Declaration.postOrderAll [] declarations) => trivial
  exact upheld_grows.bind (upheld_grows.parameters params formals) fun _ =>
    upheld_grows.bind hdeclarations fun _ => upheld_grows.statements body

/-- **What the visit of a procedure can do**: declare it and check what stands in it, in a scope
of its own, or fail because a parameter type is not resolved or the name is taken. -/
theorem check_procedure_cases (name : String) (params : List Parameter)
    (declarations : List Declaration) (body : List Statement) (position : Position)
    (c : Checker) :
    (∃ formals grown d, ResolveTo c.chain params formals ∧
      c.current.Gains (.procedure ⟨name, formals, c.current.level, ⟨declarations, body⟩⟩) grown ∧
      d.chain = grown :: c.outer ∧
      (Declaration.procedure name params declarations body position).check c
        = inScope name (do
            declareParameters params formals
            Declaration.checkAll declarations
            Statement.checkAll body) d) ∨
    ((∀ formals, ¬ResolveTo c.chain params formals) ∨ c.current.lookup name ≠ none) ∧
      ∃ e d, d.chain = c.chain ∧
        (Declaration.procedure name params declarations body position).check c = .error e d := by
  rw [Declaration.check]
  obtain ⟨d, hd, ⟨formals, hformals, hresolve⟩ | ⟨hnone, e, hresolve⟩⟩ :=
    resolveParameters_cases params c
  · obtain ⟨hcurrent, houter⟩ := List.cons.inj hd
    have hlevel : currentLevel d = .ok c.current.level d := by rw [← hcurrent]; rfl
    rw [bind_of_ok hresolve, bind_of_ok hlevel]
    rcases declare_cases (.procedure ⟨name, formals, c.current.level, ⟨declarations, body⟩⟩)
      position d with ⟨grown, d', hgains, hd', hdeclare⟩ | ⟨htaken, e, d', hd', hdeclare⟩
    · rw [hcurrent] at hgains
      rw [houter] at hd'
      rw [bind_of_ok hdeclare]
      exact Or.inl ⟨formals, grown, d', hformals, hgains, hd', rfl⟩
    · rw [hcurrent] at htaken
      rw [bind_of_error hdeclare]
      exact Or.inr ⟨Or.inr htaken, e, d', hd'.trans hd, rfl⟩
  · rw [bind_of_error hresolve]
    exact Or.inr ⟨Or.inl hnone, e, d, hd, rfl⟩

variable {name : String} {params : List Parameter} {declarations : List Declaration}
  {body : List Statement} {position : Position}

/-- **The visit of a procedure** whose parameter types are resolved and whose name is free: the
current scope gains the symbol of the procedure, and no other scope changes, whether the check of
the procedure succeeds or fails. -/
theorem chain_procedure_of_declared {formals : List TypedName}
    (hformals : ResolveTo c.chain params formals) (hfree : c.current.lookup name = none) :
    ∃ grown, c.current.Gains
        (.procedure ⟨name, formals, c.current.level, ⟨declarations, body⟩⟩) grown ∧
      ((Declaration.procedure name params declarations body position).check.after c).chain
        = grown :: c.outer := by
  rcases check_procedure_cases name params declarations body position c with
    ⟨others, grown, d, hothers, hgains, hd, hcheck⟩ | ⟨hnone | htaken, -⟩
  · obtain rfl := ResolveTo.unique hformals hothers
    refine ⟨grown, hgains, ?_⟩
    have hafter :=
      chain_after_inScope name (grows_procedure params others declarations body) d
    unfold after at hafter ⊢
    rw [hcheck, hafter, hd]
  · exact absurd hformals (hnone formals)
  · exact absurd hfree htaken

/-- The visit of a procedure with a parameter type that means no type, or whose name is taken: it
fails, and no scope changes. -/
theorem chain_procedure_of_refused
    (h : (∀ formals, ¬ResolveTo c.chain params formals) ∨ c.current.lookup name ≠ none) :
    ∃ e d, (Declaration.procedure name params declarations body position).check c = .error e d ∧
      d.chain = c.chain := by
  rcases check_procedure_cases name params declarations body position c with
    ⟨formals, grown, d, hformals, hgains, -⟩ | ⟨-, e, d, hd, hcheck⟩
  · rcases h with hnone | htaken
    · exact absurd hformals (hnone formals)
    · exact absurd hgains.free htaken
  · exact ⟨e, d, hcheck, hd⟩

end Visits

/-! ## Paths and open scopes -/

/-- The scopes that are open inside of a path of procedures, the innermost first: around them is
the global scope, and the scope of a procedure is one level deeper than the one around it, and
names that one. -/
inductive OpenAt : ProcedurePath → List Scope → Prop where
  | program {scope : Scope} (hname : scope.name = "global") (hlevel : scope.level = globalLevel)
      (henclosing : scope.enclosing = none) : OpenAt [] [scope]
  | procedure {d : ProcedureDeclaration} {path : ProcedurePath} {scope parent : Scope}
      {outer : List Scope} (houter : OpenAt path (parent :: outer)) (hname : scope.name = d.name)
      (hlevel : scope.level = parent.level + 1) (henclosing : scope.enclosing = some parent.name) :
      OpenAt (d :: path) (scope :: parent :: outer)

namespace OpenAt

variable {path : ProcedurePath} {scope grown : Scope} {outer chain : List Scope}

/-- The innermost scope may have grown. -/
theorem keeps (h : OpenAt path (scope :: outer)) (hgrown : scope.Keeps grown) :
    OpenAt path (grown :: outer) := by
  cases h with
  | program hname hlevel henclosing =>
      exact .program (hgrown.name.trans hname) (hgrown.level.trans hlevel)
        (hgrown.enclosing.trans henclosing)
  | procedure houter hname hlevel henclosing =>
      exact .procedure houter (hgrown.name.trans hname) (hgrown.level.trans hlevel)
        (hgrown.enclosing.trans henclosing)

theorem enter {c : Checker} (h : OpenAt path c.chain) (d : ProcedureDeclaration) :
    OpenAt (d :: path) (c.enter d.name).chain := .procedure h rfl rfl rfl

theorem leave {c : Checker} {d : ProcedureDeclaration} (h : OpenAt (d :: path) c.chain) :
    OpenAt path c.leave.chain := by
  obtain ⟨current, outer, occurrences, calls, events⟩ := c
  cases h with
  | procedure houter _ _ _ => exact houter

/-- **The levels** of the open scopes count up from the outermost one. -/
theorem levels (h : OpenAt path chain) :
    chain.reverse.map Scope.level = List.range' globalLevel chain.length := by
  induction h with
  | program _ hlevel _ =>
      rw [List.reverse_singleton, List.map_singleton, hlevel]
      rfl
  | @procedure d path scope parent outer _ _ hlevel _ ih =>
      have hparent : parent.level = globalLevel + outer.length := by
        rw [List.reverse_cons, List.map_append, List.length_cons, List.range'_concat] at ih
        have hlast := List.append_inj_right' ih rfl
        rw [Nat.one_mul] at hlast
        exact List.singleton_inj.1 hlast
      rw [List.reverse_cons, List.map_append, ih, List.length_cons (a := scope),
        List.range'_concat, List.map_singleton, hlevel, hparent, Nat.one_mul]
      rfl

end OpenAt

/-! ## Checkpoints -/

/-- A chore that stands inside of a path of procedures: what it declares and opens is declared
there. -/
def Chore.BelongsTo (tree : Program) (path : ProcedurePath) : Chore → Prop
  | .use _ => True
  | .declaration d => ∀ π ∈ d.postOrder path, π ∈ tree.procedures
  | .declare _ _ => True
  | .enter d _ => d :: path ∈ tree.procedures ∧
      ∀ π ∈ Declaration.postOrderAll (d :: path) d.block.declarations, π ∈ tree.procedures
  | .leave => False

/-- Chores that are left inside of a path of procedures.  Each that closes a scope leads out of
the innermost procedure. -/
inductive Outstanding (tree : Program) : ProcedurePath → List Chore → Prop where
  | finished : Outstanding tree [] []
  | next {path : ProcedurePath} {chore : Chore} {rest : List Chore}
      (hchore : chore.BelongsTo tree path) (hrest : Outstanding tree path rest) :
      Outstanding tree path (chore :: rest)
  | leave {d : ProcedureDeclaration} {path : ProcedurePath} {rest : List Chore}
      (hpath : d :: path ∈ tree.procedures) (hrest : Outstanding tree path rest) :
      Outstanding tree (d :: path) (.leave :: rest)

section Outstanding

variable {tree : Program} {path : ProcedurePath} {chores rest more : List Chore}

/-- More chores in the same procedure. -/
theorem Outstanding.append (hmore : ∀ chore ∈ more, chore.BelongsTo tree path)
    (h : Outstanding tree path rest) : Outstanding tree path (more ++ rest) := by
  induction more with
  | nil => exact h
  | cons chore others ih =>
      obtain ⟨hchore, hothers⟩ := List.forall_mem_cons.1 hmore
      exact .next hchore (ih hothers)

/-- Chores are left inside of procedures of the program only. -/
theorem Outstanding.mem_postOrder (h : Outstanding tree path chores) : path ∈ tree.postOrder := by
  induction h with
  | finished => exact List.mem_append_right _ List.mem_cons_self
  | next _ _ ih => exact ih
  | leave hpath _ _ => exact List.mem_append_left _ hpath

/-- The chores of a block stand where its declarations do. -/
theorem Block.belongsTo {b : Block}
    (hb : ∀ π ∈ Declaration.postOrderAll path b.declarations, π ∈ tree.procedures) :
    ∀ chore ∈ b.chores, chore.BelongsTo tree path := by
  intro chore hchore
  rcases List.mem_append.1 hchore with hchore | hchore
  · obtain ⟨d, hd, rfl⟩ := List.mem_map.1 hchore
    exact fun π hπ => hb π (mem_postOrderAll hd hπ)
  · obtain ⟨duty, -, rfl⟩ := List.mem_map.1 hchore
    trivial

/-- Parameters are declared inside of their procedure. -/
theorem Parameter.belongsTo (params : List Parameter) (formals : List TypedName) :
    ∀ chore ∈ Parameter.chores params formals, chore.BelongsTo tree path := by
  induction params generalizing formals with
  | nil => exact nofun
  | cons first rest ih =>
      cases formals with
      | nil => exact nofun
      | cons v more =>
          intro chore hchore
          rcases List.mem_cons.1 hchore with rfl | hchore
          · trivial
          · exact ih more chore hchore

end Outstanding

section Chores

variable {chore : Chore} {more : List Chore} {c d : Checker}

/-- **A chore** that neither opens nor closes a scope keeps the open ones. -/
theorem Chore.grows (henter : ∀ d formals, chore ≠ .enter d formals) (hleave : chore ≠ .leave) :
    Follows Checker.Grows chore.check := by
  cases chore with
  | use duty => exact upheld_grows.bind (upheld_grows.duty duty) fun _ => upheld_grows.pure []
  | declaration d =>
      cases d with
      | var name type position =>
          exact upheld_grows.bind (upheld_grows.typeName type) fun _ => upheld_grows.pure _
      | procedure name params declarations body position =>
          exact upheld_grows.bind (upheld_grows.heading params) fun _ => upheld_grows.pure _
  | declare symbol position =>
      exact upheld_grows.bind (upheld_grows.declare symbol position) fun _ => upheld_grows.pure []
  | enter d formals => exact absurd rfl (henter d formals)
  | leave => exact absurd rfl hleave

/-- What is left of a chore stands where the chore does, unless a scope was opened. -/
theorem Chore.belongsTo_of_check {tree : Program} {path : ProcedurePath}
    (hchore : chore.BelongsTo tree path) (henter : ∀ d formals, chore ≠ .enter d formals)
    (hcheck : chore.check c = .ok more d) : ∀ next ∈ more, next.BelongsTo tree path := by
  cases chore with
  | use duty =>
      obtain ⟨_, _, -, hmore⟩ := exists_of_bind_ok hcheck
      cases hmore
      exact nofun
  | declaration declaration =>
      cases declaration with
      | var name type position =>
          obtain ⟨_, _, -, hmore⟩ := exists_of_bind_ok hcheck
          cases hmore
          intro next hnext
          rw [List.mem_singleton.1 hnext]
          trivial
      | procedure name params declarations body position =>
          obtain ⟨_, _, -, hmore⟩ := exists_of_bind_ok hcheck
          cases hmore
          have hinside : ∀ π ∈ Declaration.postOrder path
              (.procedure name params declarations body position), π ∈ tree.procedures := hchore
          rw [Declaration.postOrder] at hinside
          obtain ⟨hdeclared, hown⟩ := List.forall_mem_append.1 hinside
          intro next hnext
          rcases List.mem_cons.1 hnext with rfl | hnext
          · trivial
          · rw [List.mem_singleton.1 hnext]
            exact ⟨hown _ List.mem_cons_self, hdeclared⟩
  | declare symbol position =>
      obtain ⟨_, _, -, hmore⟩ := exists_of_bind_ok hcheck
      cases hmore
      exact nofun
  | enter d formals => exact absurd rfl (henter d formals)
  | leave => exact hchore.elim

end Chores

namespace Checkpoint

variable {tree : Program} {p q : Checkpoint}

/-- What one step does to the open scopes: the innermost one may grow, the scope of a procedure
is opened, or the innermost one is closed. -/
inductive Move (p : Checkpoint) : Checkpoint → Prop where
  | grow {chore : Chore} {rest more : List Chore} {c : Checker} {fault : Option ScopeError}
      (hchores : p.chores = chore :: rest) (hchore : chore ≠ .leave) (hgrows : p.checker.Grows c)
      (hmore : ∀ (tree : Program) (path : ProcedurePath), chore.BelongsTo tree path →
        ∀ next ∈ more, next.BelongsTo tree path) :
      Move p ⟨c, more ++ rest, fault⟩
  | enter {d : ProcedureDeclaration} {formals : List TypedName} {rest : List Chore}
      (hchores : p.chores = .enter d formals :: rest) :
      Move p ⟨p.checker.enter d.name,
        Parameter.chores d.params formals ++ (d.block.chores ++ .leave :: rest), none⟩
  | leave {rest : List Chore} {fault : Option ScopeError} (hchores : p.chores = .leave :: rest) :
      Move p ⟨p.checker.leave, rest, fault⟩

/-- **Every step** is one of the three. -/
theorem move_of_step (h : p.Step q) : p.Move q := by
  cases h with
  | @perform chore rest more c _ hchores hcheck =>
      by_cases hleave : chore = .leave
      · subst hleave
        cases hcheck
        exact .leave hchores
      by_cases henter : ∃ d formals, chore = .enter d formals
      · obtain ⟨d, formals, rfl⟩ := henter
        cases hcheck
        simp only [List.append_assoc, List.singleton_append]
        exact .enter hchores
      have hother : ∀ d formals, chore ≠ .enter d formals :=
        fun d formals heq => henter ⟨d, formals, heq⟩
      have hgrows := Chore.grows hother hleave p.checker
      rw [hcheck] at hgrows
      exact .grow hchores hleave hgrows fun _ _ hchore =>
        Chore.belongsTo_of_check hchore hother hcheck
  | @fail chore rest e c _ hchores hcheck =>
      -- to open a scope or to close it cannot fail
      have hleave : chore ≠ .leave := by
        rintro rfl
        cases hcheck
      have henter : ∀ d formals, chore ≠ .enter d formals := by
        rintro d formals rfl
        cases hcheck
      have hgrows := Chore.grows henter hleave p.checker
      rw [hcheck] at hgrows
      show p.Move ⟨c, [] ++ rest, some e⟩
      exact .grow hchores hleave hgrows nofun
  | leave _ hchores => exact .leave hchores
  | @skip chore rest e _ hchores hchore =>
      show p.Move ⟨p.checker, [] ++ rest, some e⟩
      exact .grow hchores hchore (.of_chain_eq rfl) nofun

/-- The open scopes enclose what is left to be checked. -/
def Enclosed (tree : Program) (p : Checkpoint) : Prop :=
  ∃ path, OpenAt path p.checker.chain ∧ Outstanding tree path p.chores

theorem enclosed_start (tree : Program) : Enclosed tree (.start tree) := by
  refine ⟨[], .program rfl rfl rfl, ?_⟩
  have hfinished : Outstanding tree [] [] := .finished
  have hchores := hfinished.append (Block.belongsTo fun _ hπ => hπ)
  rwa [List.append_nil] at hchores

/-- **Every step** goes from scopes that enclose the chores to scopes that enclose them. -/
theorem enclosed_step (h : p.Enclosed tree) (hstep : p.Step q) : q.Enclosed tree := by
  obtain ⟨path, hopen, houtstanding⟩ := h
  cases move_of_step hstep with
  | grow hchores hleave hgrows hmore =>
      rw [hchores] at houtstanding
      refine ⟨path, ?_, ?_⟩
      · rw [Checker.chain, hgrows.outer]
        exact hopen.keeps hgrows.current
      · cases houtstanding with
        | next hchore hrest => exact hrest.append (hmore tree path hchore)
        | leave _ _ => exact absurd rfl hleave
  | @enter d formals rest hchores =>
      rw [hchores] at houtstanding
      cases houtstanding with
      | next hchore hrest =>
          obtain ⟨hpath, hinside⟩ := hchore
          refine ⟨d :: path, hopen.enter d, ?_⟩
          exact .append (Parameter.belongsTo d.params formals)
            (.append (Block.belongsTo hinside) (.leave hpath hrest))
  | leave hchores =>
      rw [hchores] at houtstanding
      cases houtstanding with
      | next hchore _ => exact hchore.elim
      | leave _ hrest => exact ⟨_, hopen.leave, hrest⟩

/-- At all checkpoints of a program the open scopes enclose what is left to be checked. -/
theorem enclosed_of_proceeds (h : Proceeds (.start tree) p) : p.Enclosed tree :=
  h.preserves (fun _ _ => enclosed_step) (enclosed_start tree)

/-! ## Scopes that stay open -/

/-- A scope that stays open in one step is at the same depth, and keeps its symbols. -/
theorem Move.getElem?_reverse (h : p.Move q) {depth : Nat} {scope : Scope}
    (hscope : p.checker.chain.reverse[depth]? = some scope)
    (hopen : depth < q.checker.chain.length) :
    ∃ grown, q.checker.chain.reverse[depth]? = some grown ∧ scope.Keeps grown := by
  obtain ⟨⟨current, outer, occurrences, calls, events⟩, chores, fault⟩ := p
  cases h with
  | @grow _ _ _ c _ _ _ hgrows _ =>
      obtain ⟨grown, around, _, _, _⟩ := c
      obtain ⟨hcurrent, houter⟩ := hgrows
      dsimp only at hcurrent houter
      simp only [Checker.chain, List.reverse_cons, houter] at hscope ⊢
      rcases Nat.lt_or_ge depth outer.reverse.length with hdepth | hdepth
      · rw [List.getElem?_append_left hdepth] at hscope ⊢
        exact ⟨scope, hscope, .refl scope⟩
      · rw [List.getElem?_append_right hdepth, List.getElem?_singleton] at hscope ⊢
        split at hscope
        next hzero =>
          cases hscope
          exact ⟨grown, if_pos hzero, hcurrent⟩
        next => cases hscope
  | enter _ =>
      refine ⟨scope, ?_, .refl scope⟩
      simp only [Checker.enter, Checker.chain] at hscope ⊢
      have hdepth := (List.getElem?_eq_some_iff.1 hscope).1
      rw [List.reverse_cons, List.getElem?_append_left hdepth]
      exact hscope
  | leave _ =>
      refine ⟨scope, ?_, .refl scope⟩
      cases outer with
      | nil => exact hscope
      | cons parent rest =>
          simp only [Checker.leave, Checker.chain] at hscope hopen ⊢
          rw [List.reverse_cons, List.getElem?_append_left (by rwa [List.length_reverse])] at hscope
          exact hscope

end Checkpoint

/-- **A scope that stays open** is at the same depth and keeps its symbols, however many steps
are taken. -/
theorem Proceeds.getElem?_reverse {p q : Checkpoint} (h : Proceeds p q) {depth : Nat}
    {scope : Scope} (hscope : p.checker.chain.reverse[depth]? = some scope)
    (hopen : ∀ r, Proceeds p r → Proceeds r q → depth < r.checker.chain.length) :
    ∃ grown, q.checker.chain.reverse[depth]? = some grown ∧ scope.Keeps grown := by
  induction h generalizing scope with
  | refl _ => exact ⟨scope, hscope, .refl scope⟩
  | step hnext hrest ih =>
      obtain ⟨grown, hgrown, hkeeps⟩ :=
        (Checkpoint.move_of_step (Checkpoint.step_of_next hnext)).getElem?_reverse hscope
          (hopen _ (.single hnext) hrest)
      obtain ⟨later, hlater, hmore⟩ :=
        ih hgrown fun r hr hrest => hopen r (.step hnext hr) hrest
      exact ⟨later, hlater, hkeeps.trans hmore⟩

/-! ## The global scope at the end -/

/-- Among bindings with different names each is found under its name. -/
theorem find?_name_of_nodup {bindings : List Binding}
    (hnames : (bindings.map Binding.name).Nodup) {b : Binding} (hb : b ∈ bindings) :
    bindings.find? (·.name == b.name) = some b := by
  obtain ⟨found, hfound⟩ : ∃ found, bindings.find? (·.name == b.name) = some found :=
    Option.isSome_iff_exists.1 (List.find?_isSome.2 ⟨b, hb, beq_self_eq_true _⟩)
  have hname := List.find?_some hfound
  rw [hfound, List.inj_on_of_nodup_map hnames (List.mem_of_find?_eq_some hfound) hb
    (eq_of_beq hname)]

/-- **The global scope at the end** holds the builtin types and what the block of the program
declares, all of it and nothing else. -/
theorem lookup_global_of_analyze {tree : Program} {a : Analysis} (h : analyze tree = .ok a) :
    (∀ d ∈ tree.block.declarations, (d.binding.symbol? globalLevel).isSome) ∧
    ∀ name symbol, a.global.lookup name = some symbol ↔
      (∃ t : BuiltinType, t.name = name ∧ symbol = .type t) ∨
      ∃ d ∈ tree.block.declarations,
        d.binding.name = name ∧ d.binding.symbol? globalLevel = some symbol := by
  have hobeys := obeys_of_analyze h
  have hnames := nodup_names_declareAll (Γ := .initial)
    (fun s hs => hobeys s (List.mem_append_left _ hs)) (by decide)
  have hglobal : a.global.Holds globalLevel (Context.initial.behind tree.block).bindings := by
    have hblock := checks_block .initial tree.block .start represents_start
    unfold analyze Program.check at h
    cases hcheck : tree.block.check .start with
    | error e d =>
        rw [hcheck] at h
        cases h
    | ok value d =>
        rw [hcheck] at h hblock
        cases h
        have hholds := hblock.2.represents.holds
        rwa [Context.level_eq, Context.behind, Context.path_declareAll] at hholds
  -- what is bound in the scope of the program has its symbol in the table
  have hbound : ∀ b ∈ (Context.initial.behind tree.block).bindings,
      ∃ symbol, a.global.lookup b.name = some symbol ∧ b.symbol? globalLevel = some symbol := by
    intro b hb
    have hfound := find?_name_of_nodup hnames hb
    rcases hglobal.cases b.name with ⟨hnone, -⟩ | ⟨c, symbol, hc, hlookup, hsymbol⟩
    · rw [Context.behind, hfound] at hnone
      cases hnone
    · rw [Context.behind, hfound] at hc
      cases hc
      exact ⟨symbol, hlookup, hsymbol⟩
  have hmem : ∀ b, b ∈ (Context.initial.behind tree.block).bindings ↔
      (∃ d ∈ tree.block.declarations, d.binding = b) ∨ ∃ t, b = .type t := by
    intro b
    rw [Context.behind, Context.bindings_declareAll, List.mem_append, List.mem_reverse,
      List.mem_map]
    refine or_congr_right ⟨fun hb => ?_, ?_⟩
    · rcases List.mem_cons.1 hb with rfl | hb
      · exact ⟨_, rfl⟩
      · exact ⟨_, List.mem_singleton.1 hb⟩
    · rintro ⟨t, rfl⟩
      cases t
      · exact List.mem_cons_of_mem _ List.mem_cons_self
      · exact List.mem_cons_self
  refine ⟨fun d hd => ?_, fun name symbol => ⟨fun hlookup => ?_, ?_⟩⟩
  · obtain ⟨symbol, -, hsymbol⟩ := hbound _ ((hmem _).2 (Or.inl ⟨d, hd, rfl⟩))
    exact Option.isSome_of_mem hsymbol
  · rcases hglobal.cases name with ⟨-, hnone⟩ | ⟨b, found, hb, hfound, hsymbol⟩
    · rw [hnone] at hlookup
      cases hlookup
    · rw [hfound] at hlookup
      cases hlookup
      have hname := List.find?_some hb
      obtain rfl : b.name = name := eq_of_beq hname
      rcases (hmem b).1 (List.mem_of_find?_eq_some hb) with ⟨d, hd, rfl⟩ | ⟨t, rfl⟩
      · exact Or.inr ⟨d, hd, rfl, hsymbol⟩
      · cases hsymbol
        exact Or.inl ⟨t, rfl, rfl⟩
  · rintro (⟨t, rfl, rfl⟩ | ⟨d, hd, rfl, hsymbol⟩)
    · obtain ⟨found, hfound, htype⟩ := hbound _ ((hmem _).2 (Or.inr ⟨t, rfl⟩))
      cases htype
      exact hfound
    · obtain ⟨found, hfound, hdeclared⟩ := hbound _ ((hmem _).2 (Or.inl ⟨d, hd, rfl⟩))
      rw [hsymbol] at hdeclared
      cases hdeclared
      exact hfound

/-! ## The chain through a whole check -/

/-- **The chain of scopes is kept in order.**  The check of a program goes through its
checkpoints.  At each of them the open scopes are those of a procedure of the program and of the
procedures around it, or only the global one; each but the global one names the scope around it,
and from the outermost one to the current one they have the levels 1, 2 and so on.  A scope that
stays open from one checkpoint to a later one keeps all its symbols.  The visit of a procedure,
in whatever state of the checker, gives the chain of scopes back, whether it succeeds or fails:
if the types of the parameters are resolved and the name is free, then the current scope has
gained the symbol of the procedure, and otherwise the visit fails and nothing has changed.  At
the end of a check that succeeds the global scope holds the builtin types and what the block of
the program declares. -/
theorem chain_disciplined (tree : Program) :
    Proceeds (.start tree) (.behind (tree.block.check .start) []) ∧
    (∀ p, Proceeds (.start tree) p →
      (∃ path ∈ tree.postOrder, OpenAt path p.checker.chain) ∧
      (p.checker.outer.reverse ++ [p.checker.current]).map Scope.level
        = List.range' 1 (p.checker.outer.length + 1) ∧
      ∀ q, Proceeds p q → ∀ depth scope, p.checker.chain.reverse[depth]? = some scope →
        (∀ r, Proceeds p r → Proceeds r q → depth < r.checker.chain.length) →
        ∃ grown, q.checker.chain.reverse[depth]? = some grown ∧ scope.Keeps grown) ∧
    (∀ (c : Checker) (name : String) (params : List Parameter) (declarations : List Declaration)
        (body : List Statement) (position : Position),
      (∀ formals, ResolveTo c.chain params formals → c.current.lookup name = none →
        ∃ grown, c.current.Gains
            (.procedure ⟨name, formals, c.current.level, ⟨declarations, body⟩⟩) grown ∧
          ((Declaration.procedure name params declarations body position).check.after c).chain
            = grown :: c.outer) ∧
      ((∀ formals, ¬ResolveTo c.chain params formals) ∨ c.current.lookup name ≠ none →
        ∃ e d, (Declaration.procedure name params declarations body position).check c
            = .error e d ∧ d.chain = c.chain)) ∧
    ∀ a, analyze tree = .ok a →
      (∀ d ∈ tree.block.declarations, (d.binding.symbol? globalLevel).isSome) ∧
      ∀ name symbol, a.global.lookup name = some symbol ↔
        (∃ t : BuiltinType, t.name = name ∧ symbol = .type t) ∨
        ∃ d ∈ tree.block.declarations,
          d.binding.name = name ∧ d.binding.symbol? globalLevel = some symbol := by
  refine ⟨proceeds_check tree, fun p hp => ?_, fun c name params declarations body position =>
    ⟨fun formals => chain_procedure_of_declared, chain_procedure_of_refused⟩,
    fun a => lookup_global_of_analyze⟩
  obtain ⟨path, hopen, houtstanding⟩ := Checkpoint.enclosed_of_proceeds hp
  refine ⟨⟨path, houtstanding.mem_postOrder, hopen⟩, ?_, fun q hq depth scope hscope hdepth =>
    hq.getElem?_reverse hscope hdepth⟩
  have hlevels := hopen.levels
  rwa [Checker.chain, List.reverse_cons] at hlevels

end MiniPascal
