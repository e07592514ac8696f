/-
# What all checks have in common

Names are checked in a few steps only: a name is looked up, a symbol is declared, a node is
resolved, and the scope of a procedure is opened and closed again.  So a relation between states
of the checker that these steps uphold is one between the states before and after every check,
whether it succeeds or fails.

* `bind_of_ok`, `bind_of_error`, `exists_of_bind_ok` : actions in turn;
* `Follows.bind` : actions that follow a transitive relation follow it in turn;
* `Upheld.statement` : what is upheld is so by the check of a statement;
* `Upheld.declaration` : and by the check of a declaration;
* `Upheld.block` : so it is by the check of a block.
-/
import MiniPascal.Proofs.Scoping.Checkpoints
import MiniPascal.Proofs.Scoping.PostOrder

set_option autoImplicit false

namespace MiniPascal

open Check

/-! ## Actions -/

/-- The states before and after an action are related, whether it succeeds or fails. -/
def Follows {ε σ α : Type} (R : σ → σ → Prop) (act : EStateM ε σ α) : Prop :=
  ∀ s, match act s with
    | .ok _ t => R s t
    | .error _ t => R s t

section Actions

variable {ε σ α β : Type} {m : EStateM ε σ α} {f : α → EStateM ε σ β} {s t : σ}

theorem bind_of_ok {x : α} (h : m s = .ok x t) : (m >>= f) s = f x t := by
  simp only [bind, EStateM.bind, h]

theorem bind_of_error {e : ε} (h : m s = .error e t) : (m >>= f) s = .error e t := by
  simp only [bind, EStateM.bind, h]

/-- Where actions in turn succeed, the first one has succeeded and the second one has gone on. -/
theorem exists_of_bind_ok {y : β} (h : (m >>= f) s = .ok y t) :
    ∃ x u, m s = .ok x u ∧ f x u = .ok y t := by
  cases hm : m s with
  | ok x u =>
      rw [bind_of_ok hm] at h
      exact ⟨x, u, rfl, h⟩
  | error e u =>
      rw [bind_of_error hm] at h
      cases h

/-- Actions in turn follow a transitive relation if each of them does. -/
theorem Follows.bind {R : σ → σ → Prop} (htrans : ∀ {s t u}, R s t → R t u → R s u)
    (hm : Follows R m) (hf : ∀ x, Follows R (f x)) : Follows R (m >>= f) := by
  intro s
  have hfirst := hm s
  cases hms : m s with
  | error e t =>
      rw [hms] at hfirst
      rw [bind_of_error hms]
      exact hfirst
  | ok x t =>
      rw [hms] at hfirst
      have hrest := hf x t
      rw [bind_of_ok hms]
      cases hft : f x t with
      | ok y u =>
          rw [hft] at hrest
          exact htrans hfirst hrest
      | error e u =>
          rw [hft] at hrest
          exact htrans hfirst hrest

end Actions

/-! ## Steps of a check -/

/-- A relation that the steps of a check uphold.  No other scopes are opened than those of
procedures of which `opens` holds. -/
structure Upheld (opens : ProcedureDeclaration → Prop) (R : Checker → Checker → Prop) : Prop where
  refl : ∀ c, R c c
  trans : ∀ {c d e}, R c d → R d e → R c e
  lookup : ∀ name c,
    R c (c.report ((consulted name c.chain).map fun scope => .lookedUp name scope.name))
  inserting : ∀ symbol c, R c (c.report [.inserted symbol c.current.name])
  insert : ∀ {symbol c grown}, c.current.insert? symbol = some grown →
    R c { c with current := grown }
  resolveVariable : ∀ id level c, R c { c with occurrences := (id, level) :: c.occurrences }
  resolveCall : ∀ id procedure c, R c { c with calls := (id, procedure) :: c.calls }
  inScope : ∀ {p c d}, opens p → R (c.enter p.name) d → R c d.leave

namespace Upheld

variable {opens : ProcedureDeclaration → Prop} {R : Checker → Checker → Prop} {α β : Type}

section Steps

variable {m : Check α} {f : α → Check β}

theorem bind (h : Upheld opens R) (hm : Follows R m) (hf : ∀ x, Follows R (f x)) :
    Follows R (m >>= f) := Follows.bind h.trans hm hf

theorem pure (h : Upheld opens R) (x : α) : Follows R (Pure.pure x : Check α) := fun c => h.refl c

theorem fail (h : Upheld opens R) (fault : ScopeFault) (position : Position) :
    Follows R (Check.fail fault position : Check α) := fun c => h.refl c

theorem lookup_bind (h : Upheld opens R) (name : String)
    {f : Option (Symbol × Nat) → Check β} (hf : ∀ found, Follows R (f found)) :
    Follows R (Check.lookup name >>= f) := h.bind (fun c => h.lookup name c) hf

/-- A symbol is declared, or its name is taken. -/
theorem declare (h : Upheld opens R) (symbol : Symbol) (position : Position) :
    Follows R (Check.declare symbol position) := by
  intro c
  unfold Check.declare
  have hreport := h.inserting symbol c
  dsimp only
  cases hgrown : (c.report [.inserted symbol c.current.name]).current.insert? symbol with
  | some grown =>
      dsimp only
      exact h.trans hreport (h.insert hgrown)
  | none =>
      dsimp only
      exact hreport

/-- **The check inside a scope** is closed off, whether it succeeds or fails. -/
theorem within (h : Upheld opens R) {p : ProcedureDeclaration} (hp : opens p)
    (hm : Follows R m) : Follows R (Check.inScope p.name m) := by
  intro c
  have hinside := hm (c.enter p.name)
  unfold Check.inScope
  cases hbody : m (c.enter p.name) with
  | ok x d =>
      rw [hbody] at hinside
      exact h.inScope hp hinside
  | error e d =>
      rw [hbody] at hinside
      exact h.inScope hp hinside

end Steps

/-! ## Statements -/

theorem occurrence (h : Upheld opens R) (v : Variable) : Follows R v.check := by
  refine h.lookup_bind v.name fun found => ?_
  split
  · exact fun c => h.resolveVariable _ _ c
  · exact h.fail _ _
  · exact h.fail _ _

theorem expr (h : Upheld opens R) (e : Expr) : Follows R e.check := by
  induction e with
  | literal value position => exact h.pure ()
  | occurrence v => exact h.occurrence v
  | signed sign operand position ih => exact ih
  | binary op left right position ihleft ihright => exact h.bind ihleft fun _ => ihright

theorem exprs (h : Upheld opens R) (es : List Expr) : Follows R (Expr.checkAll es) := by
  induction es with
  | nil => exact h.pure ()
  | cons first rest ih => exact h.bind (h.expr first) fun _ => ih

/-- What a call names. -/
theorem resolve (h : Upheld opens R) (c : Call) : Follows R c.resolve := by
  refine h.lookup_bind c.name fun found => ?_
  split
  · split
    · exact fun s => h.resolveCall _ _ s
    · exact h.fail _ _
  · exact h.fail _ _
  · exact h.fail _ _

theorem call (h : Upheld opens R) (c : Call) : Follows R c.check := by
  rw [c.check_eq]
  exact h.bind (h.exprs c.arguments) fun _ => h.resolve c

theorem duty (h : Upheld opens R) (duty : Duty) : Follows R duty.check := by
  cases duty with
  | fresh name position => exact h.pure ()
  | typed type => exact h.pure ()
  | occurrence v => exact h.occurrence v
  | call c => exact h.resolve c

mutual

/-- **Statements.** -/
theorem statement (h : Upheld opens R) (st : Statement) : Follows R st.check := by
  cases st with
  | compound body =>
      rw [Statement.check]
      exact h.statements body
  | assign target value position =>
      rw [Statement.check]
      exact h.bind (h.expr value) fun _ => h.occurrence target
  | call c =>
      rw [Statement.check]
      exact h.call c
  | empty =>
      rw [Statement.check]
      exact h.pure ()

/-- Statements in turn. -/
theorem statements (h : Upheld opens R) (body : List Statement) :
    Follows R (Statement.checkAll body) := by
  cases body with
  | nil =>
      rw [Statement.checkAll]
      exact h.pure ()
  | cons first rest =>
      rw [Statement.checkAll]
      exact h.bind (h.statement first) fun _ => h.statements rest

end

/-! ## Declarations -/

theorem typeName (h : Upheld opens R) (type : TypeName) : Follows R type.resolve := by
  refine h.lookup_bind type.name fun found => ?_
  split
  · exact h.pure _
  · exact h.fail _ _

theorem parameterTypes (h : Upheld opens R) (params : List Parameter) :
    Follows R (resolveParameters params) := by
  induction params with
  | nil => exact h.pure []
  | cons first rest ih =>
      exact h.bind (h.typeName first.type) fun _ => h.bind ih fun _ => h.pure _

theorem heading (h : Upheld opens R) (params : List Parameter) :
    Follows R (resolveHeading params) :=
  h.bind (h.parameterTypes params) fun _ => h.bind (fun c => h.refl c) fun _ => h.pure _

/-- Parameters, declared in turn. -/
theorem parameters (h : Upheld opens R) (params : List Parameter) (formals : List TypedName) :
    Follows R (declareParameters params formals) := by
  induction params generalizing formals with
  | nil => exact h.pure ()
  | cons first rest ih =>
      cases formals with
      | nil => exact h.pure ()
      | cons v more => exact h.bind (h.declare _ _) fun _ => ih more

mutual

/-- **Declarations**, if all scopes may be opened that stand in them. -/
theorem declaration (h : Upheld opens R) (d : Declaration) {path : ProcedurePath}
    (hopens : ∀ p outer, p :: outer ∈ d.postOrder path → opens p) : Follows R d.check := by
  cases d with
  | var name type position =>
      rw [Declaration.check]
      exact h.bind (h.typeName type) fun _ => h.declare _ _
  | procedure name params declarations body position =>
      rw [Declaration.postOrder] at hopens
      rw [Declaration.check]
      have hown : opens ⟨name, params, ⟨declarations, body⟩, position⟩ :=
        hopens _ path (List.mem_append_right _ (List.mem_singleton_self _))
      refine h.bind (h.parameterTypes params) fun formals =>
        h.bind (fun c => h.refl c) fun level => h.bind (h.declare _ _) fun _ =>
          h.within hown (h.bind (h.parameters params formals) fun _ => h.bind ?_ fun _ =>
            h.statements body)
      exact h.declarations declarations fun p outer hmem =>
        hopens p outer (List.mem_append_left _ hmem)

/-- Declarations in turn. -/
theorem declarations (h : Upheld opens R) (ds : List Declaration) {path : ProcedurePath}
    (hopens : ∀ p outer, p :: outer ∈ Declaration.postOrderAll path ds → opens p) :
    Follows R (Declaration.checkAll ds) := by
  cases ds with
  | nil =>
      rw [Declaration.checkAll]
      exact h.pure ()
  | cons first rest =>
      rw [Declaration.postOrderAll] at hopens
      rw [Declaration.checkAll]
      exact h.bind (h.declaration first fun p outer hmem =>
        hopens p outer (List.mem_append_left _ hmem)) fun _ =>
          h.declarations rest fun p outer hmem => hopens p outer (List.mem_append_right _ hmem)

end

/-- **The block of a program**, if the scopes of its procedures may be opened. -/
theorem block (h : Upheld opens R) {tree : Program}
    (hopens : ∀ p outer, p :: outer ∈ tree.procedures → opens p) : Follows R tree.block.check :=
  h.bind (h.declarations tree.block.declarations hopens) fun _ => h.statements tree.block.body

end Upheld

end MiniPascal
