/-
# The checkpoints of a check

A check of a program is laid out as a sequence of checkpoints.  A checkpoint is a state of the
checker together with the chores that are left: to check a use or a declaration of a name, to
declare a symbol, to open the scope of a procedure or to close it.  One step does one chore; a
fault stays, and from then on scopes are only closed.

* `Checkpoint.next` : the step from a checkpoint to the next one;
* `performs_declaration` : the steps that a declaration takes;
* `proceeds_check` : the steps from the start of a program end where its check does;
* `exists_fails_of_analyze` : a check that fails comes to a chore that fails with its error.
-/
import MiniPascal.Proofs.Scoping

set_option autoImplicit false

namespace MiniPascal

open Check

/-! ## Chores -/

/-- A step of a check that is left to do. -/
inductive Chore where
  | use (duty : Duty)
  | declaration (d : Declaration)
  | declare (symbol : Symbol) (position : Position)
  | enter (d : ProcedureDeclaration) (formals : List TypedName)
  | leave

/-- Check what a call names, and the number of its arguments. -/
def Call.resolve (c : Call) : Check Unit := do
  match ← lookup c.name with
  | some (.procedure p, _) =>
    if p.params.length = c.arguments.length then resolveCall c.id p
    else fail (.argumentCountMismatch c.name p.params.length c.arguments.length) c.position
  | some _ => fail (.notAProcedure c.name) c.position
  | none => fail (.undefinedIdentifier c.name) c.position

/-- Check a duty in a statement; statements declare nothing. -/
def Duty.check : Duty → Check Unit
  | .occurrence v => v.check
  | .call c => c.resolve
  | .typed _ => pure ()
  | .fresh _ _ => pure ()

/-- The chores of statements. -/
def Statement.chores (body : List Statement) : List Chore :=
  (Statement.dutiesAll body).map .use

/-- The chores of a block: its declarations, then its body. -/
def Block.chores (b : Block) : List Chore :=
  b.declarations.map .declaration ++ Statement.chores b.body

/-- The chores of parameters: each is declared at its own place. -/
def Parameter.chores (params : List Parameter) (formals : List TypedName) : List Chore :=
  List.zipWith (fun p v => .declare (.var v) p.position) params formals

/-- Resolve the parameter types of a procedure, and find out its level. -/
def resolveHeading (params : List Parameter) : Check (List TypedName × Nat) := do
  let formals ← resolveParameters params
  let level ← currentLevel
  return (formals, level)

/-- Open a scope. -/
def Check.enter (name : String) : Check Unit := fun c => .ok () (c.enter name)

/-- Close a scope. -/
def Check.leave : Check Unit := fun c => .ok () c.leave

/-- Do a chore; the answer is what it leaves to be done next. -/
def Chore.check : Chore → Check (List Chore)
  | .use duty => do
    duty.check
    return []
  | .declaration (.var name type position) => do
    let resolved ← type.resolve
    return [.declare (.var ⟨name, resolved⟩) position]
  | .declaration (.procedure name params declarations body position) => do
    let heading ← resolveHeading params
    return [.declare (.procedure ⟨name, heading.1, heading.2, ⟨declarations, body⟩⟩) position,
      .enter ⟨name, params, ⟨declarations, body⟩, position⟩ heading.1]
  | .declare symbol position => do
    Check.declare symbol position
    return []
  | .enter d formals => do
    Check.enter d.name
    return Parameter.chores d.params formals ++ (d.block.chores ++ [.leave])
  | .leave => do
    Check.leave
    return []

/-! ## Checkpoints -/

/-- The state of the checker, the chores that are left, and the fault that is ending the
check. -/
structure Checkpoint where
  checker : Checker
  chores : List Chore
  fault : Option ScopeError

namespace Checkpoint

/-- The start of a program. -/
def start (tree : Program) : Checkpoint := ⟨.start, tree.block.chores, none⟩

/-- Do a chore. -/
def perform (p : Checkpoint) (chore : Chore) (rest : List Chore) : Checkpoint :=
  match chore.check p.checker with
  | .ok more c => ⟨c, more ++ rest, none⟩
  | .error e c => ⟨c, rest, some e⟩

/-- The next checkpoint, unless the check is over.  Behind a fault all chores are passed over
but those that close a scope. -/
def next (p : Checkpoint) : Option Checkpoint :=
  match p.fault, p.chores with
  | _, [] => none
  | none, chore :: rest => some (p.perform chore rest)
  | some e, .leave :: rest => some ⟨p.checker.leave, rest, some e⟩
  | some e, _ :: rest => some ⟨p.checker, rest, some e⟩

/-- The next chore fails. -/
def Fails (p : Checkpoint) (e : ScopeError) : Prop :=
  p.fault = none ∧ ∃ chore rest c, p.chores = chore :: rest ∧ chore.check p.checker = .error e c

/-- What one step can do: a chore is done or fails, or behind a fault a scope is closed or a
chore is passed over. -/
inductive Step (p : Checkpoint) : Checkpoint → Prop where
  | perform {chore : Chore} {rest more : List Chore} {c : Checker} (hfault : p.fault = none)
      (hchores : p.chores = chore :: rest) (hcheck : chore.check p.checker = .ok more c) :
      Step p ⟨c, more ++ rest, none⟩
  | fail {chore : Chore} {rest : List Chore} {e : ScopeError} {c : Checker}
      (hfault : p.fault = none) (hchores : p.chores = chore :: rest)
      (hcheck : chore.check p.checker = .error e c) : Step p ⟨c, rest, some e⟩
  | leave {rest : List Chore} {e : ScopeError} (hfault : p.fault = some e)
      (hchores : p.chores = .leave :: rest) : Step p ⟨p.checker.leave, rest, some e⟩
  | skip {chore : Chore} {rest : List Chore} {e : ScopeError} (hfault : p.fault = some e)
      (hchores : p.chores = chore :: rest) (hchore : chore ≠ .leave) :
      Step p ⟨p.checker, rest, some e⟩

/-- **The next checkpoint** is what one of the steps leads to. -/
theorem step_of_next {p q : Checkpoint} (h : p.next = some q) : p.Step q := by
  unfold next at h
  split at h
  · cases h
  next chore rest hfault hchores =>
    cases h
    unfold perform
    split
    next more c hcheck => exact .perform hfault hchores hcheck
    next e c hcheck => exact .fail hfault hchores hcheck
  next e rest hfault hchores =>
    cases h
    exact .leave hfault hchores
  next e chore rest hother hfault hchores =>
    cases h
    exact .skip hfault hchores hother

end Checkpoint

/-- One checkpoint is followed by another one after any number of steps. -/
inductive Proceeds : Checkpoint → Checkpoint → Prop where
  | refl (p : Checkpoint) : Proceeds p p
  | step {p q r : Checkpoint} (h : p.next = some q) (hrest : Proceeds q r) : Proceeds p r

namespace Proceeds

variable {p q r : Checkpoint}

theorem single (h : p.next = some q) : Proceeds p q := .step h (.refl q)

theorem trans (h : Proceeds p q) (hrest : Proceeds q r) : Proceeds p r := by
  induction h with
  | refl _ => exact hrest
  | step hnext _ ih => exact .step hnext (ih hrest)

/-- **What every step preserves** holds at all checkpoints that follow. -/
theorem preserves {P : Checkpoint → Prop} (hstep : ∀ p q, P p → p.Step q → P q)
    (h : Proceeds p q) (hp : P p) : P q := by
  induction h with
  | refl _ => exact hp
  | step hnext _ ih => exact ih (hstep _ _ hp (Checkpoint.step_of_next hnext))

/-- A fault stays. -/
theorem fault_eq {e : ScopeError} (h : Proceeds p q) (hp : p.fault = some e) :
    q.fault = some e := by
  refine h.preserves (P := fun p => p.fault = some e) (fun p q hp hstep => ?_) hp
  cases hstep with
  | perform hfault _ _ => exact absurd (hp.symm.trans hfault) nofun
  | fail hfault _ _ => exact absurd (hp.symm.trans hfault) nofun
  | leave hfault _ => exact hfault.symm.trans hp
  | skip hfault _ _ => exact hfault.symm.trans hp

/-- **A fault has arisen** from a chore that failed with it. -/
theorem exists_fails {e : ScopeError} (h : Proceeds p q) (hp : p.fault = none)
    (hq : q.fault = some e) : ∃ r, Proceeds p r ∧ r.Fails e := by
  induction h with
  | refl p => exact absurd (hp.symm.trans hq) nofun
  | @step p q r hnext hrest ih =>
      cases hfault : q.fault with
      | none =>
          obtain ⟨s, hs, hfails⟩ := ih hfault hq
          exact ⟨s, .step hnext hs, hfails⟩
      | some e' =>
          -- the first checkpoint with a fault has it from the step before
          obtain rfl : e' = e := Option.some.inj ((fault_eq hrest hfault).symm.trans hq)
          refine ⟨p, .refl p, hp, ?_⟩
          cases Checkpoint.step_of_next hnext with
          | perform _ _ _ => cases hfault
          | fail _ hchores hcheck =>
              cases hfault
              exact ⟨_, _, _, hchores, hcheck⟩
          | leave hfault' _ => exact absurd (hp.symm.trans hfault') nofun
          | skip hfault' _ _ => exact absurd (hp.symm.trans hfault') nofun

end Proceeds

/-! ## Checks and their steps -/

/-- Where a check ends, with some chores left. -/
def Checkpoint.behind {α : Type} (answer : EStateM.Result ScopeError Checker α)
    (rest : List Chore) : Checkpoint :=
  match answer with
  | .ok _ c => ⟨c, rest, none⟩
  | .error e c => ⟨c, rest, some e⟩

/-- The steps through some chores end where a check does. -/
def Performs (check : Check Unit) (chores : List Chore) : Prop :=
  ∀ c rest, Proceeds ⟨c, chores ++ rest, none⟩ (.behind (check c) rest)

/-- Behind a fault, chores that close no scope are passed over. -/
theorem proceeds_skip {chores : List Chore} (hchores : .leave ∉ chores) (c : Checker)
    (rest : List Chore) (e : ScopeError) :
    Proceeds ⟨c, chores ++ rest, some e⟩ ⟨c, rest, some e⟩ := by
  induction chores with
  | nil => exact .refl _
  | cons chore others ih =>
      refine .step ?_ (ih fun hmem => hchores (List.mem_cons_of_mem _ hmem))
      cases chore with
      | leave => exact absurd List.mem_cons_self hchores
      | _ => rfl

section Performs

variable {α : Type} {m n : Check Unit} {chores more : List Chore}

theorem performs_pure : Performs (pure ()) [] := fun _ _ => .refl _

/-- **Checks in turn** take the steps of both. -/
theorem performs_append (hm : Performs m chores) (hn : Performs n more)
    (hmore : .leave ∉ more) : Performs (do m; n) (chores ++ more) := by
  intro c rest
  have hfirst := hm c (more ++ rest)
  rw [List.append_assoc]
  show Proceeds _ (.behind (EStateM.bind m (fun _ => n) c) rest)
  unfold EStateM.bind
  cases hcheck : m c with
  | ok value d =>
      rw [hcheck] at hfirst
      exact hfirst.trans (hn d rest)
  | error e d =>
      rw [hcheck] at hfirst
      exact hfirst.trans (proceeds_skip hmore d rest e)

/-- **A chore** that leaves others takes one step and theirs. -/
theorem performs_chore {chore : Chore} {m : Check α} {f : α → Check Unit} {g : α → List Chore}
    (hchore : chore.check = do return g (← m)) (hf : ∀ x, Performs (f x) (g x)) :
    Performs (do f (← m)) [chore] := by
  intro c rest
  have hnext : Checkpoint.next ⟨c, chore :: rest, none⟩
      = some (Checkpoint.perform ⟨c, chore :: rest, none⟩ chore rest) := rfl
  unfold Checkpoint.perform at hnext
  rw [hchore] at hnext
  simp only [bind, EStateM.bind] at hnext ⊢
  cases hcheck : m c with
  | ok x d =>
      rw [hcheck] at hnext
      exact .step hnext (hf x d rest)
  | error e d =>
      rw [hcheck] at hnext
      exact .single hnext

/-- A check that is one chore takes one step. -/
theorem performs_single {chore : Chore} (hchore : chore.check = do m; return []) :
    Performs m [chore] := by
  have hsteps := performs_chore hchore fun _ => performs_pure
  have hsame : (do m; pure ()) = m := by
    funext c
    simp only [bind, EStateM.bind]
    cases m c <;> rfl
  rwa [hsame] at hsteps

/-! ## Statements -/

/-- The check of a call ends with what the call names. -/
theorem Call.check_eq (c : Call) :
    c.check = (do Expr.checkAll c.arguments; c.resolve) := rfl

theorem leave_not_mem_use (duties : List Duty) : .leave ∉ duties.map Chore.use := by
  intro hmem
  obtain ⟨_, _, heq⟩ := List.mem_map.1 hmem
  cases heq

theorem performs_use (duty : Duty) : Performs duty.check [.use duty] := performs_single rfl

theorem performs_duties {duties others : List Duty} (hm : Performs m (duties.map .use))
    (hn : Performs n (others.map .use)) : Performs (do m; n) ((duties ++ others).map .use) := by
  rw [List.map_append]
  exact performs_append hm hn (leave_not_mem_use others)

theorem performs_expr (e : Expr) : Performs e.check (e.duties.map .use) := by
  induction e with
  | literal value position => exact performs_pure
  | occurrence v => exact performs_use (.occurrence v)
  | signed sign operand position ih => exact ih
  | binary op left right position ihleft ihright => exact performs_duties ihleft ihright

/-- The steps of expressions in turn. -/
theorem performs_exprs (es : List Expr) :
    Performs (Expr.checkAll es) ((es.flatMap Expr.duties).map .use) := by
  induction es with
  | nil => exact performs_pure
  | cons first rest ih =>
      rw [List.flatMap_cons]
      exact performs_duties (performs_expr first) ih

/-- The steps of a call: those of its arguments, and one for the call itself. -/
theorem performs_call (c : Call) : Performs c.check (c.duties.map .use) := by
  rw [c.check_eq]
  exact performs_duties (performs_exprs c.arguments) (performs_use (.call c))

mutual

/-- The steps of a statement. -/
theorem performs_statement (st : Statement) : Performs st.check (st.duties.map .use) := by
  cases st with
  | compound body =>
      rw [Statement.check, Statement.duties]
      exact performs_statements body
  | assign target value position =>
      rw [Statement.check, Statement.duties]
      exact performs_duties (performs_expr value) (performs_use (.occurrence target))
  | call c =>
      rw [Statement.check, Statement.duties]
      exact performs_call c
  | empty =>
      rw [Statement.check, Statement.duties]
      exact performs_pure

/-- The steps of statements in turn. -/
theorem performs_statements (body : List Statement) :
    Performs (Statement.checkAll body) (Statement.chores body) := by
  cases body with
  | nil =>
      rw [Statement.checkAll, Statement.chores, Statement.dutiesAll]
      exact performs_pure
  | cons first rest =>
      rw [Statement.checkAll, Statement.chores, Statement.dutiesAll]
      exact performs_duties (performs_statement first) (performs_statements rest)

end

/-! ## Declarations -/

theorem performs_declare (symbol : Symbol) (position : Position) :
    Performs (declare symbol position) [.declare symbol position] := performs_single rfl

/-- Parameters close no scope. -/
theorem leave_not_mem_parameters (params : List Parameter) (formals : List TypedName) :
    .leave ∉ Parameter.chores params formals := by
  induction params generalizing formals with
  | nil => exact List.not_mem_nil
  | cons first rest ih =>
      cases formals with
      | nil => exact List.not_mem_nil
      | cons v more =>
          intro hmem
          rcases List.mem_cons.1 hmem with heq | hmem
          · cases heq
          · exact ih more hmem

/-- The steps of parameters: one for each. -/
theorem performs_declareParameters (params : List Parameter) (formals : List TypedName) :
    Performs (declareParameters params formals) (Parameter.chores params formals) := by
  induction params generalizing formals with
  | nil => exact performs_pure
  | cons first rest ih =>
      cases formals with
      | nil => exact performs_pure
      | cons v more =>
          exact performs_append (performs_declare (.var v) first.position) (ih more)
            (leave_not_mem_parameters rest more)

theorem leave_not_mem_block (b : Block) : .leave ∉ b.chores := by
  intro hmem
  rcases List.mem_append.1 hmem with hmem | hmem
  · obtain ⟨_, _, heq⟩ := List.mem_map.1 hmem
    cases heq
  · exact leave_not_mem_use _ hmem

/-- **The steps inside a scope**: it is opened by one step and closed by another one, whether
the check inside fails or not. -/
theorem performs_inScope {d : ProcedureDeclaration} {formals : List TypedName}
    (hm : Performs m (Parameter.chores d.params formals ++ d.block.chores)) :
    Performs (inScope d.name m) [.enter d formals] := by
  intro c rest
  have hopened : Checkpoint.next ⟨c, .enter d formals :: rest, none⟩
      = some ⟨c.enter d.name,
          Parameter.chores d.params formals ++ (d.block.chores ++ [.leave]) ++ rest, none⟩ := rfl
  refine .step hopened ?_
  have hinside := hm (c.enter d.name) (.leave :: rest)
  simp only [List.append_assoc, List.cons_append, List.nil_append] at hinside ⊢
  unfold inScope
  cases hcheck : m (c.enter d.name) with
  | ok value e =>
      rw [hcheck] at hinside
      exact hinside.trans (.single rfl)
  | error fault e =>
      rw [hcheck] at hinside
      exact hinside.trans (.single rfl)

mutual

/-- **The steps of a declaration.** -/
theorem performs_declaration (d : Declaration) : Performs d.check [.declaration d] := by
  cases d with
  | var name type position =>
      rw [Declaration.check]
      exact performs_chore rfl fun t => performs_declare (.var ⟨name, t⟩) position
  | procedure name params declarations body position =>
      have hbody : ∀ formals, Performs (inScope name do
          declareParameters params formals
          Declaration.checkAll declarations
          Statement.checkAll body)
          [.enter ⟨name, params, ⟨declarations, body⟩, position⟩ formals] := by
        intro formals
        refine performs_inScope ?_
        apply performs_append (performs_declareParameters params formals)
        · exact performs_append (performs_declarations declarations) (performs_statements body)
            (leave_not_mem_use _)
        · exact leave_not_mem_block ⟨declarations, body⟩
      have hcheck : (Declaration.procedure name params declarations body position).check
          = (do
            let heading ← resolveHeading params
            declare (.procedure ⟨name, heading.1, heading.2, ⟨declarations, body⟩⟩) position
            inScope name do
              declareParameters params heading.1
              Declaration.checkAll declarations
              Statement.checkAll body) := by
        funext c
        rw [Declaration.check]
        simp only [resolveHeading, bind, EStateM.bind]
        cases resolveParameters params c <;> rfl
      rw [hcheck]
      refine performs_chore rfl fun heading => ?_
      exact performs_append (performs_declare _ position) (hbody heading.1) nofun

/-- The steps of declarations in turn. -/
theorem performs_declarations (ds : List Declaration) :
    Performs (Declaration.checkAll ds) (ds.map .declaration) := by
  cases ds with
  | nil =>
      rw [Declaration.checkAll]
      exact performs_pure
  | cons first rest =>
      rw [Declaration.checkAll]
      apply performs_append (performs_declaration first) (performs_declarations rest)
      intro hmem
      obtain ⟨_, _, heq⟩ := List.mem_map.1 hmem
      cases heq

end

end Performs

/-! ## Programs -/

/-- **The check of a program** is the sequence of its checkpoints: the start leads to a last
one, at which nothing is left to be done. -/
theorem proceeds_check (tree : Program) :
    Proceeds (.start tree) (.behind (tree.block.check .start) []) := by
  have hblock : Performs tree.block.check tree.block.chores :=
    performs_append (performs_declarations tree.block.declarations)
      (performs_statements tree.block.body) (leave_not_mem_use _)
  have hsteps := hblock .start []
  rwa [List.append_nil] at hsteps

/-- **A program that is rejected** comes to a chore that fails with its error. -/
theorem exists_fails_of_analyze {tree : Program} {e : ScopeError} (h : analyze tree = .error e) :
    ∃ p, Proceeds (.start tree) p ∧ p.Fails e := by
  have hsteps := proceeds_check tree
  unfold analyze Program.check at h
  cases hcheck : tree.block.check .start with
  | ok value c =>
      rw [hcheck] at h
      cases h
  | error e' c =>
      rw [hcheck] at h hsteps
      cases h
      exact hsteps.exists_fails rfl rfl

end MiniPascal
