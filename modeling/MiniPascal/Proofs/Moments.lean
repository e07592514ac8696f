/-
# The moments of a run

A run is laid out as a sequence of moments.  A moment is a machine together with all
bodies that have been entered and not been left, each with the statements that are left
of it; one step executes one statement, or takes the record of a body that is over off
the stack.  Every body is labelled with what it sees: the body of a call with what the
procedure sees that the called name stands for.

* `Moment.next` : the step from a moment to the next one;
* `traced_perform` : the steps that a call takes;
* `leads_run` : the steps from the start of a program end in what its run leaves behind.
-/
import MiniPascal.Activation.Interpreter
import MiniPascal.Proofs.Scoping.Enclosure

set_option autoImplicit false

namespace MiniPascal

/-! ## Moments -/

/-- A body that has been entered: the record it was entered with, all that it sees, and
the statements that are left of it. -/
structure Activity where
  record : ActivationRecord
  context : Context
  rest : List Statement

/-- The machine, the running body, the bodies that wait for it, the innermost first, and
the fault that is ending the run. -/
structure Moment where
  machine : Machine
  running : Activity
  waiting : List Activity
  fault : Option RuntimeError

namespace Moment

/-- The start of a program. -/
def start (tree : Program) : Moment :=
  let r := Interpreter.programRecord tree
  ⟨(Machine.mk .empty []).enter r,
    ⟨r, Context.initial.behind tree.block, tree.block.body⟩, [], none⟩

/-- Go on with other statements. -/
def goOn (m : Moment) (rest : List Statement) : Moment :=
  { m with running := { m.running with rest := rest } }

/-- A fault ends the run. -/
def fail (m : Moment) (e : RuntimeError) : Moment := { m with fault := some e }

/-- The running body is over; the program itself is never left. -/
def finish (m : Moment) : Option Moment :=
  match m.waiting with
  | [] => none
  | caller :: others => some ⟨m.machine.leave m.running.record, caller, others, m.fault⟩

/-- Execute an assignment. -/
def assign (a : Analysis) (m : Moment) (target : Variable) (value : Expr)
    (rest : List Statement) : Moment :=
  match value.eval a m.machine.stack with
  | .error e => m.fail e
  | .ok result =>
    match (target.locate? a m.machine.stack).bind
        fun index => m.machine.stack.set? index target.name result with
    | none => m.fail ⟨.undefinedVariable target.name, target.position⟩
    | some stack => { m.goOn rest with machine := { m.machine with stack := stack } }

/-- Execute a call: the body of the procedure is entered, unless `limit` calls are
active. -/
def call (a : Analysis) (limit : Nat) (m : Moment) (c : Call) (rest : List Statement) :
    Moment :=
  match a.procedure? c.id with
  | none => m.fail ⟨.unresolvedProcedure c.name, c.position⟩
  | some p =>
    if limit < m.machine.stack.size then m.fail ⟨.callDepthExceeded limit, c.position⟩
    else
      match Expr.evalAll a m.machine.stack c.arguments with
      | .error e => m.fail e
      | .ok values =>
        let r := p.activate m.machine.stack values
        ⟨m.machine.enter r, ⟨r, m.running.context.calleeContext c.name, p.block.body⟩,
          { m.running with rest := rest } :: m.waiting, none⟩

/-- The next moment, unless the run is over. -/
def next (a : Analysis) (limit : Nat) (m : Moment) : Option Moment :=
  match m.fault, m.running.rest with
  | some _, _ => m.finish
  | none, [] => m.finish
  | none, .empty :: rest => some (m.goOn rest)
  | none, .compound body :: rest => some (m.goOn (body ++ rest))
  | none, .assign target value _ :: rest => some (m.assign a target value rest)
  | none, .call c :: rest => some (m.call a limit c rest)

/-- How the run ends if it is over. -/
def outcome (m : Moment) : Except RuntimeError Unit :=
  match m.fault with
  | some e => .error e
  | none => .ok ()

/-- What the run of a program leaves behind if this is its last moment. -/
def leftBehind (a : Analysis) (limit : Nat) (tree : Program) (m : Moment) : Run :=
  ⟨m.outcome, (m.machine.leave (Interpreter.programRecord tree)).events.reverse,
    ⟨a, limit, m.machine.stack.pop, m.machine.stack.top?⟩⟩

end Moment

/-- One moment leads to another one in any number of steps. -/
inductive Leads (a : Analysis) (limit : Nat) : Moment → Moment → Prop where
  | refl (m : Moment) : Leads a limit m m
  | step {m n o : Moment} (h : m.next a limit = some n) (hrest : Leads a limit n o) :
      Leads a limit m o

namespace Leads

variable {a : Analysis} {limit : Nat} {m n o : Moment}

theorem single (h : m.next a limit = some n) : Leads a limit m n := .step h (.refl n)

theorem trans (h : Leads a limit m n) (hrest : Leads a limit n o) : Leads a limit m o := by
  induction h with
  | refl _ => exact hrest
  | step hnext _ ih => exact .step hnext (ih hrest)

/-- **There is one run only**: whatever it leads to leads on to its end. -/
theorem to_end (h : Leads a limit m n) (hend : Leads a limit m o)
    (hover : o.next a limit = none) : Leads a limit n o := by
  -- a step is a function, so both ways take the same one
  induction h with
  | refl _ => exact hend
  | step hnext _ ih =>
      cases hend with
      | refl _ =>
          rw [hover] at hnext
          cases hnext
      | step hnext' hrest =>
          rw [hnext] at hnext'
          cases hnext'
          exact ih hrest

end Leads

/-! ## Executions and their moments -/

/-- An execution of statements on stacks of a size: the steps through the statements end
as the execution does, with a stack of the same size. -/
def Traced (a : Analysis) (limit size : Nat) (run : Execution Unit)
    (body : List Statement) : Prop :=
  ∀ (machine : Machine) (act : Activity) (waiting : List Activity) (rest : List Statement),
    machine.stack.size = size →
    match run machine with
    | .ok _ d => d.stack.size = size ∧
        Leads a limit ⟨machine, { act with rest := body ++ rest }, waiting, none⟩
          ⟨d, { act with rest := rest }, waiting, none⟩
    | .error e d => d.stack.size = size ∧ ∃ left,
        Leads a limit ⟨machine, { act with rest := body ++ rest }, waiting, none⟩
          ⟨d, { act with rest := left }, waiting, some e⟩

section Traced

variable {a : Analysis} {limit size : Nat} {run more : Execution Unit}
  {body others : List Statement}

theorem traced_pure : Traced a limit size (pure ()) [] :=
  fun _ _ _ _ hsize => ⟨hsize, .refl _⟩

/-- **Executions in turn** take the steps of both. -/
theorem traced_seq (hrun : Traced a limit size run body)
    (hmore : Traced a limit size more others) :
    Traced a limit size (do run; more) (body ++ others) := by
  intro machine act waiting rest hsize
  -- the statements of the second execution are left behind those of the first one
  have hfirst := hrun machine act waiting (others ++ rest) hsize
  rw [List.append_assoc]
  show match EStateM.bind run (fun _ => more) machine with
    | .ok _ d => d.stack.size = size ∧ _
    | .error e d => d.stack.size = size ∧ _
  unfold EStateM.bind
  cases hstep : run machine with
  | error e d =>
      rw [hstep] at hfirst
      exact hfirst
  | ok value d =>
      rw [hstep] at hfirst
      obtain ⟨hd, hleads⟩ := hfirst
      have hsecond := hmore d act waiting rest hd
      cases hrest : more d with
      | error e d' =>
          rw [hrest] at hsecond
          obtain ⟨hd', left, hlast⟩ := hsecond
          simp only [hrest]
          exact ⟨hd', left, hleads.trans hlast⟩
      | ok value' d' =>
          rw [hrest] at hsecond
          obtain ⟨hd', hlast⟩ := hsecond
          simp only [hrest]
          exact ⟨hd', hleads.trans hlast⟩

/-- A first step may lead to the statements of an execution. -/
theorem traced_of_next (h : Traced a limit size run body)
    (hnext : ∀ (machine : Machine) (act : Activity) (waiting : List Activity)
      (rest : List Statement),
      Moment.next a limit ⟨machine, { act with rest := others ++ rest }, waiting, none⟩
        = some ⟨machine, { act with rest := body ++ rest }, waiting, none⟩) :
    Traced a limit size run others := by
  intro machine act waiting rest hsize
  have hbody := h machine act waiting rest hsize
  cases hrun : run machine with
  | error e d =>
      rw [hrun] at hbody
      obtain ⟨hd, left, hleads⟩ := hbody
      exact ⟨hd, left, .step (hnext machine act waiting rest) hleads⟩
  | ok value d =>
      rw [hrun] at hbody
      obtain ⟨hd, hleads⟩ := hbody
      exact ⟨hd, .step (hnext machine act waiting rest) hleads⟩

/-- An assignment takes one step. -/
theorem traced_assign (call : Call → Execution Unit) (target : Variable) (value : Expr)
    (position : Position) :
    Traced a limit size (Statement.exec a call (.assign target value position))
      [.assign target value position] := by
  intro machine act waiting rest hsize
  have hnext : Moment.next a limit
      ⟨machine, { act with rest := .assign target value position :: rest }, waiting, none⟩
      = some (Moment.assign a
          ⟨machine, { act with rest := .assign target value position :: rest }, waiting, none⟩
          target value rest) := rfl
  rw [Statement.exec]
  show match EStateM.bind (Execution.compute fun s => value.eval a s)
      (fun result => target.write a result) machine with
    | .ok _ d => d.stack.size = size ∧ _
    | .error e d => d.stack.size = size ∧ _
  unfold EStateM.bind Execution.compute
  unfold Moment.assign at hnext
  cases hvalue : value.eval a machine.stack with
  | error e =>
      simp only [hvalue] at hnext ⊢
      exact ⟨hsize, _, .single hnext⟩
  | ok result =>
      simp only [hvalue] at hnext ⊢
      unfold Variable.write
      cases hset : (target.locate? a machine.stack).bind
          fun index => machine.stack.set? index target.name result with
      | none =>
          simp only [hset] at hnext ⊢
          exact ⟨hsize, _, .single hnext⟩
      | some stack =>
          simp only [hset] at hnext ⊢
          obtain ⟨index, -, hindex⟩ := Option.bind_eq_some_iff.1 hset
          exact ⟨(CallStack.size_set hindex).trans hsize, .single hnext⟩

mutual

/-- The steps that a statement takes if they are known for calls. -/
theorem traced_statement {call : Call → Execution Unit}
    (hcall : ∀ c, Traced a limit size (call c) [.call c]) (st : Statement) :
    Traced a limit size (st.exec a call) [st] := by
  cases st with
  | compound body =>
      rw [Statement.exec]
      exact traced_of_next (traced_statements hcall body) fun _ _ _ _ => rfl
  | assign target value position => exact traced_assign call target value position
  | call c =>
      rw [Statement.exec]
      exact hcall c
  | empty =>
      rw [Statement.exec]
      exact traced_of_next traced_pure fun _ _ _ _ => rfl

/-- The steps that statements take if they are known for calls. -/
theorem traced_statements {call : Call → Execution Unit}
    (hcall : ∀ c, Traced a limit size (call c) [.call c]) (body : List Statement) :
    Traced a limit size (Statement.execAll a call body) body := by
  cases body with
  | nil =>
      rw [Statement.execAll]
      exact traced_pure
  | cons first rest =>
      rw [Statement.execAll]
      exact traced_seq (traced_statement hcall first) (traced_statements hcall rest)

end

/-- A call that fails at once takes one step. -/
theorem traced_fail {c : Call} {fault : RuntimeFault}
    (hnext : ∀ m : Moment, m.machine.stack.size = size → ∀ rest,
      m.call a limit c rest = m.fail ⟨fault, c.position⟩) :
    Traced a limit size (Execution.fail fault c.position) [.call c] := by
  intro machine act waiting rest hsize
  refine ⟨hsize, .call c :: rest, .single ?_⟩
  exact congrArg some (hnext ⟨machine, { act with rest := .call c :: rest }, waiting, none⟩
    hsize rest)

/-- **The steps of a body** that is entered by a call: those of its statements, and one
that takes its record off the stack again. -/
theorem traced_within {c : Call} {p : Procedure}
    (hbody : Traced a limit (size + 1) run p.block.body) (hp : a.procedure? c.id = some p)
    (hlimit : size ≤ limit) :
    Traced a limit size (do
      let r ← Execution.compute fun s => do
        let values ← Expr.evalAll a s c.arguments
        return p.activate s values
      Execution.within r run) [.call c] := by
  intro machine act waiting rest hsize
  have hnext : Moment.next a limit ⟨machine, { act with rest := .call c :: rest }, waiting, none⟩
      = some (Moment.call a limit
          ⟨machine, { act with rest := .call c :: rest }, waiting, none⟩ c rest) := rfl
  unfold Moment.call at hnext
  simp only [hp, if_neg (show ¬limit < machine.stack.size by omega)] at hnext
  simp only [bind, EStateM.bind, Execution.compute]
  cases hvalues : Expr.evalAll a machine.stack c.arguments with
  | error e =>
      simp only [hvalues, Except.bind] at hnext ⊢
      exact ⟨hsize, _, .single hnext⟩
  | ok values =>
      simp only [hvalues, Except.bind, pure, Except.pure] at hnext ⊢
      have hentered : (machine.enter (p.activate machine.stack values)).stack.size = size + 1 :=
        congrArg (· + 1) hsize
      -- the caller waits with what is left of its body
      have hrun := hbody (machine.enter (p.activate machine.stack values))
        ⟨p.activate machine.stack values, act.context.calleeContext c.name, p.block.body⟩
        ({ act with rest := rest } :: waiting) [] hentered
      rw [List.append_nil] at hrun
      unfold Execution.within
      cases hend : run (machine.enter (p.activate machine.stack values)) with
      | error e d =>
          rw [hend] at hrun
          obtain ⟨hd, left, hleads⟩ := hrun
          refine ⟨?_, rest, .step hnext (hleads.trans (.single rfl))⟩
          exact (CallStack.size_pop d.stack).trans (Nat.sub_eq_of_eq_add hd)
      | ok value d =>
          rw [hend] at hrun
          obtain ⟨hd, hleads⟩ := hrun
          refine ⟨?_, .step hnext (hleads.trans (.single rfl))⟩
          exact (CallStack.size_pop d.stack).trans (Nat.sub_eq_of_eq_add hd)

/-- **The steps of a call**, if `left` more calls may be nested. -/
theorem traced_perform (left : Nat) (c : Call) (hsize : left + size = limit + 1) :
    Traced a limit size (Call.perform a limit left c) [.call c] := by
  -- the nested calls run on stacks with one record more
  induction left generalizing size c with
  | zero =>
      rw [Call.perform]
      split
      next hnone =>
        refine traced_fail fun m _ rest => ?_
        rw [Moment.call, hnone]
      next p hp =>
        refine traced_fail fun m hm rest => ?_
        rw [Moment.call, hp]
        exact if_pos (by omega)
  | succ left ih =>
      rw [Call.perform]
      split
      next hnone =>
        refine traced_fail fun m _ rest => ?_
        rw [Moment.call, hnone]
      next p hp =>
        refine traced_within (traced_statements (fun d => ih d ?_) p.block.body) hp (by omega)
        omega

end Traced

/-! ## Runs -/

/-- **The run of a program** is the sequence of its moments: the start leads to a last
one, and the run leaves behind what that one does. -/
theorem leads_run (tree : Program) (a : Analysis) (limit : Nat) :
    ∃ last : Moment, Leads a limit (.start tree) last ∧ last.next a limit = none ∧
      (Interpreter.new a limit).run tree = last.leftBehind a limit tree := by
  have hbody : Traced a limit 1
      (Statement.execAll a (Call.perform a limit limit) tree.block.body) tree.block.body :=
    traced_statements (fun c => traced_perform limit c rfl) tree.block.body
  have hrun := hbody ((Machine.mk .empty []).enter (Interpreter.programRecord tree))
    ⟨Interpreter.programRecord tree, Context.initial.behind tree.block, []⟩ [] [] rfl
  rw [List.append_nil] at hrun
  unfold Interpreter.run Execution.startOn
  simp only [Interpreter.new]
  have hleft : limit + 1
      - ((Machine.mk .empty []).enter (Interpreter.programRecord tree)).stack.size = limit :=
    Nat.add_sub_cancel limit 1
  simp only [hleft]
  cases hend : Statement.execAll a (Call.perform a limit limit) tree.block.body
      ((Machine.mk .empty []).enter (Interpreter.programRecord tree)) with
  | error e d =>
      rw [hend] at hrun
      obtain ⟨-, left, hleads⟩ := hrun
      exact ⟨_, hleads, rfl, rfl⟩
  | ok value d =>
      rw [hend] at hrun
      obtain ⟨-, hleads⟩ := hrun
      exact ⟨_, hleads, rfl, rfl⟩

end MiniPascal
