/-
# The steps of a run

What one step can do, said once: the running body fails for one of five reasons, passes
over a statement, assigns, enters the body of a call, or is left.  Whatever every step
preserves holds at every moment of a run.

* `Moment.next_eq_some_iff` : the step from a moment to the next one is one of these;
* `Leads.preserves` : what every step preserves;
* `outcome_eq_error_iff` : a run ends with an error exactly if it comes to a statement that
  fails with it.
-/
import MiniPascal.Proofs.Moments

set_option autoImplicit false

namespace MiniPascal

namespace Moment

/-! ## What a step does -/

/-- Why the running body cannot go on with its next statement: a value, a target, a
callee, one more call or an argument is missing. -/
inductive Fails (a : Analysis) (limit : Nat) (m : Moment) : RuntimeError → Prop where
  | value {target : Variable} {value : Expr} {position : Position} {rest : List Statement}
      {e : RuntimeError} (hrest : m.running.rest = .assign target value position :: rest)
      (hvalue : value.eval a m.machine.stack = .error e) : Fails a limit m e
  | target {target : Variable} {value : Expr} {position : Position} {rest : List Statement}
      {result : Number} (hrest : m.running.rest = .assign target value position :: rest)
      (hvalue : value.eval a m.machine.stack = .ok result)
      (hset : ((target.locate? a m.machine.stack).bind
        fun index => m.machine.stack.set? index target.name result) = none) :
      Fails a limit m ⟨.undefinedVariable target.name, target.position⟩
  | callee {c : Call} {rest : List Statement} (hrest : m.running.rest = .call c :: rest)
      (hp : a.procedure? c.id = none) :
      Fails a limit m ⟨.unresolvedProcedure c.name, c.position⟩
  | depth {c : Call} {rest : List Statement} {p : Procedure}
      (hrest : m.running.rest = .call c :: rest) (hp : a.procedure? c.id = some p)
      (hlimit : limit < m.machine.stack.size) :
      Fails a limit m ⟨.callDepthExceeded limit, c.position⟩
  | argument {c : Call} {rest : List Statement} {p : Procedure} {e : RuntimeError}
      (hrest : m.running.rest = .call c :: rest) (hp : a.procedure? c.id = some p)
      (hlimit : m.machine.stack.size ≤ limit)
      (hvalues : Expr.evalAll a m.machine.stack c.arguments = .error e) : Fails a limit m e

/-- The moment at which the body of a procedure is entered, with `rest` left of the body
that calls it. -/
def entered (m : Moment) (c : Call) (rest : List Statement) (p : Procedure)
    (values : List Number) : Moment :=
  let r := p.activate m.machine.stack values
  ⟨m.machine.enter r, ⟨r, m.running.context.calleeContext c.name, p.block.body⟩,
    { m.running with rest := rest } :: m.waiting, none⟩

/-- What one step can do. -/
inductive Step (a : Analysis) (limit : Nat) (m : Moment) : Moment → Prop where
  | fail {e : RuntimeError} (hfault : m.fault = none) (h : m.Fails a limit e) :
      Step a limit m (m.fail e)
  | skip {rest : List Statement} (hfault : m.fault = none)
      (hrest : m.running.rest = .empty :: rest) : Step a limit m (m.goOn rest)
  | expand {body rest : List Statement} (hfault : m.fault = none)
      (hrest : m.running.rest = .compound body :: rest) : Step a limit m (m.goOn (body ++ rest))
  | assign {target : Variable} {value : Expr} {position : Position} {rest : List Statement}
      {result : Number} {index : Nat} {stack : CallStack} (hfault : m.fault = none)
      (hrest : m.running.rest = .assign target value position :: rest)
      (hvalue : value.eval a m.machine.stack = .ok result)
      (hindex : target.locate? a m.machine.stack = some index)
      (hset : m.machine.stack.set? index target.name result = some stack) :
      Step a limit m { m.goOn rest with machine := { m.machine with stack := stack } }
  | enter {c : Call} {rest : List Statement} {p : Procedure} {values : List Number}
      (hfault : m.fault = none) (hrest : m.running.rest = .call c :: rest)
      (hp : a.procedure? c.id = some p) (hlimit : m.machine.stack.size ≤ limit)
      (hvalues : Expr.evalAll a m.machine.stack c.arguments = .ok values) :
      Step a limit m (m.entered c rest p values)
  | leave {caller : Activity} {others : List Activity}
      (hover : m.fault = none → m.running.rest = []) (hwaiting : m.waiting = caller :: others) :
      Step a limit m ⟨m.machine.leave m.running.record, caller, others, m.fault⟩

variable {a : Analysis} {limit : Nat} {m n : Moment}

/-- Leaving a body is a step. -/
theorem step_of_finish (hover : m.fault = none → m.running.rest = [])
    (hn : m.finish = some n) : m.Step a limit n := by
  unfold finish at hn
  split at hn
  · cases hn
  next caller others hwaiting =>
    cases hn
    exact .leave hover hwaiting

/-- An assignment is a step. -/
theorem step_of_assign (hfault : m.fault = none) {target : Variable} {value : Expr}
    {position : Position} {rest : List Statement}
    (hrest : m.running.rest = .assign target value position :: rest) :
    m.Step a limit (m.assign a target value rest) := by
  unfold assign
  split
  next e hvalue => exact .fail hfault (.value hrest hvalue)
  next result hvalue =>
    split
    next hset => exact .fail hfault (.target hrest hvalue hset)
    next stack hset =>
      obtain ⟨index, hindex, hstack⟩ := Option.bind_eq_some_iff.1 hset
      exact .assign hfault hrest hvalue hindex hstack

/-- A call is a step. -/
theorem step_of_call (hfault : m.fault = none) {c : Call} {rest : List Statement}
    (hrest : m.running.rest = .call c :: rest) : m.Step a limit (m.call a limit c rest) := by
  unfold call
  split
  next hp => exact .fail hfault (.callee hrest hp)
  next p hp =>
    split
    next hlimit => exact .fail hfault (.depth hrest hp hlimit)
    next hlimit =>
      have hsize : m.machine.stack.size ≤ limit := Nat.le_of_not_lt hlimit
      split
      next e hvalues => exact .fail hfault (.argument hrest hp hsize hvalues)
      next values hvalues => exact .enter hfault hrest hp hsize hvalues

/-- What fails has no other way to go on. -/
theorem next_of_fails (hfault : m.fault = none) {e : RuntimeError} (h : m.Fails a limit e) :
    m.next a limit = some (m.fail e) := by
  unfold next
  cases h with
  | value hrest hvalue => simp only [hfault, hrest, assign, hvalue]
  | target hrest hvalue hset => simp only [hfault, hrest, assign, hvalue, hset]
  | callee hrest hp => simp only [hfault, hrest, call, hp]
  | depth hrest hp hlimit => simp only [hfault, hrest, call, hp, if_pos hlimit]
  | argument hrest hp hlimit hvalues =>
      simp only [hfault, hrest, call, hp, if_neg (Nat.not_lt_of_le hlimit), hvalues]

/-- **The next moment** is what one of the steps leads to. -/
theorem next_eq_some_iff : m.next a limit = some n ↔ m.Step a limit n := by
  constructor
  · intro hn
    unfold next at hn
    split at hn
    next e hfault => exact step_of_finish (fun hnone => by simp [hfault] at hnone) hn
    next hrest => exact step_of_finish (fun _ => hrest) hn
    next rest hfault hrest =>
      cases hn
      exact .skip hfault hrest
    next body rest hfault hrest =>
      cases hn
      exact .expand hfault hrest
    next target value position rest hfault hrest =>
      cases hn
      exact step_of_assign hfault hrest
    next c rest hfault hrest =>
      cases hn
      exact step_of_call hfault hrest
  · intro h
    cases h with
    | fail hfault h => exact next_of_fails hfault h
    | skip hfault hrest => simp only [next, hfault, hrest]
    | expand hfault hrest => simp only [next, hfault, hrest]
    | assign hfault hrest hvalue hindex hset =>
        simp only [next, hfault, hrest, assign, hvalue, hindex, Option.bind_some, hset]
    | enter hfault hrest hp hlimit hvalues =>
        simp only [next, hfault, hrest, call, hp, if_neg (Nat.not_lt_of_le hlimit), hvalues]
        rfl
    | @leave caller others hover hwaiting =>
        have hfinish : m.finish
            = some ⟨m.machine.leave m.running.record, caller, others, m.fault⟩ := by
          rw [finish, hwaiting]
        cases hfault : m.fault with
        | none => simp only [next, hfault, hover hfault, hfinish]
        | some e => simp only [next, hfault, hfinish]

/-- **A run is over** when the program itself is, by its end or by a fault. -/
theorem next_eq_none_iff :
    m.next a limit = none ↔ m.waiting = [] ∧ (m.fault = none → m.running.rest = []) := by
  constructor
  · intro h
    have hstuck : ∀ n, ¬m.Step a limit n := fun n hstep => by
      rw [next_eq_some_iff.2 hstep] at h
      cases h
    have hrest : m.fault = none → m.running.rest = [] := by
      intro hfault
      unfold next at h
      rw [hfault] at h
      cases hrest : m.running.rest with
      | nil => rfl
      | cons st rest =>
          rw [hrest] at h
          cases st <;> cases h
    -- a body that waits would be returned to
    cases hwaiting : m.waiting with
    | nil => exact ⟨rfl, hrest⟩
    | cons caller others => exact absurd (.leave hrest hwaiting) (hstuck _)
  · rintro ⟨hwaiting, hrest⟩
    have hfinish : m.finish = none := by rw [finish, hwaiting]
    unfold next
    cases hfault : m.fault with
    | none => simp only [hrest hfault, hfinish]
    | some e => simp only [hfinish]

end Moment

/-! ## What every step preserves -/

section Leads

variable {a : Analysis} {limit : Nat} {m n : Moment}

/-- **What every step preserves** holds at all moments that follow. -/
theorem Leads.preserves {P : Moment → Prop}
    (hstep : ∀ m n, P m → m.Step a limit n → P n) (h : Leads a limit m n) (hm : P m) : P n := by
  induction h with
  | refl _ => exact hm
  | step hnext _ ih => exact ih (hstep _ _ hm (Moment.next_eq_some_iff.1 hnext))

/-- A fault stays. -/
theorem fault_of_leads {e : RuntimeError} (h : Leads a limit m n) (hm : m.fault = some e) :
    n.fault = some e := by
  refine h.preserves (P := fun m => m.fault = some e) (fun m n hm hstep => ?_) hm
  -- with a fault nothing can be done but to leave the body
  cases hstep with
  | leave _ _ => exact hm
  | fail hfault _ => simp [hm] at hfault
  | skip hfault _ => simp [hm] at hfault
  | expand hfault _ => simp [hm] at hfault
  | assign hfault _ _ _ _ => simp [hm] at hfault
  | enter hfault _ _ _ _ => simp [hm] at hfault

/-- A fault has arisen at some moment. -/
theorem exists_fails_of_leads {e : RuntimeError} (h : Leads a limit m n)
    (hm : m.fault = none) (hn : n.fault = some e) :
    ∃ o, Leads a limit m o ∧ o.fault = none ∧ o.Fails a limit e := by
  induction h with
  | refl m => simp [hm] at hn
  | @step m k n hnext hrest ih =>
      cases hk : k.fault with
      | none =>
          obtain ⟨o, hleads, hnone, hfails⟩ := ih hk hn
          exact ⟨o, .step hnext hleads, hnone, hfails⟩
      | some e' =>
          -- the first moment with a fault has it from the step before
          obtain rfl : e = e' := Option.some.inj (hn.symm.trans (fault_of_leads hrest hk))
          refine ⟨m, .refl m, hm, ?_⟩
          cases Moment.next_eq_some_iff.1 hnext with
          | fail _ hfails =>
              cases hk
              exact hfails
          | skip hfault _ => exact absurd (hk.symm.trans hfault) nofun
          | expand hfault _ => exact absurd (hk.symm.trans hfault) nofun
          | assign hfault _ _ _ _ => exact absurd (hk.symm.trans hfault) nofun
          | enter _ _ _ _ _ => cases hk
          | leave _ _ => exact absurd (hk.symm.trans hm) nofun

/-- **There is one end only** that a run can come to. -/
theorem Leads.end_unique {o : Moment} (hn : Leads a limit m n) (hover : n.next a limit = none)
    (ho : Leads a limit m o) (hend : o.next a limit = none) : n = o := by
  cases hn.to_end ho hend with
  | refl _ => rfl
  | step hnext _ =>
      rw [hover] at hnext
      cases hnext

end Leads

/-! ## The end of a run -/

section Run

variable {tree : Program} {a : Analysis} {limit : Nat} {m : Moment}

theorem run_eq_of_leads (h : Leads a limit (.start tree) m) (hover : m.next a limit = none) :
    (Interpreter.new a limit).run tree = m.leftBehind a limit tree := by
  obtain ⟨last, hlast, hend, hrun⟩ := leads_run tree a limit
  rw [hrun, hlast.end_unique hend h hover]

/-- The fault of the last moment is the error of the run. -/
theorem outcome_leftBehind {e : RuntimeError} :
    (m.leftBehind a limit tree).outcome = .error e ↔ m.fault = some e := by
  show m.outcome = .error e ↔ _
  unfold Moment.outcome
  cases m.fault with
  | none => simp
  | some e' => simp

end Run

/-- **A run ends with an error** exactly if it comes to a statement that fails with it. -/
theorem outcome_eq_error_iff (tree : Program) (a : Analysis) (limit : Nat) (e : RuntimeError) :
    ((Interpreter.new a limit).run tree).outcome = .error e ↔
      ∃ m, Leads a limit (.start tree) m ∧ m.fault = none ∧ m.Fails a limit e := by
  obtain ⟨last, hlast, hover, hrun⟩ := leads_run tree a limit
  rw [hrun, outcome_leftBehind]
  constructor
  · intro hfault
    exact exists_fails_of_leads hlast rfl hfault
  · rintro ⟨m, hm, hnone, hfails⟩
    -- the run goes on from the failing statement to its end, and keeps the fault
    have hnext := Moment.next_of_fails hnone hfails
    have hrest : Leads a limit (m.fail e) last :=
      (hm.trans (.single hnext)).to_end hlast hover
    exact fault_of_leads hrest rfl

end MiniPascal
