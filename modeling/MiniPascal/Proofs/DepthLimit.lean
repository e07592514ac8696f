/-
# The depth limit

Runs of one program under two limits go through the same moments until the smaller limit
ends the run that it applies to.  Under either limit no more calls are ever active than it
allows, and it is reported exactly at a call that would be one too many.

* `Moment.step_or_cut` : a step under the smaller limit is one under the larger limit,
  unless it is cut short;
* `run_cutShort` : the larger limit only makes a run longer.
-/
import MiniPascal.Proofs.Moments.Records
import MiniPascal.Proofs.Moments.Reads
import MiniPascal.Proofs.Scoping.Resolution

set_option autoImplicit false

namespace MiniPascal

/-! ## Two limits -/

/-- A run that its limit has ended. -/
def Moment.CutShort (limit : Nat) (m : Moment) : Prop :=
  ∃ position, m.fault = some ⟨.callDepthExceeded limit, position⟩

section Limits

variable {a : Analysis} {d d' : Nat} {m n : Moment}

/-- What a statement fails with under a limit it fails with under a larger one, unless it is
the limit itself. -/
theorem Moment.fails_or_cut (hle : d ≤ d') {e : RuntimeError} (h : m.Fails a d e) :
    m.Fails a d' e ∨ ∃ position, e = ⟨.callDepthExceeded d, position⟩ := by
  cases h with
  | value hrest hvalue => exact Or.inl (.value hrest hvalue)
  | target hrest hvalue hset => exact Or.inl (.target hrest hvalue hset)
  | callee hrest hp => exact Or.inl (.callee hrest hp)
  | depth _ _ _ => exact Or.inr ⟨_, rfl⟩
  | argument hrest hp hlimit hvalues =>
      exact Or.inl (.argument hrest hp (Nat.le_trans hlimit hle) hvalues)

/-- **A step** under a limit is one under a larger limit, unless it is cut short. -/
theorem Moment.step_or_cut (hle : d ≤ d') (h : m.Step a d n) :
    m.Step a d' n ∨ n.CutShort d := by
  cases h with
  | fail hfault hfails =>
      rcases fails_or_cut hle hfails with hlong | ⟨position, rfl⟩
      · exact Or.inl (.fail hfault hlong)
      · exact Or.inr ⟨position, rfl⟩
  | skip hfault hrest => exact Or.inl (.skip hfault hrest)
  | expand hfault hrest => exact Or.inl (.expand hfault hrest)
  | assign hfault hrest hvalue hindex hset =>
      exact Or.inl (.assign hfault hrest hvalue hindex hset)
  | enter hfault hrest hp hlimit hvalues =>
      exact Or.inl (.enter hfault hrest hp (Nat.le_trans hlimit hle) hvalues)
  | leave hover hwaiting => exact Or.inl (.leave hover hwaiting)

/-- **A run** under a limit goes the way of the run under a larger limit, unless it is cut
short. -/
theorem leads_or_cut (hle : d ≤ d') (h : Leads a d m n) : Leads a d' m n ∨ n.CutShort d := by
  induction h with
  | refl m => exact Or.inl (.refl m)
  | step hnext hrest ih =>
      rcases Moment.step_or_cut hle (Moment.next_eq_some_iff.1 hnext) with hlong | ⟨position, hcut⟩
      · exact ih.imp_left (.step (Moment.next_eq_some_iff.2 hlong))
      -- the fault stays to the end
      · exact Or.inr ⟨position, fault_of_leads hrest hcut⟩

end Limits

/-! ## One call too many -/

section Depth

variable {a : Analysis} {limit : Nat} {m : Moment}

theorem not_isValueError_depth {s : CallStack} {reads : Variable → Prop} {n : Nat}
    {position : Position} : ¬IsValueError a s reads ⟨.callDepthExceeded n, position⟩ := by
  rintro (⟨v, -, -, he⟩ | ⟨fault, position', he⟩)
  · cases he
  · cases he

/-- The running body comes to a resolved call, with a number of calls active. -/
def Moment.ComesToCall (a : Analysis) (active : Nat) (position : Position) (m : Moment) :
    Prop :=
  ∃ c rest p, m.fault = none ∧ m.running.rest = .call c :: rest ∧ a.procedure? c.id = some p ∧
    m.machine.stack.callCount = active ∧ c.position = position

/-- **The depth is exceeded** exactly at a resolved call with as many calls active as the
limit allows. -/
theorem Moment.fails_depth_iff (hm : m.Stacked limit) {n : Nat} {position : Position} :
    (m.fault = none ∧ m.Fails a limit ⟨.callDepthExceeded n, position⟩) ↔
      n = limit ∧ m.ComesToCall a limit position := by
  have hcount : m.machine.stack.callCount + 1 = m.machine.stack.size :=
    hm.layered.callCount_add_one hm.size_pos
  constructor
  · rintro ⟨hfault, hfails⟩
    generalize he : (⟨.callDepthExceeded n, position⟩ : RuntimeError) = e at hfails
    cases hfails with
    | value _ hvalue => exact absurd (he ▸ Expr.error_of_eval hvalue) not_isValueError_depth
    | argument _ _ _ hvalues =>
        exact absurd (he ▸ Expr.error_of_evalAll hvalues) not_isValueError_depth
    | target _ _ _ => cases he
    | callee _ _ => cases he
    | @depth c rest p hrest hp hlimit =>
        cases he
        have hfull : m.machine.stack.callCount = limit := by
          have hbound : m.machine.stack.size ≤ limit + 1 := hm.bound
          omega
        exact ⟨rfl, c, rest, p, hfault, hrest, hp, hfull, rfl⟩
  · rintro ⟨rfl, c, rest, p, hfault, hrest, hp, hfull, rfl⟩
    have hlimit : n < m.machine.stack.size := by omega
    exact ⟨hfault, .depth hrest hp hlimit⟩

/-- No more calls are active than the limit allows. -/
theorem Moment.Stacked.callCount_le (hm : m.Stacked limit) :
    m.machine.stack.callCount ≤ limit := by
  have hcount := hm.layered.callCount_add_one hm.size_pos
  have hbound := hm.bound
  omega

end Depth

/-! ## Runs -/

/-- **The depth limit only cuts runs short**: under a limit the run of a program either
ends at that limit, or ends as it does under every larger limit, with the same record of the
program; at all its moments no more calls are active than the limit allows; and the
limit is reported exactly if the run comes to a resolved call with as many calls active. -/
theorem run_cutShort {d d' : Nat} (hle : d ≤ d') (a : Analysis) (tree : Program) :
    ((∃ position, ((Interpreter.new a d).run tree).outcome
          = .error ⟨.callDepthExceeded d, position⟩) ∨
        ((Interpreter.new a d).run tree).outcome = ((Interpreter.new a d').run tree).outcome ∧
        ((Interpreter.new a d).run tree).interpreter.finished
          = ((Interpreter.new a d').run tree).interpreter.finished) ∧
      (∀ m, Leads a d (.start tree) m → m.machine.stack.callCount ≤ d) ∧
      ∀ n position, ((Interpreter.new a d).run tree).outcome
          = .error ⟨.callDepthExceeded n, position⟩ ↔
        n = d ∧ ∃ m, Leads a d (.start tree) m ∧ m.ComesToCall a d position := by
  refine ⟨?_, fun m hm => (stacked_of_leads hm).callCount_le, fun n position => ?_⟩
  · obtain ⟨last, hlast, hover, hrun⟩ := leads_run tree a d
    rcases leads_or_cut hle hlast with hlong | ⟨position, hcut⟩
    · have hend : last.next a d' = none :=
        Moment.next_eq_none_iff.2 (Moment.next_eq_none_iff.1 hover)
      rw [hrun, run_eq_of_leads hlong hend]
      exact Or.inr ⟨rfl, rfl⟩
    · rw [hrun]
      exact Or.inl ⟨position, outcome_leftBehind.2 hcut⟩
  · rw [outcome_eq_error_iff]
    constructor
    · rintro ⟨m, hm, hfails⟩
      obtain ⟨hn, hcall⟩ := (Moment.fails_depth_iff (stacked_of_leads hm)).1 hfails
      exact ⟨hn, m, hm, hcall⟩
    · rintro ⟨hn, m, hm, hcall⟩
      exact ⟨m, hm, (Moment.fails_depth_iff (stacked_of_leads hm)).2 ⟨hn, hcall⟩⟩

/-- A source text with a procedure that calls one of its own. -/
def callingSource : String :=
  "PROGRAM P; PROCEDURE Q; PROCEDURE R; BEGIN END; BEGIN R() END; BEGIN Q() END."

/-- Whether the run of a source text has an error under one limit and none under another. -/
def limitMatters (source : String) (d d' : Nat) : Bool :=
  match parse source with
  | .error _ => false
  | .ok tree =>
    match analyze tree with
    | .error _ => false
    | .ok a =>
      !((Interpreter.new a d).run tree).outcome.isOk
        && ((Interpreter.new a d').run tree).outcome.isOk

/-- The inner call ends the run under a limit of one, and not under a limit of two. -/
theorem callingSource_cutShort : ∃ tree a, parse callingSource = .ok tree ∧
    analyze tree = .ok a ∧
    (∃ position, ((Interpreter.new a 1).run tree).outcome
        = .error ⟨.callDepthExceeded 1, position⟩) ∧
      ((Interpreter.new a 2).run tree).outcome = .ok () ∧
      (∀ m, Leads a 1 (.start tree) m → m.machine.stack.callCount ≤ 1) ∧
      ∀ n position, ((Interpreter.new a 1).run tree).outcome
          = .error ⟨.callDepthExceeded n, position⟩ ↔
        n = 1 ∧ ∃ m, Leads a 1 (.start tree) m ∧ m.ComesToCall a 1 position := by
  have haccepts : accepts callingSource = true := by decide +kernel
  have hmatters : limitMatters callingSource 1 2 = true := by decide +kernel
  obtain ⟨tree, a, hparse, ha⟩ := exists_analysis haccepts
  simp only [limitMatters, hparse, ha, Bool.and_eq_true, Bool.not_eq_true'] at hmatters
  obtain ⟨hcut, hends⟩ := hmatters
  obtain ⟨hshort, hdepth, hreported⟩ := run_cutShort (Nat.le_succ 1) a tree
  have hlong : ((Interpreter.new a 2).run tree).outcome = .ok () := by
    cases houtcome : ((Interpreter.new a 2).run tree).outcome with
    | ok _ => rfl
    | error e =>
        rw [houtcome] at hends
        cases hends
  refine ⟨tree, a, hparse, ha, hshort.resolve_right fun h => ?_, hlong, hdepth, hreported⟩
  rw [h.1, hlong] at hcut
  cases hcut

end MiniPascal
