/-
# Every run ends

A call that is entered leaves room for fewer calls, and a body that goes on has less left to
execute.  So the pair of both decreases from a moment to all that follow before its body is
left, and the run of every program comes to an end, whatever its analysis says.  Static
links lead down the stack, so the walk along a static chain comes to an end as well.

* `CallStack.walks_iff` : the walk along a static chain ends, in the record that resolves
  the level;
* `pending_step` : what a step leaves to be done;
* `remaining_lt` : the pair decreases until the body is left;
* `run_terminates` : every run ends.
-/
import Mathlib.Data.Prod.Lex
import MiniPascal.Proofs.Moments.Records
import MiniPascal.Proofs.Reuse

set_option autoImplicit false

namespace MiniPascal

/-! ## Walks along a static chain -/

namespace CallStack

variable {s : CallStack} {level : Nat}

/-- The walk that looks for a level from an index on, following static links without a
bound on their number, and where it ends. -/
inductive Walks (s : CallStack) (level : Nat) : Nat → Option Nat → Prop where
  | missing {index : Nat} (h : s.get? index = none) : Walks s level index none
  | found {index : Nat} {r : ActivationRecord} (h : s.get? index = some r)
      (hlevel : r.level = level) : Walks s level index (some index)
  | outermost {index : Nat} {r : ActivationRecord} (h : s.get? index = some r)
      (hlevel : r.level ≠ level) (hlink : r.staticLink = none) : Walks s level index none
  | link {index below : Nat} {r : ActivationRecord} {result : Option Nat}
      (h : s.get? index = some r) (hlevel : r.level ≠ level)
      (hlink : r.staticLink = some below) (hrest : Walks s level below result) :
      Walks s level index result

/-- A walk has one end only. -/
theorem Walks.unique {index : Nat} {result other : Option Nat} (h : s.Walks level index result)
    (hother : s.Walks level index other) : result = other := by
  induction h with
  | missing hnone => cases hother <;> simp_all
  | found hr hlevel => cases hother <;> simp_all
  | outermost hr hlevel hlink => cases hother <;> simp_all
  | link hr hlevel hlink _ ih => cases hother <;> simp_all

theorem Layered.link_lt (hs : s.Layered) {index below : Nat} {r : ActivationRecord}
    (hr : s.get? index = some r) (hlink : r.staticLink = some below) : below < index := by
  have hheading : s.heading? index = some r.heading := by rw [heading?, hr]; rfl
  exact hs.down index r.heading below hheading hlink

/-- Where links lead down, a walk ends within as many steps as there are indices. -/
theorem walks_chainFrom (hs : s.Layered) {steps index : Nat} (hindex : index < steps) :
    s.Walks level index
      (((s.chainFrom steps index).find? fun entry => entry.2.level == level).map Prod.fst) := by
  induction steps generalizing index with
  | zero => exact absurd hindex (Nat.not_lt_zero index)
  | succ steps ih =>
      unfold chainFrom
      cases hr : s.get? index with
      | none => exact .missing hr
      | some r =>
          by_cases hlevel : r.level = level
          · have hfound : (r.level == level) = true := beq_iff_eq.2 hlevel
            simp only [List.find?_cons, hfound]
            exact .found hr hlevel
          · have hnot : (r.level == level) = false := beq_false_of_ne hlevel
            simp only [List.find?_cons, hnot]
            cases hlink : r.staticLink with
            | none => exact .outermost hr hlevel hlink
            | some below =>
                have hdown : below < index := hs.link_lt hr hlink
                exact .link hr hlevel hlink (ih (by omega))

/-- **The walk along the static chain** ends in the record that resolves the level. -/
theorem walks_iff (hs : s.Layered) {result : Option Nat} :
    s.Walks level (s.size - 1) result ↔ s.resolve level = result := by
  have hends : s.Walks level (s.size - 1) (s.resolve level) := by
    by_cases hpos : 0 < s.size
    · exact walks_chainFrom hs (by omega)
    · have hzero : s.size = 0 := by omega
      have hresolve : s.resolve level = none := by
        rw [resolve, staticChain, hzero]
        rfl
      rw [hresolve]
      exact .missing (get?_eq_none_iff.2 (by omega))
  constructor
  · intro h
    exact hends.unique h
  · rintro rfl
    exact hends

end CallStack

/-! ## What is left to execute -/

mutual

/-- The size of a statement: the statements in it, itself included. -/
def Statement.work : Statement → Nat
  | .compound body => Statement.workAll body + 1
  | .assign _ _ _ => 1
  | .call _ => 1
  | .empty => 1

/-- The size of statements in turn. -/
def Statement.workAll : List Statement → Nat
  | [] => 0
  | first :: rest => first.work + Statement.workAll rest

end

theorem Statement.workAll_append (body more : List Statement) :
    Statement.workAll (body ++ more) = Statement.workAll body + Statement.workAll more := by
  induction body with
  | nil => exact (Nat.zero_add _).symm
  | cons first rest ih =>
      rw [List.cons_append, Statement.workAll, Statement.workAll, ih, Nat.add_assoc]

theorem Statement.work_pos (st : Statement) : 0 < st.work := by
  cases st with
  | compound body => exact Nat.succ_pos _
  | assign target value position => exact Nat.one_pos
  | call c => exact Nat.one_pos
  | empty => exact Nat.one_pos

theorem Statement.workAll_lt {body rest : List Statement} {st : Statement} (h : body = st :: rest) :
    Statement.workAll rest < Statement.workAll body := by
  have hpos := st.work_pos
  rw [h, Statement.workAll]
  omega

namespace Moment

/-- The size of what is left to execute in the running body: nothing after a fault. -/
def work (m : Moment) : Nat :=
  match m.fault with
  | some _ => 0
  | none => Statement.workAll m.running.rest

/-- The number of records that there is room for, and the size of what is left to execute in
the running body. -/
def remaining (limit : Nat) (m : Moment) : Nat × Nat :=
  (limit + 1 - m.machine.stack.size, m.work)

variable {a : Analysis} {limit : Nat} {m n : Moment}

/-- Without a fault all that is left of the body is to be executed. -/
theorem work_of_fault (h : m.fault = none) : m.work = Statement.workAll m.running.rest := by
  rw [work, h]

/-- No more than what is left of the body is to be executed. -/
theorem work_le (m : Moment) : m.work ≤ Statement.workAll m.running.rest := by
  unfold work
  cases m.fault with
  | none => exact Nat.le_refl _
  | some e => exact Nat.zero_le _

/-- What fails has a statement to execute. -/
theorem Fails.work_pos {e : RuntimeError} (h : m.Fails a limit e) :
    0 < Statement.workAll m.running.rest := by
  obtain ⟨st, rest, hrest⟩ : ∃ st rest, m.running.rest = st :: rest := by
    cases h with
    | value hrest _ => exact ⟨_, _, hrest⟩
    | target hrest _ _ => exact ⟨_, _, hrest⟩
    | callee hrest _ => exact ⟨_, _, hrest⟩
    | depth hrest _ _ => exact ⟨_, _, hrest⟩
    | argument hrest _ _ _ => exact ⟨_, _, hrest⟩
  exact Nat.lt_of_le_of_lt (Nat.zero_le _) (Statement.workAll_lt hrest)

/-- **What a step leaves to be done**: the body goes on with less, or it waits with less for
a body that is entered, or it is left. -/
theorem Step.work (h : m.Step a limit n) :
    (n.waiting = m.waiting ∧ n.work < m.work) ∨
      (∃ caller, n.waiting = caller :: m.waiting ∧ Statement.workAll caller.rest < m.work) ∨
      (m.waiting = n.running :: n.waiting) := by
  cases h with
  | fail hfault hfails =>
      refine Or.inl ⟨rfl, ?_⟩
      rw [work_of_fault hfault]
      exact hfails.work_pos
  | @skip rest hfault hrest =>
      refine Or.inl ⟨rfl, Nat.lt_of_le_of_lt (work_le _) ?_⟩
      rw [work_of_fault hfault]
      exact Statement.workAll_lt hrest
  | @expand body rest hfault hrest =>
      refine Or.inl ⟨rfl, Nat.lt_of_le_of_lt (work_le _) ?_⟩
      rw [work_of_fault hfault, hrest]
      show Statement.workAll (body ++ rest) < Statement.workAll body + 1 + Statement.workAll rest
      rw [Statement.workAll_append]
      omega
  | assign hfault hrest _ _ _ =>
      refine Or.inl ⟨rfl, Nat.lt_of_le_of_lt (work_le _) ?_⟩
      rw [work_of_fault hfault]
      exact Statement.workAll_lt hrest
  | enter hfault hrest _ _ _ =>
      refine Or.inr (Or.inl ⟨_, rfl, ?_⟩)
      rw [work_of_fault hfault]
      exact Statement.workAll_lt hrest
  | leave _ hwaiting => exact Or.inr (Or.inr hwaiting)

end Moment

/-! ## Moments before a body is left -/

/-- What is left of a body with `waiting` behind it: the body goes on with less than `work`,
or it waits with less for the bodies that have been entered from it. -/
def Pending (waiting : List Activity) (work : Nat) (m : Moment) : Prop :=
  (m.waiting = waiting ∧ m.work < work) ∨
    ∃ entered caller, m.waiting = entered ++ caller :: waiting ∧
      Statement.workAll caller.rest < work

section Pending

variable {a : Analysis} {limit work : Nat} {m n o : Moment} {waiting : List Activity}

/-- A body that is not left is still pending after a step. -/
theorem pending_step (h : Pending waiting work m) (hstep : m.Step a limit n)
    (hin : waiting.length ≤ n.waiting.length) : Pending waiting work n := by
  rcases h with ⟨hm, hless⟩ | ⟨entered, caller, hm, hless⟩
  · rcases hstep.work with ⟨hn, hwork⟩ | ⟨caller, hn, hwork⟩ | hleft
    · exact Or.inl ⟨hn.trans hm, Nat.lt_trans hwork hless⟩
    · exact Or.inr ⟨[], caller, by rw [hn, hm]; rfl, Nat.lt_trans hwork hless⟩
    -- leaving the body itself takes a record too many off the stack
    · rw [← hm, hleft, List.length_cons] at hin
      exact absurd hin (Nat.not_succ_le_self _)
  · rcases hstep.work with ⟨hn, -⟩ | ⟨other, hn, -⟩ | hleft
    · exact Or.inr ⟨entered, caller, hn.trans hm, hless⟩
    · exact Or.inr ⟨other :: entered, caller, by rw [hn, hm]; rfl, hless⟩
    · rw [hleft] at hm
      cases entered with
      | nil =>
          -- the body itself goes on
          obtain ⟨rfl, hwaiting⟩ := List.cons.inj hm
          exact Or.inl ⟨hwaiting, Nat.lt_of_le_of_lt n.work_le hless⟩
      | cons first others =>
          obtain ⟨-, hwaiting⟩ := List.cons.inj hm
          exact Or.inr ⟨others, caller, hwaiting, hless⟩

/-- A body is pending at all moments before it is left. -/
theorem pending_of_stays {size : Nat} (h : Stays a limit size m n)
    (hm : m.Stacked limit) (hsize : waiting.length + 1 = size)
    (hpending : Pending waiting work m) : Pending waiting work n ∧ n.Stacked limit := by
  induction h with
  | refl _ => exact ⟨hpending, hm⟩
  | @step m n o _ hnext hrest ih =>
      have hstep := Moment.next_eq_some_iff.1 hnext
      have hn : n.Stacked limit := stacked_step hm hstep
      have hin : size ≤ n.machine.stack.size := hrest.size_le
      have hwaiting : n.waiting.length + 1 = n.machine.stack.size := hn.size
      exact ih hn (pending_step hpending hstep (by omega))

/-- **The pair decreases** from a moment to all that follow before its body is left. -/
theorem remaining_lt (hm : m.Stacked limit) (hnext : m.next a limit = some n)
    (hstays : Stays a limit m.machine.stack.size n o) :
    Prod.Lex (· < ·) (· < ·) (o.remaining limit) (m.remaining limit) := by
  have hstep := Moment.next_eq_some_iff.1 hnext
  have hn : n.Stacked limit := stacked_step hm hstep
  have hmsize : m.waiting.length + 1 = m.machine.stack.size := hm.size
  have hnsize : n.waiting.length + 1 = n.machine.stack.size := hn.size
  have hin : m.waiting.length ≤ n.waiting.length := by
    have hfirst : m.machine.stack.size ≤ n.machine.stack.size := hstays.size_le
    omega
  have hpending : Pending m.waiting m.work n := by
    rcases hstep.work with hgoesOn | ⟨caller, hwaiting, hless⟩ | hleft
    · exact Or.inl hgoesOn
    · exact Or.inr ⟨[], caller, hwaiting, hless⟩
    · rw [hleft, List.length_cons] at hin
      exact absurd hin (Nat.not_succ_le_self _)
  obtain ⟨hopen, ho⟩ := pending_of_stays hstays hn hm.size hpending
  have hosize : o.waiting.length + 1 = o.machine.stack.size := ho.size
  have hbound : o.machine.stack.size ≤ limit + 1 := ho.bound
  rw [Prod.lex_iff]
  rcases hopen with ⟨hwaiting, hless⟩ | ⟨entered, caller, hwaiting, -⟩
  · have hsame : o.machine.stack.size = m.machine.stack.size := by
      rw [← hosize, hwaiting, hmsize]
    exact Or.inr ⟨by rw [Moment.remaining, hsame]; rfl, hless⟩
  · rw [hwaiting, List.length_append, List.length_cons] at hosize
    refine Or.inl ?_
    show limit + 1 - o.machine.stack.size < limit + 1 - m.machine.stack.size
    omega

end Pending

/-! ## Runs -/

/-- **Every run ends**: for every analysis and limit, and after any other runs of the same
interpreter, the run of a program comes to a last moment and leaves behind what that one
does.  At every moment on the way there are no more records than the limit allows, static links
lead down, so each walk along the static chain ends, and the room for calls together with what
is left to execute decreases until the running body is left. -/
theorem run_terminates (a : Analysis) (limit : Nat) (before : List Program) (tree : Program) :
    ∃ last, Leads a limit (.start tree) last ∧ last.next a limit = none ∧
      ((Interpreter.new a limit).runAll before).run tree = last.leftBehind a limit tree ∧
      ∀ m, Leads a limit (.start tree) m → Leads a limit m last ∧
        m.machine.stack.size ≤ limit + 1 ∧
        (∀ index r link, m.machine.stack.get? index = some r → r.staticLink = some link →
          link < index) ∧
        (∀ level result, m.machine.stack.Walks level (m.machine.stack.size - 1) result ↔
          m.machine.stack.resolve level = result) ∧
        ∀ n o, m.next a limit = some n → Stays a limit m.machine.stack.size n o →
          Prod.Lex (· < ·) (· < ·) (o.remaining limit) (m.remaining limit) := by
  obtain ⟨last, hlast, hover, hrun⟩ := leads_run tree a limit
  obtain ⟨finished, hbefore⟩ :=
    Interpreter.runAll_of_stack_empty (i := .new a limit) rfl before
  refine ⟨last, hlast, hover, ?_, fun m hm => ?_⟩
  · rw [hbefore]
    exact hrun
  · have hstacked : m.Stacked limit := stacked_of_leads hm
    exact ⟨hm.to_end hlast hover, hstacked.bound,
      fun _ _ _ hr hlink => hstacked.layered.link_lt hr hlink,
      fun _ _ => CallStack.walks_iff hstacked.layered,
      fun _ _ hnext hstays => remaining_lt hstacked hnext hstays⟩

end MiniPascal
