/-
# What a statement does not look at

A statement reads and writes on the static chain of the record on top of the stack.  So two
stacks that differ off this chain only are the same to it: both executions end in the same
way, and what they leave on the chain is the same as well.  In particular a procedure
does not see the bindings of its caller, unless the caller is around it in the text.

* `CallStack.AgreeOnChain.eval` : expressions have the same value on stacks that agree;
* `CallStack.AgreeOnChain.pop` : what a called procedure leaves on stacks that agree;
* `preserved_blind` : every way of executing is blind to the records off the chain;
* `exec_noninterference` : so is every statement.
-/
import MiniPascal.Proofs.Footprint

set_option autoImplicit false

namespace MiniPascal

/-! ## Stacks that agree on the static chain -/

/-- Two stacks whose records have the same headings, and are the same on the static chain. -/
structure CallStack.AgreeOnChain (s t : CallStack) : Prop where
  size : t.size = s.size
  headings : ∀ i, t.heading? i = s.heading? i
  chain : ∀ i, s.OnChain i → t.get? i = s.get? i

namespace CallStack.AgreeOnChain

variable {a : Analysis} {s t u w : CallStack}

theorem resolve (h : s.AgreeOnChain t) (level : Nat) : t.resolve level = s.resolve level :=
  resolve_congr h.size (fun i => by rw [h.headings i]) level

theorem locate? (h : s.AgreeOnChain t) (v : Variable) : v.locate? a t = v.locate? a s := by
  have hresolve : t.resolve = s.resolve := funext h.resolve
  rw [Variable.locate?, Variable.locate?, hresolve]

/-- Variables have the same values. -/
theorem read? (h : s.AgreeOnChain t) (v : Variable) : v.read? a t = v.read? a s := by
  rw [Variable.read?, Variable.read?, h.locate? v]
  cases hindex : v.locate? a s with
  | none => rfl
  | some index =>
      obtain ⟨level, -, hresolve⟩ := Option.bind_eq_some_iff.1 hindex
      rw [Option.bind_some, Option.bind_some, h.chain index (onChain_of_resolve hresolve)]

/-- **Expressions have the same value** on stacks that agree. -/
theorem eval (h : s.AgreeOnChain t) (e : Expr) : e.eval a t = e.eval a s := by
  induction e with
  | literal value position => rw [Expr.eval, Expr.eval]
  | occurrence v => rw [Expr.eval, Expr.eval, h.read? v]
  | signed sign operand position ih => rw [Expr.eval, Expr.eval, ih]
  | binary op left right position ihl ihr => rw [Expr.eval, Expr.eval, ihl, ihr]

theorem evalAll (h : s.AgreeOnChain t) (es : List Expr) :
    Expr.evalAll a t es = Expr.evalAll a s es := by
  induction es with
  | nil => rw [Expr.evalAll, Expr.evalAll]
  | cons first rest ih => rw [Expr.evalAll, Expr.evalAll, h.eval first, ih]

theorem activate (h : s.AgreeOnChain t) (p : Procedure) (values : List Number) :
    p.activate t values = p.activate s values := by
  rw [Procedure.activate, Procedure.activate, h.resolve p.scopeLevel]

theorem linksDown (h : s.AgreeOnChain t) (hs : s.LinksDown) : t.LinksDown := hs.congr h.headings

theorem onChain (h : s.AgreeOnChain t) {i : Nat} (hi : t.OnChain i) : s.OnChain i :=
  hi.congr h.size.symm fun i => (h.headings i).symm

/-- **Binding a name** in the same record. -/
theorem set (h : s.AgreeOnChain t) {index : Nat} {name : String} {value : Number}
    (hchain : s.OnChain index) (hs : s.set? index name value = some u) :
    ∃ w, t.set? index name value = some w ∧ u.AgreeOnChain w := by
  obtain ⟨w, hw⟩ : ∃ w, t.set? index name value = some w := by
    unfold set? at hs ⊢
    rw [h.size]
    split at hs
    next hlt => exact ⟨_, if_pos hlt⟩
    next => cases hs
  refine ⟨w, hw, ?_, ?_, ?_⟩
  · rw [size_set hw, size_set hs, h.size]
  · intro i
    rw [heading?_set hw, heading?_set hs, h.headings i]
  · intro i hi
    have hold : s.OnChain i :=
      hi.congr (size_set hs).symm fun i => (heading?_set hs i).symm
    rw [get?_set hw, get?_set hs, h.chain index hchain, h.chain i hold]

/-- The same record on top. -/
theorem push (h : s.AgreeOnChain t) (hs : s.LinksDown) (p : Procedure)
    (values : List Number) :
    (s.push (p.activate s values)).AgreeOnChain (t.push (p.activate s values)) := by
  refine ⟨congrArg (· + 1) h.size, ?_, ?_⟩
  · intro i
    rw [heading?_push, heading?_push, h.size, h.headings i]
  · intro i hi
    rw [get?_push, get?_push, h.size]
    rcases onChain_of_push hs hi with rfl | hbelow
    · rw [if_pos rfl, if_pos rfl]
    · rw [h.chain i hbelow]

/-- **What a called procedure leaves** below its record on stacks that agree.  Records on the
chain of the caller that are off its own chain were left alone by both executions. -/
theorem pop (h : s.AgreeOnChain t) (hs : s.LinksDown) {p : Procedure} {values : List Number}
    (hu : Footprint (s.push (p.activate s values)) u)
    (hw : Footprint (t.push (p.activate s values)) w) (hends : u.AgreeOnChain w) :
    u.pop.AgreeOnChain w.pop := by
  have hrecord : p.activate t values = p.activate s values := h.activate p values
  have hleft : Footprint s u.pop := hu.pop hs
  have hright : Footprint t w.pop := Footprint.pop (h.linksDown hs) (hrecord ▸ hw)
  refine ⟨?_, ?_, ?_⟩
  · rw [hright.size, hleft.size, h.size]
  · intro i
    rw [hright.headings i, hleft.headings i, h.headings i]
  · intro i hi
    have hold : s.OnChain i := hi.congr hleft.size.symm fun i => (hleft.headings i).symm
    have hlt : i < s.size := hold.lt_size
    have hu' : u.pop.get? i = u.get? i := get?_pop (by rw [hleft.size]; exact hlt)
    have hw' : w.pop.get? i = w.get? i := get?_pop (by rw [hright.size, h.size]; exact hlt)
    rw [hu', hw']
    -- the record was open to the callee, or neither execution has touched it
    by_cases hcallee : u.OnChain i
    · exact hends.chain i hcallee
    · have hoff : ¬(s.push (p.activate s values)).OnChain i := fun hon =>
        hcallee (hon.congr hu.size hu.headings)
      have hoff' : ¬(t.push (p.activate s values)).OnChain i := fun hon =>
        hoff ((h.push hs p values).onChain hon)
      have hne : i ≠ s.size := Nat.ne_of_lt hlt
      rw [hw.frame i hoff', hu.frame i hoff, get?_push, get?_push, h.size, if_neg hne,
        if_neg hne]
      exact h.chain i hold

end CallStack.AgreeOnChain

/-! ## Executions -/

/-- An execution that goes the same way on stacks that agree on the static chain. -/
def Blind (run : Execution Unit) : Prop :=
  ∀ m m' : Machine, m.stack.LinksDown → m.stack.AgreeOnChain m'.stack →
    (Execution.startOn m' run).1 = (Execution.startOn m run).1 ∧
      (Execution.startOn m run).2.stack.AgreeOnChain (Execution.startOn m' run).2.stack

section Blind

variable {a : Analysis}

/-- Two executions in turn. -/
theorem Blind.seq {run more : Execution Unit} (hrun : Blind run) (hmore : Blind more)
    (hconfined : Confined run) : Blind (do run; more) := by
  intro m m' hm hagree
  have hdown := (hconfined m hm).linksDown hm
  obtain ⟨houtcome, hstack⟩ := hrun m m' hm hagree
  rw [startOn_seq, startOn_seq]
  revert houtcome hstack hdown
  rcases Execution.startOn m run with ⟨outcome, d⟩
  rcases Execution.startOn m' run with ⟨outcome', d'⟩
  intro hdown houtcome hstack
  obtain rfl : outcome' = outcome := houtcome
  cases outcome' with
  | error e => exact ⟨rfl, hstack⟩
  | ok value => exact hmore d d' hdown hstack

/-- An assignment. -/
theorem blind_assign (target : Variable) (value : Expr) : Blind (target.assign a value) := by
  intro m m' hm hagree
  rw [Variable.assign, startOn_compute_bind, startOn_compute_bind, hagree.eval value]
  cases value.eval a m.stack with
  | error e => exact ⟨rfl, hagree⟩
  | ok result =>
      show (Execution.startOn m' (target.write a result)).1
          = (Execution.startOn m (target.write a result)).1 ∧
        (Execution.startOn m (target.write a result)).2.stack.AgreeOnChain
          (Execution.startOn m' (target.write a result)).2.stack
      unfold Execution.startOn Variable.write
      rw [hagree.locate? target]
      cases hindex : target.locate? a m.stack with
      | none => exact ⟨rfl, hagree⟩
      | some index =>
          obtain ⟨level, -, hresolve⟩ := Option.bind_eq_some_iff.1 hindex
          rw [Option.bind_some, Option.bind_some]
          have hlt := CallStack.lt_size_of_resolve hresolve
          obtain ⟨u, hu⟩ : ∃ u, m.stack.set? index target.name result = some u :=
            ⟨_, if_pos hlt⟩
          obtain ⟨w, hw, hends⟩ := hagree.set (CallStack.onChain_of_resolve hresolve) hu
          rw [hu, hw]
          exact ⟨rfl, hends⟩

/-- A call of a procedure with a body that keeps to its footprint. -/
theorem Blind.call {body : Execution Unit} (hbody : Blind body) (hconfined : Confined body)
    (p : Procedure) (arguments : List Expr) : Blind (p.call a arguments body) := by
  intro m m' hm hagree
  rw [Procedure.call, startOn_compute_bind, startOn_compute_bind, hagree.evalAll arguments]
  cases Expr.evalAll a m.stack arguments with
  | error e => exact ⟨rfl, hagree⟩
  | ok values =>
      show (Execution.startOn m' (Execution.within (p.activate m'.stack values) body)).1
          = (Execution.startOn m (Execution.within (p.activate m.stack values) body)).1 ∧
        CallStack.AgreeOnChain
          (Execution.startOn m (Execution.within (p.activate m.stack values) body)).2.stack
          (Execution.startOn m' (Execution.within (p.activate m'.stack values) body)).2.stack
      rw [hagree.activate p values, startOn_within, startOn_within]
      have hentered : (m.enter (p.activate m.stack values)).stack.LinksDown := hm.call p values
      have hpushed : (m.enter (p.activate m.stack values)).stack.AgreeOnChain
          (m'.enter (p.activate m.stack values)).stack := hagree.push hm p values
      obtain ⟨houtcome, hends⟩ := hbody _ _ hentered hpushed
      exact ⟨houtcome, hagree.pop hm (hconfined _ hentered)
        (hconfined _ (hpushed.linksDown hentered)) hends⟩

/-- **Every way of executing** is blind to the records off the static chain. -/
theorem preserved_blind (a : Analysis) :
    Preserved a fun run => Confined run ∧ Blind run where
  nothing := ⟨(preserved_confined a).nothing, fun _ _ _ h => ⟨rfl, h⟩⟩
  seq := fun hrun hmore =>
    ⟨(preserved_confined a).seq hrun.1 hmore.1, hrun.2.seq hmore.2 hrun.1⟩
  assign := fun target value => ⟨confined_assign target value, blind_assign target value⟩
  fail := fun fault position =>
    ⟨(preserved_confined a).fail fault position, fun _ _ _ h => ⟨rfl, h⟩⟩
  call := fun p arguments _ hbody =>
    ⟨(preserved_confined a).call p arguments hbody.1, hbody.2.call hbody.1 p arguments⟩

end Blind

/-- **There is no dynamic scoping.**  Take two stacks with links that lead down, the same
headings and the same bindings on the static chain.  Whatever the analysis says, a statement
ends on both with the same outcome, and leaves the same bindings on that chain; the records
off the chain stay in each stack as they were. -/
theorem exec_noninterference (a : Analysis) (limit : Nat) (st : Statement) (m m' : Machine)
    (hm : m.stack.LinksDown) (hagree : m.stack.AgreeOnChain m'.stack) :
    (Execution.startOn m' (st.execUnder a limit)).1
        = (Execution.startOn m (st.execUnder a limit)).1 ∧
      (Execution.startOn m (st.execUnder a limit)).2.stack.AgreeOnChain
        (Execution.startOn m' (st.execUnder a limit)).2.stack ∧
      ∀ i, (m.stack.OnChain i →
          (Execution.startOn m' (st.execUnder a limit)).2.stack.get? i
            = (Execution.startOn m (st.execUnder a limit)).2.stack.get? i) ∧
        (¬m.stack.OnChain i →
          (Execution.startOn m (st.execUnder a limit)).2.stack.get? i = m.stack.get? i ∧
          (Execution.startOn m' (st.execUnder a limit)).2.stack.get? i = m'.stack.get? i) := by
  obtain ⟨hconfined, hblind⟩ :=
    (preserved_blind a).statement limit (limit + 1 - m.stack.size) st
  have hsame : Execution.startOn m' (st.execUnder a limit) = Execution.startOn m'
      (st.exec a (Call.perform a limit (limit + 1 - m.stack.size))) := by
    rw [← hagree.size]
    rfl
  have hfoot : Footprint m.stack (Execution.startOn m (st.execUnder a limit)).2.stack :=
    hconfined m hm
  have hfoot' : Footprint m'.stack (Execution.startOn m' (st.execUnder a limit)).2.stack :=
    hsame ▸ hconfined m' (hagree.linksDown hm)
  obtain ⟨houtcome, hends⟩ : (Execution.startOn m' (st.execUnder a limit)).1
        = (Execution.startOn m (st.execUnder a limit)).1 ∧
      (Execution.startOn m (st.execUnder a limit)).2.stack.AgreeOnChain
        (Execution.startOn m' (st.execUnder a limit)).2.stack :=
    hsame ▸ hblind m m' hm hagree
  refine ⟨houtcome, hends, ?_⟩
  intro i
  constructor
  · intro hi
    exact hends.chain i (hi.congr hfoot.size hfoot.headings)
  · intro hi
    have hi' : ¬m'.stack.OnChain i := fun hon => hi (hagree.onChain hon)
    exact ⟨hfoot.frame i hi, hfoot'.frame i hi'⟩

/-- The stack of two siblings, where the record of the caller binds a name. -/
def bindingCallerStack : CallStack :=
  ⟨[.new "Q" .procedure 2 (some 0), (ActivationRecord.new "R" .procedure 2 (some 0)).set "x"
    (.integer 7), .new "P" .program 1 none]⟩

/-- The caller is not on the static chain of its sibling. -/
theorem agreeOnChain_siblings : siblingStack.AgreeOnChain bindingCallerStack := by
  refine ⟨rfl, ?_, ?_⟩
  · intro i
    match i with
    | 0 => rfl
    | 1 => rfl
    | 2 => rfl
    | n + 3 => rfl
  · intro i hi
    obtain ⟨r, hr⟩ := (CallStack.onChain_iff linksDown_siblingStack).1 hi
    have hmem : i ∈ siblingStack.staticChain.map Prod.fst := List.mem_map_of_mem hr
    have hchain : siblingStack.staticChain.map Prod.fst = [2, 0] := rfl
    rw [hchain] at hmem
    rcases List.mem_cons.1 hmem with rfl | hmem
    · rfl
    · obtain rfl := List.mem_singleton.1 hmem
      rfl

/-- A call that fails in the same way whatever the caller binds. -/
theorem siblings_noninterference : siblingStack.LinksDown ∧
    siblingStack.AgreeOnChain bindingCallerStack ∧
    (Execution.startOn ⟨bindingCallerStack, []⟩
        ((Statement.call ⟨"Q", 1, [], .origin⟩).execUnder callingItself 5)).1
      = (Execution.startOn ⟨siblingStack, []⟩
        ((Statement.call ⟨"Q", 1, [], .origin⟩).execUnder callingItself 5)).1 ∧
    (Execution.startOn ⟨siblingStack, []⟩
        ((Statement.call ⟨"Q", 1, [], .origin⟩).execUnder callingItself 5)).2.stack.AgreeOnChain
      (Execution.startOn ⟨bindingCallerStack, []⟩
        ((Statement.call ⟨"Q", 1, [], .origin⟩).execUnder callingItself 5)).2.stack := by
  have hblind := exec_noninterference callingItself 5 (.call ⟨"Q", 1, [], .origin⟩)
    ⟨siblingStack, []⟩ ⟨bindingCallerStack, []⟩ linksDown_siblingStack agreeOnChain_siblings
  exact ⟨linksDown_siblingStack, agreeOnChain_siblings, hblind.1, hblind.2.1⟩

end MiniPascal
