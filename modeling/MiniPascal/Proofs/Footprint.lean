/-
# The footprint of an execution

A statement works on the static chain of the record on top of the stack: it may bind names
in the records of that chain, it removes no binding, and it leaves all other records as they
are.  The calls in it push records whose chains lie on the same chain, and take them off
again even if they fail.

* `CallStack.onChain_iff` : the records on the static chain are those that the links lead
  to from the top;
* `CallStack.onChain_of_push` : the chain of a called procedure is part of that of its caller;
* `preserved_confined` : every way of executing keeps to its footprint;
* `exec_footprint` : the footprint of a statement.
-/
import MiniPascal.Proofs.Executions
import MiniPascal.Proofs.Moments.Bindings

set_option autoImplicit false

namespace MiniPascal

namespace CallStack

variable {s t : CallStack}

/-! ## Records on the static chain -/

/-- The static links lead from one record to another one, in any number of steps. -/
inductive Reaches (s : CallStack) : Nat → Nat → Prop where
  | here {i : Nat} {h : Heading} (hi : s.heading? i = some h) : Reaches s i i
  | link {i j k : Nat} {h : Heading} (hi : s.heading? i = some h)
      (hlink : h.staticLink = some j) (hrest : Reaches s j k) : Reaches s i k

/-- A record lies on the static chain of the stack: the links lead to it from the top. -/
def OnChain (s : CallStack) (i : Nat) : Prop := s.Reaches (s.size - 1) i

theorem Reaches.trans {i j k : Nat} (h : s.Reaches i j) (hrest : s.Reaches j k) :
    s.Reaches i k := by
  induction h with
  | here _ => exact hrest
  | link hi hlink _ ih => exact .link hi hlink (ih hrest)

theorem Reaches.congr {i k : Nat} (h : s.Reaches i k)
    (hsame : ∀ i, t.heading? i = s.heading? i) : t.Reaches i k := by
  induction h with
  | here hi => exact .here ((hsame _).trans hi)
  | link hi hlink _ ih => exact .link ((hsame _).trans hi) hlink ih

/-- What links lead to is listed by a chain with as many steps as there are indices. -/
theorem Reaches.mem_chainFrom (hs : s.LinksDown) {i k steps : Nat} (h : s.Reaches i k)
    (hsteps : i < steps) : ∃ r, (k, r) ∈ s.chainFrom steps i := by
  induction h generalizing steps with
  | here hi =>
      obtain ⟨n, rfl⟩ : ∃ n, steps = n + 1 := ⟨steps - 1, by omega⟩
      obtain ⟨r, -, hchain⟩ := Spine.chainFrom_succ hi n
      exact ⟨r, by rw [hchain]; exact List.mem_cons_self⟩
  | @link i j k h hi hlink _ ih =>
      obtain ⟨n, rfl⟩ : ∃ n, steps = n + 1 := ⟨steps - 1, by omega⟩
      obtain ⟨r, -, hchain⟩ := Spine.chainFrom_succ hi n
      have hdown : j < i := hs i h j hi hlink
      obtain ⟨q, hq⟩ := @ih n (by omega)
      rw [hchain, hlink]
      exact ⟨q, List.mem_cons_of_mem (i, r) hq⟩

/-- What a chain lists the links lead to. -/
theorem reaches_of_mem_chainFrom {steps i : Nat} {entry : Nat × ActivationRecord}
    (h : entry ∈ s.chainFrom steps i) : s.Reaches i entry.1 := by
  induction steps generalizing i with
  | zero => cases h
  | succ n ih =>
      rw [chainFrom] at h
      cases hget : s.get? i with
      | none =>
          rw [hget] at h
          cases h
      | some r =>
          have hi : s.heading? i = some r.heading := by rw [heading?, hget]; rfl
          rw [hget] at h
          rcases List.mem_cons.1 h with rfl | hbelow
          · exact .here hi
          · cases hlink : r.staticLink with
            | none =>
                rw [hlink] at hbelow
                cases hbelow
            | some j =>
                rw [hlink] at hbelow
                exact .link hi hlink (ih hbelow)

/-- **The records on the static chain** are those that the chain lists. -/
theorem onChain_iff (hs : s.LinksDown) {i : Nat} :
    s.OnChain i ↔ ∃ r, (i, r) ∈ s.staticChain := by
  constructor
  · intro h
    by_cases hpos : 0 < s.size
    · exact Reaches.mem_chainFrom hs h (by omega)
    · -- there is no record on an empty stack
      have hnone : ∀ h, s.heading? (s.size - 1) ≠ some h := by
        intro h hi
        have hlt := lt_size_of_heading? hi
        omega
      cases h with
      | here hi => exact absurd hi (hnone _)
      | link hi _ _ => exact absurd hi (hnone _)
  · rintro ⟨r, hr⟩
    exact reaches_of_mem_chainFrom hr

theorem OnChain.lt_size {i : Nat} (h : s.OnChain i) : i < s.size := by
  unfold OnChain at h
  generalize s.size - 1 = top at h
  induction h with
  | here hi => exact lt_size_of_heading? hi
  | link _ _ _ ih => exact ih

/-- A level is resolved to a record on the static chain. -/
theorem onChain_of_resolve {level i : Nat} (h : s.resolve level = some i) : s.OnChain i := by
  obtain ⟨r, hr, -, -⟩ := resolve_eq_some h
  exact reaches_of_mem_chainFrom hr

theorem OnChain.congr {i : Nat} (h : s.OnChain i) (hsize : t.size = s.size)
    (hsame : ∀ i, t.heading? i = s.heading? i) : t.OnChain i := by
  show t.Reaches (t.size - 1) i
  rw [hsize]
  exact Reaches.congr h hsame

/-- A new record on top changes no chain below. -/
theorem Reaches.of_push (hs : s.LinksDown) {r : ActivationRecord} {i k : Nat}
    (h : (s.push r).Reaches i k) (hi : i < s.size) : s.Reaches i k := by
  induction h with
  | here hheading => exact .here ((heading?_push_of_lt r hi).symm.trans hheading)
  | @link i j k h hheading hlink _ ih =>
      have hold : s.heading? i = some h := (heading?_push_of_lt r hi).symm.trans hheading
      have hdown : j < i := hs i h j hold hlink
      exact .link hold hlink (ih (by omega))

/-- **The chain of a called procedure** is its own record and a part of the chain of its
caller. -/
theorem onChain_of_push (hs : s.LinksDown) {p : Procedure} {values : List Number} {i : Nat}
    (h : (s.push (p.activate s values)).OnChain i) : i = s.size ∨ s.OnChain i := by
  have htop : (s.push (p.activate s values)).size - 1 = s.size := Nat.add_sub_cancel s.size 1
  have hheading : (s.push (p.activate s values)).heading? s.size
      = some ⟨p.name, .procedure, p.scopeLevel + 1, s.resolve p.scopeLevel⟩ := by
    rw [heading?_push, if_pos rfl, heading_activate]
  unfold OnChain at h
  rw [htop] at h
  cases h with
  | here _ => exact Or.inl rfl
  | @link _ j _ h hi hlink hrest =>
      rw [hheading] at hi
      cases hi
      -- the link was resolved on the chain of the caller
      have hj : s.OnChain j := onChain_of_resolve hlink
      exact Or.inr (Reaches.trans hj (hrest.of_push hs (lt_size_of_resolve hlink)))

end CallStack

/-! ## Footprints -/

/-- What may have become of a stack when an execution ends: the headings of all records are
the same, the records off the static chain are the same, and no binding is lost. -/
structure Footprint (s t : CallStack) : Prop where
  size : t.size = s.size
  headings : ∀ i, t.heading? i = s.heading? i
  frame : ∀ i, ¬s.OnChain i → t.get? i = s.get? i
  keeps : ∀ i name, s.Binds i name → t.Binds i name

namespace Footprint

variable {s t u : CallStack}

theorem refl (s : CallStack) : Footprint s s :=
  ⟨rfl, fun _ => rfl, fun _ _ => rfl, fun _ _ h => h⟩

/-- Footprints of executions in turn. -/
theorem trans (h : Footprint s t) (hmore : Footprint t u) : Footprint s u := by
  refine ⟨hmore.size.trans h.size, fun i => (hmore.headings i).trans (h.headings i), ?_, ?_⟩
  · intro i hi
    -- the chain is the same at the start of the second execution
    have hoff : ¬t.OnChain i := fun hon =>
      hi (hon.congr h.size.symm fun i => (h.headings i).symm)
    exact (hmore.frame i hoff).trans (h.frame i hi)
  · intro i name hbinds
    exact hmore.keeps i name (h.keeps i name hbinds)

theorem linksDown (h : Footprint s t) (hs : s.LinksDown) : t.LinksDown := hs.congr h.headings

/-- Binding a name in a record of the chain. -/
theorem set {index : Nat} {name : String} {value : Number} (hchain : s.OnChain index)
    (ht : s.set? index name value = some t) : Footprint s t := by
  refine ⟨CallStack.size_set ht, CallStack.heading?_set ht, ?_, ?_⟩
  · intro i hi
    have hne : i ≠ index := fun heq => hi (heq ▸ hchain)
    rw [CallStack.get?_set ht, if_neg hne]
  · intro i other hbinds
    exact (CallStack.binds_set ht).2 (Or.inr hbinds)

/-- **What a called procedure leaves behind** below its record is a footprint of the call. -/
theorem pop (hs : s.LinksDown) {p : Procedure} {values : List Number}
    (h : Footprint (s.push (p.activate s values)) t) : Footprint s t.pop := by
  have hsize : t.pop.size = s.size :=
    (CallStack.size_pop t).trans (Nat.sub_eq_of_eq_add h.size)
  have hget : ∀ i, i < s.size → t.pop.get? i = t.get? i := fun i hi =>
    CallStack.get?_pop (hsize.symm ▸ hi)
  have hold : ∀ i, i < s.size →
      (s.push (p.activate s values)).get? i = s.get? i := fun i hi => by
    rw [CallStack.get?_push, if_neg (Nat.ne_of_lt hi)]
  -- neither stack has a record above
  have habove : ∀ i, ¬i < s.size → t.pop.get? i = s.get? i := fun i hi => by
    rw [CallStack.get?_eq_none_iff.2 (by omega), CallStack.get?_eq_none_iff.2 (by omega)]
  refine ⟨hsize, ?_, ?_, ?_⟩
  · intro i
    by_cases hi : i < s.size
    · have hheading : t.heading? i = s.heading? i :=
        (h.headings i).trans (CallStack.heading?_push_of_lt _ hi)
      rw [CallStack.heading?, hget i hi]
      exact hheading
    · rw [CallStack.heading?, habove i hi, CallStack.heading?]
  · intro i hoff
    by_cases hi : i < s.size
    · have hoff' : ¬(s.push (p.activate s values)).OnChain i := by
        intro hon
        rcases CallStack.onChain_of_push hs hon with rfl | hon
        · exact Nat.lt_irrefl _ hi
        · exact hoff hon
      rw [hget i hi, h.frame i hoff', hold i hi]
    · exact habove i hi
  · intro i name hbinds
    have hi : i < s.size := by
      obtain ⟨r, value, hr, -⟩ := hbinds
      refine Nat.lt_of_not_le fun hle => ?_
      rw [CallStack.get?_eq_none_iff.2 hle] at hr
      cases hr
    have hpushed : (s.push (p.activate s values)).Binds i name :=
      (CallStack.binds_congr (hold i hi)).2 hbinds
    exact (CallStack.binds_congr (hget i hi)).2 (h.keeps i name hpushed)

end Footprint

/-! ## Executions -/

/-- An execution that keeps to its footprint, whether it succeeds or fails. -/
def Confined (run : Execution Unit) : Prop :=
  ∀ m : Machine, m.stack.LinksDown → Footprint m.stack (Execution.startOn m run).2.stack

section Confined

variable {a : Analysis}

/-- A value of the stack that is computed first. -/
theorem startOn_compute_bind {α : Type} (f : CallStack → Except RuntimeError α)
    (more : α → Execution Unit) (m : Machine) :
    Execution.startOn m (do let x ← Execution.compute f; more x) =
      match f m.stack with
      | .ok x => Execution.startOn m (more x)
      | .error e => (.error e, m) := by
  unfold Execution.startOn
  simp only [bind, EStateM.bind, Execution.compute]
  cases f m.stack <;> rfl

/-- Executions in turn. -/
theorem startOn_seq (run more : Execution Unit) (m : Machine) :
    Execution.startOn m (do run; more) =
      match Execution.startOn m run with
      | (.ok _, d) => Execution.startOn d more
      | (.error e, d) => (.error e, d) := by
  unfold Execution.startOn
  simp only [bind, EStateM.bind]
  cases run m <;> rfl

theorem startOn_within (r : ActivationRecord) (body : Execution Unit) (m : Machine) :
    Execution.startOn m (Execution.within r body) =
      ((Execution.startOn (m.enter r) body).1,
        (Execution.startOn (m.enter r) body).2.leave r) := by
  unfold Execution.startOn Execution.within
  cases body (m.enter r) <;> rfl

/-- An assignment binds a name in a record of the chain. -/
theorem confined_assign (target : Variable) (value : Expr) :
    Confined (target.assign a value) := by
  intro m hm
  rw [Variable.assign, startOn_compute_bind]
  cases value.eval a m.stack with
  | error e => exact .refl m.stack
  | ok result =>
      show Footprint m.stack (Execution.startOn m (target.write a result)).2.stack
      unfold Execution.startOn Variable.write
      cases hset : (target.locate? a m.stack).bind
          fun index => m.stack.set? index target.name result with
      | none => exact .refl m.stack
      | some stack =>
          obtain ⟨index, hindex, hstack⟩ := Option.bind_eq_some_iff.1 hset
          obtain ⟨level, -, hresolve⟩ := Option.bind_eq_some_iff.1 hindex
          exact .set (CallStack.onChain_of_resolve hresolve) hstack

/-- **Every way of executing** keeps to its footprint. -/
theorem preserved_confined (a : Analysis) : Preserved a Confined where
  nothing := fun m _ => .refl m.stack
  seq := by
    intro run more hrun hmore m hm
    have hfirst := hrun m hm
    rw [startOn_seq]
    revert hfirst
    rcases Execution.startOn m run with ⟨e | value, d⟩
    · exact id
    · intro hfirst
      exact hfirst.trans (hmore d (hfirst.linksDown hm))
  assign := confined_assign
  fail := fun _ _ m _ => .refl m.stack
  call := by
    intro p arguments body hbody m hm
    rw [Procedure.call, startOn_compute_bind]
    cases Expr.evalAll a m.stack arguments with
    | error e => exact .refl m.stack
    | ok values =>
        show Footprint m.stack (Execution.startOn m
          (Execution.within (p.activate m.stack values) body)).2.stack
        rw [startOn_within]
        -- the body works on the stack with the record of the call on top
        have hentered : (m.enter (p.activate m.stack values)).stack.LinksDown := hm.call p values
        exact Footprint.pop hm (hbody (m.enter (p.activate m.stack values)) hentered)

end Confined

/-- **The footprint of a statement.**  Whatever the analysis says, a statement that is executed
on a stack with links that lead down leaves as many records as there were, with the same
names, kinds, levels and links, whether it succeeds or fails.  The bindings of records off the
static chain stay as they are, and those of records on the chain may be changed or added to,
but none is removed. -/
theorem exec_footprint (a : Analysis) (limit : Nat) (st : Statement) (m : Machine)
    (hm : m.stack.LinksDown) :
    Footprint m.stack (Execution.startOn m (st.execUnder a limit)).2.stack :=
  (preserved_confined a).statement limit (limit + 1 - m.stack.size) st m hm

/-- A stack on which two procedures run, both declared by the program. -/
def siblingStack : CallStack :=
  ⟨[.new "Q" .procedure 2 (some 0), .new "R" .procedure 2 (some 0), .new "P" .program 1 none]⟩

/-- The links of this stack lead down to the program. -/
theorem linksDown_siblingStack : siblingStack.LinksDown := by
  intro i h j hi hlink
  match i with
  | 0 =>
      cases hi
      cases hlink
  | 1 =>
      cases hi
      cases hlink
      decide
  | 2 =>
      cases hi
      cases hlink
      decide
  | n + 3 =>
      have hlt : n + 3 < 3 := CallStack.lt_size_of_heading? hi
      omega

/-- An analysis of a call without a program: the procedure assigns a variable of the
program, and then calls itself. -/
def callingItself : Analysis :=
  ⟨[(0, 1)], [(1, ⟨"Q", [], 1, ⟨[],
    [.assign ⟨"x", 0, .origin⟩ (.literal (.integer 1) .origin) .origin,
      .call ⟨"Q", 1, [], .origin⟩]⟩⟩)], .global⟩

/-- The footprint of a call that fails because it would have to nest too deeply. -/
theorem siblingStack_footprint : siblingStack.LinksDown ∧
    Footprint siblingStack (Execution.startOn ⟨siblingStack, []⟩
      ((Statement.call ⟨"Q", 1, [], .origin⟩).execUnder callingItself 5)).2.stack :=
  ⟨linksDown_siblingStack,
    exec_footprint callingItself 5 (.call ⟨"Q", 1, [], .origin⟩) ⟨siblingStack, []⟩
      linksDown_siblingStack⟩

end MiniPascal
