/-
# Runs of programs that are alike

Programs that are alike run in lock step: record by record their stacks differ in names only,
so expressions have the same values, and both runs end with the same fault or with
records that bind the same values.

* `ActivationRecord.Matches.set` : records stay alike when names that are alike are bound;
* `CallStack.Matches.resolve` : on stacks that are alike levels are resolved alike;
* `eval_matches` : expressions that are alike have the same value;
* `lockstep_perform` : calls of procedures that are alike;
* `run_matches`, `interpret_matches` : the runs of programs that are alike.
-/
import MiniPascal.Activation.Interpreter
import MiniPascal.Proofs.Likeness.Checks
import MiniPascal.Proofs.StaticChain

set_option autoImplicit false

namespace MiniPascal

variable {φ : Likeness}

/-! ## Records -/

/-- Records that are alike: they bind the same values to names that are alike, and the second
binds no other names. -/
structure ActivationRecord.Matches (φ : Likeness) (r r' : ActivationRecord) : Prop where
  name : r'.name = φ.rename r.name
  kind : r'.kind = r.kind
  level : r'.level = r.level
  staticLink : r'.staticLink = r.staticLink
  bound : ∀ name, r'.get? (φ.rename name) = r.get? name
  unbound : ∀ name, (∀ other, φ.rename other ≠ name) → r'.get? name = none

namespace ActivationRecord

variable {r r' : ActivationRecord}

theorem matches_new {name name' : String} (hname : name' = φ.rename name) (kind : BodyKind)
    (level : Nat) (staticLink : Option Nat) :
    (new name kind level staticLink).Matches φ (new name' kind level staticLink) :=
  ⟨hname, rfl, rfl, rfl, fun _ => rfl, fun _ _ => rfl⟩

/-- **Records stay alike** when names that are alike are bound. -/
theorem Matches.set (h : r.Matches φ r') (name : String) (value : Number) :
    (r.set name value).Matches φ (r'.set (φ.rename name) value) := by
  refine ⟨h.name, h.kind, h.level, h.staticLink, ?_, ?_⟩
  · intro other
    rw [get?_set, get?_set]
    by_cases heq : other = name
    · rw [if_pos heq, if_pos (congrArg φ.rename heq)]
    · rw [if_neg heq, if_neg fun hsame => heq (φ.injective hsame)]
      exact h.bound other
  · intro other hother
    rw [get?_set, if_neg (Ne.symm (hother name))]
    exact h.unbound other hother

/-- Without renaming records that are alike are equal. -/
theorem Matches.eq (hid : φ.rename = id) (h : r.Matches φ r') : r' = r := by
  obtain ⟨name, kind, level, staticLink, members⟩ := r
  obtain ⟨name', kind', level', staticLink', members'⟩ := r'
  obtain ⟨hname, hkind, hlevel, hstaticLink, hbound, -⟩ := h
  rw [hid] at hname hbound
  obtain rfl : name' = name := hname
  obtain rfl : kind' = kind := hkind
  obtain rfl : level' = level := hlevel
  obtain rfl : staticLink' = staticLink := hstaticLink
  obtain rfl : members' = members := NameTable.ext hbound
  rfl

end ActivationRecord

/-! ## Stacks -/

/-- Stacks that are alike, record by record. -/
structure CallStack.Matches (φ : Likeness) (s s' : CallStack) : Prop where
  size : s'.size = s.size
  records : ∀ i, Option.Rel (ActivationRecord.Matches φ) (s.get? i) (s'.get? i)

namespace CallStack

variable {s s' t : CallStack}

theorem matches_empty (φ : Likeness) : empty.Matches φ empty := ⟨rfl, fun _ => .none⟩

/-- The record on top has the last index. -/
theorem top?_eq (s : CallStack) : s.top? = s.get? (s.size - 1) := by
  obtain ⟨records⟩ := s
  cases records with
  | nil => rfl
  | cons r rest =>
      have hpush := get?_push ⟨rest⟩ r (CallStack.mk rest).size
      rw [if_pos rfl] at hpush
      exact hpush.symm

namespace Matches

/-- **Levels are resolved alike** on stacks that are alike. -/
theorem resolve (h : s.Matches φ s') (level : Nat) : s'.resolve level = s.resolve level := by
  refine resolve_congr h.size ?_ level
  intro i
  have hrecord := h.records i
  unfold heading?
  generalize s.get? i = found at hrecord ⊢
  generalize s'.get? i = found' at hrecord ⊢
  cases hrecord with
  | none => rfl
  | @some r r' hr =>
      show some (r'.level, r'.staticLink) = some (r.level, r.staticLink)
      rw [hr.level, hr.staticLink]

/-- Records that are alike on top. -/
theorem push (h : s.Matches φ s') {r r' : ActivationRecord} (hr : r.Matches φ r') :
    (s.push r).Matches φ (s'.push r') := by
  refine ⟨congrArg (· + 1) h.size, ?_⟩
  intro i
  rw [get?_push, get?_push, h.size]
  by_cases htop : i = s.size
  · rw [if_pos htop, if_pos htop]
    exact .some hr
  · rw [if_neg htop, if_neg htop]
    exact h.records i

/-- The records on top are taken away. -/
theorem pop (h : s.Matches φ s') : s.pop.Matches φ s'.pop := by
  have hsize : s'.pop.size = s.pop.size := by rw [size_pop, size_pop, h.size]
  refine ⟨hsize, ?_⟩
  intro i
  by_cases hi : i < s.pop.size
  · rw [get?_pop hi, get?_pop (hsize.symm ▸ hi)]
    exact h.records i
  · rw [get?_eq_none_iff.2 (by omega), get?_eq_none_iff.2 (by omega)]
    exact .none

/-- **Names that are alike** are bound in the same record. -/
theorem set (h : s.Matches φ s') (index : Nat) (name : String) (value : Number) :
    Option.Rel (CallStack.Matches φ) (s.set? index name value)
      (s'.set? index (φ.rename name) value) := by
  by_cases hindex : index < s.size
  · have hs : s.set? index name value = some _ := if_pos hindex
    have hs' : s'.set? index (φ.rename name) value = some _ := if_pos (h.size.symm ▸ hindex)
    rw [hs, hs']
    refine .some ⟨?_, ?_⟩
    · rw [size_set hs', size_set hs, h.size]
    · intro i
      rw [get?_set hs', get?_set hs]
      by_cases heq : i = index
      · rw [if_pos heq, if_pos heq]
        have hrecord := h.records index
        generalize s.get? index = found at hrecord ⊢
        generalize s'.get? index = found' at hrecord ⊢
        cases hrecord with
        | none => exact .none
        | some hr => exact .some (hr.set name value)
      · rw [if_neg heq, if_neg heq]
        exact h.records i
  · have hindex' : ¬index < s'.size := h.size.symm ▸ hindex
    have hs : s.set? index name value = none := if_neg hindex
    have hs' : s'.set? index (φ.rename name) value = none := if_neg hindex'
    rw [hs, hs']
    exact .none

theorem top? (h : s.Matches φ s') :
    Option.Rel (ActivationRecord.Matches φ) s.top? s'.top? := by
  rw [top?_eq, top?_eq, h.size]
  exact h.records (s.size - 1)

end Matches

end CallStack

/-! ## Expressions -/

/-- A fault with other names. -/
def RuntimeFault.rename (rename : String → String) : RuntimeFault → RuntimeFault
  | .undefinedVariable name => .undefinedVariable (rename name)
  | .unresolvedProcedure name => .unresolvedProcedure (rename name)
  | .arithmetic fault => .arithmetic fault
  | .callDepthExceeded limit => .callDepthExceeded limit

theorem RuntimeFault.rename_id (fault : RuntimeFault) : fault.rename id = fault := by
  cases fault <;> rfl

/-- Runtime errors that are alike. -/
structure RuntimeError.Matches (φ : Likeness) (e e' : RuntimeError) : Prop where
  fault : e'.value = e.value.rename φ.rename
  position : φ.places e.position e'.position

section Expressions

variable {a a' : Analysis} {s s' : CallStack}

theorem locate?_matches (ha : a.Matches φ a') (hs : s.Matches φ s') {v v' : Variable}
    (hv : v.Matches φ v') : v'.locate? a' s' = v.locate? a s := by
  have hresolve : s'.resolve = s.resolve := funext hs.resolve
  rw [Variable.locate?, Variable.locate?, hv.id, ha.levels, hresolve]

/-- Variables that are alike have the same value. -/
theorem read?_matches (ha : a.Matches φ a') (hs : s.Matches φ s') {v v' : Variable}
    (hv : v.Matches φ v') : v'.read? a' s' = v.read? a s := by
  rw [Variable.read?, Variable.read?, locate?_matches ha hs hv, hv.name]
  congr 1
  funext index
  have hrecord := hs.records index
  generalize s.get? index = found at hrecord ⊢
  generalize s'.get? index = found' at hrecord ⊢
  cases hrecord with
  | none => rfl
  | some hr => exact hr.bound v.name

theorem atOperator_matches {p p' : Position} (hposition : φ.places p p')
    (result : Except ArithmeticFault Number) :
    AnswersAlike (RuntimeError.Matches φ) Eq (atOperator p result) (atOperator p' result) := by
  cases result with
  | ok value => exact .ok rfl
  | error fault => exact .error ⟨rfl, hposition⟩

/-- **Expressions that are alike** have the same value, or fail alike. -/
theorem eval_matches (ha : a.Matches φ a') (hs : s.Matches φ s') {e e' : Expr}
    (h : e.Matches φ e') :
    AnswersAlike (RuntimeError.Matches φ) Eq (e.eval a s) (e'.eval a' s') := by
  induction h with
  | literal _ => exact .ok rfl
  | @occurrence v v' hv =>
      rw [Expr.eval, Expr.eval, read?_matches ha hs hv]
      cases v.read? a s with
      | none => exact .error ⟨congrArg RuntimeFault.undefinedVariable hv.name, hv.position⟩
      | some value => exact .ok rfl
  | signed _ hposition ih =>
      rw [Expr.eval, Expr.eval]
      refine AnswersAlike.bind ih fun value value' hvalue => ?_
      rw [hvalue]
      exact atOperator_matches hposition _
  | binary _ _ hposition ihl ihr =>
      rw [Expr.eval, Expr.eval]
      refine AnswersAlike.bind ihl fun l l' hl => AnswersAlike.bind ihr fun r r' hr => ?_
      rw [hl, hr]
      exact atOperator_matches hposition _

/-- So do expressions in turn. -/
theorem evalAll_matches (ha : a.Matches φ a') (hs : s.Matches φ s') {es es' : List Expr}
    (h : List.Forall₂ (Expr.Matches φ) es es') :
    AnswersAlike (RuntimeError.Matches φ) Eq (Expr.evalAll a s es)
      (Expr.evalAll a' s' es') := by
  induction h with
  | nil => exact .ok rfl
  | cons hfirst _ ih =>
      rw [Expr.evalAll, Expr.evalAll]
      refine AnswersAlike.bind (eval_matches ha hs hfirst) fun value value' hvalue => ?_
      refine AnswersAlike.bind ih fun more more' hmore => ?_
      rw [hvalue, hmore]
      exact .ok rfl

end Expressions

/-! ## Executions -/

/-- Two executions in lock step; what they have reported does not count. -/
abbrev RunsAlike {α α' : Type} (φ : Likeness) (values : α → α' → Prop) (run : Execution α)
    (run' : Execution α') : Prop :=
  Lockstep (fun m m' : Machine => m.stack.Matches φ m'.stack) (RuntimeError.Matches φ) values
    run run'

namespace Execution

theorem lockstep_fail {α α' : Type} {values : α → α' → Prop} {fault fault' : RuntimeFault}
    {p p' : Position} (hfault : fault' = fault.rename φ.rename) (hposition : φ.places p p') :
    RunsAlike φ values (fail fault p : Execution α) (fail fault' p') := by
  intro m m' hm
  exact .error ⟨hfault, hposition⟩ hm

/-- Values that are computed from stacks that are alike. -/
theorem lockstep_compute {α α' : Type} {values : α → α' → Prop}
    {f : CallStack → Except RuntimeError α} {f' : CallStack → Except RuntimeError α'}
    (h : ∀ s s', s.Matches φ s' → AnswersAlike (RuntimeError.Matches φ) values (f s) (f' s')) :
    RunsAlike φ values (compute f) (compute f') := by
  intro m m' hm
  have hanswers := h m.stack m'.stack hm
  unfold compute
  generalize f m.stack = answer at hanswers ⊢
  generalize f' m'.stack = answer' at hanswers ⊢
  cases hanswers with
  | ok hvalue => exact .ok hvalue hm
  | error herror => exact .error herror hm

/-- Bodies with records that are alike. -/
theorem lockstep_within {α α' : Type} {values : α → α' → Prop} {r r' : ActivationRecord}
    (hr : r.Matches φ r') {body : Execution α} {body' : Execution α'}
    (h : RunsAlike φ values body body') :
    RunsAlike φ values (within r body) (within r' body') := by
  intro m m' hm
  have hentered : (m.enter r).stack.Matches φ (m'.enter r').stack := hm.push hr
  have hends := h _ _ hentered
  unfold within
  generalize body (m.enter r) = result at hends ⊢
  generalize body' (m'.enter r') = result' at hends ⊢
  cases hends with
  | ok hvalue hstate => exact .ok hvalue hstate.pop
  | error herror hstate => exact .error herror hstate.pop

end Execution

open Execution

section Executions

variable {a a' : Analysis}

/-- Variables that are alike are assigned. -/
theorem lockstep_write (ha : a.Matches φ a') {v v' : Variable} (hv : v.Matches φ v')
    (value : Number) : RunsAlike φ Silent (v.write a value) (v'.write a' value) := by
  intro m m' hm
  unfold Variable.write
  rw [locate?_matches ha hm hv, hv.name]
  cases v.locate? a m.stack with
  | none => exact .error ⟨congrArg RuntimeFault.undefinedVariable rfl, hv.position⟩ hm
  | some index =>
      have hset := hm.set index v.name value
      rw [Option.bind_some, Option.bind_some]
      generalize m.stack.set? index v.name value = changed at hset ⊢
      generalize m'.stack.set? index (φ.rename v.name) value = changed' at hset ⊢
      cases hset with
      | none => exact .error ⟨rfl, hv.position⟩ hm
      | some hstack => exact .ok trivial hstack

mutual

/-- Statements that are alike run in lock step if calls do. -/
theorem lockstep_exec (ha : a.Matches φ a') {call call' : Call → Execution Unit}
    (hcall : ∀ c c', c.Matches φ c' → RunsAlike φ Silent (call c) (call' c')) (st : Statement)
    {st' : Statement} (h : st.Matches φ st') :
    RunsAlike φ Silent (st.exec a call) (st'.exec a' call') := by
  cases st with
  | compound body =>
      cases h with
      | compound hbody =>
          rw [Statement.exec, Statement.exec]
          exact lockstep_execAll ha hcall body hbody
  | assign target value position =>
      cases h with
      | assign htarget hvalue _ =>
          rw [Statement.exec, Statement.exec]
          refine Lockstep.bind
            (lockstep_compute fun s s' hs => eval_matches ha hs hvalue) fun x x' hx => ?_
          rw [hx]
          exact lockstep_write ha htarget x'
  | call c =>
      cases h with
      | call hc =>
          rw [Statement.exec, Statement.exec]
          exact hcall _ _ hc
  | empty =>
      cases h with
      | empty =>
          rw [Statement.exec, Statement.exec]
          exact Lockstep.pure trivial

/-- Statements in turn run in lock step if calls do. -/
theorem lockstep_execAll (ha : a.Matches φ a') {call call' : Call → Execution Unit}
    (hcall : ∀ c c', c.Matches φ c' → RunsAlike φ Silent (call c) (call' c'))
    (body : List Statement) {body' : List Statement}
    (h : List.Forall₂ (Statement.Matches φ) body body') :
    RunsAlike φ Silent (Statement.execAll a call body) (Statement.execAll a' call' body') := by
  cases body with
  | nil =>
      cases h with
      | nil =>
          rw [Statement.execAll, Statement.execAll]
          exact Lockstep.pure trivial
  | cons first rest =>
      cases h with
      | cons hfirst hrest =>
          rw [Statement.execAll, Statement.execAll]
          exact Lockstep.bind (lockstep_exec ha hcall first hfirst) fun _ _ _ =>
            lockstep_execAll ha hcall rest hrest

end

/-- Parameters that are alike are bound in turn to the same values. -/
theorem matches_bindAll {params params' : List TypedName}
    (hparams : List.Forall₂ (TypedName.Matches φ) params params') (values : List Number)
    {r r' : ActivationRecord} (hr : r.Matches φ r') :
    (r.bindAll params values).Matches φ (r'.bindAll params' values) := by
  induction hparams generalizing values r r' with
  | nil => exact hr
  | @cons param param' _ _ hparam _ ih =>
      cases values with
      | nil => exact hr
      | cons value more =>
          refine ih more ?_
          show (r.set param.name value).Matches φ (r'.set param'.name value)
          rw [hparam.name]
          exact hr.set param.name value

/-- Procedures that are alike get records that are alike. -/
theorem activate_matches {p p' : Procedure} (hp : p.Matches φ p') {s s' : CallStack}
    (hs : s.Matches φ s') (values : List Number) :
    (p.activate s values).Matches φ (p'.activate s' values) := by
  rw [p.activate_eq, p'.activate_eq, hs.resolve, hp.scopeLevel]
  exact matches_bindAll hp.params values (ActivationRecord.matches_new hp.name _ _ _)

/-- **Calls that are alike** run in lock step, however many calls may be nested in them. -/
theorem lockstep_perform (ha : a.Matches φ a') (limit left : Nat) {c c' : Call}
    (hc : c.Matches φ c') :
    RunsAlike φ Silent (Call.perform a limit left c) (Call.perform a' limit left c') := by
  have hprocedure := ha.procedures c.id
  -- the calls in the body may be nested once less
  induction left generalizing c c' with
  | zero =>
      rw [Call.perform, Call.perform, hc.id, hc.name]
      generalize a.procedure? c.id = found at hprocedure ⊢
      generalize a'.procedure? c.id = found' at hprocedure ⊢
      cases hprocedure with
      | none => exact lockstep_fail rfl hc.position
      | some _ => exact lockstep_fail rfl hc.position
  | succ left ih =>
      rw [Call.perform, Call.perform, hc.id, hc.name]
      generalize a.procedure? c.id = found at hprocedure ⊢
      generalize a'.procedure? c.id = found' at hprocedure ⊢
      cases hprocedure with
      | none => exact lockstep_fail rfl hc.position
      | @some p p' hp =>
          have hbody := lockstep_execAll ha (fun d d' hd => ih hd (ha.procedures d.id)) _
            hp.block.body
          refine Lockstep.bind (lockstep_compute fun s s' hs => ?_) fun r r' hr =>
            lockstep_within hr hbody
          refine AnswersAlike.bind (evalAll_matches ha hs hc.arguments)
            fun values values' hvalues => ?_
          rw [hvalues]
          exact .ok (activate_matches hp hs values')

end Executions

/-! ## Programs -/

/-- **The runs of programs that are alike** succeed both or fail with errors that are alike, and
leave records of the programs that are alike. -/
theorem run_matches {tree tree' : Program} {a a' : Analysis} (h : tree.Matches φ tree')
    (ha : a.Matches φ a') (limit : Nat) :
    AnswersAlike (RuntimeError.Matches φ) Silent ((Interpreter.new a limit).run tree).outcome
        ((Interpreter.new a' limit).run tree').outcome ∧
      Option.Rel (ActivationRecord.Matches φ)
        ((Interpreter.new a limit).run tree).interpreter.finished
        ((Interpreter.new a' limit).run tree').interpreter.finished := by
  have hrecord : (Interpreter.programRecord tree).Matches φ (Interpreter.programRecord tree') :=
    ActivationRecord.matches_new h.name _ _ _
  have hstart : ((Machine.mk .empty []).enter (Interpreter.programRecord tree)).stack.Matches φ
      ((Machine.mk .empty []).enter (Interpreter.programRecord tree')).stack :=
    (CallStack.matches_empty φ).push hrecord
  have hends := lockstep_execAll ha (fun c c' hc => lockstep_perform ha limit limit hc) _
    h.block.body _ _ hstart
  have hleft : ∀ p : Program, limit + 1
      - ((Machine.mk .empty []).enter (Interpreter.programRecord p)).stack.size = limit :=
    fun p => Nat.add_sub_cancel limit 1
  unfold Interpreter.run Execution.startOn
  simp only [Interpreter.new, hleft]
  generalize Statement.execAll a _ tree.block.body _ = result at hends ⊢
  generalize Statement.execAll a' _ tree'.block.body _ = result' at hends ⊢
  cases hends with
  | error herror hstack => exact ⟨.error herror, CallStack.Matches.top? hstack⟩
  | ok hvalue hstack => exact ⟨.ok hvalue, CallStack.Matches.top? hstack⟩

/-- **Programs that are alike** end with the same fault or with records that are alike. -/
theorem interpret_matches {tree tree' : Program} {a a' : Analysis} (h : tree.Matches φ tree')
    (ha : a.Matches φ a') (limit : Nat) :
    AnswersAlike (RuntimeError.Matches φ) (ActivationRecord.Matches φ)
      (interpret tree a limit).1 (interpret tree' a' limit).1 := by
  have hrecord : (Interpreter.programRecord tree).Matches φ (Interpreter.programRecord tree') :=
    ActivationRecord.matches_new h.name _ _ _
  obtain ⟨houtcome, hfinished⟩ := run_matches h ha limit
  unfold interpret
  generalize (Interpreter.new a limit).run tree = run at houtcome hfinished ⊢
  generalize (Interpreter.new a' limit).run tree' = run' at houtcome hfinished ⊢
  obtain ⟨outcome, _, _, _, _, finished⟩ := run
  obtain ⟨outcome', _, _, _, _, finished'⟩ := run'
  cases houtcome with
  | error herror => exact .error herror
  | ok _ =>
      refine .ok ?_
      cases hfinished with
      | none => exact hrecord
      | some hfinished => exact hfinished

end MiniPascal
