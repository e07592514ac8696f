/-
# Entering and leaving

At the debug level a log shows what is entered and left: scopes while names are checked, bodies
while a program runs.  What is entered is left again, the innermost first, whether the check or
the run succeeds or not.

* `Nested` : lines that enter and leave in proper nesting, up to a depth;
* `Program.check_nests` : the lines of a check;
* `follows_perform` : a call that at most `left` calls may be nested in writes lines nested at
  most that deep;
* `interpret_nests` : the lines of a run;
* `debugLines_runLogged` : the lines of a whole log.
-/
import MiniPascal.Proofs.Checks
import MiniPascal.Proofs.Executions
import MiniPascal.Proofs.StaticChain
import MiniPascal.Source

set_option autoImplicit false

namespace MiniPascal

open Execution

/-! ## Nested lines -/

/-- Lines that enter and leave named things in proper nesting, no more than `depth` deep. -/
inductive Nested (named : String → Prop) (enter leave : String → String) :
    Nat → List String → Prop
  | nil {depth : Nat} : Nested named enter leave depth []
  | span {depth : Nat} {name : String} {inner rest : List String} (hname : named name)
      (hinner : Nested named enter leave depth inner)
      (hrest : Nested named enter leave (depth + 1) rest) :
      Nested named enter leave (depth + 1) (enter name :: (inner ++ leave name :: rest))

namespace Nested

variable {named : String → Prop} {enter leave : String → String} {depth more : Nat}
  {first second : List String}

/-- Nested lines in turn. -/
theorem append (hfirst : Nested named enter leave depth first)
    (hsecond : Nested named enter leave depth second) :
    Nested named enter leave depth (first ++ second) := by
  induction hfirst with
  | nil => exact hsecond
  | @span depth name inner rest hname hinner _ _ ih =>
      rw [List.cons_append, List.append_assoc, List.cons_append]
      exact .span hname hinner (ih hsecond)

/-- A greater depth allows more. -/
theorem mono (h : Nested named enter leave depth first) (hle : depth ≤ more) :
    Nested named enter leave more first := by
  induction h generalizing more with
  | nil => exact .nil
  | span hname _ _ ihinner ihrest =>
      obtain ⟨more, rfl⟩ : ∃ k, more = k + 1 := ⟨more - 1, by omega⟩
      exact .span hname (ihinner (Nat.le_of_succ_le_succ hle)) (ihrest hle)

theorem single {name : String} (hname : named name)
    (h : Nested named enter leave depth first) :
    Nested named enter leave (depth + 1) (enter name :: (first ++ [leave name])) :=
  .span hname h .nil

end Nested

/-! ## Lines of a log -/

/-- The lines that a log shows at the debug level. -/
def debugLines (log : List Event) : List String :=
  (log.filter (Event.isShown .debug)).map Event.text

theorem debugLines_append (log log' : List Event) :
    debugLines (log ++ log') = debugLines log ++ debugLines log' := by
  unfold debugLines
  rw [List.filter_append, List.map_append]

/-- Events of the trace level are not shown. -/
theorem debugLines_eq_nil {log : List Event} (h : ∀ e ∈ log, e.level = .trace) :
    debugLines log = [] := by
  unfold debugLines
  rw [List.map_eq_nil_iff, List.filter_eq_nil_iff]
  intro e he
  unfold Event.isShown
  rw [h e he]
  decide

theorem debugLines_tokens (tokens : List (Located Token)) :
    debugLines (tokens.map Event.token) = [] :=
  debugLines_eq_nil (by simp [Event.level])

/-- Lines of scopes that are entered and left. -/
abbrev NestedScopes (named : String → Prop) : Nat → List String → Prop :=
  Nested named ("ENTER scope: " ++ ·) ("LEAVE scope: " ++ ·)

/-- Lines of calls that are entered and left. -/
abbrev NestedCalls (named : String → Prop) : Nat → List String → Prop :=
  Nested named ("ENTER: PROCEDURE " ++ ·) ("LEAVE: PROCEDURE " ++ ·)

/-! ## Checks -/

namespace Checker

/-- The lines of a check so far. -/
def lines (c : Checker) : List String := debugLines (c.events.reverse.map Event.scope)

/-- From one state of the checker to another one the same scopes are open, and the lines in
between are nested. -/
structure Nests (named : String → Prop) (c d : Checker) : Prop where
  name : d.current.name = c.current.name
  outer : d.outer = c.outer
  lines : ∃ depth more, NestedScopes named depth more ∧ d.lines = c.lines ++ more

section Nests

variable {named : String → Prop} {c d e : Checker}

theorem lines_report (c : Checker) (events : List ScopeEvent) :
    (c.report events).lines = c.lines ++ debugLines (events.map Event.scope) := by
  unfold lines report
  rw [List.reverse_append, List.reverse_reverse, List.map_append, debugLines_append]

theorem lines_enter (c : Checker) (name : String) :
    (c.enter name).lines = c.lines ++ ["ENTER scope: " ++ name] := by
  unfold lines enter
  rw [List.reverse_cons, List.map_append, debugLines_append]
  rfl

/-- Closing a scope is shown. -/
theorem lines_leave {parent : Scope} {rest : List Scope} (h : c.outer = parent :: rest) :
    c.leave.lines = c.lines ++ ["LEAVE scope: " ++ c.current.name] := by
  unfold leave
  rw [h]
  unfold lines
  rw [List.reverse_cons, List.reverse_cons, List.append_assoc, List.map_append, debugLines_append]
  rfl

theorem Nests.refl (c : Checker) : c.Nests named c :=
  ⟨rfl, rfl, 0, [], .nil, (List.append_nil _).symm⟩

theorem Nests.of_eq (hname : d.current.name = c.current.name) (houter : d.outer = c.outer)
    (hlines : d.lines = c.lines) : c.Nests named d :=
  ⟨hname, houter, 0, [], .nil, by rw [hlines, List.append_nil]⟩

theorem Nests.trans (hcd : c.Nests named d) (hde : d.Nests named e) : c.Nests named e := by
  obtain ⟨depth, first, hfirst, hd⟩ := hcd.lines
  obtain ⟨more, second, hsecond, he⟩ := hde.lines
  refine ⟨hde.name.trans hcd.name, hde.outer.trans hcd.outer, max depth more, first ++ second,
    (hfirst.mono (Nat.le_max_left _ _)).append (hsecond.mono (Nat.le_max_right _ _)), ?_⟩
  rw [he, hd, List.append_assoc]

/-- **A scope** that is opened is closed again. -/
theorem Nests.inScope {name : String} (hname : named name)
    (h : (c.enter name).Nests named d) : c.Nests named d.leave := by
  obtain ⟨depth, inner, hinner, hd⟩ := h.lines
  have houter : d.outer = c.current :: c.outer := h.outer
  have hleave : d.leave.current = c.current ∧ d.leave.outer = c.outer := by
    unfold leave
    rw [houter]
    exact ⟨rfl, rfl⟩
  refine ⟨by rw [hleave.1], hleave.2, depth + 1, _, .single hname hinner, ?_⟩
  rw [lines_leave houter, hd, lines_enter, h.name, List.append_assoc, List.append_assoc]
  rfl

end Nests

end Checker

/-- A procedure of this name is declared in a program. -/
def Program.Declares (tree : Program) (name : String) : Prop :=
  ∃ p outer, p :: outer ∈ tree.procedures ∧ p.name = name

/-- **The steps of a check** write nested lines. -/
theorem upheld_nests (named : String → Prop) :
    Upheld (fun p => named p.name) (Checker.Nests named) where
  refl := Checker.Nests.refl
  trans := Checker.Nests.trans
  lookup name c := by
    refine .of_eq rfl rfl ?_
    rw [Checker.lines_report, debugLines_eq_nil (by simp [Event.level, ScopeEvent.level]),
      List.append_nil]
  inserting symbol c := by
    refine .of_eq rfl rfl ?_
    rw [Checker.lines_report, debugLines_eq_nil (by simp [Event.level, ScopeEvent.level]),
      List.append_nil]
  insert h := by
    refine .of_eq ?_ rfl rfl
    unfold Scope.insert? at h
    split at h
    · cases h
    · cases h
      rfl
  resolveVariable _ _ _ := .of_eq rfl rfl rfl
  resolveCall _ _ _ := .of_eq rfl rfl rfl
  inScope hname h := h.inScope hname

/-- **The lines of a check**: the global scope is entered, then the scopes of procedures are
entered and left in proper nesting, and only if the check succeeds the global scope is left. -/
theorem Program.check_nests (tree : Program) :
    ∃ depth scopes, NestedScopes tree.Declares depth scopes ∧
      debugLines (tree.check.2.map Event.scope)
        = "ENTER scope: global" :: (scopes ++ match tree.check.1 with
          | .ok _ => ["LEAVE scope: global"]
          | .error _ => []) := by
  have hfollows : Follows (Checker.Nests tree.Declares) tree.block.check :=
    (upheld_nests tree.Declares).block fun p outer hmem => ⟨p, outer, hmem, rfl⟩
  have hcheck := hfollows .start
  have hstart : Checker.start.lines = ["ENTER scope: global"] := rfl
  unfold Program.check
  cases hblock : tree.block.check .start with
  | ok x c =>
      rw [hblock] at hcheck
      obtain ⟨hname, -, depth, scopes, hscopes, hlines⟩ := hcheck
      refine ⟨depth, scopes, hscopes, ?_⟩
      show (c.report [.left c.current.name, .closed c.current]).lines = _
      rw [Checker.lines_report, hlines, hstart, hname, List.append_assoc]
      rfl
  | error e c =>
      rw [hblock] at hcheck
      obtain ⟨-, -, depth, scopes, hscopes, hlines⟩ := hcheck
      refine ⟨depth, scopes, hscopes, ?_⟩
      show c.lines = _
      rw [hlines, hstart, List.append_nil]
      rfl

/-! ## Runs -/

namespace Machine

/-- The lines of a run so far. -/
def lines (m : Machine) : List String := debugLines (m.events.reverse.map Event.run)

/-- From one state of a machine to another one the lines in between are nested. -/
def Nests (named : String → Prop) (depth : Nat) (m d : Machine) : Prop :=
  ∃ more, NestedCalls named depth more ∧ d.lines = m.lines ++ more

variable {named : String → Prop} {depth : Nat} {m d e : Machine} {r : ActivationRecord}

theorem lines_enter (m : Machine) (r : ActivationRecord) :
    (m.enter r).lines = m.lines ++ ["ENTER: " ++ r.kind.text ++ " " ++ r.name] := by
  unfold lines enter
  rw [List.reverse_cons, List.reverse_cons, List.append_assoc, List.map_append, debugLines_append]
  rfl

theorem lines_leave (m : Machine) (r : ActivationRecord) :
    (m.leave r).lines = m.lines ++ ["LEAVE: " ++ r.kind.text ++ " " ++ r.name] := by
  unfold lines leave
  rw [List.reverse_cons, List.reverse_cons, List.append_assoc, List.map_append, debugLines_append]
  rfl

theorem Nests.of_eq (h : d.events = m.events) : m.Nests named depth d :=
  ⟨[], .nil, by rw [lines, h, List.append_nil, lines]⟩

theorem Nests.trans (hmd : m.Nests named depth d) (hde : d.Nests named depth e) :
    m.Nests named depth e := by
  obtain ⟨first, hfirst, hd⟩ := hmd
  obtain ⟨second, hsecond, he⟩ := hde
  exact ⟨first ++ second, hfirst.append hsecond, by rw [he, hd, List.append_assoc]⟩

/-- **A body** that is started is ended again. -/
theorem Nests.within (hkind : r.kind = .procedure) (hname : named r.name)
    (h : (m.enter r).Nests named depth d) : m.Nests named (depth + 1) (d.leave r) := by
  obtain ⟨inner, hinner, hd⟩ := h
  refine ⟨_, .single hname hinner, ?_⟩
  rw [lines_leave, hd, lines_enter, hkind, List.append_assoc, List.append_assoc]
  rfl

end Machine

section Runs

variable {a : Analysis} {named : String → Prop} {depth : Nat}

/-- A value that is computed writes no lines. -/
theorem follows_compute {α : Type} (f : CallStack → Except RuntimeError α) :
    Follows (Machine.Nests named depth) (compute f) := by
  intro m
  unfold compute
  cases f m.stack with
  | ok value => exact .of_eq rfl
  | error e => exact .of_eq rfl

/-- Statements without calls write no lines of their own. -/
theorem sequential_nests (a : Analysis) (named : String → Prop) (depth : Nat) :
    Sequential a (Follows (Machine.Nests named depth)) where
  nothing _ := .of_eq rfl
  seq hrun hmore := Follows.bind Machine.Nests.trans hrun fun _ => hmore
  assign target value := by
    refine Follows.bind Machine.Nests.trans (follows_compute _) fun result m => ?_
    unfold Variable.write
    cases (target.locate? a m.stack).bind fun index =>
        m.stack.set? index target.name result with
    | some stack => exact .of_eq rfl
    | none => exact .of_eq rfl

/-- **A body** nests its lines one deeper. -/
theorem follows_within {r : ActivationRecord} {body : Execution Unit} (hkind : r.kind = .procedure)
    (hname : named r.name) (hbody : Follows (Machine.Nests named depth) body) :
    Follows (Machine.Nests named (depth + 1)) (within r body) := by
  intro m
  have hinside := hbody (m.enter r)
  unfold within
  cases hrun : body (m.enter r) with
  | ok x d =>
      rw [hrun] at hinside
      exact hinside.within hkind hname
  | error e d =>
      rw [hrun] at hinside
      exact hinside.within hkind hname

/-- **A call** nests the lines of its body one deeper. -/
theorem follows_call {p : Procedure} (hname : named p.name) (arguments : List Expr)
    {body : Execution Unit} (hbody : Follows (Machine.Nests named depth) body) :
    Follows (Machine.Nests named (depth + 1)) (p.call a arguments body) := by
  intro m
  simp only [Procedure.call, bind, EStateM.bind, compute]
  cases Expr.evalAll a m.stack arguments with
  | error e => exact Machine.Nests.of_eq rfl
  | ok values =>
      have hsame : (p.activate m.stack values).name = p.name :=
        congrArg Heading.name (heading_activate p m.stack values)
      have hkind : (p.activate m.stack values).kind = .procedure :=
        congrArg Heading.kind (heading_activate p m.stack values)
      exact follows_within hkind (hsame ▸ hname) hbody m

/-- **A call that at most `left` calls may be nested in** writes lines nested at most that
deep. -/
theorem follows_perform (hnamed : ∀ id p, a.procedure? id = some p → named p.name) (limit : Nat)
    (left : Nat) (c : Call) :
    Follows (Machine.Nests named left) (Call.perform a limit left c) := by
  induction left generalizing c with
  | zero =>
      rw [Call.perform]
      split
      · exact fun m => .of_eq rfl
      · exact fun m => .of_eq rfl
  | succ left ih =>
      rw [Call.perform]
      split
      · exact fun m => .of_eq rfl
      next p hp =>
        exact follows_call (hnamed c.id p hp) c.arguments
          ((sequential_nests a named left).all_of_calls ih p.block.body)

end Runs

/-- A call stands for a procedure of this name. -/
def Analysis.Calls (a : Analysis) (name : String) : Prop :=
  ∃ id p, a.procedure? id = some p ∧ p.name = name

/-- **The lines of a run**: the program is entered and, whether the run succeeds or not, left at
the end; in between procedures are entered and left in proper nesting, no deeper than the
limit. -/
theorem interpret_nests (tree : Program) (a : Analysis) (maxCallDepth : Nat) :
    ∃ calls, NestedCalls a.Calls maxCallDepth calls ∧
      debugLines ((interpret tree a maxCallDepth).2.map Event.run)
        = ("ENTER: PROGRAM " ++ tree.name) :: (calls ++ ["LEAVE: PROGRAM " ++ tree.name]) := by
  have hfollows : Follows (Machine.Nests a.Calls maxCallDepth)
      (Statement.execAll a (Call.perform a maxCallDepth maxCallDepth) tree.block.body) :=
    (sequential_nests a a.Calls maxCallDepth).all_of_calls
      (follows_perform (fun id p hp => ⟨id, p, hp, rfl⟩) maxCallDepth maxCallDepth) _
  have hrun := hfollows ((Machine.mk .empty []).enter (Interpreter.programRecord tree))
  have hstart : ((Machine.mk .empty []).enter (Interpreter.programRecord tree)).lines
      = ["ENTER: PROGRAM " ++ tree.name] := by
    rw [Machine.lines_enter]
    rfl
  -- only the record of the program is on the stack when the first statement is executed
  have hevents : (interpret tree a maxCallDepth).2
      = ((startOn ((Machine.mk .empty []).enter (Interpreter.programRecord tree))
          (Statement.execAll a (Call.perform a maxCallDepth maxCallDepth) tree.block.body)).2.leave
            (Interpreter.programRecord tree)).events.reverse := rfl
  have hend : ∀ {m : Machine} {calls : List String},
      m.lines = ["ENTER: PROGRAM " ++ tree.name] ++ calls →
      (m.leave (Interpreter.programRecord tree)).lines
        = ("ENTER: PROGRAM " ++ tree.name) :: (calls ++ ["LEAVE: PROGRAM " ++ tree.name]) := by
    intro m calls hm
    rw [Machine.lines_leave, hm, List.append_assoc]
    rfl
  rw [hevents]
  unfold startOn
  cases hbody : Statement.execAll a (Call.perform a maxCallDepth maxCallDepth) tree.block.body
      ((Machine.mk .empty []).enter (Interpreter.programRecord tree)) with
  | ok x m =>
      rw [hbody] at hrun
      obtain ⟨calls, hcalls, hm⟩ := hrun
      exact ⟨calls, hcalls, hend (hstart ▸ hm)⟩
  | error e m =>
      rw [hbody] at hrun
      obtain ⟨calls, hcalls, hm⟩ := hrun
      exact ⟨calls, hcalls, hend (hstart ▸ hm)⟩

/-! ## Whole logs -/

/-- **What is entered is left again**, in proper nesting and under the same name.  The check of a
program that has been read enters the global scope first, and then the scopes of procedures that
are declared in it.  It leaves the global scope only if it succeeds, and only then the program is
run: it is entered first and left last, and procedures are entered in between, no deeper than the
limit.  None of this depends on how the run ends. -/
theorem debugLines_runLogged (source : String) (maxCallDepth : Nat) :
    match parse source with
    | .error _ => debugLines (runLogged source maxCallDepth).2 = []
    | .ok tree => ∃ depth scopes, NestedScopes tree.Declares depth scopes ∧
      match analyze tree with
      | .error _ =>
        debugLines (runLogged source maxCallDepth).2 = "ENTER scope: global" :: scopes
      | .ok a => ∃ calls, NestedCalls a.Calls maxCallDepth calls ∧
        debugLines (runLogged source maxCallDepth).2
          = "ENTER scope: global" :: (scopes ++ ["LEAVE scope: global"])
            ++ ("ENTER: PROGRAM " ++ tree.name) ::
              (calls ++ ["LEAVE: PROGRAM " ++ tree.name]) := by
  unfold parse runLogged analyze
  rcases readProgram source with ⟨parsed, tokens⟩
  cases parsed with
  | error e => exact debugLines_tokens tokens
  | ok tree =>
      obtain ⟨depth, scopes, hscopes, hlines⟩ := tree.check_nests
      refine ⟨depth, scopes, hscopes, ?_⟩
      rcases hcheck : tree.check with ⟨checked, scopeEvents⟩
      rw [hcheck] at hlines
      cases checked with
      | error e =>
          simp only [hcheck]
          rw [debugLines_append, debugLines_tokens, hlines]
          exact congrArg (List.cons _) (List.append_nil scopes)
      | ok a =>
          obtain ⟨calls, hcalls, hrun⟩ := interpret_nests tree a maxCallDepth
          refine ⟨calls, hcalls, ?_⟩
          simp only [hcheck]
          rw [debugLines_append, debugLines_append, debugLines_tokens, hlines, hrun]
          rfl

/-- A recursion that the limit ends is left like any other. -/
example : debugLines (runLogged "PROGRAM a; PROCEDURE p(); BEGIN p() END; BEGIN p() END." 2).2
    = ["ENTER scope: global", "ENTER scope: p", "LEAVE scope: p", "LEAVE scope: global",
      "ENTER: PROGRAM a", "ENTER: PROCEDURE p", "ENTER: PROCEDURE p", "LEAVE: PROCEDURE p",
      "LEAVE: PROCEDURE p", "LEAVE: PROGRAM a"] := by decide +kernel

end MiniPascal
