/-
# Nested calls

In a program without recursion every procedure that is called comes earlier in the
post-order than the body that calls it.  So the bodies that are entered at one time, the
innermost first, stand in the order in which their declarations are completed, each of them
once, and no depth of calls is needed beyond the number of procedures.

* `Program.NonRecursive` : no call inside of a procedure is one of that procedure;
* `Moment.Ascends` : the entered bodies in post-order, kept by every step;
* `run_nonRecursive` : only recursion can exhaust the depth of calls.
-/
import MiniPascal.Proofs.DepthLimit
import MiniPascal.Proofs.Scoping.PostOrder
import MiniPascal.Proofs.StaticLinks

set_option autoImplicit false

namespace MiniPascal

/-! ## Chains in an order -/

/-- What comes before the first member of a chain makes the chain longer, if nothing comes
twice in the order. -/
theorem sublist_cons_of_before {α : Type} {order : List α} (hnodup : order.Nodup) {x y : α}
    {rest : List α} (hbefore : [x, y].Sublist order) (hrest : (y :: rest).Sublist order) :
    (x :: y :: rest).Sublist order := by
  induction order with
  | nil => cases hbefore
  | cons first others ih =>
      obtain ⟨hfirst, hothers⟩ := List.nodup_cons.1 hnodup
      have hlater : y ∈ others := by
        cases hbefore with
        | cons _ hskip => exact hskip.subset (by simp)
        | cons_cons _ htake => exact htake.subset (by simp)
      -- the chain cannot start with the first member, since `y` comes later
      have hchain : (y :: rest).Sublist others := by
        cases hrest with
        | cons _ hskip => exact hskip
        | cons_cons _ _ => exact absurd hlater hfirst
      cases hbefore with
      | cons _ hskip => exact (ih hothers hskip hchain).cons _
      | cons_cons _ _ => exact hchain.cons_cons _

/-! ## Programs without recursion -/

/-- A program without recursion: no call in a procedure, or in a procedure nested in it,
stands for that procedure. -/
def Program.NonRecursive (tree : Program) : Prop :=
  ∀ s ∈ tree.sites, ∀ c π, s.duty = .call c → s.context.procedurePath? c.name = some π →
    ¬π <:+ s.context.path

/-- Whether a call at a site leaves the procedures around it, by their names. -/
def Site.leaves (s : Site) : Bool :=
  match s.duty with
  | .call c =>
    match s.context.procedurePath? c.name with
    | none => true
    | some π => !(π.map ProcedureDeclaration.name).isSuffixOf
        (s.context.path.map ProcedureDeclaration.name)
  | _ => true

/-- Names show that a program is without recursion. -/
theorem nonRecursive_of_leaves {tree : Program} (h : tree.sites.all Site.leaves = true) :
    tree.NonRecursive := by
  intro s hs c π hduty hπ hsuffix
  have hleaves : s.leaves = true := List.all_eq_true.1 h s hs
  rw [Site.leaves, hduty] at hleaves
  simp only [hπ, Bool.not_eq_true'] at hleaves
  have hnames := List.isSuffixOf_iff_suffix.2 (hsuffix.map ProcedureDeclaration.name)
  rw [hleaves] at hnames
  cases hnames

/-- The procedures whose bodies are entered, the innermost first; the program comes last. -/
def Moment.paths (m : Moment) : List ProcedurePath :=
  (m.running :: m.waiting).map fun act => act.context.path

/-- The entered bodies stand in post-order. -/
def Moment.Ascends (tree : Program) (m : Moment) : Prop := m.paths.Sublist tree.postOrder

section Steps

variable {tree : Program} {a : Analysis} {limit : Nat} {m n : Moment}

/-- **A call of the running body** adds an earlier procedure to those that are entered. -/
theorem Moment.Ascends.callee (h : m.Ascends tree) (hm : m.Sound tree)
    (hobeys : ∀ s ∈ tree.sites, s.Obeys) (hcalls : tree.NonRecursive) {c : Call}
    {rest : List Statement} (hrest : m.running.rest = .call c :: rest) :
    ((m.running.context.calleeContext c.name).path :: m.paths).Sublist tree.postOrder := by
  have hsite := hm.site (hm.mem_of_call hrest)
  obtain ⟨d, level, hbound, -⟩ := hobeys _ hsite
  obtain ⟨outer, hπ, -, hpath⟩ := Context.procedurePath?_of_binding? hbound
  rw [hpath]
  rcases ordered_program tree _ hsite c _ rfl hπ with haround | hbefore
  · exact absurd haround (hcalls _ hsite c _ rfl hπ)
  · exact sublist_cons_of_before (nodup_postOrder hobeys) hbefore h

/-- **Every step** keeps the entered bodies in post-order. -/
theorem ascends_step (hm : m.Sound tree) (hobeys : ∀ s ∈ tree.sites, s.Obeys)
    (hcalls : tree.NonRecursive) (h : m.Ascends tree) (hstep : m.Step a limit n) :
    n.Ascends tree := by
  cases hstep with
  | fail _ _ => exact h
  | skip _ _ => exact h
  | expand _ _ => exact h
  | assign _ _ _ _ _ => exact h
  | enter _ hrest _ _ _ => exact h.callee hm hobeys hcalls hrest
  | @leave caller others _ hwaiting =>
      have hpaths : m.paths
          = m.running.context.path :: (caller :: others).map fun act => act.context.path := by
        rw [Moment.paths, hwaiting, List.map_cons]
      rw [Moment.Ascends, hpaths] at h
      exact (List.sublist_cons_self _ _).trans h

/-- At the start nothing is entered but the program. -/
theorem ascends_start (tree : Program) : (Moment.start tree).Ascends tree := by
  have hpath : (Context.initial.behind tree.block).path = [] := by
    rw [Context.behind, Context.path_declareAll]
    rfl
  show [(Context.initial.behind tree.block).path].Sublist tree.postOrder
  rw [hpath]
  exact List.sublist_append_right _ _

/-- **Every moment of a run** has the entered bodies in post-order. -/
theorem ascends_of_leads (ha : a.Resolves tree.sites) (hobeys : ∀ s ∈ tree.sites, s.Obeys)
    (hcalls : tree.NonRecursive) (h : Leads a limit (.start tree) m) : m.Ascends tree := by
  refine (h.preserves (P := fun m => m.Sound tree ∧ m.Ascends tree) (fun m n hm hstep => ?_)
    ⟨sound_start tree, ascends_start tree⟩).2
  exact ⟨sound_next ha hm.1 (Moment.next_eq_some_iff.2 hstep),
    ascends_step hm.1 hobeys hcalls hm.2 hstep⟩

/-- Every active call has an entered body of its own, beside that of the program. -/
theorem length_paths (hm : m.Stacked limit) : m.paths.length = m.machine.stack.callCount + 1 := by
  rw [hm.layered.callCount_add_one hm.size_pos, ← hm.size, Moment.paths, List.length_map,
    List.length_cons]

/-- There is one body more than there are procedures, that of the program. -/
theorem length_postOrder (tree : Program) :
    tree.postOrder.length = tree.procedures.length + 1 := by
  rw [Program.postOrder, List.length_append, List.length_singleton]

end Steps

/-! ## Runs -/

/-- **Only recursion can exhaust the depth of calls**: in a source text that parses and has
an analysis, every call resolves to a procedure around the call, or to one whose declaration
is completed before that of the body that calls it.  So if no call in a procedure is one of
that procedure, then no more calls are ever active than there are procedures, and a limit
that allows as many is never reported. -/
theorem run_nonRecursive {source : String} {tree : Program} {a : Analysis}
    (hparse : parse source = .ok tree) (ha : analyze tree = .ok a) :
    (∀ Γ c, ⟨Γ, .call c⟩ ∈ tree.sites → ∃ p d outer, a.procedure? c.id = some p ∧
      d.procedure? (outer.length + 1) = some p ∧ Γ.procedurePath? c.name = some (d :: outer) ∧
      (d :: outer <:+ Γ.path ∨ ProcedurePath.Before tree.postOrder (d :: outer) Γ.path)) ∧
    (tree.NonRecursive → ∀ limit, tree.procedures.length ≤ limit →
      (∀ n position, ((Interpreter.new a limit).run tree).outcome
        ≠ .error ⟨.callDepthExceeded n, position⟩) ∧
      ∀ m, Leads a limit (.start tree) m →
        m.machine.stack.callCount ≤ tree.procedures.length) := by
  have hresolves := resolves_of_analyze ha (nodup_of_parse hparse)
  have hobeys := obeys_of_analyze ha
  refine ⟨fun Γ c hsite => ?_, fun hcalls limit hlimit => ?_⟩
  · obtain ⟨d, level, p, hbound, -, hp, hprocedure⟩ := hresolves.calls Γ c hsite
    obtain ⟨outer, hπ, rfl, -⟩ := Context.procedurePath?_of_binding? hbound
    exact ⟨p, d, outer, hprocedure, hp, hπ, ordered_program tree _ hsite c _ rfl hπ⟩
  · constructor
    · intro n position hfailed
      obtain ⟨m, hm, hfails⟩ := (outcome_eq_error_iff tree a limit _).1 hfailed
      have hstacked := stacked_of_leads hm
      obtain ⟨-, c, rest, p, -, hrest, -, hfull, -⟩ := (Moment.fails_depth_iff hstacked).1 hfails
      -- the call that would be one too many could be entered as well
      have hascends := ascends_of_leads hresolves hobeys hcalls hm
      have hsound := sound_of_leads hresolves (sound_start tree) hm
      have hlength := (hascends.callee hsound hobeys hcalls hrest).length_le
      rw [List.length_cons, length_paths hstacked, length_postOrder, hfull] at hlength
      omega
    · intro m hm
      have hlength := (ascends_of_leads hresolves hobeys hcalls hm).length_le
      rw [length_paths (stacked_of_leads hm), length_postOrder] at hlength
      exact Nat.le_of_succ_le_succ hlength

/-- A source text in which the calls go through all procedures. -/
def chainedSource : String :=
  "PROGRAM P; PROCEDURE A; PROCEDURE B; BEGIN END; BEGIN B() END; "
    ++ "PROCEDURE C; BEGIN A() END; BEGIN C(); A() END."

/-- Runs of a program of three procedures without recursion, under a limit of three. -/
theorem chainedSource_nonRecursive : ∃ tree a, parse chainedSource = .ok tree ∧
    analyze tree = .ok a ∧ tree.NonRecursive ∧ tree.procedures.length ≤ 3 ∧
    (∀ Γ c, ⟨Γ, .call c⟩ ∈ tree.sites → ∃ p d outer, a.procedure? c.id = some p ∧
      d.procedure? (outer.length + 1) = some p ∧ Γ.procedurePath? c.name = some (d :: outer) ∧
      (d :: outer <:+ Γ.path ∨ ProcedurePath.Before tree.postOrder (d :: outer) Γ.path)) ∧
    (∀ n position, ((Interpreter.new a 3).run tree).outcome
      ≠ .error ⟨.callDepthExceeded n, position⟩) ∧
    ∀ m, Leads a 3 (.start tree) m → m.machine.stack.callCount ≤ tree.procedures.length := by
  have haccepts : accepts chainedSource = true := by decide +kernel
  have hshape : (parse chainedSource).toOption.any (fun tree =>
      tree.sites.all Site.leaves && tree.procedures.length ≤ 3) = true := by decide +kernel
  obtain ⟨tree, a, hparse, ha⟩ := exists_analysis haccepts
  rw [hparse] at hshape
  obtain ⟨hleaves, hlength⟩ := Bool.and_eq_true_iff.1 hshape
  have hcalls := nonRecursive_of_leaves hleaves
  obtain ⟨hresolved, hdepth⟩ := run_nonRecursive hparse ha
  exact ⟨tree, a, hparse, ha, hcalls, of_decide_eq_true hlength, hresolved,
    hdepth hcalls 3 (of_decide_eq_true hlength)⟩

end MiniPascal
