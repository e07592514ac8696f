/-
# Records bind the variables of their own scopes

An assignment looks for its record by the level of the target and for its binding by the name
alone.  In a run against its own analysis both belong together: the record is that of an
activation of the block that declares the very name.  So a record binds parameters and
declared variables of its own block only, and no name of a block inside of it.

* `body_of_stays` : a body stays in its place until it is left;
* `Moment.Recorded.own` : what a record binds its own block declares;
* `Moment.Sound.activates` : the record of a call binds each parameter to the value of its
  argument;
* `run_ownVariables` : the records of the runs of accepted source texts.
-/
import MiniPascal.Proofs.Reuse
import MiniPascal.Proofs.UnboundNames

set_option autoImplicit false

namespace MiniPascal

/-- The name of the variable that a declaration declares. -/
def Declaration.variable? : Declaration → Option String
  | .var name _ _ => some name
  | .procedure _ _ _ _ _ => none

/-- The names of the variables that a block declares. -/
def Block.variableNames (b : Block) : List String := b.declarations.filterMap Declaration.variable?

theorem Block.mem_variableNames {b : Block} {name : String} {type : TypeName}
    {position : Position} (h : .var name type position ∈ b.declarations) :
    name ∈ b.variableNames :=
  List.mem_filterMap.2 ⟨_, h, rfl⟩

/-! ## Bodies under their records -/

section Bodies

variable {tree : Program} {a : Analysis} {limit index : Nat} {m n : Moment}

/-- A step takes no body off its place, but for the one that it leaves. -/
theorem Moment.Step.body (h : m.Step a limit n) (hm : index < m.bodies.length)
    (hn : index < n.bodies.length) : n.bodies[index]? = m.bodies[index]? := by
  cases h with
  | fail _ _ => rfl
  | skip _ _ => rfl
  | expand _ _ => rfl
  | assign _ _ _ _ _ => rfl
  | enter _ _ _ _ _ => rw [m.bodies_entered, List.getElem?_append_left hm]
  | @leave caller others _ hwaiting =>
      have hbodies : m.bodies
          = ((caller :: others).map Activity.context).reverse ++ [m.running.context] := by
        rw [m.bodies_eq, hwaiting]
      rw [hbodies]
      exact (List.getElem?_append_left hn).symm

/-- **A body stays in its place** until it is left. -/
theorem body_of_stays (ha : a.Resolves tree.sites) (hm : m.Sound tree)
    (h : Stays a limit (index + 1) m n) : n.bodies[index]? = m.bodies[index]? := by
  induction h with
  | refl _ => rfl
  | @step m n o hsize hnext hrest ih =>
      have hn : n.Sound tree := sound_next ha hm hnext
      have hmbody : index < m.bodies.length := hm.linked.size ▸ hsize
      have hnbody : index < n.bodies.length := hn.linked.size ▸ hrest.size_le
      exact (ih hn).trans ((Moment.next_eq_some_iff.1 hnext).body hmbody hnbody)

/-- An assigned variable belongs to the block whose activation it denotes. -/
theorem Moment.Recorded.mem_of_denotes (h : m.Recorded tree a limit) (hm : m.Sound tree)
    (ha : a.Resolves tree.sites) {v : Variable} {Γ : Context}
    (hv : .occurrence v ∈ Statement.dutiesAll (m.running.context.block tree).body)
    (hdenotes : m.Denotes v.name index) (hΓ : m.bodies[index]? = some Γ) :
    v.name ∈ Γ.parameterNames ∨ v.name ∈ (Γ.block tree).variableNames := by
  obtain ⟨b, level, -, hbound, hvariable, -, -⟩ := hm.locate ha hv
  have hname : b.name = v.name := Context.name_of_binding? hbound
  obtain ⟨Λ, older, hsince, hlatest, -, -, -⟩ := Context.since?_of_binding? hbound
  obtain ⟨Λ', Δ, -, hsince', -, hΔ, hpath⟩ := hdenotes
  obtain rfl : Λ = Λ' := Option.some.inj (hsince.symm.trans hsince')
  obtain rfl : Γ = Δ := Option.some.inj (hΓ.symm.trans hΔ)
  rw [Context.parameterNames_eq_of_path_eq hpath, Context.block_eq_of_path_eq tree hpath]
  cases b with
  | type t => cases hvariable
  | procedure d => cases hvariable
  | parameter p =>
      have hfits : (Binding.parameter p).Fits Λ.parameterNames := by
        refine (h.running.since? hsince).fits ?_
        rw [hlatest]
        exact List.mem_cons_self
      exact Or.inl (hname ▸ hfits)
  | var name type =>
      obtain ⟨position, hdeclared⟩ := hm.isBody.arises.var hsince hlatest
      exact Or.inr (hname ▸ Block.mem_variableNames hdeclared)

/-- **What a record binds** is a parameter of its procedure or a variable of its block. -/
theorem Moment.Recorded.own (h : m.Recorded tree a limit) (ha : a.Resolves tree.sites)
    (hobeys : ∀ s ∈ tree.sites, s.Obeys) {Γ : Context} {name : String}
    (hΓ : m.bodies[index]? = some Γ) (hbinds : m.machine.stack.Binds index name) :
    name ∈ Γ.parameterNames ∨ name ∈ (Γ.block tree).variableNames := by
  rcases h.others index Γ name hΓ hbinds with hparameter | hassigned
  · exact Or.inl hparameter
  · -- the body has been there since the assignment
    obtain ⟨k, n, target, value, position, rest, hk, hrest, rfl, hdenotes, hnext, -, hstays⟩ :=
      hassigned
    have hsound : k.Sound tree := sound_of_leads ha (sound_start tree) hk
    have hnsound : n.Sound tree := sound_next ha hsound hnext
    have hkbody : index < k.bodies.length :=
      hsound.linked.size ▸ hsound.lt_size_of_denotes hdenotes
    have hnbody : index < n.bodies.length := hnsound.linked.size ▸ hstays.size_le
    have hsame : m.bodies[index]? = k.bodies[index]? :=
      (body_of_stays ha hnsound hstays).trans
        ((Moment.next_eq_some_iff.1 hnext).body hkbody hnbody)
    exact (recorded_of_leads ha hobeys hk).mem_of_denotes hsound ha (hsound.mem_of_assign hrest)
      hdenotes (hsame.symm.trans hΓ)

end Bodies

/-! ## Records of calls -/

/-- The record of a call of the running body: the procedure takes as many parameters as the
call has arguments, and the record binds each parameter to the value of its argument on the
stack of the caller, and no other name. -/
structure Moment.Activates (a : Analysis) (m : Moment) (c : Call) (owner : ProcedureDeclaration)
    (r : ActivationRecord) : Prop where
  kind : r.kind = .procedure
  name : r.name = owner.name
  arity : owner.params.length = c.arguments.length
  values : ∀ (i : Nat) (p : Parameter) (e : Expr), owner.params[i]? = some p →
    c.arguments[i]? = some e →
    ∃ value, e.eval a m.machine.stack = .ok value ∧ r.get? p.name = some value
  names : ∀ name, (∃ value, r.get? name = some value) ↔ name ∈ owner.params.map Parameter.name

section Calls

variable {tree : Program} {a : Analysis} {limit : Nat} {m n : Moment}

/-- **The record of a call** binds each parameter to the value of its argument. -/
theorem Moment.Sound.activates (hm : m.Sound tree) (ha : a.Resolves tree.sites)
    (hobeys : ∀ s ∈ tree.sites, s.Obeys) {c : Call} {rest : List Statement} {p : Procedure}
    {values : List Number} (hrest : m.running.rest = .call c :: rest)
    (hp : a.procedure? c.id = some p)
    (hvalues : Expr.evalAll a m.machine.stack c.arguments = .ok values) :
    ∃ owner bindings outer, m.running.context.calleeContext c.name = .inside owner bindings outer ∧
      p.block = owner.block ∧ m.Activates a c owner (p.activate m.machine.stack values) := by
  obtain ⟨owner, level, q, hbound, hcount, hq, hprocedure⟩ :=
    ha.calls _ c (hm.site (hm.mem_of_call hrest))
  obtain rfl : p = q := Option.some.inj (hp.symm.trans hprocedure)
  obtain ⟨formals, hformals, rfl⟩ := Option.map_eq_some_iff.1 hq
  obtain ⟨Λ, -, -, -, hcallee, -, hsites⟩ := hm.isBody.arises.callee hbound
  obtain ⟨bindings, hbody⟩ := (Λ.declare (.procedure owner)).exists_bodyOf_eq owner
  have hnames : formals.map TypedName.name = owner.params.map Parameter.name :=
    names_typedAll? hformals
  have hnodup : (formals.map TypedName.name).Nodup := by
    rw [hnames]
    exact ProcedureDeclaration.nodup_params fun s hs => hobeys s (hsites s hs)
  have hlength : values.length = formals.length := by
    rw [length_of_evalAll hvalues, ← hcount, length_typedAll? hformals]
  refine ⟨owner, bindings, Λ.declare (.procedure owner), hcallee.trans hbody, rfl, ?_⟩
  refine ⟨congrArg Heading.kind (heading_activate _ _ _),
    congrArg Heading.name (heading_activate _ _ _), hcount, fun i q e hq he => ?_, fun name => ?_⟩
  · obtain ⟨value, hvalue, heval⟩ := eval_of_evalAll hvalues he
    -- the formal parameter in the same place has the same name
    obtain ⟨v, hv, hname⟩ : ∃ v, formals[i]? = some v ∧ v.name = q.name := by
      have hplace := congrArg (fun names => names[i]?) hnames
      simp only [List.getElem?_map, hq, Option.map_some] at hplace
      exact Option.map_eq_some_iff.1 hplace
    refine ⟨value, heval, ?_⟩
    rw [← hname]
    exact get?_activate hnodup hv hvalue
  · rw [get?_activate_iff hlength, hnames]

/-- **A step that pushes a record** enters the body of a call. -/
theorem Moment.Sound.activates_of_next (hm : m.Sound tree) (ha : a.Resolves tree.sites)
    (hobeys : ∀ s ∈ tree.sites, s.Obeys) (hnext : m.next a limit = some n)
    (hgrows : m.machine.stack.size < n.machine.stack.size) :
    ∃ c rest owner bindings outer r, m.running.rest = .call c :: rest ∧
      n.machine.stack = m.machine.stack.push r ∧
      n.bodies = m.bodies ++ [.inside owner bindings outer] ∧
      n.running.rest = owner.block.body ∧ m.Activates a c owner r := by
  cases Moment.next_eq_some_iff.1 hnext with
  | fail _ _ => exact absurd hgrows (Nat.lt_irrefl _)
  | skip _ _ => exact absurd hgrows (Nat.lt_irrefl _)
  | expand _ _ => exact absurd hgrows (Nat.lt_irrefl _)
  | assign _ _ _ _ hset => exact absurd (CallStack.size_set hset) (Nat.ne_of_gt hgrows)
  | @enter c rest p values _ hrest hp _ hvalues =>
      obtain ⟨owner, bindings, outer, hcallee, hblock, hactivates⟩ :=
        hm.activates ha hobeys hrest hp hvalues
      refine ⟨c, rest, owner, bindings, outer, _, hrest, rfl, ?_, ?_, hactivates⟩
      · rw [m.bodies_entered, hcallee]
      · exact congrArg Block.body hblock
  | leave _ _ =>
      have hpop : m.machine.stack.pop.size = m.machine.stack.size - 1 := CallStack.size_pop _
      have hshrinks : m.machine.stack.size < m.machine.stack.pop.size := hgrows
      omega

end Calls

/-! ## Runs -/

/-- A moment whose records bind variables of their own scopes only, and all parameters. -/
structure Moment.OwnVariables (tree : Program) (m : Moment) : Prop where
  /-- The bottom record is that of the program, and binds variables that the program declares
  outside of all procedures. -/
  program : ∃ r, m.machine.stack.get? 0 = some r ∧ r.kind = .program ∧
    ∀ name value, r.get? name = some value → name ∈ tree.block.variableNames
  /-- Every other record is that of a procedure that a block of the program declares.  It binds
  all parameters of the procedure, and otherwise variables that its own block declares. -/
  procedure : ∀ i r, 0 < i → m.machine.stack.get? i = some r →
    ∃ owner bindings outer, m.bodies[i]? = some (.inside owner bindings outer) ∧
      owner.declaration ∈ (outer.block tree).declarations ∧
      r.kind = .procedure ∧ r.name = owner.name ∧
      (∀ p ∈ owner.params, ∃ value, r.get? p.name = some value) ∧
      ∀ name value, r.get? name = some value →
        name ∈ owner.params.map Parameter.name ∨ name ∈ owner.block.variableNames

/-- The records of every moment bind variables of their own scopes. -/
theorem ownVariables_of_leads {tree : Program} {a : Analysis} {limit : Nat} {m : Moment}
    (ha : a.Resolves tree.sites) (hobeys : ∀ s ∈ tree.sites, s.Obeys)
    (h : Leads a limit (.start tree) m) : m.OwnVariables tree := by
  have hm : m.Sound tree := sound_of_leads ha (sound_start tree) h
  have hrecorded : m.Recorded tree a limit := recorded_of_leads ha hobeys h
  constructor
  · obtain ⟨r, bindings, hr, hbody, hkind, -, -⟩ := hm.linked.bottom (stacked_of_leads h).size_pos
    refine ⟨r, hr, hkind, fun name value hvalue => ?_⟩
    -- there is no procedure around the body of the program
    rcases hrecorded.own ha hobeys hbody ⟨r, value, hr, hvalue⟩ with hparameter | hvariable
    · cases hparameter
    · exact hvariable
  · intro i r hi hr
    obtain ⟨owner, bindings, outer, -, -, Δ, hbody, hkind, hname, -, -, -, -, -, -, hpath,
      howner⟩ := hm.linked.link hi hr
    rw [Context.block_eq_of_path_eq tree hpath] at howner
    refine ⟨owner, bindings, outer, hbody, howner, hkind, hname, fun p hp => ?_,
      fun name value hvalue => hrecorded.own ha hobeys hbody ⟨r, value, hr, hvalue⟩⟩
    obtain ⟨q, value, hq, hvalue⟩ :=
      hrecorded.parameters i _ p.name hbody (List.mem_map_of_mem hp)
    obtain rfl : r = q := Option.some.inj (hr.symm.trans hq)
    exact ⟨value, hvalue⟩

/-- **Records bind the variables of their own scopes** in the run of every source text that
parses and has an analysis, under every limit: at each of its moments the record of the program
binds variables that the program declares, and that of a procedure binds all of its
parameters and otherwise variables of its own block.  A record is pushed by a call only, with
each parameter bound to the value of its argument on the stack of the caller.  So the
record that the run leaves behind, also after a failure, binds variables of the program
only. -/
theorem run_ownVariables {source : String} {tree : Program} {a : Analysis}
    (hparse : parse source = .ok tree) (ha : analyze tree = .ok a) (limit : Nat) :
    (∀ m, Leads a limit (.start tree) m → m.OwnVariables tree) ∧
      (∀ m n, Leads a limit (.start tree) m → m.next a limit = some n →
        m.machine.stack.size < n.machine.stack.size →
        ∃ c rest owner bindings outer r, m.running.rest = .call c :: rest ∧
          n.machine.stack = m.machine.stack.push r ∧
          n.bodies = m.bodies ++ [.inside owner bindings outer] ∧
          n.running.rest = owner.block.body ∧ m.Activates a c owner r) ∧
      (∃ last r, Leads a limit (.start tree) last ∧ last.next a limit = none ∧
        (Interpreter.new a limit).run tree = last.leftBehind a limit tree ∧
        last.machine.stack = ⟨[r]⟩ ∧
        ((Interpreter.new a limit).run tree).interpreter.finished = some r ∧
        ∀ name value, r.get? name = some value → name ∈ tree.block.variableNames) ∧
      ∀ r, (interpret tree a limit).1 = .ok r →
        ∀ name value, r.get? name = some value → name ∈ tree.block.variableNames := by
  have hresolves : a.Resolves tree.sites := resolves_of_analyze ha (nodup_of_parse hparse)
  have hobeys : ∀ s ∈ tree.sites, s.Obeys := obeys_of_analyze ha
  obtain ⟨last, hlast, hover, hrun⟩ := leads_run tree a limit
  have hsize : last.machine.stack.size = 1 := by
    have hstacked := (stacked_of_leads hlast).size
    rw [(Moment.next_eq_none_iff.1 hover).1] at hstacked
    exact hstacked.symm
  obtain ⟨r, hstack, hbottom⟩ := CallStack.exists_eq_singleton hsize
  have hfinished : ((Interpreter.new a limit).run tree).interpreter.finished = some r := by
    rw [hrun, Moment.leftBehind, hstack]
    rfl
  have hown : ∀ name value, r.get? name = some value → name ∈ tree.block.variableNames := by
    obtain ⟨q, hq, -, hnames⟩ := (ownVariables_of_leads hresolves hobeys hlast).program
    obtain rfl : r = q := Option.some.inj (hbottom.symm.trans hq)
    exact hnames
  have hpushed : ∀ m n, Leads a limit (.start tree) m → m.next a limit = some n →
      m.machine.stack.size < n.machine.stack.size → _ := fun m n hm hnext hgrows =>
    (sound_of_leads hresolves (sound_start tree) hm).activates_of_next hresolves hobeys hnext
      hgrows
  refine ⟨fun m hm => ownVariables_of_leads hresolves hobeys hm, hpushed,
    ⟨last, r, hlast, hover, hrun, hstack, hfinished, hown⟩, fun q hq => ?_⟩
  rw [interpret, hfinished] at hq
  cases houtcome : ((Interpreter.new a limit).run tree).outcome with
  | error e =>
      rw [houtcome] at hq
      cases hq
  | ok done =>
      rw [houtcome] at hq
      obtain rfl : r = q := Except.ok.inj hq
      exact hown

/-- A source text in which a procedure has a parameter of the name of a variable of the program,
is assigned to from the procedure inside of it, and calls itself with other arguments. -/
def shadowedSource : String :=
  "PROGRAM P; VAR x : REAL; PROCEDURE Q(k, x : REAL); PROCEDURE R; BEGIN x := k END; "
    ++ "BEGIN R(); Q(x, k) END; BEGIN Q(1, 2) END."

/-- The records in a run of nested and recursive procedures with names of the same
spelling. -/
theorem shadowedSource_ownVariables : ∃ tree a, parse shadowedSource = .ok tree ∧
    analyze tree = .ok a ∧
    (∀ m, Leads a 5 (.start tree) m → m.OwnVariables tree) ∧
      (∀ m n, Leads a 5 (.start tree) m → m.next a 5 = some n →
        m.machine.stack.size < n.machine.stack.size →
        ∃ c rest owner bindings outer r, m.running.rest = .call c :: rest ∧
          n.machine.stack = m.machine.stack.push r ∧
          n.bodies = m.bodies ++ [.inside owner bindings outer] ∧
          n.running.rest = owner.block.body ∧ m.Activates a c owner r) ∧
      (∃ last r, Leads a 5 (.start tree) last ∧ last.next a 5 = none ∧
        (Interpreter.new a 5).run tree = last.leftBehind a 5 tree ∧
        last.machine.stack = ⟨[r]⟩ ∧
        ((Interpreter.new a 5).run tree).interpreter.finished = some r ∧
        ∀ name value, r.get? name = some value → name ∈ tree.block.variableNames) ∧
      ∀ r, (interpret tree a 5).1 = .ok r →
        ∀ name value, r.get? name = some value → name ∈ tree.block.variableNames := by
  have haccepts : accepts shadowedSource = true := by decide +kernel
  obtain ⟨tree, a, hparse, ha⟩ := exists_analysis haccepts
  exact ⟨tree, a, hparse, ha, run_ownVariables hparse ha 5⟩

end MiniPascal
