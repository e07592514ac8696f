/-
# Unbound names

In a run against its own analysis every call is resolved and every target of an assignment is
found.  What is left is a read of a variable before its first assignment: an occurrence
denotes a variable of one activation, that of the block that declares it, and the read
fails exactly if no assignment to this variable has completed there.

* `Moment.Denotes` : the activation that a name of the running body denotes;
* `Moment.Assigned` : the variables that have been assigned, activation by activation;
* `recorded_of_leads` : a record binds the parameters of its procedure and what has been
  assigned there;
* `run_undefined_iff` : when an undefined variable is reported.
-/
import MiniPascal.Proofs.Moments.Bindings
import MiniPascal.Proofs.Moments.Reads
import MiniPascal.Proofs.Scoping.Parameters
import MiniPascal.Proofs.StaticLinks

set_option autoImplicit false

namespace MiniPascal

/-! ## What a name denotes -/

namespace Moment

/-- A name of the running body denotes the variable of that name in an activation: the one on
the static chain whose body is that of the block where the name is declared. -/
def Denotes (m : Moment) (name : String) (index : Nat) : Prop :=
  ∃ Λ Δ r, m.running.context.since? name = some Λ ∧
    (index, r) ∈ m.machine.stack.staticChain ∧ m.bodies[index]? = some Δ ∧ Δ.path = Λ.path

/-- An assignment to a variable has completed in an activation that is still on the stack. -/
def Assigned (tree : Program) (a : Analysis) (limit index : Nat) (name : String)
    (m : Moment) : Prop :=
  ∃ k n target value position rest, Leads a limit (.start tree) k ∧
    k.running.rest = .assign target value position :: rest ∧ target.name = name ∧
    k.Denotes name index ∧ k.next a limit = some n ∧ n.fault = none ∧
    Stays a limit (index + 1) n m

variable {tree : Program} {a : Analysis} {limit : Nat} {m n : Moment}

/-- What has been assigned in an activation stays so until the activation ends. -/
theorem Assigned.step {index : Nat} {name : String} (h : m.Assigned tree a limit index name)
    (hnext : m.next a limit = some n) (hindex : index < n.machine.stack.size) :
    n.Assigned tree a limit index name := by
  obtain ⟨k, l, target, value, position, rest, hk, hrest, hname, hdenotes, hl, hfault, hstays⟩ := h
  exact ⟨k, l, target, value, position, rest, hk, hrest, hname, hdenotes, hl, hfault,
    hstays.snoc hnext hindex⟩

/-- **A name denotes one activation** only: the static chain passes through each block around
the running body once. -/
theorem Sound.denotes_unique (h : m.Sound tree) {name : String} {i j : Nat}
    (hi : m.Denotes name i) (hj : m.Denotes name j) : i = j := by
  obtain ⟨htop, hsize⟩ := bodies_top h
  obtain ⟨rest, hspine, hlength, hbodies⟩ := h.linked.spine htop
  have hlevel : rest.length = m.running.context.path.length := by
    have hpath := m.running.context.level_eq
    omega
  have hplace : ∀ l, m.Denotes name l → ∃ Λ k, m.running.context.since? name = some Λ ∧
      (m.waiting.length :: rest)[k]? = some l ∧ k ≤ m.running.context.path.length ∧
      m.running.context.path.drop k = Λ.path := by
    rintro l ⟨Λ, Δ, r, hsince, hchain, hΔ, hpath⟩
    rw [CallStack.staticChain, show m.machine.stack.size - 1 = m.waiting.length by omega] at hchain
    obtain ⟨k, hk⟩ := List.mem_iff_getElem?.1 (hspine.mem_of_mem_chainFrom hchain)
    obtain ⟨Δ', hΔ', hdrop⟩ := hbodies k l hk
    obtain rfl : Δ = Δ' := Option.some.inj (hΔ.symm.trans hΔ')
    have hlt : k < rest.length + 1 := (List.getElem?_eq_some_iff.1 hk).1
    exact ⟨Λ, k, hsince, hk, by omega, hdrop.symm.trans hpath⟩
  obtain ⟨Λ, k, hsince, hk, hkle, hkpath⟩ := hplace i hi
  obtain ⟨Λ', l, hsince', hl, hlle, hlpath⟩ := hplace j hj
  obtain rfl : Λ = Λ' := Option.some.inj (hsince.symm.trans hsince')
  -- how far out a block is can be read off its path
  have hsame : k = l := by
    have hlengths := congrArg List.length (hkpath.trans hlpath.symm)
    rw [List.length_drop, List.length_drop] at hlengths
    omega
  rw [hsame, hl] at hk
  exact (Option.some.inj hk).symm

/-- **An occurrence is located** in the activation that its name denotes. -/
theorem Sound.locate (h : m.Sound tree) (ha : a.Resolves tree.sites) {v : Variable}
    (hv : .occurrence v ∈ Statement.dutiesAll (m.running.context.block tree).body) :
    ∃ b level index, m.running.context.binding? v.name = some (b, level) ∧ b.isVariable ∧
      v.locate? a m.machine.stack = some index ∧ m.Denotes v.name index := by
  obtain ⟨htop, hsize⟩ := bodies_top h
  obtain ⟨b, level, hbound, hvariable, hlevel⟩ := ha.occurrences _ v (h.site hv)
  obtain ⟨index, Λ, Δ, hresolve, hsince, hΔ, hpath⟩ := h.linked.resolve htop hsize hbound
  obtain ⟨r, hchain, -, -⟩ := CallStack.resolve_eq_some hresolve
  refine ⟨b, level, index, hbound, hvariable, ?_, Λ, Δ, r, hsince, hchain, hΔ, hpath⟩
  rw [Variable.locate?, hlevel]
  exact hresolve

/-! ## Names in the next statement -/

/-- A variable that an expression reads occurs in it. -/
theorem mem_duties_of_reads {s : CallStack} {e : Expr} {v : Variable} (h : e.Reads a s v) :
    .occurrence v ∈ e.duties := by
  induction h with
  | occurrence => exact List.mem_singleton.2 rfl
  | signed _ ih => exact ih
  | left _ ih => exact List.mem_append_left _ ih
  | right _ _ ih => exact List.mem_append_right _ ih

theorem mem_duties_of_readsAll {s : CallStack} {es : List Expr} {v : Variable}
    (h : Expr.ReadsAll a s v es) : .occurrence v ∈ es.flatMap Expr.duties := by
  induction h with
  | first h => exact List.mem_append_left _ (mem_duties_of_reads h)
  | rest _ _ ih => exact List.mem_append_right _ ih

/-- A variable that is read occurs in the running body. -/
theorem Sound.mem_of_reads (h : m.Sound tree) {v : Variable} (hreads : m.Reads a limit v) :
    .occurrence v ∈ Statement.dutiesAll (m.running.context.block tree).body := by
  cases hreads with
  | value hrest hvalue =>
      refine h.duty hrest ?_
      rw [Statement.duties]
      exact List.mem_append_left _ (mem_duties_of_reads hvalue)
  | argument hrest _ _ hvalues =>
      refine h.duty hrest ?_
      rw [Statement.duties, Call.duties]
      exact List.mem_append_left _ (mem_duties_of_readsAll hvalues)

theorem Sound.lt_size_of_denotes (h : m.Sound tree) {name : String} {index : Nat}
    (hdenotes : m.Denotes name index) : index < m.machine.stack.size := by
  obtain ⟨-, Δ, -, -, -, hΔ, -⟩ := hdenotes
  exact h.linked.size ▸ (List.getElem?_eq_some_iff.1 hΔ).1

end Moment

/-! ## What records bind -/

/-- **The records of a moment**: each binds the parameters of its procedure, and otherwise
what has been assigned in its activation. -/
structure Moment.Recorded (tree : Program) (a : Analysis) (limit : Nat) (m : Moment) : Prop where
  tidy : ∀ Γ ∈ m.bodies, Γ.Tidy
  parameters : ∀ index Γ name, m.bodies[index]? = some Γ → name ∈ Γ.parameterNames →
    m.machine.stack.Binds index name
  others : ∀ index Γ name, m.bodies[index]? = some Γ → m.machine.stack.Binds index name →
    name ∈ Γ.parameterNames ∨ m.Assigned tree a limit index name

section Recorded

variable {tree : Program} {a : Analysis} {limit : Nat} {m n : Moment}

/-- The bodies of a moment: those that wait, and the running one on top of them. -/
theorem Moment.bodies_eq (m : Moment) :
    m.bodies = (m.waiting.map Activity.context).reverse ++ [m.running.context] := by
  rw [bodies, List.map_cons, List.reverse_cons]

theorem Moment.bodies_entered (m : Moment) (c : Call) (rest : List Statement) (p : Procedure)
    (values : List Number) :
    (m.entered c rest p values).bodies
      = m.bodies ++ [m.running.context.calleeContext c.name] := by
  simp only [bodies, entered, List.map_cons, List.reverse_cons]

theorem Moment.Recorded.running (h : m.Recorded tree a limit) : m.running.context.Tidy := by
  refine h.tidy _ ?_
  rw [m.bodies_eq]
  exact List.mem_append_right _ (List.mem_singleton.2 rfl)

/-- The start of a program. -/
theorem recorded_start (hobeys : ∀ s ∈ tree.sites, s.Obeys) :
    (Moment.start tree).Recorded tree a limit := by
  obtain ⟨bindings, hprogram⟩ : ∃ bindings,
      Context.initial.behind tree.block = .program bindings := Context.exists_declareAll_program _ _
  have hbodies : (Moment.start tree).bodies = [.program bindings] := congrArg ([·]) hprogram
  have hempty : ∀ name, ¬(Moment.start tree).machine.stack.Binds 0 name := by
    intro name hbinds
    obtain ⟨value, hvalue⟩ :=
      (CallStack.binds_push_top .empty (Interpreter.programRecord tree) name).1 hbinds
    cases hvalue
  refine ⟨fun Γ hΓ => ?_, fun index Γ name hΓ hname => ?_, fun index Γ name hΓ hbinds => ?_⟩
  · rw [hbodies, List.mem_singleton, ← hprogram] at hΓ
    rw [hΓ]
    exact tidy_program hobeys
  · rw [hbodies] at hΓ
    rw [List.mem_singleton.1 (List.mem_of_getElem? hΓ)] at hname
    cases hname
  · rw [hbodies] at hΓ
    have hzero : index = 0 := Nat.lt_one_iff.1 (List.getElem?_eq_some_iff.1 hΓ).1
    rw [hzero] at hbinds
    exact absurd hbinds (hempty name)

/-- What a call of the running body enters: the body of a procedure that obeys the rules, with
a record that binds its parameters. -/
theorem Moment.Recorded.entered (h : m.Recorded tree a limit) (hm : m.Sound tree)
    (ha : a.Resolves tree.sites) (hobeys : ∀ s ∈ tree.sites, s.Obeys) {c : Call}
    {rest : List Statement} {p : Procedure} {values : List Number}
    (hrest : m.running.rest = .call c :: rest) (hp : a.procedure? c.id = some p)
    (hvalues : Expr.evalAll a m.machine.stack c.arguments = .ok values) :
    (m.running.context.calleeContext c.name).Tidy ∧
      ∀ name, (∃ value, (p.activate m.machine.stack values).get? name = some value) ↔
        name ∈ (m.running.context.calleeContext c.name).parameterNames := by
  obtain ⟨d, level, q, hbound, hcount, hq, hprocedure⟩ :=
    ha.calls _ c (hm.site (hm.mem_of_call hrest))
  obtain rfl : p = q := Option.some.inj (hp.symm.trans hprocedure)
  obtain ⟨formals, hformals, rfl⟩ := Option.map_eq_some_iff.1 hq
  obtain ⟨Θ, -, hsince, -, hcallee, -, hsites⟩ := hm.isBody.arises.callee hbound
  have hlength : values.length = formals.length := by
    rw [length_of_evalAll hvalues, ← hcount, length_typedAll? hformals]
  rw [hcallee]
  refine ⟨(h.running.since? hsince).bodyOf fun s hs => hobeys s (hsites s hs), fun name => ?_⟩
  rw [get?_activate_iff hlength, Context.parameterNames_bodyOf, names_typedAll? hformals]

/-- The records that a step leaves on the stack. -/
theorem Moment.Recorded.old (h : m.Recorded tree a limit) (hm : m.Sound tree)
    (ha : a.Resolves tree.sites) (hleads : Leads a limit (.start tree) m)
    (hstep : m.Step a limit n) {index : Nat} {Γ : Context} (hΓ : m.bodies[index]? = some Γ)
    (hindex : index < n.machine.stack.size) (name : String) :
    (name ∈ Γ.parameterNames → n.machine.stack.Binds index name) ∧
      (n.machine.stack.Binds index name →
        name ∈ Γ.parameterNames ∨ n.Assigned tree a limit index name) := by
  have hold : index < m.machine.stack.size :=
    hm.linked.size ▸ (List.getElem?_eq_some_iff.1 hΓ).1
  have hnext : m.next a limit = some n := Moment.next_eq_some_iff.2 hstep
  refine ⟨fun hname => hstep.binds hindex (h.parameters index Γ name hΓ hname), fun hbinds => ?_⟩
  rcases hstep.binds_or_assigns hold hindex hbinds with hbefore | ⟨hassigns, hfault⟩
  · exact (h.others index Γ name hΓ hbefore).imp_right fun hassigned => hassigned.step hnext hindex
  · obtain ⟨target, value, position, rest, hrest, rfl, hlocate⟩ := hassigns
    obtain ⟨b, level, i, -, -, hi, hdenotes⟩ := hm.locate ha (hm.mem_of_assign hrest)
    obtain rfl : index = i := Option.some.inj (hlocate.symm.trans hi)
    exact Or.inr ⟨m, n, target, value, position, rest, hleads, hrest, rfl, hdenotes, hnext, hfault,
      .refl hindex⟩

/-- Bodies that were there before a step keep their records. -/
theorem Moment.Recorded.keep (h : m.Recorded tree a limit) (hm : m.Sound tree)
    (hn : n.Sound tree) (ha : a.Resolves tree.sites) (hleads : Leads a limit (.start tree) m)
    (hstep : m.Step a limit n) (hstart : n.bodies <+: m.bodies) : n.Recorded tree a limit := by
  have hold : ∀ {index : Nat} {Γ : Context}, n.bodies[index]? = some Γ → ∀ name,
      (name ∈ Γ.parameterNames → n.machine.stack.Binds index name) ∧
        (n.machine.stack.Binds index name →
          name ∈ Γ.parameterNames ∨ n.Assigned tree a limit index name) := by
    obtain ⟨more, hmore⟩ := hstart
    intro index Γ hΓ
    have hlt : index < n.bodies.length := (List.getElem?_eq_some_iff.1 hΓ).1
    refine h.old hm ha hleads hstep ?_ (hn.linked.size ▸ hlt)
    rw [← hmore, List.getElem?_append_left hlt]
    exact hΓ
  exact ⟨fun Γ hΓ => h.tidy Γ (hstart.subset hΓ), fun _ _ name hΓ => (hold hΓ name).1,
    fun _ _ name hΓ => (hold hΓ name).2⟩

/-- A body that is entered has a record that binds its parameters. -/
theorem Moment.Recorded.enter (h : m.Recorded tree a limit) (hm : m.Sound tree)
    (ha : a.Resolves tree.sites) (hobeys : ∀ s ∈ tree.sites, s.Obeys)
    (hleads : Leads a limit (.start tree) m) {c : Call} {rest : List Statement} {p : Procedure}
    {values : List Number} (hrest : m.running.rest = .call c :: rest)
    (hp : a.procedure? c.id = some p)
    (hvalues : Expr.evalAll a m.machine.stack c.arguments = .ok values)
    (hstep : m.Step a limit (m.entered c rest p values)) :
    (m.entered c rest p values).Recorded tree a limit := by
  obtain ⟨htidy, hbinds⟩ := h.entered hm ha hobeys hrest hp hvalues
  have hrecord : ∀ {index : Nat} {Γ : Context},
      (m.entered c rest p values).bodies[index]? = some Γ → ∀ name,
      (name ∈ Γ.parameterNames → (m.entered c rest p values).machine.stack.Binds index name) ∧
        ((m.entered c rest p values).machine.stack.Binds index name → name ∈ Γ.parameterNames ∨
          (m.entered c rest p values).Assigned tree a limit index name) := by
    intro index Γ hΓ name
    rw [Moment.bodies_entered] at hΓ
    rcases Nat.lt_trichotomy index m.bodies.length with hold | htop | habove
    · rw [List.getElem?_append_left hold] at hΓ
      have hlt : index < m.machine.stack.size := hm.linked.size ▸ hold
      exact h.old hm ha hleads hstep hΓ (Nat.lt_succ_of_lt hlt) name
    · rw [htop, List.getElem?_concat_length] at hΓ
      cases hΓ
      rw [htop, hm.linked.size]
      have hnew := CallStack.binds_push_top m.machine.stack (p.activate m.machine.stack values) name
      exact ⟨fun hname => hnew.2 ((hbinds name).2 hname),
        fun hbound => Or.inl ((hbinds name).1 (hnew.1 hbound))⟩
    · rw [List.getElem?_eq_none (by rw [List.length_append, List.length_singleton]; omega)] at hΓ
      cases hΓ
  refine ⟨fun Γ hΓ => ?_, fun _ _ name hΓ => (hrecord hΓ name).1,
    fun _ _ name hΓ => (hrecord hΓ name).2⟩
  rw [Moment.bodies_entered] at hΓ
  rcases List.mem_append.1 hΓ with hold | hnew
  · exact h.tidy Γ hold
  · rw [List.mem_singleton.1 hnew]
    exact htidy

/-- **Every step** keeps the records. -/
theorem recorded_step (ha : a.Resolves tree.sites) (hobeys : ∀ s ∈ tree.sites, s.Obeys)
    (h : m.Recorded tree a limit) (hm : m.Sound tree) (hleads : Leads a limit (.start tree) m)
    (hstep : m.Step a limit n) : n.Recorded tree a limit := by
  have hkeep : n.bodies <+: m.bodies → n.Recorded tree a limit :=
    h.keep hm (sound_next ha hm (Moment.next_eq_some_iff.2 hstep)) ha hleads hstep
  cases hstep with
  | fail _ _ => exact hkeep (List.prefix_refl _)
  | skip _ _ => exact hkeep (List.prefix_refl _)
  | expand _ _ => exact hkeep (List.prefix_refl _)
  | assign _ _ _ _ _ => exact hkeep (List.prefix_refl _)
  | enter hfault hrest hp hlimit hvalues =>
      exact h.enter hm ha hobeys hleads hrest hp hvalues (.enter hfault hrest hp hlimit hvalues)
  | leave _ hwaiting =>
      refine hkeep ⟨[m.running.context], ?_⟩
      rw [m.bodies_eq, hwaiting]
      rfl

/-- **Every moment of a run** has such records. -/
theorem recorded_of_leads (ha : a.Resolves tree.sites) (hobeys : ∀ s ∈ tree.sites, s.Obeys)
    (h : Leads a limit (.start tree) m) : m.Recorded tree a limit := by
  refine (h.preserves (P := fun m => m.Recorded tree a limit ∧ Leads a limit (.start tree) m)
    (fun m n hm hstep => ?_) ⟨recorded_start hobeys, .refl _⟩).1
  obtain ⟨hrecorded, hleads⟩ := hm
  have hsound : m.Sound tree := sound_of_leads ha (sound_start tree) hleads
  exact ⟨recorded_step ha hobeys hrecorded hsound hleads hstep,
    hleads.trans (.single (Moment.next_eq_some_iff.2 hstep))⟩

end Recorded

/-! ## Reads without a value -/

section Unassigned

variable {tree : Program} {a : Analysis} {limit : Nat} {m : Moment}

/-- What has been assigned is bound. -/
theorem binds_of_assigned (ha : a.Resolves tree.sites) {index : Nat} {name : String}
    (h : m.Assigned tree a limit index name) : m.machine.stack.Binds index name := by
  obtain ⟨k, n, target, value, position, rest, hk, hrest, rfl, hdenotes, hnext, hfault, hstays⟩ := h
  have hsound : k.Sound tree := sound_of_leads ha (sound_start tree) hk
  obtain ⟨-, -, i, -, -, hlocate, hi⟩ := hsound.locate ha (hsound.mem_of_assign hrest)
  obtain rfl : index = i := hsound.denotes_unique hdenotes hi
  have hassigns : k.Assigns a index target.name :=
    ⟨target, value, position, rest, hrest, rfl, hlocate⟩
  exact Moment.binds_of_stays hstays
    ((Moment.next_eq_some_iff.1 hnext).binds_of_assigns hassigns hfault)

/-- A located variable has no value exactly if its record does not bind it. -/
theorem read?_eq_none_iff {s : CallStack} {v : Variable} {index : Nat}
    (h : v.locate? a s = some index) : v.read? a s = none ↔ ¬s.Binds index v.name := by
  rw [Variable.read?, h, Option.bind_some, CallStack.Binds]
  cases s.get? index with
  | none => simp
  | some r => simp [Option.eq_none_iff_forall_ne_some]

/-- The running body comes to a read, at a position, of a declared variable to which no
assignment has completed in the activation that the occurrence denotes. -/
def Moment.ReadsUnassigned (tree : Program) (a : Analysis) (limit : Nat) (name : String)
    (position : Position) (m : Moment) : Prop :=
  ∃ v type level index, m.fault = none ∧ m.Reads a limit v ∧ v.name = name ∧
    v.position = position ∧ m.running.context.binding? name = some (.var name type, level) ∧
    m.Denotes name index ∧ ¬m.Assigned tree a limit index name

/-- **A read has no value** exactly if it is one of a declared variable that has not been
assigned in the activation that it denotes. -/
theorem read?_eq_none_iff_not_assigned (hm : m.Sound tree) (h : m.Recorded tree a limit)
    (ha : a.Resolves tree.sites) {v : Variable}
    (hv : .occurrence v ∈ Statement.dutiesAll (m.running.context.block tree).body) :
    v.read? a m.machine.stack = none ↔ ∃ type level index,
      m.running.context.binding? v.name = some (.var v.name type, level) ∧
        m.Denotes v.name index ∧ ¬m.Assigned tree a limit index v.name := by
  obtain ⟨b, level, index, hbound, hvariable, hlocate, hdenotes⟩ := hm.locate ha hv
  have hname : b.name = v.name := Context.name_of_binding? hbound
  obtain ⟨Λ, older, hsince, hlatest, -, -, -⟩ := Context.since?_of_binding? hbound
  obtain ⟨Λ', Δ, r, hsince', -, hΔ, hpath⟩ := id hdenotes
  obtain rfl : Λ = Λ' := Option.some.inj (hsince.symm.trans hsince')
  have hfits : b.Fits Δ.parameterNames := by
    rw [Context.parameterNames_eq_of_path_eq hpath]
    refine (h.running.since? hsince).fits ?_
    rw [hlatest]
    exact List.mem_cons_self
  rw [read?_eq_none_iff hlocate]
  constructor
  · intro hunbound
    cases b with
    | type t => cases hvariable
    | procedure d => cases hvariable
    | parameter p =>
        -- a parameter has been bound by the call
        rw [Binding.Fits] at hfits
        exact absurd (h.parameters index Δ v.name hΔ (hname ▸ hfits)) hunbound
    | var name type =>
        cases hname
        exact ⟨type, level, index, hbound, hdenotes,
          fun hassigned => hunbound (binds_of_assigned ha hassigned)⟩
  · rintro ⟨type, level', index', hbound', hdenotes', hunassigned⟩ hbinds
    obtain rfl : index = index' := hm.denotes_unique hdenotes hdenotes'
    rw [hbound] at hbound'
    cases hbound'
    rcases h.others index Δ v.name hΔ hbinds with hparameter | hassigned
    · exact hfits hparameter
    · exact hunassigned hassigned

/-- An assignment never fails for its target. -/
theorem Moment.Sound.exists_set (hm : m.Sound tree) (ha : a.Resolves tree.sites)
    {target : Variable} {value : Expr} {position : Position} {rest : List Statement}
    (hrest : m.running.rest = .assign target value position :: rest) :
    ∃ index, target.locate? a m.machine.stack = some index ∧ m.Denotes target.name index ∧
      ∀ result, ∃ stack, m.machine.stack.set? index target.name result = some stack := by
  obtain ⟨-, -, index, -, -, hlocate, hdenotes⟩ := hm.locate ha (hm.mem_of_assign hrest)
  have hlt : index < m.machine.stack.size := hm.lt_size_of_denotes hdenotes
  refine ⟨index, hlocate, hdenotes, fun result => ?_⟩
  rw [CallStack.set?, if_pos hlt]
  exact ⟨_, rfl⟩

/-- No statement fails for a call that is not resolved. -/
theorem Moment.Sound.not_fails_unresolved (hm : m.Sound tree) (ha : a.Resolves tree.sites)
    {name : String} {position : Position} :
    ¬m.Fails a limit ⟨.unresolvedProcedure name, position⟩ := by
  intro hfails
  have hvalue : ∀ reads, ¬IsValueError a m.machine.stack reads
      ⟨.unresolvedProcedure name, position⟩ := by
    rintro reads (⟨v, -, -, he⟩ | ⟨fault, position', he⟩)
    · cases he
    · cases he
  cases hfails with
  | value _ herror => exact hvalue _ (Expr.error_of_eval herror)
  | argument _ _ _ herror => exact hvalue _ (Expr.error_of_evalAll herror)
  | callee hrest hp =>
      obtain ⟨-, -, q, -, -, -, hq⟩ := ha.calls _ _ (hm.site (hm.mem_of_call hrest))
      rw [hp] at hq
      cases hq

/-- **A statement fails for an undefined variable** exactly at a read of one that has not been
assigned. -/
theorem fails_undefined_iff (hm : m.Sound tree) (h : m.Recorded tree a limit)
    (ha : a.Resolves tree.sites) {name : String} {position : Position} :
    (m.fault = none ∧ m.Fails a limit ⟨.undefinedVariable name, position⟩) ↔
      m.ReadsUnassigned tree a limit name position := by
  constructor
  · rintro ⟨hfault, hfails⟩
    obtain ⟨v, hreads, hnone, rfl, rfl⟩ : ∃ v, m.Reads a limit v ∧
        v.read? a m.machine.stack = none ∧ v.name = name ∧ v.position = position := by
      cases hfails with
      | value hrest herror =>
          obtain ⟨v, hv, hnone, hname, hposition⟩ := (Expr.error_of_eval herror).undefined
          exact ⟨v, .value hrest hv, hnone, hname, hposition⟩
      | argument hrest hp hlimit herror =>
          obtain ⟨v, hv, hnone, hname, hposition⟩ := (Expr.error_of_evalAll herror).undefined
          exact ⟨v, .argument hrest hp hlimit hv, hnone, hname, hposition⟩
      | target hrest _ hset =>
          -- the target is always found
          obtain ⟨index, hlocate, -, hwrite⟩ := hm.exists_set ha hrest
          obtain ⟨stack, hstack⟩ := hwrite _
          rw [hlocate, Option.bind_some, hstack] at hset
          cases hset
    obtain ⟨type, level, index, hbound, hdenotes, hunassigned⟩ :=
      (read?_eq_none_iff_not_assigned hm h ha (hm.mem_of_reads hreads)).1 hnone
    exact ⟨v, type, level, index, hfault, hreads, rfl, rfl, hbound, hdenotes, hunassigned⟩
  · rintro ⟨v, type, level, index, hfault, hreads, rfl, rfl, hbound, hdenotes, hunassigned⟩
    have hnone := (read?_eq_none_iff_not_assigned hm h ha (hm.mem_of_reads hreads)).2
      ⟨type, level, index, hbound, hdenotes, hunassigned⟩
    exact ⟨hfault, Moment.fails_of_reads hreads hnone⟩

end Unassigned

/-! ## Runs -/

/-- **Unbound names at run time**: the run of a source text that parses and has an analysis
never fails for a call that is not resolved, it finds the target of every assignment, and it
reports an undefined variable exactly if it comes to a read of a declared variable to which
no assignment has completed in the activation that the occurrence denotes. -/
theorem run_undefined_iff {source : String} {tree : Program} {a : Analysis}
    (hparse : parse source = .ok tree) (ha : analyze tree = .ok a) (limit : Nat) :
    (∀ name position, ((Interpreter.new a limit).run tree).outcome
        ≠ .error ⟨.unresolvedProcedure name, position⟩) ∧
      (∀ m target value position rest, Leads a limit (.start tree) m →
        m.running.rest = .assign target value position :: rest →
        ∃ index, target.locate? a m.machine.stack = some index ∧ m.Denotes target.name index ∧
          ∀ result, ∃ stack, m.machine.stack.set? index target.name result = some stack) ∧
      ∀ name position, ((Interpreter.new a limit).run tree).outcome
          = .error ⟨.undefinedVariable name, position⟩ ↔
        ∃ m, Leads a limit (.start tree) m ∧ m.ReadsUnassigned tree a limit name position := by
  have hresolves : a.Resolves tree.sites := resolves_of_analyze ha (nodup_of_parse hparse)
  have hsound : ∀ {m}, Leads a limit (.start tree) m → m.Sound tree :=
    sound_of_leads hresolves (sound_start tree)
  have hrecorded : ∀ {m}, Leads a limit (.start tree) m → m.Recorded tree a limit :=
    recorded_of_leads hresolves (obeys_of_analyze ha)
  refine ⟨fun name position houtcome => ?_, fun m target value position rest hm hrest => ?_,
    fun name position => ?_⟩
  · obtain ⟨m, hm, -, hfails⟩ := (outcome_eq_error_iff tree a limit _).1 houtcome
    exact (hsound hm).not_fails_unresolved hresolves hfails
  · exact (hsound hm).exists_set hresolves hrest
  · rw [outcome_eq_error_iff]
    constructor
    · rintro ⟨m, hm, hfails⟩
      exact ⟨m, hm, (fails_undefined_iff (hsound hm) (hrecorded hm) hresolves).1 hfails⟩
    · rintro ⟨m, hm, hreads⟩
      exact ⟨m, hm, (fails_undefined_iff (hsound hm) (hrecorded hm) hresolves).2 hreads⟩

/-- A source text in which a procedure assigns a variable of the program before the program
reads it, and the program then reads one that nothing has been assigned to. -/
def unassignedSource : String :=
  "PROGRAM P; VAR x, y : INTEGER; PROCEDURE Q(k : INTEGER); BEGIN x := k END; "
    ++ "BEGIN Q(1); y := x + y END."

/-- Unbound names in a run that reads an assigned variable and one that is not. -/
theorem unassignedSource_undefined_iff : ∃ tree a, parse unassignedSource = .ok tree ∧
    analyze tree = .ok a ∧
    (∀ name position, ((Interpreter.new a 5).run tree).outcome
        ≠ .error ⟨.unresolvedProcedure name, position⟩) ∧
      (∀ m target value position rest, Leads a 5 (.start tree) m →
        m.running.rest = .assign target value position :: rest →
        ∃ index, target.locate? a m.machine.stack = some index ∧ m.Denotes target.name index ∧
          ∀ result, ∃ stack, m.machine.stack.set? index target.name result = some stack) ∧
      ∀ name position, ((Interpreter.new a 5).run tree).outcome
          = .error ⟨.undefinedVariable name, position⟩ ↔
        ∃ m, Leads a 5 (.start tree) m ∧ m.ReadsUnassigned tree a 5 name position := by
  have haccepts : accepts unassignedSource = true := by decide +kernel
  obtain ⟨tree, a, hparse, ha⟩ := exists_analysis haccepts
  exact ⟨tree, a, hparse, ha, run_undefined_iff hparse ha 5⟩

end MiniPascal
