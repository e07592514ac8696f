/-
# Static links follow the text

At every moment of a run, the record of a procedure links to a record of the very
procedure, or program, whose block declares it.  So the static chain of the running body
passes through one record for each procedure around it in the text, and resolving the
level of a name arrives at the body that declares the name.

* `Linked.spine` : the static chain from a record follows the path of its body;
* `Linked.resolve` : resolving the level of a visible name;
* `sound_next`, `sound_of_leads` : the invariant is kept by every step, and so by every run;
* `run_staticallyLinked` : the static links in the runs of accepted source texts.
-/
import MiniPascal.Proofs.Moments
import MiniPascal.Proofs.Scoping.Resolution
import MiniPascal.Proofs.StaticChain

set_option autoImplicit false

namespace MiniPascal

/-! ## The bodies of a stack -/

/-- What the entered bodies of a moment see, from the bottom of the stack. -/
def Moment.bodies (m : Moment) : List Context :=
  ((m.running :: m.waiting).map Activity.context).reverse

/-- A heading that suits a body: that of the program stands at the bottom, and that of a
procedure links to a body of the block around it. -/
def Suits (bodies : List Context) (i : Nat) (h : Heading) : Context → Prop
  | .program _ => i = 0 ∧ h.kind = .program ∧ h.level = globalLevel ∧ h.staticLink = none
  | .inside owner _ outer => h.kind = .procedure ∧ h.name = owner.name ∧
      h.level = outer.level + 1 ∧
      ∃ j Δ, h.staticLink = some j ∧ j < i ∧ bodies[j]? = some Δ ∧ Δ.path = outer.path

/-- **The invariant of the stack**: every record suits its body, and all bodies are those
of blocks of the program. -/
structure Linked (tree : Program) (s : CallStack) (bodies : List Context) : Prop where
  size : bodies.length = s.size
  suits : ∀ i h Γ, s.heading? i = some h → bodies[i]? = some Γ → Suits bodies i h Γ
  isBody : ∀ Γ ∈ bodies, IsBody tree Γ

/-- Bodies above a record do not matter to it. -/
theorem Suits.append {bodies more : List Context} {i : Nat} {h : Heading} {Γ : Context}
    (hsuits : Suits bodies i h Γ) : Suits (bodies ++ more) i h Γ := by
  cases Γ with
  | program bindings => exact hsuits
  | inside owner bindings outer =>
      obtain ⟨hkind, hname, hlevel, j, Δ, hlink, hj, hΔ, hpath⟩ := hsuits
      have hin : j < bodies.length := (List.getElem?_eq_some_iff.1 hΔ).1
      exact ⟨hkind, hname, hlevel, j, Δ, hlink, hj,
        (List.getElem?_append_left hin).trans hΔ, hpath⟩

/-- A record needs the bodies below it only. -/
theorem Suits.of_append {bodies more : List Context} {i : Nat} {h : Heading} {Γ : Context}
    (hsuits : Suits (bodies ++ more) i h Γ) (hi : i ≤ bodies.length) :
    Suits bodies i h Γ := by
  cases Γ with
  | program bindings => exact hsuits
  | inside owner bindings outer =>
      obtain ⟨hkind, hname, hlevel, j, Δ, hlink, hj, hΔ, hpath⟩ := hsuits
      have hin : j < bodies.length := Nat.lt_of_lt_of_le hj hi
      exact ⟨hkind, hname, hlevel, j, Δ, hlink, hj,
        (List.getElem?_append_left hin).symm.trans hΔ, hpath⟩

namespace Linked

variable {tree : Program} {s t : CallStack} {bodies : List Context}

theorem congr (h : Linked tree s bodies) (hsize : t.size = s.size)
    (hheadings : ∀ i, t.heading? i = s.heading? i) : Linked tree t bodies := by
  refine ⟨h.size.trans hsize.symm, fun i g Γ hi hΓ => ?_, h.isBody⟩
  rw [hheadings] at hi
  exact h.suits i g Γ hi hΓ

/-- Entering a body keeps the invariant. -/
theorem push (h : Linked tree s bodies) {r : ActivationRecord} {Γ : Context}
    (hΓ : IsBody tree Γ) (hsuits : Suits bodies s.size r.heading Γ) :
    Linked tree (s.push r) (bodies ++ [Γ]) := by
  refine ⟨?_, fun i g Δ hi hΔ => ?_, fun Δ hΔ => ?_⟩
  · rw [List.length_append, h.size]
    rfl
  · rw [CallStack.heading?_push] at hi
    split at hi
    next htop =>
      cases hi
      rw [htop, ← h.size, List.getElem?_concat_length] at hΔ
      cases hΔ
      rw [htop]
      exact hsuits.append
    next hne =>
      have hlt : i < bodies.length := h.size ▸ CallStack.lt_size_of_heading? hi
      rw [List.getElem?_append_left hlt] at hΔ
      exact (h.suits i g Δ hi hΔ).append
  · rcases List.mem_append.1 hΔ with hΔ | hΔ
    · exact h.isBody Δ hΔ
    · rw [List.mem_singleton.1 hΔ]
      exact hΓ

/-- Leaving a body keeps the invariant. -/
theorem pop {Γ : Context} (h : Linked tree s (bodies ++ [Γ])) :
    Linked tree s.pop bodies := by
  obtain ⟨records⟩ := s
  have hsize := h.size
  cases records with
  | nil =>
      rw [List.length_append] at hsize
      cases hsize
  | cons r rest =>
      have hrest : bodies.length = (CallStack.mk rest).size := by
        rw [List.length_append] at hsize
        exact Nat.succ.inj hsize
      -- links lead down, so no record needs the one that is taken off
      refine ⟨hrest, fun i g Δ hi hΔ => ?_, fun Δ hΔ => h.isBody Δ (List.mem_append_left _ hΔ)⟩
      have hlt : i < bodies.length := (List.getElem?_eq_some_iff.1 hΔ).1
      refine Suits.of_append (h.suits i g Δ ?_ ?_) (Nat.le_of_lt hlt)
      · exact (CallStack.heading?_push_of_lt r (hrest ▸ hlt)).trans hi
      · rw [List.getElem?_append_left hlt]
        exact hΔ

theorem exists_body (h : Linked tree s bodies) {i : Nat} (hi : i < s.size) :
    ∃ Γ, bodies[i]? = some Γ :=
  ⟨_, List.getElem?_eq_getElem (h.size ▸ hi)⟩

theorem level (h : Linked tree s bodies) {i : Nat} {g : Heading} {Γ : Context}
    (hi : s.heading? i = some g) (hΓ : bodies[i]? = some Γ) : g.level = Γ.level := by
  have hsuits := h.suits i g Γ hi hΓ
  cases Γ with
  | program bindings => exact hsuits.2.2.1
  | inside owner bindings outer => exact hsuits.2.2.1

/-- **The static chain** from a record follows the path of its body: the records that it
passes through belong to the blocks around the body, one after another. -/
theorem spine (h : Linked tree s bodies) {i : Nat} {Γ : Context} (hΓ : bodies[i]? = some Γ) :
    ∃ rest, Spine s (i :: rest) ∧ rest.length + 1 = Γ.level ∧
      ∀ k j, (i :: rest)[k]? = some j →
        ∃ Δ, bodies[j]? = some Δ ∧ Δ.path = Γ.path.drop k := by
  -- links lead down the stack, so the induction is on the index
  induction i using Nat.strongRecOn generalizing Γ with
  | ind i ih =>
      have hlt : i < s.size := h.size ▸ (List.getElem?_eq_some_iff.1 hΓ).1
      obtain ⟨r, -, hheading⟩ := CallStack.exists_heading? hlt
      have hsuits := h.suits i _ Γ hheading hΓ
      cases Γ with
      | program bindings =>
          obtain ⟨-, -, hlevel, hlink⟩ := hsuits
          refine ⟨[], .program hheading hlevel hlink, rfl, fun k j hk => ?_⟩
          cases k with
          | zero =>
              cases hk
              exact ⟨_, hΓ, rfl⟩
          | succ k => cases hk
      | inside owner bindings outer =>
          obtain ⟨-, -, hlevel, j, Δ, hlink, hj, hΔ, hpath⟩ := hsuits
          obtain ⟨rest, hspine, hlength, hbodies⟩ := ih j hj hΔ
          have houter : rest.length + 1 = outer.level := by
            rw [hlength, Context.level_eq, Context.level_eq, hpath]
          refine ⟨j :: rest, .link hheading ?_ hlink hj hspine, ?_, fun k l hk => ?_⟩
          · rw [hlevel, ← houter]
          · rw [List.length_cons, houter]
            rfl
          · cases k with
            | zero =>
                cases hk
                exact ⟨_, hΓ, rfl⟩
            | succ k =>
                obtain ⟨Λ, hΛ, hdrop⟩ := hbodies k l hk
                rw [hpath] at hdrop
                exact ⟨Λ, hΛ, hdrop⟩

/-- **Resolving the level of a visible name** arrives at the body that declares it. -/
theorem resolve (h : Linked tree s bodies) {i : Nat} {Γ : Context} (hΓ : bodies[i]? = some Γ)
    (htop : i + 1 = s.size) {name : String} {b : Binding} {level : Nat}
    (hbound : Γ.binding? name = some (b, level)) :
    ∃ index Λ Δ, s.resolve level = some index ∧ Γ.since? name = some Λ ∧
      bodies[index]? = some Δ ∧ Δ.path = Λ.path := by
  obtain ⟨Λ, older, hsince, -, hlevel, hdrop, hle⟩ := Context.since?_of_binding? hbound
  obtain ⟨rest, hspine, hlength, hbodies⟩ := h.spine hΓ
  have hpos : 0 < level := hlevel ▸ Λ.level_pos
  have hresolve := hspine.resolve htop hpos (hlength ▸ hle)
  rw [hlength] at hresolve
  cases hindex : (i :: rest)[Γ.level - level]? with
  | none =>
      rw [List.getElem?_eq_none_iff, List.length_cons] at hindex
      omega
  | some index =>
      obtain ⟨Δ, hΔ, hpath⟩ := hbodies _ index hindex
      exact ⟨index, Λ, Δ, hresolve.trans hindex, hsince, hΔ, hpath.trans hdrop⟩

/-- **The bottom record** is that of the program. -/
theorem bottom (h : Linked tree s bodies) (hpos : 0 < s.size) :
    ∃ r bindings, s.get? 0 = some r ∧ bodies[0]? = some (.program bindings) ∧
      r.kind = .program ∧ r.level = globalLevel ∧ r.staticLink = none := by
  obtain ⟨r, hr, hheading⟩ := CallStack.exists_heading? hpos
  obtain ⟨Γ, hΓ⟩ := h.exists_body hpos
  have hsuits := h.suits 0 _ Γ hheading hΓ
  cases Γ with
  | program bindings =>
      obtain ⟨-, hkind, hlevel, hlink⟩ := hsuits
      exact ⟨r, bindings, hr, hΓ, hkind, hlevel, hlink⟩
  | inside owner bindings outer =>
      -- no record lies below the bottom
      obtain ⟨-, -, -, j, Δ, -, hj, -⟩ := hsuits
      exact absurd hj (Nat.not_lt_zero j)

/-- **A record above the bottom** is that of a procedure, and links to a record below of
the block that declares the procedure. -/
theorem link (h : Linked tree s bodies) {i : Nat} {r : ActivationRecord} (hpos : 0 < i)
    (hr : s.get? i = some r) :
    ∃ owner bindings outer j q Δ, bodies[i]? = some (.inside owner bindings outer) ∧
      r.kind = .procedure ∧ r.name = owner.name ∧ r.level = outer.path.length + 2 ∧
      r.staticLink = some j ∧ j < i ∧ s.get? j = some q ∧ q.level + 1 = r.level ∧
      bodies[j]? = some Δ ∧ Δ.path = outer.path ∧
      owner.declaration ∈ (Δ.block tree).declarations := by
  have hheading : s.heading? i = some r.heading := by
    rw [CallStack.heading?, hr]
    rfl
  obtain ⟨Γ, hΓ⟩ := h.exists_body (CallStack.lt_size_of_heading? hheading)
  have hsuits := h.suits i _ Γ hheading hΓ
  cases Γ with
  | program bindings =>
      obtain ⟨hzero, -⟩ := hsuits
      exact absurd hzero (Nat.ne_of_gt hpos)
  | inside owner bindings outer =>
      obtain ⟨hkind, hname, hlevel, j, Δ, hlink, hj, hΔ, hpath⟩ := hsuits
      have hlt : j < s.size := h.size ▸ (List.getElem?_eq_some_iff.1 hΔ).1
      obtain ⟨q, hq, hqheading⟩ := CallStack.exists_heading? hlt
      have hrlevel : r.level = outer.path.length + 2 := by
        rw [show r.level = outer.level + 1 from hlevel, Context.level_eq]
      have hqlevel : q.level = outer.path.length + 1 := by
        rw [show q.level = Δ.level from h.level hqheading hΔ, Context.level_eq, hpath]
      have hdeclared := (h.isBody _ (List.mem_of_getElem? hΓ)).arises.owner rfl
      rw [← Context.block_eq_of_path_eq tree hpath] at hdeclared
      exact ⟨owner, bindings, outer, j, q, Δ, hΓ, hkind, hname, hrlevel, hlink, hj, hq,
        by rw [hqlevel, hrlevel], hΔ, hpath, hdeclared⟩

end Linked

/-! ## Steps -/

/-- **The invariant of a run**: the stack is linked as the text is nested, and what is
left of a body are statements of its block. -/
structure Moment.Sound (tree : Program) (m : Moment) : Prop where
  linked : Linked tree m.machine.stack m.bodies
  rests : ∀ act ∈ m.running :: m.waiting, ∀ duty ∈ Statement.dutiesAll act.rest,
    duty ∈ Statement.dutiesAll (act.context.block tree).body

/-- The duties of statements that follow others. -/
theorem Statement.dutiesAll_append (body more : List Statement) :
    Statement.dutiesAll (body ++ more)
      = Statement.dutiesAll body ++ Statement.dutiesAll more := by
  induction body with
  | nil => rfl
  | cons first rest ih =>
      rw [List.cons_append, Statement.dutiesAll, Statement.dutiesAll, ih, List.append_assoc]

namespace Moment

variable {tree : Program} {m : Moment}

/-- A running body sees what stands at the top of the stack. -/
theorem bodies_top (h : m.Sound tree) :
    m.bodies[m.waiting.length]? = some m.running.context ∧
      m.waiting.length + 1 = m.machine.stack.size := by
  have hbodies : m.bodies = (m.waiting.map Activity.context).reverse ++ [m.running.context] := by
    rw [bodies, List.map_cons, List.reverse_cons]
  have hlength : ((m.waiting.map Activity.context).reverse).length = m.waiting.length := by
    rw [List.length_reverse, List.length_map]
  refine ⟨?_, ?_⟩
  · rw [hbodies, ← hlength, List.getElem?_concat_length]
  · rw [← h.linked.size, hbodies, List.length_append, hlength]
    rfl

theorem Sound.isBody (h : m.Sound tree) : IsBody tree m.running.context := by
  refine h.linked.isBody _ ?_
  rw [bodies, List.mem_reverse, List.map_cons]
  exact List.mem_cons_self

/-- A duty of the running body is due at a site of the program. -/
theorem Sound.site (h : m.Sound tree) {duty : Duty}
    (hduty : duty ∈ Statement.dutiesAll (m.running.context.block tree).body) :
    ⟨m.running.context, duty⟩ ∈ tree.sites :=
  h.isBody.sites _ (List.mem_map_of_mem hduty)

/-- What the next statement is about is about the running body. -/
theorem Sound.duty (h : m.Sound tree) {st : Statement} {rest : List Statement}
    (hrest : m.running.rest = st :: rest) {duty : Duty} (hduty : duty ∈ st.duties) :
    duty ∈ Statement.dutiesAll (m.running.context.block tree).body := by
  refine h.rests m.running List.mem_cons_self duty ?_
  rw [hrest, Statement.dutiesAll]
  exact List.mem_append_left _ hduty

/-- A target of an assignment occurs in the running body. -/
theorem Sound.mem_of_assign (h : m.Sound tree) {target : Variable} {value : Expr}
    {position : Position} {rest : List Statement}
    (hrest : m.running.rest = .assign target value position :: rest) :
    .occurrence target ∈ Statement.dutiesAll (m.running.context.block tree).body := by
  refine h.duty hrest ?_
  rw [Statement.duties]
  exact List.mem_append_right _ (List.mem_singleton.2 rfl)

theorem Sound.mem_of_call (h : m.Sound tree) {c : Call} {rest : List Statement}
    (hrest : m.running.rest = .call c :: rest) :
    .call c ∈ Statement.dutiesAll (m.running.context.block tree).body := by
  refine h.duty hrest ?_
  rw [Statement.duties, Call.duties]
  exact List.mem_append_right _ (List.mem_singleton.2 rfl)

/-- Going on with fewer statements of the running body keeps the invariant. -/
theorem Sound.goOn (h : m.Sound tree) {rest : List Statement}
    (hrest : ∀ duty ∈ Statement.dutiesAll rest, duty ∈ Statement.dutiesAll m.running.rest) :
    (m.goOn rest).Sound tree := by
  refine ⟨h.linked, fun act hact duty hduty => ?_⟩
  rcases List.mem_cons.1 hact with rfl | hact
  · exact h.rests m.running List.mem_cons_self duty (hrest duty hduty)
  · exact h.rests act (List.mem_cons_of_mem _ hact) duty hduty

theorem Sound.fail (h : m.Sound tree) (e : RuntimeError) : (m.fail e).Sound tree :=
  ⟨h.linked, h.rests⟩

/-- The end of a body keeps the invariant. -/
theorem Sound.finish (h : m.Sound tree) {n : Moment} (hn : m.finish = some n) :
    n.Sound tree := by
  unfold Moment.finish at hn
  split at hn
  · cases hn
  next caller others hwaiting =>
    cases hn
    have hbodies : m.bodies
        = ((caller :: others).map Activity.context).reverse ++ [m.running.context] := by
      rw [bodies, hwaiting, List.map_cons, List.reverse_cons]
    refine ⟨Linked.pop (hbodies ▸ h.linked), fun act hact => h.rests act ?_⟩
    rw [hwaiting]
    exact List.mem_cons_of_mem _ hact

/-- An assignment keeps the invariant. -/
theorem Sound.assign (h : m.Sound tree) (a : Analysis) (target : Variable) (value : Expr)
    {rest : List Statement}
    (hrest : ∀ duty ∈ Statement.dutiesAll rest, duty ∈ Statement.dutiesAll m.running.rest) :
    (m.assign a target value rest).Sound tree := by
  unfold Moment.assign
  split
  · exact h.fail _
  · split
    · exact h.fail _
    next stack hset =>
      obtain ⟨index, -, hindex⟩ := Option.bind_eq_some_iff.1 hset
      have hgoOn := h.goOn hrest
      exact ⟨hgoOn.linked.congr (CallStack.size_set hindex) (CallStack.heading?_set hindex),
        hgoOn.rests⟩

/-- What a call of the running body calls: a procedure that a block of the program
declares, with its own body as the label of the new record. -/
theorem Sound.callee (h : m.Sound tree) {a : Analysis} (ha : a.Resolves tree.sites) {c : Call}
    (hc : .call c ∈ Statement.dutiesAll (m.running.context.block tree).body) :
    ∃ p d Λ bindings index Δ, a.procedure? c.id = some p ∧
      m.running.context.since? c.name = some Λ ∧
      m.running.context.calleeContext c.name = .inside d bindings Λ ∧
      IsBody tree (.inside d bindings Λ) ∧ p.name = d.name ∧ p.block = d.block ∧
      p.scopeLevel = Λ.level ∧
      m.machine.stack.resolve p.scopeLevel = some index ∧ m.bodies[index]? = some Δ ∧
      Δ.path = Λ.path := by
  obtain ⟨d, level, p, hbound, -, hp, hprocedure⟩ := ha.calls _ c (h.site hc)
  obtain ⟨htop, hsize⟩ := bodies_top h
  obtain ⟨index, Λ, Δ, hresolve, hsince, hΔ, hpath⟩ := h.linked.resolve htop hsize hbound
  -- the name and its level lead back to the same declaration
  obtain ⟨Θ, harises, hsince', hlevel, hcallee, hd, hsites⟩ := h.isBody.arises.callee hbound
  obtain rfl : Λ = Θ.declare (.procedure d) := Option.some.inj (hsince.symm.trans hsince')
  obtain ⟨bindings, hbodyOf⟩ := (Θ.declare (.procedure d)).exists_bodyOf_eq d
  obtain ⟨formals, -, rfl⟩ := Option.map_eq_some_iff.1 hp
  refine ⟨_, d, _, bindings, index, Δ, hprocedure, hsince, hcallee.trans hbodyOf, ?_, rfl, rfl,
    hlevel.symm, hresolve, hΔ, hpath⟩
  rw [← hbodyOf]
  exact harises.bodyOf hd hsites

/-- A call keeps the invariant. -/
theorem Sound.call (h : m.Sound tree) {a : Analysis} (ha : a.Resolves tree.sites)
    (limit : Nat) {c : Call} {rest : List Statement} (hrest : m.running.rest = .call c :: rest) :
    (m.call a limit c rest).Sound tree := by
  have hduties : ∀ duty ∈ Statement.dutiesAll m.running.rest,
      duty ∈ Statement.dutiesAll (m.running.context.block tree).body :=
    h.rests m.running List.mem_cons_self
  obtain ⟨p, d, Λ, bindings, index, Δ, hp, -, hcallee, hbody, hname, hblock, hlevel, hresolve,
    hΔ, hpath⟩ := h.callee ha (h.mem_of_call hrest)
  unfold Moment.call
  simp only [hp]
  split
  · exact h.fail _
  · split
    · exact h.fail _
    next values _ =>
      have hbodies : (m.bodies ++ [.inside d bindings Λ])
          = Moment.bodies ⟨m.machine.enter (p.activate m.machine.stack values),
              ⟨p.activate m.machine.stack values, m.running.context.calleeContext c.name,
                p.block.body⟩, { m.running with rest := rest } :: m.waiting, none⟩ := by
        simp only [bodies, List.map_cons, List.reverse_cons, hcallee]
      constructor
      -- the link of the new record was resolved before it was pushed
      · rw [← hbodies]
        refine h.linked.push hbody ?_
        rw [heading_activate]
        have hindex : index < m.machine.stack.size :=
          h.linked.size ▸ (List.getElem?_eq_some_iff.1 hΔ).1
        exact ⟨rfl, hname, by rw [hlevel], index, Δ, hresolve, hindex, hΔ, hpath⟩
      · intro act hact duty hduty
        rcases List.mem_cons.1 hact with rfl | hact
        · rw [hcallee, Context.block, ← hblock]
          exact hduty
        · rcases List.mem_cons.1 hact with rfl | hact
          · refine hduties duty ?_
            rw [hrest, Statement.dutiesAll]
            exact List.mem_append_right _ hduty
          · exact h.rests act (List.mem_cons_of_mem _ hact) duty hduty

end Moment

/-- **Every step** keeps the invariant. -/
theorem sound_next {tree : Program} {a : Analysis} (ha : a.Resolves tree.sites) {limit : Nat}
    {m n : Moment} (h : m.Sound tree) (hn : m.next a limit = some n) : n.Sound tree := by
  -- what is left behind a statement was left before it
  have hlater : ∀ (st : Statement) (rest : List Statement), m.running.rest = st :: rest →
      ∀ duty ∈ Statement.dutiesAll rest, duty ∈ Statement.dutiesAll m.running.rest := by
    intro st rest hrest duty hduty
    rw [hrest, Statement.dutiesAll]
    exact List.mem_append_right _ hduty
  unfold Moment.next at hn
  split at hn
  · exact h.finish hn
  · exact h.finish hn
  next rest _ hrest =>
    cases hn
    exact h.goOn (hlater _ rest hrest)
  next body rest _ hrest =>
    cases hn
    refine h.goOn fun duty hduty => ?_
    rw [hrest, Statement.dutiesAll, Statement.duties, ← Statement.dutiesAll_append]
    exact hduty
  next target value position rest _ hrest =>
    cases hn
    exact h.assign a target value (hlater _ rest hrest)
  next c rest _ hrest =>
    cases hn
    exact h.call ha limit hrest

/-! ## Runs -/

/-- The start of a program satisfies the invariant. -/
theorem sound_start (tree : Program) : (Moment.start tree).Sound tree := by
  obtain ⟨bindings, hprogram⟩ : ∃ bindings, Context.initial.behind tree.block = .program bindings :=
    Context.exists_declareAll_program _ _
  constructor
  · refine ⟨rfl, fun i h Γ hi hΓ => ?_, fun Γ hΓ => ?_⟩
    -- the only record is that of the program
    · have hzero : i = 0 :=
        Nat.lt_one_iff.1 (CallStack.lt_size_of_heading? hi)
      subst hzero
      cases hi
      cases hΓ
      show Suits _ 0 _ (Context.initial.behind tree.block)
      rw [hprogram]
      exact ⟨rfl, rfl, rfl, rfl⟩
    · rw [List.mem_singleton.1 hΓ]
      exact isBody_program tree
  · intro act hact duty hduty
    rw [List.mem_singleton.1 hact] at hduty ⊢
    show duty ∈ Statement.dutiesAll ((Context.initial.behind tree.block).block tree).body
    rw [Context.behind, Context.block_declareAll]
    exact hduty

/-- **Every moment of a run** satisfies the invariant. -/
theorem sound_of_leads {tree : Program} {a : Analysis} (ha : a.Resolves tree.sites) {limit : Nat}
    {m n : Moment} (h : m.Sound tree) (hleads : Leads a limit m n) : n.Sound tree := by
  induction hleads with
  | refl _ => exact h
  | step hnext _ ih => exact ih (sound_next ha h hnext)

/-- A moment whose static links follow the text, with an analysis that resolves the names
of its running body. -/
structure Moment.StaticallyLinked (tree : Program) (a : Analysis) (m : Moment) : Prop where
  /-- The bottom record is that of the program. -/
  bottom : ∃ r bindings, m.machine.stack.get? 0 = some r ∧
    m.bodies[0]? = some (.program bindings) ∧
    r.kind = .program ∧ r.level = globalLevel ∧ r.staticLink = none
  /-- Every other record is that of a procedure, on the level of its own scope, and links
  to a record below of the block that declares the procedure. -/
  others : ∀ i r, 0 < i → m.machine.stack.get? i = some r →
    ∃ owner bindings outer j q Δ, m.bodies[i]? = some (.inside owner bindings outer) ∧
      r.kind = .procedure ∧ r.name = owner.name ∧ r.level = outer.path.length + 2 ∧
      r.staticLink = some j ∧ j < i ∧ m.machine.stack.get? j = some q ∧
      q.level + 1 = r.level ∧ m.bodies[j]? = some Δ ∧ Δ.path = outer.path ∧
      owner.declaration ∈ (Δ.block tree).declarations
  /-- The declared level of a variable of the running body resolves to a record of the
  block that declares the variable. -/
  occurrences : ∀ v, .occurrence v ∈ Statement.dutiesAll (m.running.context.block tree).body →
    ∃ level index Λ Δ, a.declaredLevel? v.id = some level ∧
      m.machine.stack.resolve level = some index ∧
      m.running.context.since? v.name = some Λ ∧ m.bodies[index]? = some Δ ∧ Δ.path = Λ.path
  /-- The scope level of a procedure that the running body calls resolves to a record of
  the block that declares the procedure. -/
  calls : ∀ c, .call c ∈ Statement.dutiesAll (m.running.context.block tree).body →
    ∃ p d bindings index Λ Δ, a.procedure? c.id = some p ∧
      m.running.context.calleeContext c.name = .inside d bindings Λ ∧
      p.name = d.name ∧ p.block = d.block ∧
      m.machine.stack.resolve p.scopeLevel = some index ∧
      m.running.context.since? c.name = some Λ ∧ m.bodies[index]? = some Δ ∧ Δ.path = Λ.path

/-- The invariant says where the static links lead. -/
theorem Moment.Sound.staticallyLinked {tree : Program} {a : Analysis}
    (ha : a.Resolves tree.sites) {m : Moment} (h : m.Sound tree) :
    m.StaticallyLinked tree a := by
  obtain ⟨htop, hsize⟩ := bodies_top h
  have hpos : 0 < m.machine.stack.size := hsize ▸ Nat.succ_pos _
  refine ⟨h.linked.bottom hpos, fun i r hi hr => h.linked.link hi hr, fun v hv => ?_,
    fun c hc => ?_⟩
  · obtain ⟨b, level, hbound, -, hlevel⟩ := ha.occurrences _ v (h.site hv)
    obtain ⟨index, Λ, Δ, hresolve, hsince, hΔ, hpath⟩ := h.linked.resolve htop hsize hbound
    exact ⟨level, index, Λ, Δ, hlevel, hresolve, hsince, hΔ, hpath⟩
  · obtain ⟨p, d, Λ, bindings, index, Δ, hp, hsince, hcallee, -, hname, hblock, -, hresolve, hΔ,
      hpath⟩ := h.callee ha hc
    exact ⟨p, d, bindings, index, Λ, Δ, hp, hcallee, hname, hblock, hresolve, hsince, hΔ, hpath⟩

/-- **Static links follow the text** in the run of every source text that parses and has
an analysis, under every limit: at each of its moments, the records link as the blocks of
the text are nested, and the names of the running body resolve to the records of the
blocks that declare them. -/
theorem run_staticallyLinked {source : String} {tree : Program} {a : Analysis}
    (hparse : parse source = .ok tree) (ha : analyze tree = .ok a) (limit : Nat) :
    ∃ last : Moment, Leads a limit (.start tree) last ∧ last.next a limit = none ∧
      (Interpreter.new a limit).run tree = last.leftBehind a limit tree ∧
      ∀ m, Leads a limit (.start tree) m →
        Leads a limit m last ∧ m.StaticallyLinked tree a := by
  have hresolves := resolves_of_analyze ha (nodup_of_parse hparse)
  obtain ⟨last, hlast, hover, hrun⟩ := leads_run tree a limit
  refine ⟨last, hlast, hover, hrun, fun m hm => ⟨hm.to_end hlast hover, ?_⟩⟩
  exact (sound_of_leads hresolves (sound_start tree) hm).staticallyLinked hresolves

/-- A source text in which a nested procedure calls the one around it. -/
def nestedSource : String :=
  "PROGRAM P; VAR n : INTEGER; PROCEDURE Q(k : INTEGER); "
    ++ "PROCEDURE R; BEGIN n := k; Q(n) END; BEGIN R() END; BEGIN Q(1) END."

/-- The static links in a run of nested and recursive procedures. -/
theorem nestedSource_staticallyLinked : ∃ tree a, parse nestedSource = .ok tree ∧
    analyze tree = .ok a ∧
    ∃ last : Moment, Leads a 5 (.start tree) last ∧ last.next a 5 = none ∧
      (Interpreter.new a 5).run tree = last.leftBehind a 5 tree ∧
      ∀ m, Leads a 5 (.start tree) m →
        Leads a 5 m last ∧ m.StaticallyLinked tree a := by
  have haccepts : accepts nestedSource = true := by decide +kernel
  obtain ⟨tree, a, hparse, ha⟩ := exists_analysis haccepts
  exact ⟨tree, a, hparse, ha, run_staticallyLinked hparse ha 5⟩

end MiniPascal
