/-
# What encloses a point of the text

The procedures around a point of the text make up its *path*.  A visible name leads back
to the point just behind its declaration, and the path of that point ends the path of
the name's use.  Every context of a program arises by declaring what its blocks declare,
and by entering procedures just behind their names.

* `Context.since?_of_binding?` : the point behind the innermost visible declaration of a
  name;
* `Arises.declared` : a visible name is that of a builtin type, of a parameter or of a
  declaration in a block of the program;
* `Arises.procedure`, `Arises.var` : so a visible procedure and a visible variable are
  declared by a block of the program;
* `Arises.callee` : what the body of a called procedure sees;
* `Arises.owner` : a procedure stands among the declarations of the block around it.
-/
import MiniPascal.Proofs.Scoping

set_option autoImplicit false

namespace MiniPascal

namespace Context

/-! ## Paths -/

/-- The procedures around a point, the innermost first. -/
def path : Context → List ProcedureDeclaration
  | .program _ => []
  | .inside owner _ outer => owner :: outer.path

/-- The level of a scope is one more than the number of procedures around it. -/
theorem level_eq (Γ : Context) : Γ.level = Γ.path.length + 1 := by
  induction Γ with
  | program bindings => rfl
  | inside owner bindings outer ih => rw [level, path, List.length_cons, ih]

theorem level_pos (Γ : Context) : 0 < Γ.level := by
  rw [level_eq]
  exact Nat.succ_pos _

/-- The block whose declarations and body a context belongs to. -/
def block (tree : Program) : Context → Block
  | .program _ => tree.block
  | .inside owner _ _ => owner.block

@[simp] theorem block_declare (tree : Program) (Γ : Context) (b : Binding) :
    (Γ.declare b).block tree = Γ.block tree := by
  cases Γ <;> rfl

@[simp] theorem block_declareAll (tree : Program) (Γ : Context) (bindings : List Binding) :
    (Γ.declareAll bindings).block tree = Γ.block tree := by
  induction bindings generalizing Γ with
  | nil => rfl
  | cons b rest ih => rw [declareAll_cons, ih, block_declare]

/-- What is inside of a procedure behind a declaration is so in front of it. -/
theorem eq_inside_of_declare {Γ : Context} {b : Binding} {owner : ProcedureDeclaration}
    {bindings : List Binding} {outer : Context}
    (h : Γ.declare b = .inside owner bindings outer) :
    ∃ older, Γ = .inside owner older outer := by
  cases Γ with
  | program older => cases h
  | inside other older around =>
      cases h
      exact ⟨older, rfl⟩

/-- A declaration determines the context in front of it. -/
theorem declare_injective {Γ Δ : Context} {b : Binding} (h : Γ.declare b = Δ.declare b) :
    Γ = Δ := by
  cases Γ with
  | program bindings =>
      cases Δ with
      | program more =>
          cases h
          rfl
      | inside owner more outer => cases h
  | inside owner bindings outer =>
      cases Δ with
      | program more => cases h
      | inside other more around =>
          cases h
          rfl

/-- Contexts of one path belong to one block. -/
theorem block_eq_of_path_eq (tree : Program) {Γ Δ : Context} (h : Γ.path = Δ.path) :
    Γ.block tree = Δ.block tree := by
  cases Γ with
  | program bindings =>
      cases Δ with
      | program more => rfl
      | inside owner more outer => cases h
  | inside owner bindings outer =>
      cases Δ with
      | program more => cases h
      | inside other more around =>
          have howner : owner = other := (List.cons.inj h).1
          rw [block, block, howner]

theorem exists_declareAll_eq (owner : ProcedureDeclaration) (bindings more : List Binding)
    (outer : Context) :
    ∃ all, (Context.inside owner bindings outer).declareAll more = .inside owner all outer := by
  induction more generalizing bindings with
  | nil => exact ⟨bindings, rfl⟩
  | cons b rest ih => exact ih (b :: bindings)

theorem exists_declareAll_program (bindings more : List Binding) :
    ∃ all, (Context.program bindings).declareAll more = .program all := by
  induction more generalizing bindings with
  | nil => exact ⟨bindings, rfl⟩
  | cons b rest ih => exact ih (b :: bindings)

/-- What the body of a procedure sees that is declared at the end of a context. -/
def bodyOf (Γ : Context) (d : ProcedureDeclaration) : Context := (Γ.enterWith d).behind d.block

theorem exists_bodyOf_eq (Γ : Context) (d : ProcedureDeclaration) :
    ∃ bindings, Γ.bodyOf d = .inside d bindings Γ := by
  obtain ⟨params, hparams⟩ := exists_declareAll_eq d [] (d.params.map .parameter) Γ
  rw [bodyOf, behind, enterWith, enter, hparams]
  exact exists_declareAll_eq d params _ Γ

theorem block_bodyOf (tree : Program) (Γ : Context) (d : ProcedureDeclaration) :
    (Γ.bodyOf d).block tree = d.block := by
  obtain ⟨bindings, hbody⟩ := Γ.exists_bodyOf_eq d
  rw [hbody]
  rfl

/-! ## Back to a declaration -/

/-- All that is declared just behind the innermost visible declaration of a name. -/
def since? (name : String) : Context → Option Context
  | .program bindings =>
    match bindings.dropWhile (·.name != name) with
    | [] => none
    | b :: older => some (.program (b :: older))
  | .inside owner bindings outer =>
    match bindings.dropWhile (·.name != name) with
    | [] => outer.since? name
    | b :: older => some (.inside owner (b :: older) outer)

/-- A scope goes back to the binding that it finds. -/
theorem dropWhile_cases (name : String) (bindings : List Binding) :
    (bindings.dropWhile (·.name != name) = [] ∧ bindings.find? (·.name == name) = none) ∨
      ∃ b older, bindings.dropWhile (·.name != name) = b :: older ∧
        bindings.find? (·.name == name) = some b := by
  induction bindings with
  | nil => exact Or.inl ⟨rfl, rfl⟩
  | cons b older ih =>
      by_cases hname : b.name = name
      · refine Or.inr ⟨b, older, ?_, ?_⟩
        · rw [List.dropWhile_cons_of_neg (by simp [hname])]
        · rw [List.find?_cons_of_pos (by simp [hname])]
      · rw [List.dropWhile_cons_of_pos (by simp [hname]),
          List.find?_cons_of_neg (by simp [hname])]
        exact ih

/-- What the body of the procedure that a name stands for sees; where the name stands for
no procedure, what is visible here. -/
def calleeContext (Γ : Context) (name : String) : Context :=
  match Γ.since? name with
  | none => Γ
  | some Δ =>
    match Δ.bindings with
    | .procedure d :: _ => Δ.bodyOf d
    | _ => Γ

/-- **A visible name** leads back to a point behind its innermost declaration, and the
path of that point ends the path of the name's use. -/
theorem since?_of_binding? {Γ : Context} {name : String} {b : Binding} {level : Nat}
    (h : Γ.binding? name = some (b, level)) :
    ∃ Δ older, Γ.since? name = some Δ ∧ Δ.bindings = b :: older ∧ Δ.level = level ∧
      Γ.path.drop (Γ.level - level) = Δ.path ∧ level ≤ Γ.level := by
  induction Γ with
  | program bindings =>
      unfold binding? at h
      unfold since?
      rcases dropWhile_cases name bindings with ⟨-, hfind⟩ | ⟨found, older, hdrop, hfind⟩
      · rw [hfind] at h
        cases h
      · rw [hfind] at h
        cases h
        rw [hdrop]
        exact ⟨_, older, rfl, rfl, rfl, rfl, Nat.le_refl _⟩
  | inside owner bindings outer ih =>
      unfold binding? at h
      unfold since?
      rcases dropWhile_cases name bindings with ⟨hdrop, hfind⟩ | ⟨found, older, hdrop, hfind⟩
      · rw [hfind] at h
        obtain ⟨Δ, older, hsince, hbindings, hlevel, hpath, hle⟩ := ih h
        rw [hdrop]
        refine ⟨Δ, older, hsince, hbindings, hlevel, ?_, Nat.le_succ_of_le hle⟩
        -- going out of a procedure takes it off the path and lowers the level
        rw [path, show (inside owner bindings outer).level - level
          = (outer.level - level) + 1 from Nat.succ_sub hle]
        exact hpath
      · rw [hfind] at h
        cases h
        rw [hdrop]
        refine ⟨_, older, rfl, rfl, rfl, ?_, Nat.le_refl _⟩
        rw [level, Nat.sub_self]
        rfl

/-- The way back starts at the latest declaration. -/
theorem since?_declare (Γ : Context) (b : Binding) (name : String) :
    (Γ.declare b).since? name
      = if b.name = name then some (Γ.declare b) else Γ.since? name := by
  by_cases hname : b.name = name
  · rw [if_pos hname]
    cases Γ <;> simp [declare, since?, hname]
  · rw [if_neg hname]
    cases Γ <;> simp [declare, since?, hname]

/-- In a new scope the way back leads outside. -/
theorem since?_enter (Γ : Context) (owner : ProcedureDeclaration) (name : String) :
    (Γ.enter owner).since? name = Γ.since? name := rfl

end Context

/-! ## The contexts of a program -/

/-- The declaration that was taken apart. -/
def ProcedureDeclaration.declaration (d : ProcedureDeclaration) : Declaration :=
  .procedure d.name d.params d.block.declarations d.block.body d.position

/-- A declaration that binds its name to a procedure is that procedure. -/
theorem Declaration.eq_declaration {d : Declaration} {p : ProcedureDeclaration}
    (h : d.binding = .procedure p) : d = p.declaration := by
  cases d with
  | var name type position => cases h
  | procedure name params declarations body position =>
      cases h
      rfl

/-- The contexts that arise in the text of a program. -/
inductive Arises (tree : Program) : Context → Prop where
  | initial : Arises tree .initial
  | declare {Γ : Context} {d : Declaration} (h : Arises tree Γ)
      (hd : d ∈ (Γ.block tree).declarations) (hsites : ∀ s ∈ d.sites Γ, s ∈ tree.sites) :
      Arises tree (Γ.declare d.binding)
  | parameter {Γ : Context} (p : Parameter) (h : Arises tree Γ) :
      Arises tree (Γ.declare (.parameter p))
  | enter {Γ : Context} {d : ProcedureDeclaration} (h : Arises tree Γ)
      (hd : d.declaration ∈ (Γ.block tree).declarations)
      (hsites : ∀ s ∈ d.declaration.sites Γ, s ∈ tree.sites) :
      Arises tree ((Γ.declare (.procedure d)).enter d)

/-- A context of a program that sees all that the body of its block sees. -/
structure IsBody (tree : Program) (Γ : Context) : Prop where
  arises : Arises tree Γ
  sites : ∀ s ∈ Γ.sitesOf (Statement.dutiesAll (Γ.block tree).body), s ∈ tree.sites

namespace Arises

variable {tree : Program} {Γ : Context}

/-- The declarations of a block arise one after another. -/
theorem declareAll (h : Arises tree Γ) {ds : List Declaration}
    (hds : ∀ d ∈ ds, d ∈ (Γ.block tree).declarations)
    (hsites : ∀ s ∈ Declaration.sitesAll Γ ds, s ∈ tree.sites) :
    Arises tree (Γ.declareAll (ds.map Declaration.binding)) := by
  induction ds generalizing Γ with
  | nil => exact h
  | cons first rest ih =>
      rw [Declaration.sitesAll] at hsites
      have hfirst : Arises tree (Γ.declare first.binding) :=
        h.declare (hds first List.mem_cons_self)
          fun s hs => hsites s (List.mem_append_left _ hs)
      refine ih hfirst (fun d hd => ?_) fun s hs => hsites s (List.mem_append_right _ hs)
      rw [Context.block_declare]
      exact hds d (List.mem_cons_of_mem _ hd)

theorem parameters (h : Arises tree Γ) (params : List Parameter) :
    Arises tree (Γ.declareAll (params.map .parameter)) := by
  induction params generalizing Γ with
  | nil => exact h
  | cons first rest ih => exact ih (h.parameter first)

/-- **The body of a procedure** that is declared in a program. -/
theorem bodyOf (h : Arises tree Γ) {d : ProcedureDeclaration}
    (hd : d.declaration ∈ (Γ.block tree).declarations)
    (hsites : ∀ s ∈ d.declaration.sites Γ, s ∈ tree.sites) :
    IsBody tree ((Γ.declare (.procedure d)).bodyOf d) := by
  obtain ⟨params, hparams⟩ := Context.exists_declareAll_eq d [] (d.params.map .parameter)
    (Γ.declare (.procedure d))
  have hinside : ∀ s ∈ Declaration.sitesAll ((Γ.declare (.procedure d)).enterWith d)
      d.block.declarations, s ∈ tree.sites := by
    intro s hs
    refine hsites s ?_
    rw [ProcedureDeclaration.declaration, Declaration.sites]
    simp only [List.mem_append]
    exact Or.inl (Or.inr hs)
  constructor
  · refine ((h.enter hd hsites).parameters d.params).declareAll (fun e he => ?_) hinside
    rw [Context.enter, hparams]
    exact he
  · intro s hs
    refine hsites s ?_
    rw [Context.block_bodyOf] at hs
    rw [ProcedureDeclaration.declaration, Declaration.sites]
    simp only [List.mem_append]
    exact Or.inr hs

/-- **A visible name** is that of a builtin type, of a parameter or of a declaration that
stands in a block of the program. -/
theorem declared (h : Arises tree Γ) {name : String} {Δ : Context}
    (hsince : Γ.since? name = some Δ) :
    ∃ Λ b, Δ = Λ.declare b ∧ ((∃ t, b = .type t) ∨ (∃ p, b = .parameter p) ∨
      ∃ d, b = d.binding ∧ d ∈ (Λ.block tree).declarations ∧ Arises tree Λ ∧
        ∀ s ∈ d.sites Λ, s ∈ tree.sites) := by
  -- the way back ends at a declaration that has arisen on the way here
  induction h with
  | initial =>
      have hinitial : Context.initial
          = ((Context.program []).declare (.type .integer)).declare (.type .real) := rfl
      rw [hinitial, Context.since?_declare, Context.since?_declare] at hsince
      split at hsince
      · cases hsince
        exact ⟨_, _, rfl, Or.inl ⟨.real, rfl⟩⟩
      · split at hsince
        · cases hsince
          exact ⟨_, _, rfl, Or.inl ⟨.integer, rfl⟩⟩
        · cases hsince
  | @declare Λ e hΛ he hsites ih =>
      rw [Context.since?_declare] at hsince
      split at hsince
      · cases hsince
        exact ⟨Λ, _, rfl, Or.inr (Or.inr ⟨e, rfl, he, hΛ, hsites⟩)⟩
      · exact ih hsince
  | @parameter Λ p hΛ ih =>
      rw [Context.since?_declare] at hsince
      split at hsince
      · cases hsince
        exact ⟨Λ, _, rfl, Or.inr (Or.inl ⟨p, rfl⟩)⟩
      · exact ih hsince
  | @enter Λ e hΛ he hsites ih =>
      rw [Context.since?_enter, Context.since?_declare] at hsince
      split at hsince
      · cases hsince
        exact ⟨Λ, _, rfl, Or.inr (Or.inr ⟨e.declaration, rfl, he, hΛ, hsites⟩)⟩
      · exact ih hsince

/-- **A visible procedure** is declared by a block of the program. -/
theorem procedure (h : Arises tree Γ) {name : String} {Δ : Context} {d : ProcedureDeclaration}
    {older : List Binding} (hsince : Γ.since? name = some Δ)
    (hlatest : Δ.bindings = .procedure d :: older) :
    ∃ Λ, Arises tree Λ ∧ Δ = Λ.declare (.procedure d) ∧
      d.declaration ∈ (Λ.block tree).declarations ∧
      ∀ s ∈ d.declaration.sites Λ, s ∈ tree.sites := by
  obtain ⟨Λ, b, rfl, hb⟩ := h.declared hsince
  rw [Context.bindings_declare] at hlatest
  obtain rfl : b = .procedure d := (List.cons.inj hlatest).1
  rcases hb with ⟨t, ht⟩ | ⟨p, hp⟩ | ⟨e, he, hmem, hΛ, hsites⟩
  · cases ht
  · cases hp
  · obtain rfl : e = d.declaration := Declaration.eq_declaration he.symm
    exact ⟨Λ, hΛ, rfl, hmem, hsites⟩

/-- **A visible variable** that is no parameter is declared by the block around its
declaration. -/
theorem var (h : Arises tree Γ) {name : String} {Δ : Context} {declared : String}
    {type : TypeName} {older : List Binding} (hsince : Γ.since? name = some Δ)
    (hlatest : Δ.bindings = .var declared type :: older) :
    ∃ position, .var declared type position ∈ (Δ.block tree).declarations := by
  obtain ⟨Λ, b, rfl, hb⟩ := h.declared hsince
  rw [Context.bindings_declare] at hlatest
  obtain rfl : b = .var declared type := (List.cons.inj hlatest).1
  rw [Context.block_declare]
  rcases hb with ⟨t, ht⟩ | ⟨p, hp⟩ | ⟨e, he, hmem, -, -⟩
  · cases ht
  · cases hp
  · cases e with
    | var other otherType position =>
        cases he
        exact ⟨position, hmem⟩
    | procedure _ _ _ _ _ => cases he

/-- **A called procedure**: the point just behind its declaration, and what its body sees. -/
theorem callee (h : Arises tree Γ) {name : String} {d : ProcedureDeclaration} {level : Nat}
    (hbound : Γ.binding? name = some (.procedure d, level)) :
    ∃ Λ, Arises tree Λ ∧ Γ.since? name = some (Λ.declare (.procedure d)) ∧
      (Λ.declare (.procedure d)).level = level ∧
      Γ.calleeContext name = (Λ.declare (.procedure d)).bodyOf d ∧
      d.declaration ∈ (Λ.block tree).declarations ∧
      ∀ s ∈ d.declaration.sites Λ, s ∈ tree.sites := by
  obtain ⟨Δ, older, hsince, hlatest, hlevel, -, -⟩ := Context.since?_of_binding? hbound
  obtain ⟨Λ, harises, rfl, hd, hsites⟩ := h.procedure hsince hlatest
  refine ⟨Λ, harises, hsince, hlevel, ?_, hd, hsites⟩
  rw [Context.calleeContext, hsince]
  simp only [hlatest]

/-- **A procedure stands** among the declarations of the block around it. -/
theorem owner (h : Arises tree Γ) {d : ProcedureDeclaration} {bindings : List Binding}
    {outer : Context} (hΓ : Γ = .inside d bindings outer) :
    d.declaration ∈ (outer.block tree).declarations := by
  induction h generalizing bindings with
  | initial => cases hΓ
  | declare _ _ _ ih =>
      obtain ⟨older, hΛ⟩ := Context.eq_inside_of_declare hΓ
      exact ih hΛ
  | parameter _ _ ih =>
      obtain ⟨older, hΛ⟩ := Context.eq_inside_of_declare hΓ
      exact ih hΛ
  | enter _ hd _ _ =>
      cases hΓ
      rw [Context.block_declare]
      exact hd

end Arises

/-- The body of a program sees all that is declared in its block. -/
theorem isBody_program (tree : Program) : IsBody tree (Context.initial.behind tree.block) := by
  constructor
  · exact Arises.initial.declareAll (fun _ hd => hd)
      fun s hs => List.mem_append_left _ hs
  · intro s hs
    rw [Context.behind, Context.block_declareAll] at hs
    exact List.mem_append_right _ hs

end MiniPascal
