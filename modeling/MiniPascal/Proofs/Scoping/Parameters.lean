/-
# Parameters and declared variables

No name is declared twice in one scope, so the parameters of a procedure have names of their
own, and a variable that is declared inside of it has another name than each of them.

* `ProcedureDeclaration.nodup_params` : the parameters of a procedure have names of their own;
* `Context.Tidy` : the scopes around a point tell parameters and declared variables apart;
* `tidy_program`, `Context.Tidy.bodyOf` : the bodies of a program that obeys the rules see
  such scopes;
* `Context.Tidy.since?` : so does every point that a visible name leads back to.
-/
import MiniPascal.Proofs.Scoping.Enclosure

set_option autoImplicit false

namespace MiniPascal

/-- A binding in the scope of a procedure with parameters of some names: what is bound as a
parameter has one of these names, and what is declared as a variable has none. -/
def Binding.Fits (names : List String) : Binding → Prop
  | .type _ => True
  | .parameter p => p.name ∈ names
  | .var name _ => name ∉ names
  | .procedure _ => True

namespace Context

/-- The names of the parameters of the innermost procedure around a point. -/
def parameterNames : Context → List String
  | .program _ => []
  | .inside owner _ _ => owner.params.map Parameter.name

/-- The scopes around a point tell parameters and declared variables apart. -/
def Tidy : Context → Prop
  | .program bindings => ∀ b ∈ bindings, b.Fits []
  | .inside owner bindings outer =>
    (∀ b ∈ bindings, b.Fits (owner.params.map Parameter.name)) ∧ outer.Tidy

/-- Points with one path are inside of one procedure. -/
theorem parameterNames_eq_of_path_eq {Γ Δ : Context} (h : Γ.path = Δ.path) :
    Γ.parameterNames = Δ.parameterNames := by
  cases Γ with
  | program bindings =>
      cases Δ with
      | program more => rfl
      | inside owner more outer => cases h
  | inside owner bindings outer =>
      cases Δ with
      | program more => cases h
      | inside other more around =>
          have howner : owner = other := (List.cons.inj h).1
          rw [parameterNames, parameterNames, howner]

@[simp] theorem parameterNames_declare (Γ : Context) (b : Binding) :
    (Γ.declare b).parameterNames = Γ.parameterNames := by
  cases Γ <;> rfl

/-- All bindings of a scope, the latest first. -/
theorem bindings_declareAll (Γ : Context) (more : List Binding) :
    (Γ.declareAll more).bindings = more.reverse ++ Γ.bindings := by
  induction more generalizing Γ with
  | nil => rfl
  | cons b rest ih =>
      rw [declareAll_cons, ih, bindings_declare, List.reverse_cons, List.append_assoc]
      rfl

namespace Tidy

variable {Γ Λ : Context}

theorem fits (h : Γ.Tidy) {b : Binding} (hb : b ∈ Γ.bindings) : b.Fits Γ.parameterNames := by
  cases Γ with
  | program bindings => exact h b hb
  | inside owner bindings outer => exact h.1 b hb

theorem declare (h : Γ.Tidy) {b : Binding} (hb : b.Fits Γ.parameterNames) :
    (Γ.declare b).Tidy := by
  cases Γ with
  | program bindings => exact List.forall_mem_cons.2 ⟨hb, h⟩
  | inside owner bindings outer => exact ⟨List.forall_mem_cons.2 ⟨hb, h.1⟩, h.2⟩

/-- More bindings. -/
theorem declareAll (h : Γ.Tidy) {more : List Binding}
    (hmore : ∀ b ∈ more, b.Fits Γ.parameterNames) : (Γ.declareAll more).Tidy := by
  induction more generalizing Γ with
  | nil => exact h
  | cons b rest ih =>
      obtain ⟨hb, hrest⟩ := List.forall_mem_cons.1 hmore
      refine ih (h.declare hb) fun c hc => ?_
      rw [parameterNames_declare]
      exact hrest c hc

/-- **Back at a declaration** the scopes are tidy as well. -/
theorem since? (h : Γ.Tidy) {name : String} (hsince : Γ.since? name = some Λ) : Λ.Tidy := by
  induction Γ with
  | program bindings =>
      unfold Context.since? at hsince
      split at hsince
      · cases hsince
      next b older hdrop =>
        cases hsince
        have hsub := List.dropWhile_sublist (l := bindings) (p := fun b => b.name != name)
        rw [hdrop] at hsub
        exact fun c hc => h c (hsub.subset hc)
  | inside owner bindings outer ih =>
      unfold Context.since? at hsince
      split at hsince
      · exact ih h.2 hsince
      next b older hdrop =>
        cases hsince
        have hsub := List.dropWhile_sublist (l := bindings) (p := fun b => b.name != name)
        rw [hdrop] at hsub
        exact ⟨fun c hc => h.1 c (hsub.subset hc), h.2⟩

end Tidy

end Context

/-- The parameters of a procedure are those that its body is inside of. -/
theorem Context.parameterNames_bodyOf (Γ : Context) (d : ProcedureDeclaration) :
    (Γ.bodyOf d).parameterNames = d.params.map Parameter.name := by
  obtain ⟨bindings, hbody⟩ := Γ.exists_bodyOf_eq d
  rw [hbody]
  rfl

/-- Parameters that obey the rules have other names than what is bound in their scope. -/
theorem notMem_of_parameterSites {Γ : Context} {params : List Parameter}
    (hobeys : ∀ s ∈ Γ.parameterSites params, s.Obeys) {b : Binding} (hb : b ∈ Γ.bindings) :
    b.name ∉ params.map Parameter.name := by
  induction params generalizing Γ with
  | nil => exact List.not_mem_nil
  | cons first rest ih =>
      rw [Context.parameterSites] at hobeys
      have hfresh : Site.Obeys ⟨Γ, .fresh first.name first.position⟩ :=
        hobeys _ List.mem_cons_self
      have hlater : b ∈ (Γ.declare (.parameter first)).bindings := by
        rw [Context.bindings_declare]
        exact List.mem_cons_of_mem _ hb
      rw [List.map_cons, List.mem_cons, not_or]
      exact ⟨hfresh b hb, ih (fun s hs => hobeys s (List.mem_cons_of_mem _ hs)) hlater⟩

/-- **Parameters that obey the rules** have names of their own. -/
theorem nodup_of_parameterSites {Γ : Context} {params : List Parameter}
    (hobeys : ∀ s ∈ Γ.parameterSites params, s.Obeys) :
    (params.map Parameter.name).Nodup := by
  induction params generalizing Γ with
  | nil => exact List.nodup_nil
  | cons first rest ih =>
      rw [Context.parameterSites] at hobeys
      have hrest : ∀ s ∈ (Γ.declare (.parameter first)).parameterSites rest, s.Obeys :=
        fun s hs => hobeys s (List.mem_cons_of_mem _ hs)
      have hfirst : Binding.parameter first ∈ (Γ.declare (.parameter first)).bindings := by
        rw [Context.bindings_declare]
        exact List.mem_cons_self
      rw [List.map_cons, List.nodup_cons]
      exact ⟨notMem_of_parameterSites hrest hfirst, ih hrest⟩

/-- The parameters of a procedure that obeys the rules have names of their own. -/
theorem ProcedureDeclaration.nodup_params {Γ : Context} {d : ProcedureDeclaration}
    (hobeys : ∀ s ∈ d.declaration.sites Γ, s.Obeys) :
    (d.params.map Parameter.name).Nodup := by
  refine nodup_of_parameterSites (Γ := (Γ.declare (.procedure d)).enter d) fun s hs => ?_
  refine hobeys s ?_
  rw [ProcedureDeclaration.declaration, Declaration.sites]
  simp only [List.mem_append]
  exact Or.inl (Or.inl (Or.inr hs))

/-- **Declarations that obey the rules** have names of their own in their scope. -/
theorem fits_of_sitesAll {names : List String} {ds : List Declaration} {Γ : Context}
    (hobeys : ∀ s ∈ Declaration.sitesAll Γ ds, s.Obeys)
    (hnames : ∀ name ∈ names, ∃ b ∈ Γ.bindings, b.name = name) :
    ∀ b ∈ ds.map Declaration.binding, b.Fits names := by
  induction ds generalizing Γ with
  | nil => exact nofun
  | cons first rest ih =>
      rw [Declaration.sitesAll] at hobeys
      have hfirst : first.binding.Fits names := by
        cases first with
        | var name type position =>
            have hfresh : Site.Obeys ⟨Γ, .fresh name position⟩ :=
              hobeys _ (List.mem_append_left _ (by simp [Declaration.sites]))
            intro hmem
            obtain ⟨b, hb, hname⟩ := hnames name hmem
            exact hfresh b hb hname
        | procedure name params declarations body position => trivial
      have hlater : ∀ name ∈ names, ∃ b ∈ (Γ.declare first.binding).bindings, b.name = name := by
        intro name hname
        obtain ⟨b, hb, heq⟩ := hnames name hname
        refine ⟨b, ?_, heq⟩
        rw [Context.bindings_declare]
        exact List.mem_cons_of_mem _ hb
      have hrest := ih (fun s hs => hobeys s (List.mem_append_right _ hs)) hlater
      exact List.forall_mem_cons.2 ⟨hfirst, hrest⟩

/-- **The body of a procedure** that obeys the rules sees tidy scopes. -/
theorem Context.Tidy.bodyOf {Γ : Context} {d : ProcedureDeclaration}
    (h : (Γ.declare (.procedure d)).Tidy) (hobeys : ∀ s ∈ d.declaration.sites Γ, s.Obeys) :
    ((Γ.declare (.procedure d)).bodyOf d).Tidy := by
  have hinside : ∀ s ∈ Declaration.sitesAll ((Γ.declare (.procedure d)).enterWith d)
      d.block.declarations, s.Obeys := by
    intro s hs
    refine hobeys s ?_
    rw [ProcedureDeclaration.declaration, Declaration.sites]
    simp only [List.mem_append]
    exact Or.inl (Or.inr hs)
  have hempty : ((Γ.declare (.procedure d)).enter d).Tidy :=
    ⟨fun _ hb => absurd hb List.not_mem_nil, h⟩
  have hparams : ((Γ.declare (.procedure d)).enterWith d).Tidy := by
    refine hempty.declareAll fun b hb => ?_
    obtain ⟨p, hp, rfl⟩ := List.mem_map.1 hb
    exact List.mem_map_of_mem hp
  obtain ⟨bindings, hinner⟩ := Context.exists_declareAll_eq d [] (d.params.map .parameter)
    (Γ.declare (.procedure d))
  have hnames : ((Γ.declare (.procedure d)).enterWith d).parameterNames
      = d.params.map Parameter.name := by
    rw [Context.enterWith, Context.enter, hinner]
    rfl
  refine hparams.declareAll ?_
  rw [hnames]
  -- the parameters are bound in front of all declarations
  refine fits_of_sitesAll hinside fun name hname => ?_
  obtain ⟨p, hp, rfl⟩ := List.mem_map.1 hname
  refine ⟨.parameter p, ?_, rfl⟩
  rw [Context.enterWith, Context.bindings_declareAll]
  exact List.mem_append_left _ (List.mem_reverse.2 (List.mem_map_of_mem hp))

/-- **The body of a program** that obeys the rules sees a tidy scope. -/
theorem tidy_program {tree : Program} (hobeys : ∀ s ∈ tree.sites, s.Obeys) :
    (Context.initial.behind tree.block).Tidy := by
  have hinitial : Context.initial.Tidy := by
    intro b hb
    rcases List.mem_cons.1 hb with rfl | hb
    · trivial
    · rw [List.mem_singleton.1 hb]
      trivial
  exact hinitial.declareAll
    (fits_of_sitesAll (fun s hs => hobeys s (List.mem_append_left _ hs)) nofun)

end MiniPascal
