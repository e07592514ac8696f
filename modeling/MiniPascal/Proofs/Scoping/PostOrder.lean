/-
# The order of procedures

A procedure is known by its path: itself and the procedures around it.  The *post-order* of
a program lists every procedure behind those that are declared inside of it, so a procedure
comes when its declaration is completed; the program itself comes last.

* `Context.procedurePath?` : the procedure that a name stands for, as a path;
* `ordered_program` : what is called is around the call, or comes earlier in the post-order
  than the body that calls it;
* `nodup_postOrder` : no procedure comes twice, if the program obeys the rules of scoping.
-/
import MiniPascal.Proofs.Scoping.Enclosure

set_option autoImplicit false

namespace MiniPascal

/-- What tells a procedure from all others: itself and the procedures around it, the
innermost first.  The program has the empty path. -/
abbrev ProcedurePath := List ProcedureDeclaration

/-! ## Post-order -/

mutual

/-- The procedures of a declaration that stands inside of `path`. -/
def Declaration.postOrder (path : ProcedurePath) : Declaration → List ProcedurePath
  | .var _ _ _ => []
  | .procedure name params declarations body position =>
    let own := ⟨name, params, ⟨declarations, body⟩, position⟩ :: path
    Declaration.postOrderAll own declarations ++ [own]

/-- The procedures of declarations that stand inside of `path`. -/
def Declaration.postOrderAll (path : ProcedurePath) : List Declaration → List ProcedurePath
  | [] => []
  | first :: rest => first.postOrder path ++ Declaration.postOrderAll path rest

end

/-- The procedures that are declared in a program. -/
def Program.procedures (tree : Program) : List ProcedurePath :=
  Declaration.postOrderAll [] tree.block.declarations

/-- The procedures of a program and, behind all of them, the program itself. -/
def Program.postOrder (tree : Program) : List ProcedurePath := tree.procedures ++ [[]]

/-- One path comes before another one. -/
def ProcedurePath.Before (order : List ProcedurePath) (π ρ : ProcedurePath) : Prop :=
  List.Sublist [π, ρ] order

/-! ## What a name stands for -/

namespace Context

/-- The procedure that a name stands for. -/
def procedurePath? (Γ : Context) (name : String) : Option ProcedurePath :=
  match Γ.since? name with
  | none => none
  | some Δ =>
    match Δ.bindings with
    | .procedure d :: _ => some (d :: Δ.path)
    | _ => none

@[simp] theorem path_declare (Γ : Context) (b : Binding) : (Γ.declare b).path = Γ.path := by
  cases Γ <;> rfl

@[simp] theorem path_declareAll (Γ : Context) (bindings : List Binding) :
    (Γ.declareAll bindings).path = Γ.path := by
  induction bindings generalizing Γ with
  | nil => rfl
  | cons b rest ih => rw [declareAll_cons, ih, path_declare]

@[simp] theorem path_enterWith (Γ : Context) (d : ProcedureDeclaration) :
    (Γ.enterWith d).path = d :: Γ.path := by
  rw [enterWith, path_declareAll]
  rfl

/-- A declared procedure hides what its name stood for. -/
theorem procedurePath?_declare_procedure (Γ : Context) (d : ProcedureDeclaration)
    (name : String) :
    (Γ.declare (.procedure d)).procedurePath? name
      = if d.name = name then some (d :: Γ.path) else Γ.procedurePath? name := by
  unfold procedurePath?
  rw [since?_declare]
  by_cases hname : d.name = name
  · rw [if_pos hname, if_pos (show (Binding.procedure d).name = name from hname)]
    simp only [bindings_declare, path_declare]
  · rw [if_neg hname, if_neg (show ¬(Binding.procedure d).name = name from hname)]

/-- A declared variable stands for no procedure, and hides what its name stood for. -/
theorem procedurePath?_declare_of_isVariable (Γ : Context) {b : Binding}
    (hb : b.isVariable = true) (name : String) :
    (Γ.declare b).procedurePath? name
      = if b.name = name then none else Γ.procedurePath? name := by
  unfold procedurePath?
  rw [since?_declare]
  by_cases hname : b.name = name
  · rw [if_pos hname, if_pos hname]
    simp only [bindings_declare]
    cases b with
    | type t => cases hb
    | parameter p => rfl
    | var name type => rfl
    | procedure d => cases hb
  · rw [if_neg hname, if_neg hname]

/-- No procedure is visible at the start of a program. -/
theorem procedurePath?_initial (name : String) : initial.procedurePath? name = none := by
  have hinitial : initial
      = ((program []).declare (.type .integer)).declare (.type .real) := rfl
  unfold procedurePath?
  rw [hinitial, since?_declare, since?_declare]
  split
  next hnone => rfl
  next Δ hΔ =>
    split at hΔ
    · cases hΔ
      rfl
    · split at hΔ
      · cases hΔ
        rfl
      · cases hΔ

/-- **The procedure of a visible name** is what the name is bound to, and its body is what is
entered by a call. -/
theorem procedurePath?_of_binding? {Γ : Context} {name : String} {d : ProcedureDeclaration}
    {level : Nat} (h : Γ.binding? name = some (.procedure d, level)) :
    ∃ outer, Γ.procedurePath? name = some (d :: outer) ∧ level = outer.length + 1 ∧
      (Γ.calleeContext name).path = d :: outer := by
  obtain ⟨Δ, older, hsince, hlatest, hlevel, -, -⟩ := since?_of_binding? h
  obtain ⟨bindings, hbody⟩ := Δ.exists_bodyOf_eq d
  refine ⟨Δ.path, ?_, ?_, ?_⟩
  · rw [procedurePath?, hsince]
    simp only [hlatest]
  · rw [← hlevel, level_eq]
  · rw [calleeContext, hsince]
    simp only [hlatest, hbody]
    rfl

/-! ## Procedures that are complete -/

/-- Every procedure that is visible here is around this point or among those that are
complete. -/
def CompletedIn (Γ : Context) (done : List ProcedurePath) : Prop :=
  ∀ name π, Γ.procedurePath? name = some π → π <:+ Γ.path ∨ π ∈ done

namespace CompletedIn

variable {Γ : Context} {done : List ProcedurePath}

theorem initial : Context.initial.CompletedIn [] := by
  intro name π h
  rw [procedurePath?_initial] at h
  cases h

theorem append (h : Γ.CompletedIn done) (more : List ProcedurePath) :
    Γ.CompletedIn (done ++ more) :=
  fun name π hπ => (h name π hπ).imp_right (List.mem_append_left more)

/-- A variable makes no procedure visible. -/
theorem declare (h : Γ.CompletedIn done) {b : Binding} (hb : b.isVariable = true) :
    (Γ.declare b).CompletedIn done := by
  intro name π hπ
  rw [procedurePath?_declare_of_isVariable Γ hb] at hπ
  split at hπ
  · cases hπ
  · rw [path_declare]
    exact h name π hπ

/-- A procedure that is complete may become visible. -/
theorem complete (h : Γ.CompletedIn done) {d : ProcedureDeclaration}
    (hd : d :: Γ.path ∈ done) : (Γ.declare (.procedure d)).CompletedIn done := by
  intro name π hπ
  rw [procedurePath?_declare_procedure] at hπ
  split at hπ
  · cases hπ
    exact Or.inr hd
  · rw [path_declare]
    exact h name π hπ

/-- **Inside of a procedure** its own name is visible as that of a procedure around. -/
theorem enterWith (h : Γ.CompletedIn done) (d : ProcedureDeclaration) :
    ((Γ.declare (.procedure d)).enterWith d).CompletedIn done := by
  have hentered : ((Γ.declare (.procedure d)).enter d).CompletedIn done := by
    intro name π hπ
    have hpath : ((Γ.declare (.procedure d)).enter d).path = d :: Γ.path := by
      rw [enter, path, path_declare]
    rw [hpath]
    rw [show ((Γ.declare (.procedure d)).enter d).procedurePath? name
      = (Γ.declare (.procedure d)).procedurePath? name from rfl,
      procedurePath?_declare_procedure] at hπ
    split at hπ
    · cases hπ
      exact Or.inl (List.suffix_refl _)
    · exact (h name π hπ).imp_left fun hsuffix => hsuffix.trans (List.suffix_cons d Γ.path)
  rw [Context.enterWith]
  generalize (Γ.declare (.procedure d)).enter d = Δ at hentered ⊢
  generalize d.params = params
  induction params generalizing Δ with
  | nil => exact hentered
  | cons first rest ih => exact ih _ (hentered.declare rfl)

end CompletedIn

end Context

/-! ## Calls -/

/-- The procedure that is called at a site is around the call, or comes before the body that
calls it. -/
def Site.Ordered (order : List ProcedurePath) (s : Site) : Prop :=
  ∀ c π, s.duty = .call c → s.context.procedurePath? c.name = some π →
    π <:+ s.context.path ∨ ProcedurePath.Before order π s.context.path

theorem Site.Ordered.mono {order more : List ProcedurePath} {s : Site} (h : s.Ordered order)
    (hmore : order.Sublist more) : s.Ordered more :=
  fun c π hduty hπ => (h c π hduty hπ).imp_right fun hbefore => hbefore.trans hmore

/-- A site without a call is in order. -/
theorem Site.ordered_of_ne_call {s : Site} (h : ∀ c, s.duty ≠ .call c)
    (order : List ProcedurePath) : s.Ordered order :=
  fun c _ hduty => absurd hduty (h c)

/-- Parameters are declared without a call. -/
theorem ne_call_of_mem_parameterSites {Γ : Context} {params : List Parameter} {s : Site}
    (hs : s ∈ Γ.parameterSites params) (c : Call) : s.duty ≠ .call c := by
  induction params generalizing Γ with
  | nil => cases hs
  | cons first rest ih =>
      rw [Context.parameterSites] at hs
      rcases List.mem_cons.1 hs with rfl | hs
      · exact nofun
      · exact ih hs

/-- In a body, what is complete comes before the body itself. -/
theorem ordered_sitesOf {Γ : Context} {done : List ProcedurePath} (h : Γ.CompletedIn done)
    (duties : List Duty) : ∀ s ∈ Γ.sitesOf duties, s.Ordered (done ++ [Γ.path]) := by
  intro s hs c π hduty hπ
  obtain ⟨duty, -, rfl⟩ := List.mem_map.1 hs
  refine (h c.name π hπ).imp_right fun hdone => ?_
  exact (List.singleton_sublist.2 hdone).append (List.Sublist.refl [Γ.path])

mutual

/-- **A declaration** has its calls in order, and is complete behind them. -/
theorem ordered_declaration (d : Declaration) {Γ : Context} {done : List ProcedurePath}
    (h : Γ.CompletedIn done) :
    (Γ.declare d.binding).CompletedIn (done ++ d.postOrder Γ.path) ∧
      ∀ s ∈ d.sites Γ, s.Ordered (done ++ d.postOrder Γ.path) := by
  cases d with
  | var name type position =>
      refine ⟨(h.append _).declare rfl, fun s hs => Site.ordered_of_ne_call (fun c => ?_) _⟩
      simp only [Declaration.sites, List.mem_cons, List.not_mem_nil, or_false] at hs
      rcases hs with rfl | rfl <;> exact nofun
  | procedure name params declarations body position =>
      let d : ProcedureDeclaration := ⟨name, params, ⟨declarations, body⟩, position⟩
      obtain ⟨hcompleted, hinside⟩ := ordered_declarations declarations (h.enterWith d)
      simp only [Context.path_enterWith, Context.path_declare] at hcompleted hinside
      have hbody := ordered_sitesOf hcompleted (Statement.dutiesAll body)
      simp only [Context.path_declareAll, Context.path_enterWith, Context.path_declare,
        List.append_assoc] at hbody
      have horder : Declaration.postOrder Γ.path (.procedure name params declarations body position)
          = Declaration.postOrderAll (d :: Γ.path) declarations ++ [d :: Γ.path] := by
        rw [Declaration.postOrder]
      rw [horder]
      constructor
      · refine (h.append _).complete ?_
        simp [d]
      · intro s hs
        rw [Declaration.sites] at hs
        simp only [List.mem_append] at hs
        rcases hs with (((htype | hfresh) | hparam) | hdeclared) | hstatement
        · obtain ⟨duty, hmem, rfl⟩ := List.mem_map.1 htype
          obtain ⟨p, -, rfl⟩ := List.mem_map.1 hmem
          exact Site.ordered_of_ne_call (by simp) _
        · rw [List.mem_singleton.1 hfresh]
          exact Site.ordered_of_ne_call (by simp) _
        · exact Site.ordered_of_ne_call (ne_call_of_mem_parameterSites hparam) _
        · refine (hinside s hdeclared).mono ?_
          rw [← List.append_assoc]
          exact List.sublist_append_left _ _
        · exact hbody s hstatement

/-- **Declarations in turn** have their calls in order, and are complete behind them. -/
theorem ordered_declarations (ds : List Declaration) {Γ : Context} {done : List ProcedurePath}
    (h : Γ.CompletedIn done) :
    (Γ.declareAll (ds.map Declaration.binding)).CompletedIn
        (done ++ Declaration.postOrderAll Γ.path ds) ∧
      ∀ s ∈ Declaration.sitesAll Γ ds, s.Ordered (done ++ Declaration.postOrderAll Γ.path ds) := by
  cases ds with
  | nil => exact ⟨h.append _, nofun⟩
  | cons first rest =>
      obtain ⟨hfirst, hsites⟩ := ordered_declaration first h
      obtain ⟨hrest, hmore⟩ := ordered_declarations rest hfirst
      simp only [Context.path_declare, List.append_assoc] at hrest hmore
      rw [Declaration.postOrderAll]
      refine ⟨hrest, fun s hs => ?_⟩
      rw [Declaration.sitesAll] at hs
      rcases List.mem_append.1 hs with hs | hs
      · refine (hsites s hs).mono ?_
        rw [← List.append_assoc]
        exact List.sublist_append_left _ _
      · exact hmore s hs

end

/-- **What is called** in a program is around the call, or comes earlier in the post-order
than the body that calls it. -/
theorem ordered_program (tree : Program) : ∀ s ∈ tree.sites, s.Ordered tree.postOrder := by
  obtain ⟨hcompleted, hsites⟩ :=
    ordered_declarations tree.block.declarations Context.CompletedIn.initial
  intro s hs
  rcases List.mem_append.1 hs with hs | hs
  · exact (hsites s hs).mono (List.sublist_append_left _ _)
  · have hbody := ordered_sitesOf hcompleted (Statement.dutiesAll tree.block.body) s hs
    rw [Context.path_declareAll] at hbody
    exact hbody

/-! ## No procedure comes twice -/

mutual

/-- A procedure of a declaration is inside of what is declared, or is itself declared. -/
theorem suffix_of_mem_postOrder {path π : ProcedurePath} {d : Declaration}
    (h : π ∈ d.postOrder path) :
    ∃ own, d.binding = .procedure own ∧ own :: path <:+ π := by
  cases d with
  | var name type position =>
      rw [Declaration.postOrder] at h
      cases h
  | procedure name params declarations body position =>
      rw [Declaration.postOrder] at h
      refine ⟨_, rfl, ?_⟩
      rcases List.mem_append.1 h with h | h
      · obtain ⟨e, -, own, -, hsuffix⟩ := suffix_of_mem_postOrderAll h
        exact (List.suffix_cons own _).trans hsuffix
      · obtain rfl := List.mem_singleton.1 h
        exact List.suffix_refl _

/-- A procedure of declarations is inside of what one of them declares, or is itself
declared. -/
theorem suffix_of_mem_postOrderAll {path π : ProcedurePath} {ds : List Declaration}
    (h : π ∈ Declaration.postOrderAll path ds) :
    ∃ d ∈ ds, ∃ own, d.binding = .procedure own ∧ own :: path <:+ π := by
  cases ds with
  | nil =>
      rw [Declaration.postOrderAll] at h
      cases h
  | cons first rest =>
      rw [Declaration.postOrderAll] at h
      rcases List.mem_append.1 h with h | h
      · exact ⟨first, List.mem_cons_self, suffix_of_mem_postOrder h⟩
      · obtain ⟨d, hd, hown⟩ := suffix_of_mem_postOrderAll h
        exact ⟨d, List.mem_cons_of_mem _ hd, hown⟩

end

/-- The procedures of one declaration are among those of all. -/
theorem mem_postOrderAll {path π : ProcedurePath} {ds : List Declaration} {d : Declaration}
    (hd : d ∈ ds) (hπ : π ∈ d.postOrder path) : π ∈ Declaration.postOrderAll path ds := by
  induction ds with
  | nil => cases hd
  | cons first rest ih =>
      rw [Declaration.postOrderAll]
      rcases List.mem_cons.1 hd with rfl | hd
      · exact List.mem_append_left _ hπ
      · exact List.mem_append_right _ (ih hd)

/-- Declarations that obey the rules have other names than what is declared before them. -/
theorem ne_name_of_sitesAll {ds : List Declaration} {Γ : Context}
    (hobeys : ∀ s ∈ Declaration.sitesAll Γ ds, s.Obeys) :
    ∀ d ∈ ds, ∀ b ∈ Γ.bindings, b.name ≠ d.binding.name := by
  induction ds generalizing Γ with
  | nil => exact nofun
  | cons first rest ih =>
      rw [Declaration.sitesAll] at hobeys
      intro d hd b hb
      rcases List.mem_cons.1 hd with rfl | hd
      · have hfresh : ∀ position, ⟨Γ, .fresh d.binding.name position⟩ ∈ d.sites Γ →
            b.name ≠ d.binding.name :=
          fun position hsite => hobeys _ (List.mem_append_left _ hsite) b hb
        cases d with
        | var name type position =>
            exact hfresh position (by simp [Declaration.sites, Declaration.binding, Binding.name])
        | procedure name params declarations body position =>
            exact hfresh position (by simp [Declaration.sites, Declaration.binding, Binding.name])
      · refine ih (fun s hs => hobeys s (List.mem_append_right _ hs)) d hd b ?_
        rw [Context.bindings_declare]
        exact List.mem_cons_of_mem _ hb

/-- Declarations that obey the rules bind different names. -/
theorem nodup_names_declareAll {ds : List Declaration} {Γ : Context}
    (hobeys : ∀ s ∈ Declaration.sitesAll Γ ds, s.Obeys)
    (hnames : (Γ.bindings.map Binding.name).Nodup) :
    ((Γ.declareAll (ds.map Declaration.binding)).bindings.map Binding.name).Nodup := by
  induction ds generalizing Γ with
  | nil => exact hnames
  | cons first rest ih =>
      have hfirst := ne_name_of_sitesAll hobeys first List.mem_cons_self
      rw [Declaration.sitesAll] at hobeys
      refine ih (fun s hs => hobeys s (List.mem_append_right _ hs)) ?_
      rw [Context.bindings_declare, List.map_cons, List.nodup_cons]
      refine ⟨fun hmem => ?_, hnames⟩
      obtain ⟨b, hb, hname⟩ := List.mem_map.1 hmem
      exact hfirst b hb hname

mutual

/-- No procedure of a declaration comes twice. -/
theorem nodup_declaration (d : Declaration) {Γ : Context} (hobeys : ∀ s ∈ d.sites Γ, s.Obeys) :
    (d.postOrder Γ.path).Nodup := by
  cases d with
  | var name type position =>
      rw [Declaration.postOrder]
      exact List.nodup_nil
  | procedure name params declarations body position =>
      let d : ProcedureDeclaration := ⟨name, params, ⟨declarations, body⟩, position⟩
      have hinside : (Declaration.postOrderAll (d :: Γ.path) declarations).Nodup := by
        have hnodup := nodup_declarations declarations
          (Γ := (Γ.declare (.procedure d)).enterWith d) fun s hs => hobeys s (by
            rw [Declaration.sites]
            simp only [List.mem_append]
            exact Or.inl (Or.inr hs))
        rw [Context.path_enterWith, Context.path_declare] at hnodup
        exact hnodup
      rw [Declaration.postOrder]
      refine List.nodup_append.2 ⟨hinside, List.pairwise_singleton _ _, ?_⟩
      rintro π hπ ρ hρ rfl
      -- what is declared inside is longer by itself
      obtain ⟨e, -, own, -, hsuffix⟩ := suffix_of_mem_postOrderAll hπ
      have hlength := hsuffix.length_le
      rw [List.mem_singleton.1 hρ, List.length_cons] at hlength
      exact Nat.not_succ_le_self _ hlength

/-- No procedure of declarations comes twice. -/
theorem nodup_declarations (ds : List Declaration) {Γ : Context}
    (hobeys : ∀ s ∈ Declaration.sitesAll Γ ds, s.Obeys) :
    (Declaration.postOrderAll Γ.path ds).Nodup := by
  cases ds with
  | nil =>
      rw [Declaration.postOrderAll]
      exact List.nodup_nil
  | cons first rest =>
      rw [Declaration.sitesAll] at hobeys
      have hrest : ∀ s ∈ Declaration.sitesAll (Γ.declare first.binding) rest, s.Obeys :=
        fun s hs => hobeys s (List.mem_append_right _ hs)
      have hmore := nodup_declarations rest hrest
      rw [Context.path_declare] at hmore
      rw [Declaration.postOrderAll]
      refine List.nodup_append.2
        ⟨nodup_declaration first fun s hs => hobeys s (List.mem_append_left _ hs), hmore, ?_⟩
      rintro π hπ ρ hρ rfl
      -- two declarations that a procedure is inside of are one, but the names differ
      obtain ⟨own, hown, hsuffix⟩ := suffix_of_mem_postOrder hπ
      obtain ⟨d, hd, other, hother, hsuffix'⟩ := suffix_of_mem_postOrderAll hρ
      have heq : own :: Γ.path = other :: Γ.path :=
        (List.suffix_of_suffix_length_le hsuffix hsuffix' (Nat.le_refl _)).eq_of_length rfl
      refine ne_name_of_sitesAll hrest d hd first.binding ?_ ?_
      · rw [Context.bindings_declare]
        exact List.mem_cons_self
      · rw [hown, hother, (List.cons.inj heq).1]

end

/-- **No procedure of a program comes twice**, if the program obeys the rules of scoping. -/
theorem nodup_postOrder {tree : Program} (hobeys : ∀ s ∈ tree.sites, s.Obeys) :
    tree.postOrder.Nodup := by
  refine List.nodup_append.2
    ⟨nodup_declarations tree.block.declarations (Γ := .initial)
      fun s hs => hobeys s (List.mem_append_left _ hs), List.pairwise_singleton _ _, ?_⟩
  rintro π hπ ρ hρ rfl
  obtain ⟨d, -, own, -, hsuffix⟩ := suffix_of_mem_postOrderAll hπ
  rw [List.mem_singleton.1 hρ, List.suffix_nil] at hsuffix
  cases hsuffix

end MiniPascal
