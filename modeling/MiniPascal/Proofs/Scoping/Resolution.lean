/-
# Checks follow the rules of scoping

While a tree is checked, the chain of open scopes holds the symbols of all that is
declared at that point.  So a check reports the first site that breaks the rules, and if
there is none it has recorded what every variable and every call refers to.

* `Represents.visible` : a chain of scopes finds the symbol of the innermost visible
  binding;
* `checks_bind` : a check that goes on where another ends has the sites of both;
* `checks_block` : the sites of a block are what its check looks at;
* `analyze_iff_obeys` : the check of a program with distinct node numbers.
-/
import MiniPascal.Proofs.Grammar.Completeness
import MiniPascal.Proofs.Grammar.Numbering
import MiniPascal.Proofs.Scoping
import MiniPascal.Proofs.Scoping.Tables

set_option autoImplicit false

namespace MiniPascal

/-! ## Scopes and contexts -/

/-- A scope of a level that holds the symbols of bindings. -/
def Scope.Holds (scope : Scope) (level : Nat) (bindings : List Binding) : Prop :=
  scope.level = level ∧ ∀ name,
    (bindings.find? (·.name == name)).map (Binding.symbol? level)
      = (scope.lookup name).map some

/-- In such a scope a name has a binding and its symbol, or neither. -/
theorem Scope.Holds.cases {scope : Scope} {level : Nat} {bindings : List Binding}
    (h : scope.Holds level bindings) (name : String) :
    (bindings.find? (·.name == name) = none ∧ scope.lookup name = none) ∨
      ∃ b symbol, bindings.find? (·.name == name) = some b ∧
        scope.lookup name = some symbol ∧ b.symbol? level = some symbol := by
  have hname := h.2 name
  cases hfind : bindings.find? (·.name == name) with
  | none =>
      cases hlookup : scope.lookup name with
      | none => exact Or.inl ⟨rfl, rfl⟩
      | some symbol => simp [hfind, hlookup] at hname
  | some b =>
      cases hlookup : scope.lookup name with
      | none => simp [hfind, hlookup] at hname
      | some symbol =>
          rw [hfind, hlookup] at hname
          exact Or.inr ⟨b, symbol, rfl, rfl, Option.some.inj hname⟩

/-- A chain of scopes that holds, scope by scope, the symbols of a context. -/
inductive Represents : List Scope → Context → Prop where
  | program {scope : Scope} {bindings : List Binding}
      (h : scope.Holds globalLevel bindings) : Represents [scope] (.program bindings)
  | inside {scope : Scope} {chain : List Scope} {owner : ProcedureDeclaration}
      {bindings : List Binding} {outer : Context}
      (h : scope.Holds (outer.level + 1) bindings) (houter : Represents chain outer) :
      Represents (scope :: chain) (.inside owner bindings outer)

namespace Context

/-- What is declared around the innermost scope. -/
def outer? : Context → Option Context
  | .program _ => none
  | .inside _ _ outer => some outer

/-- Declarations change nothing around the innermost scope. -/
theorem outer?_declareAll (Γ : Context) (bindings : List Binding) :
    (Γ.declareAll bindings).outer? = Γ.outer? := by
  induction bindings generalizing Γ with
  | nil => rfl
  | cons b rest ih =>
      rw [declareAll_cons, ih]
      cases Γ <;> rfl

end Context

namespace Represents

/-- **A chain of scopes** finds the symbol of the innermost visible binding, or nothing
where there is none. -/
theorem visible {chain : List Scope} {Γ : Context} (h : Represents chain Γ) (name : String) :
    (Γ.binding? name = none ∧ visible? name chain = none) ∨
      ∃ b level symbol, Γ.binding? name = some (b, level) ∧
        visible? name chain = some (symbol, level) ∧ b.symbol? level = some symbol := by
  induction h with
  | program h =>
      simp only [Context.binding?, visible?, List.findSome?_cons, List.findSome?_nil]
      rcases h.cases name with ⟨hfind, hlookup⟩ | ⟨b, symbol, hfind, hlookup, hsymbol⟩
      · rw [hfind, hlookup]
        exact Or.inl ⟨rfl, rfl⟩
      · rw [hfind, hlookup, h.1]
        exact Or.inr ⟨b, _, symbol, rfl, rfl, hsymbol⟩
  | inside h _ ih =>
      simp only [Context.binding?, visible?, List.findSome?_cons]
      rcases h.cases name with ⟨hfind, hlookup⟩ | ⟨b, symbol, hfind, hlookup, hsymbol⟩
      · rw [hfind, hlookup]
        exact ih
      · rw [hfind, hlookup, h.1]
        exact Or.inr ⟨b, _, symbol, rfl, rfl, hsymbol⟩

variable {scope : Scope} {chain : List Scope} {Γ : Context}

theorem holds (h : Represents (scope :: chain) Γ) : scope.Holds Γ.level Γ.bindings := by
  cases h with
  | program h => exact h
  | inside h _ => exact h

/-- The innermost scope may be exchanged for one with one more symbol. -/
theorem declare (h : Represents (scope :: chain) Γ) {grown : Scope} {b : Binding}
    (hgrown : grown.Holds Γ.level (b :: Γ.bindings)) :
    Represents (grown :: chain) (Γ.declare b) := by
  cases h with
  | program _ => exact .program hgrown
  | inside _ houter => exact .inside hgrown houter

/-- A new scope holds nothing. -/
theorem enter (h : Represents (scope :: chain) Γ) (owner : ProcedureDeclaration)
    (name : String) (enclosing : Option String) :
    Represents (Scope.new name (scope.level + 1) enclosing :: scope :: chain)
      (Γ.enter owner) := by
  refine .inside ⟨?_, fun _ => rfl⟩ h
  rw [← h.holds.1]
  rfl

/-- Closing the innermost scope leaves what is around it. -/
theorem leave (h : Represents (scope :: chain) Γ) {outer : Context}
    (houter : Γ.outer? = some outer) : Represents chain outer := by
  cases h with
  | program _ => cases houter
  | inside _ h =>
      cases houter
      exact h

end Represents

/-- **A symbol is inserted** exactly if its name is new in the scope, and then the scope
holds its binding as well. -/
theorem insert?_of_holds {scope : Scope} {level : Nat} {bindings : List Binding}
    (h : scope.Holds level bindings) {b : Binding} {symbol : Symbol}
    (hsymbol : b.symbol? level = some symbol) (hname : b.name = symbol.name) :
    match scope.insert? symbol with
    | some grown => bindings.any (·.name == symbol.name) = false ∧ grown.Holds level (b :: bindings)
    | none => bindings.any (·.name == symbol.name) = true := by
  obtain ⟨hlevel, hlookup⟩ := h
  -- the table has the name exactly if one of the bindings has it
  have htaken : bindings.any (·.name == symbol.name) = (scope.lookup symbol.name).isSome := by
    rw [← List.isSome_find?, ← Option.isSome_map (f := Binding.symbol? level), hlookup,
      Option.isSome_map]
  cases hinsert : scope.insert? symbol with
  | none =>
      rw [htaken]
      exact Scope.insert?_eq_none_iff.1 hinsert
  | some grown =>
      have hfree : (scope.lookup symbol.name).isSome = false := by
        rw [(Scope.gains_of_insert hinsert).free]
        rfl
      refine ⟨htaken.trans hfree, ?_, fun name => ?_⟩
      · exact (Scope.level_insert hinsert).trans hlevel
      · rw [Scope.lookup_insert hinsert, List.find?_cons, hname]
        by_cases heq : name = symbol.name
        · simp [heq, hsymbol]
        · have hne : (symbol.name == name) = false := beq_false_of_ne (Ne.symm heq)
          simp only [hne, if_neg heq]
          exact hlookup name

/-! ## Checks and their sites -/

/-- What a check of sites does to the state of the checker if all of them obey the
rules. -/
structure Passes (c d : Checker) (sites : List Site) (Γ : Context) : Prop where
  silent : sites.findSome? Site.error? = none
  known : ∀ Δ call, ⟨Δ, .call call⟩ ∈ sites → ∃ p, Site.callee? ⟨Δ, .call call⟩ = some (call.id, p)
  represents : Represents d.chain Γ
  occurrences : d.occurrences = (sites.filterMap Site.level?).reverse ++ c.occurrences
  calls : d.calls = (sites.filterMap Site.callee?).reverse ++ c.calls

/-- A check of sites that starts in the context `Γ` and ends in the context `Δ`: it
fails with the error of the first site that breaks the rules, and otherwise it answers
with a value of which `post` holds. -/
def Checks {α : Type} (check : Check α) (Γ : Context) (sites : List Site) (Δ : Context)
    (post : α → Prop) : Prop :=
  ∀ c : Checker, Represents c.chain Γ →
    match check c with
    | .ok a d => post a ∧ Passes c d sites Δ
    | .error e _ => sites.findSome? Site.error? = some e

variable {α β : Type} {Γ Δ Θ : Context} {sites more : List Site}

theorem checks_pure {post : α → Prop} {a : α} (h : post a) : Checks (pure a) Γ [] Γ post :=
  fun _ hc => ⟨h, rfl, nofun, hc, rfl, rfl⟩

/-- **A check that goes on where another ends** has the sites of both. -/
theorem checks_bind {m : Check α} {f : α → Check β} {mid : α → Prop} {post : β → Prop}
    (hm : Checks m Γ sites Δ mid) (hf : ∀ a, mid a → Checks (f a) Δ more Θ post) :
    Checks (m >>= f) Γ (sites ++ more) Θ post := by
  intro c hc
  have hfirst := hm c hc
  show match EStateM.bind m f c with
    | .ok a d => post a ∧ Passes c d (sites ++ more) Θ
    | .error e _ => (sites ++ more).findSome? Site.error? = some e
  unfold EStateM.bind
  cases hstep : m c with
  | error e d =>
      rw [hstep] at hfirst
      rw [List.findSome?_append, hfirst]
      rfl
  | ok a d =>
      rw [hstep] at hfirst
      obtain ⟨ha, hpasses⟩ := hfirst
      have hsecond := hf a ha d hpasses.represents
      cases hrest : f a d with
      | error e d' =>
          rw [hrest] at hsecond
          simp only [hrest]
          -- the first check reported nothing, so the error is that of the second one
          rw [List.findSome?_append, hpasses.silent]
          exact hsecond
      | ok b d' =>
          rw [hrest] at hsecond
          obtain ⟨hb, hlast⟩ := hsecond
          simp only [hrest]
          refine ⟨hb, ?_, fun Λ call hmem => ?_, hlast.represents, ?_, ?_⟩
          · rw [List.findSome?_append, hpasses.silent]
            exact hlast.silent
          · rcases List.mem_append.1 hmem with hmem | hmem
            · exact hpasses.known Λ call hmem
            · exact hlast.known Λ call hmem
          · rw [hlast.occurrences, hpasses.occurrences, List.filterMap_append,
              List.reverse_append, List.append_assoc]
          · rw [hlast.calls, hpasses.calls, List.filterMap_append, List.reverse_append,
              List.append_assoc]

theorem checks_seq {m n : Check Unit} (hm : Checks m Γ sites Δ fun _ => True)
    (hn : Checks n Δ more Θ fun _ => True) :
    Checks (do m; n) Γ (sites ++ more) Θ fun _ => True :=
  checks_bind hm fun _ _ => hn

/-- A check that fails reports the site that it stands for. -/
theorem checks_fail {post : α → Prop} {site : Site} {fault : ScopeFault} {position : Position}
    (h : site.error? = some ⟨fault, position⟩) :
    Checks (Check.fail fault position) Γ [site] Δ post := by
  intro c _
  show [site].findSome? Site.error? = some ⟨fault, position⟩
  rw [List.findSome?_singleton, h]

/-- A check that begins by looking a name up may rely on what the innermost visible
binding of the name stands for. -/
theorem checks_lookup {name : String} {f : Option (Symbol × Nat) → Check α} {post : α → Prop}
    (hnone : Γ.binding? name = none → Checks (f none) Γ sites Δ post)
    (hsome : ∀ b level symbol, Γ.binding? name = some (b, level) →
      b.symbol? level = some symbol → Checks (f (some (symbol, level))) Γ sites Δ post) :
    Checks (Check.lookup name >>= f) Γ sites Δ post := by
  have hlookup : Checks (Check.lookup name) Γ [] Γ fun found =>
      (Γ.binding? name = none ∧ found = none) ∨
        ∃ b level symbol, Γ.binding? name = some (b, level) ∧
          found = some (symbol, level) ∧ b.symbol? level = some symbol :=
    fun _ hc => ⟨hc.visible name, rfl, nofun, hc, rfl, rfl⟩
  rw [← List.nil_append sites]
  refine checks_bind hlookup ?_
  rintro found (⟨hbound, rfl⟩ | ⟨b, level, symbol, hbound, rfl, hsymbol⟩)
  · exact hnone hbound
  · exact hsome b level symbol hbound hsymbol

/-- Recording the level of a variable stands for its site. -/
theorem checks_resolveVariable {v : Variable} {level : Nat}
    (hsilent : Site.error? ⟨Γ, .occurrence v⟩ = none)
    (hlevel : Site.level? ⟨Γ, .occurrence v⟩ = some (v.id, level)) :
    Checks (Check.resolveVariable v.id level) Γ [⟨Γ, .occurrence v⟩] Γ fun _ => True := by
  intro c hc
  refine ⟨trivial, ?_, fun Δ call hmem => ?_, hc, ?_, rfl⟩
  · rw [List.findSome?_singleton, hsilent]
  · cases List.mem_singleton.1 hmem
  · rw [List.filterMap_cons_some hlevel]
    rfl

/-- Recording the procedure of a call stands for its site. -/
theorem checks_resolveCall {call : Call} {p : Procedure}
    (hsilent : Site.error? ⟨Γ, .call call⟩ = none)
    (hcallee : Site.callee? ⟨Γ, .call call⟩ = some (call.id, p)) :
    Checks (Check.resolveCall call.id p) Γ [⟨Γ, .call call⟩] Γ fun _ => True := by
  intro c hc
  refine ⟨trivial, ?_, fun Δ other hmem => ?_, hc, rfl, ?_⟩
  · rw [List.findSome?_singleton, hsilent]
  · cases List.mem_singleton.1 hmem
    exact ⟨p, hcallee⟩
  · rw [List.filterMap_cons_some hcallee]
    rfl

/-! ## What bindings stand for -/

/-- Only variables have the symbol of a variable. -/
theorem Binding.isVariable_iff {b : Binding} {level : Nat} {symbol : Symbol}
    (h : b.symbol? level = some symbol) : b.isVariable ↔ ∃ v, symbol = .var v := by
  cases b with
  | type t =>
      cases h
      simp [isVariable]
  | parameter p =>
      obtain ⟨v, -, rfl⟩ := Option.map_eq_some_iff.1 h
      simp [isVariable]
  | var name type =>
      obtain ⟨v, -, rfl⟩ := Option.map_eq_some_iff.1 h
      simp [isVariable]
  | procedure d =>
      obtain ⟨p, -, rfl⟩ := Option.map_eq_some_iff.1 h
      simp [isVariable]

/-- Only builtin types have the symbol of a type. -/
theorem Binding.eq_type {b : Binding} {level : Nat} {t : BuiltinType}
    (h : b.symbol? level = some (.type t)) : b = .type t := by
  cases b with
  | type s =>
      cases h
      rfl
  | parameter p => simp [symbol?] at h
  | var name type => simp [symbol?] at h
  | procedure d => simp [symbol?] at h

/-- Only procedures have the symbol of a procedure. -/
theorem Binding.eq_procedure {b : Binding} {level : Nat} {p : Procedure}
    (h : b.symbol? level = some (.procedure p)) :
    ∃ d, b = .procedure d ∧ d.procedure? level = some p := by
  cases b with
  | type t => cases h
  | parameter q => simp [symbol?] at h
  | var name type => simp [symbol?] at h
  | procedure d =>
      refine ⟨d, rfl, ?_⟩
      simpa [symbol?] using h

/-- A resolved procedure has as many parameters as its declaration. -/
theorem length_typedAll? {params : List Parameter} {formals : List TypedName}
    (h : Parameter.typedAll? params = some formals) : formals.length = params.length := by
  induction params generalizing formals with
  | nil =>
      cases h
      rfl
  | cons first rest ih =>
      simp only [Parameter.typedAll?, bind, Option.bind_eq_some_iff, pure,
        Option.some.injEq] at h
      obtain ⟨v, -, more, hmore, rfl⟩ := h
      rw [List.length_cons, List.length_cons, ih hmore]

/-! ## Statements -/

/-- An occurrence of a variable is one site. -/
theorem checks_variable (Γ : Context) (v : Variable) :
    Checks v.check Γ [⟨Γ, .occurrence v⟩] Γ fun _ => True := by
  refine checks_lookup ?_ ?_
  · intro hbound
    exact checks_fail (by simp [Site.error?, hbound])
  · intro b level symbol hbound hsymbol
    have hvariable := Binding.isVariable_iff hsymbol
    cases symbol with
    | var w =>
        have hb : b.isVariable = true := hvariable.2 ⟨w, rfl⟩
        refine checks_resolveVariable ?_ ?_
        · simp [Site.error?, hbound, hb]
        · simp [Site.level?, hbound]
    | type t =>
        have hb : b.isVariable = false := by simpa using hvariable
        exact checks_fail (by simp [Site.error?, hbound, hb])
    | procedure p =>
        have hb : b.isVariable = false := by simpa using hvariable
        exact checks_fail (by simp [Site.error?, hbound, hb])

/-- The sites of an expression are what its check looks at. -/
theorem checks_expr (Γ : Context) (e : Expr) :
    Checks e.check Γ (Γ.sitesOf e.duties) Γ fun _ => True := by
  induction e with
  | literal value position => exact checks_pure trivial
  | occurrence v => exact checks_variable Γ v
  | signed sign operand position ih => exact ih
  | binary op left right position hleft hright =>
      unfold Expr.duties Context.sitesOf
      rw [List.map_append]
      exact checks_seq hleft hright

/-- The sites of expressions are what their check looks at. -/
theorem checks_exprs (Γ : Context) (es : List Expr) :
    Checks (Expr.checkAll es) Γ (Γ.sitesOf (es.flatMap Expr.duties)) Γ fun _ => True := by
  induction es with
  | nil => exact checks_pure trivial
  | cons first rest ih =>
      unfold Context.sitesOf
      rw [List.flatMap_cons, List.map_append]
      exact checks_seq (checks_expr Γ first) ih

/-- A call is checked behind its arguments. -/
theorem checks_call (Γ : Context) (c : Call) :
    Checks c.check Γ (Γ.sitesOf c.duties) Γ fun _ => True := by
  unfold Call.duties Context.sitesOf
  rw [List.map_append]
  refine checks_seq (checks_exprs Γ c.arguments) (checks_lookup ?_ ?_)
  · intro hbound
    exact checks_fail (by simp [Site.error?, hbound])
  · intro b level symbol hbound hsymbol
    cases symbol with
    | procedure p =>
        obtain ⟨d, rfl, hp⟩ := Binding.eq_procedure hsymbol
        have hlength : p.params.length = d.params.length := by
          obtain ⟨formals, hformals, rfl⟩ := Option.map_eq_some_iff.1 hp
          exact length_typedAll? hformals
        show Checks (if p.params.length = c.arguments.length then _ else _) Γ _ Γ _
        split
        next heq =>
          refine checks_resolveCall ?_ ?_
          · simp [Site.error?, hbound, ← hlength, heq]
          · simp [Site.callee?, hbound, hp]
        next hne =>
          rw [hlength] at hne ⊢
          exact checks_fail (by simp [Site.error?, hbound, hne])
    | type t =>
        obtain rfl := Binding.eq_type hsymbol
        exact checks_fail (by simp [Site.error?, hbound])
    | var v =>
        -- a binding with the symbol of a variable is that of no procedure
        have hb : ∀ d, b ≠ .procedure d := by
          rintro d rfl
          simp [Binding.symbol?] at hsymbol
        refine checks_fail ?_
        cases b with
        | procedure d => exact absurd rfl (hb d)
        | type t => simp [Site.error?, hbound]
        | parameter p => simp [Site.error?, hbound]
        | var name type => simp [Site.error?, hbound]

mutual

/-- **The sites of a statement** are what its check looks at. -/
theorem checks_statement (Γ : Context) (st : Statement) :
    Checks st.check Γ (Γ.sitesOf st.duties) Γ fun _ => True := by
  cases st with
  | compound body =>
      rw [Statement.check, Statement.duties]
      exact checks_statements Γ body
  | assign target value position =>
      rw [Statement.check, Statement.duties, Context.sitesOf, List.map_append]
      exact checks_seq (checks_expr Γ value) (checks_variable Γ target)
  | call c =>
      rw [Statement.check, Statement.duties]
      exact checks_call Γ c
  | empty =>
      rw [Statement.check, Statement.duties]
      exact checks_pure trivial

/-- The sites of statements are what their check looks at. -/
theorem checks_statements (Γ : Context) (body : List Statement) :
    Checks (Statement.checkAll body) Γ (Γ.sitesOf (Statement.dutiesAll body)) Γ
      fun _ => True := by
  cases body with
  | nil =>
      rw [Statement.checkAll, Statement.dutiesAll]
      exact checks_pure trivial
  | cons first rest =>
      rw [Statement.checkAll, Statement.dutiesAll, Context.sitesOf, List.map_append]
      exact checks_seq (checks_statement Γ first) (checks_statements Γ rest)

end

/-! ## Declarations -/

theorem BuiltinType.named?_name (t : BuiltinType) : BuiltinType.named? t.name = some t := by
  cases t <;> rfl

/-- A name that is bound is bound by a binding of that name. -/
theorem Context.name_of_binding? {name : String} {b : Binding} {level : Nat}
    (h : Γ.binding? name = some (b, level)) : b.name = name := by
  induction Γ with
  | program bindings =>
      obtain ⟨found, hfind, heq⟩ := Option.map_eq_some_iff.1 h
      cases heq
      have hname := List.find?_some hfind
      exact beq_iff_eq.1 hname
  | inside owner bindings outer ih =>
      unfold binding? at h
      split at h
      next found hfind =>
        cases h
        have hname := List.find?_some hfind
        exact beq_iff_eq.1 hname
      next => exact ih h

/-- A type name is one site, and it stands for the builtin type of its name. -/
theorem checks_typeName (Γ : Context) (type : TypeName) :
    Checks type.resolve Γ [⟨Γ, .typed type⟩] Γ
      fun t => BuiltinType.named? type.name = some t := by
  refine checks_lookup ?_ ?_
  · intro hbound
    exact checks_fail (by simp [Site.error?, hbound])
  · intro b level symbol hbound hsymbol
    cases symbol with
    | type t =>
        obtain rfl := Binding.eq_type hsymbol
        have hname : t.name = type.name := Context.name_of_binding? hbound
        intro c hc
        refine ⟨hname ▸ t.named?_name, ?_, fun Δ call hmem => ?_, hc, rfl, rfl⟩
        · simp [Site.error?, hbound]
        · cases List.mem_singleton.1 hmem
    | var v =>
        have hb : ∀ t, b ≠ .type t := by
          rintro t rfl
          simp [Binding.symbol?] at hsymbol
        refine checks_fail ?_
        cases b with
        | type t => exact absurd rfl (hb t)
        | parameter p => simp [Site.error?, hbound]
        | var name typeName => simp [Site.error?, hbound]
        | procedure d => simp [Site.error?, hbound]
    | procedure p =>
        obtain ⟨d, rfl, -⟩ := Binding.eq_procedure hsymbol
        exact checks_fail (by simp [Site.error?, hbound])

/-- Parameter types are sites of one context. -/
theorem checks_parameterTypes (Γ : Context) (params : List Parameter) :
    Checks (resolveParameters params) Γ (Γ.sitesOf (params.map fun p => .typed p.type)) Γ
      fun formals => Parameter.typedAll? params = some formals := by
  induction params with
  | nil => exact checks_pure rfl
  | cons first rest ih =>
      rw [resolveParameters, List.map_cons]
      refine checks_bind (checks_typeName Γ first.type) fun t ht => ?_
      rw [← List.append_nil (List.map _ _)]
      refine checks_bind ih fun more hmore => checks_pure ?_
      simp [Parameter.typedAll?, TypeName.typed?, ht, hmore]

/-- A declared name is one site, and its binding is declared behind it. -/
theorem checks_declare {b : Binding} {symbol : Symbol} (position : Position)
    (hsymbol : b.symbol? Γ.level = some symbol) (hname : b.name = symbol.name) :
    Checks (Check.declare symbol position) Γ [⟨Γ, .fresh b.name position⟩] (Γ.declare b)
      fun _ => True := by
  intro c hc
  have hinsert := insert?_of_holds hc.holds hsymbol hname
  unfold Check.declare
  cases hgrown : c.current.insert? symbol with
  | none =>
      rw [hgrown] at hinsert
      simp [Checker.report, hgrown, Site.error?, hname, hinsert]
  | some grown =>
      rw [hgrown] at hinsert
      obtain ⟨hfree, hholds⟩ := hinsert
      simp only [Checker.report, hgrown]
      refine ⟨trivial, ?_, fun Δ call hmem => ?_, hc.declare hholds, rfl, rfl⟩
      · simp [Site.error?, hname, hfree]
      · cases List.mem_singleton.1 hmem

/-- Parameters are declared one after another. -/
theorem checks_declareParameters (Γ : Context) {params : List Parameter}
    {formals : List TypedName} (h : Parameter.typedAll? params = some formals) :
    Checks (declareParameters params formals) Γ (Γ.parameterSites params)
      (Γ.declareAll (params.map .parameter)) fun _ => True := by
  induction params generalizing Γ formals with
  | nil =>
      cases h
      exact checks_pure trivial
  | cons first rest ih =>
      simp only [Parameter.typedAll?, bind, Option.bind_eq_some_iff, pure,
        Option.some.injEq] at h
      obtain ⟨v, hv, more, hmore, rfl⟩ := h
      have hsymbol : (Binding.parameter first).symbol? Γ.level = some (.var v) := by
        rw [Binding.symbol?, hv]
        rfl
      have hname : first.name = v.name := by
        obtain ⟨t, -, rfl⟩ := Option.map_eq_some_iff.1 hv
        rfl
      exact checks_seq (checks_declare first.position hsymbol hname)
        (ih (Γ.declare (.parameter first)) hmore)

/-- A check may ask for the level of its context. -/
theorem checks_currentLevel {f : Nat → Check α} {post : α → Prop}
    (h : Checks (f Γ.level) Γ sites Δ post) :
    Checks (Check.currentLevel >>= f) Γ sites Δ post := by
  intro c hc
  have hlevel : c.current.level = Γ.level := hc.holds.1
  have hnext := h c hc
  rw [← hlevel] at hnext
  exact hnext

theorem Checker.occurrences_leave (c : Checker) : c.leave.occurrences = c.occurrences := by
  unfold leave
  split <;> rfl

theorem Checker.calls_leave (c : Checker) : c.leave.calls = c.calls := by
  unfold leave
  split <;> rfl

/-- A check inside a new scope ends where it started. -/
theorem checks_inScope (d : ProcedureDeclaration) {body : Check Unit}
    (houter : Δ.outer? = some Γ) (h : Checks body (Γ.enter d) sites Δ fun _ => True) :
    Checks (Check.inScope d.name body) Γ sites Γ fun _ => True := by
  intro c hc
  have hbody := h (c.enter d.name) (hc.enter d d.name (some c.current.name))
  unfold Check.inScope
  cases hrun : body (c.enter d.name) with
  | error e inner =>
      rw [hrun] at hbody
      exact hbody
  | ok a inner =>
      rw [hrun] at hbody
      obtain ⟨-, hpasses⟩ := hbody
      -- inside of the scope of `d` there is a scope to go back to
      have hchain : inner.leave.chain = inner.outer := by
        cases hopen : inner.outer with
        | nil =>
            have hleave := hpasses.represents.leave houter
            rw [hopen] at hleave
            cases hleave
        | cons parent rest =>
            unfold Checker.leave
            rw [hopen]
            rfl
      refine ⟨trivial, hpasses.silent, hpasses.known, ?_, ?_, ?_⟩
      · simp only [hchain]
        exact hpasses.represents.leave houter
      · rw [Checker.occurrences_leave]
        exact hpasses.occurrences
      · rw [Checker.calls_leave]
        exact hpasses.calls

mutual

/-- **The sites of a declaration** are what its check looks at. -/
theorem checks_declaration (Γ : Context) (d : Declaration) :
    Checks d.check Γ (d.sites Γ) (Γ.declare d.binding) fun _ => True := by
  cases d with
  | var name type position =>
      rw [Declaration.check, Declaration.sites]
      refine checks_bind (checks_typeName Γ type) fun t ht => ?_
      refine checks_declare (b := .var name type) position ?_ rfl
      simp [Binding.symbol?, TypeName.typed?, ht]
  | procedure name params declarations body position =>
      rw [Declaration.check, Declaration.sites]
      simp only [List.append_assoc]
      refine checks_bind (checks_parameterTypes Γ params) fun formals hformals => ?_
      refine checks_currentLevel (checks_seq (checks_declare
        (b := .procedure ⟨name, params, ⟨declarations, body⟩, position⟩) position ?_ rfl) ?_)
      · simp [Binding.symbol?, ProcedureDeclaration.procedure?, hformals]
      · refine checks_inScope ⟨name, params, ⟨declarations, body⟩, position⟩ ?_
          (checks_seq (checks_declareParameters _ hformals)
            (checks_seq (checks_declarations _ declarations) (checks_statements _ body)))
        rw [Context.outer?_declareAll, Context.outer?_declareAll]
        rfl

/-- The sites of declarations are what their check looks at. -/
theorem checks_declarations (Γ : Context) (ds : List Declaration) :
    Checks (Declaration.checkAll ds) Γ (Declaration.sitesAll Γ ds)
      (Γ.declareAll (ds.map Declaration.binding)) fun _ => True := by
  cases ds with
  | nil =>
      rw [Declaration.checkAll, Declaration.sitesAll]
      exact checks_pure trivial
  | cons first rest =>
      rw [Declaration.checkAll, Declaration.sitesAll]
      exact checks_seq (checks_declaration Γ first) (checks_declarations _ rest)

end

/-- **The sites of a block** are what its check looks at. -/
theorem checks_block (Γ : Context) (b : Block) :
    Checks b.check Γ (b.sites Γ) (Γ.behind b) fun _ => True :=
  checks_seq (checks_declarations Γ b.declarations) (checks_statements _ b.body)

/-- The global scope holds what is declared before the first declaration. -/
theorem represents_start : Represents Checker.start.chain Context.initial := by
  refine .program ⟨rfl, fun name => ?_⟩
  -- only the builtin types are declared
  by_cases hinteger : name = "INTEGER"
  · subst hinteger
    rfl
  · by_cases hreal : name = "REAL"
    · subst hreal
      rfl
    · have hnone : Checker.start.current.lookup name = none := by
        show ((NameTable.empty.set "INTEGER" _).set "REAL" _).find? name = none
        rw [NameTable.find?_set_of_ne _ _ hreal, NameTable.find?_set_of_ne _ _ hinteger]
        rfl
      rw [hnone]
      simp [Binding.name, BuiltinType.name, Ne.symm hreal, Ne.symm hinteger]

/-! ## The nodes behind the sites -/

/-- The node that a duty is about. -/
def Duty.node? : Duty → Option Node
  | .fresh _ _ => none
  | .typed _ => none
  | .occurrence v => some (.occurrence v)
  | .call c => some (.call c)

/-- The duties of an expression are about its nodes. -/
theorem nodes_expr (e : Expr) : e.duties.filterMap Duty.node? = e.nodes := by
  induction e with
  | literal value position => rfl
  | occurrence v => rfl
  | signed sign operand position ih => exact ih
  | binary op left right position hleft hright =>
      rw [Expr.duties, List.filterMap_append, hleft, hright]
      rfl

/-- The duties of a call are about its nodes. -/
theorem nodes_call (c : Call) : c.duties.filterMap Duty.node? = c.nodes := by
  have harguments : ∀ es : List Expr,
      (es.flatMap Expr.duties).filterMap Duty.node? = es.flatMap Expr.nodes := by
    intro es
    induction es with
    | nil => rfl
    | cons first rest ih =>
        rw [List.flatMap_cons, List.filterMap_append, nodes_expr, ih, List.flatMap_cons]
  rw [Call.duties, List.filterMap_append, harguments]
  rfl

mutual

/-- The duties of a statement are about its nodes, in some order. -/
theorem nodes_statement (st : Statement) :
    (st.duties.filterMap Duty.node?).Perm st.nodes := by
  cases st with
  | compound body =>
      rw [Statement.duties, Statement.nodes]
      exact nodes_statements body
  | assign target value position =>
      rw [Statement.duties, Statement.nodes, List.filterMap_append, nodes_expr]
      exact List.perm_append_comm
  | call c =>
      rw [Statement.duties, Statement.nodes, nodes_call]
  | empty =>
      rw [Statement.duties, Statement.nodes]
      exact List.Perm.nil

/-- The duties of statements are about their nodes, in some order. -/
theorem nodes_statements (body : List Statement) :
    ((Statement.dutiesAll body).filterMap Duty.node?).Perm (Statement.nodesAll body) := by
  cases body with
  | nil =>
      rw [Statement.dutiesAll, Statement.nodesAll]
      exact List.Perm.nil
  | cons first rest =>
      rw [Statement.dutiesAll, Statement.nodesAll, List.filterMap_append]
      exact (nodes_statement first).append (nodes_statements rest)

end

/-- The nodes that sites are about. -/
def siteNodes (sites : List Site) : List Node := sites.filterMap fun s => s.duty.node?

theorem siteNodes_append (sites more : List Site) :
    siteNodes (sites ++ more) = siteNodes sites ++ siteNodes more :=
  List.filterMap_append

theorem siteNodes_sitesOf (Γ : Context) (duties : List Duty) :
    siteNodes (Γ.sitesOf duties) = duties.filterMap Duty.node? := by
  rw [siteNodes, Context.sitesOf, List.filterMap_map]
  rfl

theorem siteNodes_types (Γ : Context) (params : List Parameter) :
    siteNodes (Γ.sitesOf (params.map fun p => .typed p.type)) = [] := by
  rw [siteNodes_sitesOf, List.filterMap_map]
  exact List.filterMap_eq_nil_iff.2 fun _ _ => rfl

theorem siteNodes_parameters (Γ : Context) (params : List Parameter) :
    siteNodes (Γ.parameterSites params) = [] := by
  induction params generalizing Γ with
  | nil => rfl
  | cons first rest ih => exact ih _

mutual

/-- The sites of a declaration are about its nodes, in some order. -/
theorem siteNodes_declaration (Γ : Context) (d : Declaration) :
    (siteNodes (d.sites Γ)).Perm d.nodes := by
  cases d with
  | var name type position =>
      rw [Declaration.sites, Declaration.nodes]
      exact List.Perm.nil
  | procedure name params declarations body position =>
      rw [Declaration.sites, Declaration.nodes]
      simp only [siteNodes_append, siteNodes_types, siteNodes_parameters]
      -- only what stands inside of the procedure is numbered
      have hdeclarations := siteNodes_declarations
        (((Γ.declare (.procedure ⟨name, params, ⟨declarations, body⟩, position⟩)).enterWith
          ⟨name, params, ⟨declarations, body⟩, position⟩)) declarations
      refine hdeclarations.append ?_
      rw [siteNodes_sitesOf]
      exact nodes_statements body

/-- The sites of declarations are about their nodes, in some order. -/
theorem siteNodes_declarations (Γ : Context) (ds : List Declaration) :
    (siteNodes (Declaration.sitesAll Γ ds)).Perm (Declaration.nodesAll ds) := by
  cases ds with
  | nil =>
      rw [Declaration.sitesAll, Declaration.nodesAll]
      exact List.Perm.nil
  | cons first rest =>
      rw [Declaration.sitesAll, Declaration.nodesAll, siteNodes_append]
      exact (siteNodes_declaration Γ first).append (siteNodes_declarations _ rest)

end

/-- **Every node of a program** is the node of exactly one site. -/
theorem siteNodes_program (tree : Program) : (siteNodes tree.sites).Perm tree.nodes := by
  rw [Program.sites, Program.nodes, Block.sites, siteNodes_append, siteNodes_sitesOf]
  exact (siteNodes_declarations _ _).append (nodes_statements _)

/-- The number of the node that a site is about. -/
def Site.nodeId? (s : Site) : Option NodeId := s.duty.nodeId?

/-- The numbers of the nodes that sites are about. -/
def siteIds (sites : List Site) : List NodeId := sites.filterMap Site.nodeId?

/-- Every number of a program is that of exactly one site. -/
theorem siteIds_program (tree : Program) : (siteIds tree.sites).Perm tree.nodeIds := by
  have hnodes : siteIds tree.sites = (siteNodes tree.sites).map Node.id := by
    rw [siteIds, siteNodes, List.map_filterMap]
    congr 1
    funext s
    obtain ⟨Γ, duty⟩ := s
    cases duty <;> rfl
  rw [hnodes, ← tree.map_id_nodes]
  exact (siteNodes_program tree).map Node.id

/-! ## What a check records -/

/-- Among entries with distinct keys every one is found. -/
theorem lookup_eq_some_of_mem {β : Type} {entries : List (NodeId × β)}
    (hkeys : (entries.map Prod.fst).Nodup) {id : NodeId} {x : β} (h : (id, x) ∈ entries) :
    entries.lookup id = some x := by
  induction entries with
  | nil => cases h
  | cons first rest ih =>
      obtain ⟨hnew, hrest⟩ := List.nodup_cons.1 hkeys
      rcases List.mem_cons.1 h with rfl | h
      · exact List.lookup_cons_self
      · have hne : (id == first.1) = false := by
          refine beq_false_of_ne fun heq => hnew ?_
          exact heq ▸ List.mem_map_of_mem h
        rw [List.lookup_cons, hne]
        exact ih hrest h

/-- The records of sites with distinct nodes have distinct keys. -/
theorem nodup_records {β : Type} {record? : Site → Option (NodeId × β)}
    (hrecord : ∀ s id x, record? s = some (id, x) → s.nodeId? = some id)
    {sites : List Site} (h : (siteIds sites).Nodup) :
    ((sites.filterMap record?).map Prod.fst).Nodup := by
  -- the keys are some of the numbers of the sites
  refine List.Nodup.sublist ?_ h
  clear h
  induction sites with
  | nil => exact List.Sublist.refl _
  | cons s rest ih =>
      cases hs : record? s with
      | some entry =>
          have hid : s.nodeId? = some entry.1 := hrecord s entry.1 entry.2 hs
          rw [List.filterMap_cons_some hs, List.map_cons, siteIds, List.filterMap_cons_some hid]
          exact ih.cons_cons _
      | none =>
          rw [List.filterMap_cons_none hs, siteIds, List.filterMap_cons]
          split
          · exact ih
          · exact ih.cons _

/-- **What a site is due** is found under the number of its node. -/
theorem lookup_record {β : Type} {record? : Site → Option (NodeId × β)}
    (hrecord : ∀ s id x, record? s = some (id, x) → s.nodeId? = some id)
    {sites : List Site} (h : (siteIds sites).Nodup) {s : Site} (hs : s ∈ sites) {id : NodeId}
    {x : β} (hx : record? s = some (id, x)) :
    (sites.filterMap record?).reverse.lookup id = some x := by
  refine lookup_eq_some_of_mem ?_ ?_
  · rw [List.map_reverse]
    exact (List.reverse_perm _).nodup_iff.2 (nodup_records hrecord h)
  · rw [List.mem_reverse]
    exact List.mem_filterMap.2 ⟨s, hs, hx⟩

/-! ## Programs -/

/-- Sites report nothing exactly if all of them obey the rules. -/
theorem silent_iff_obeys (sites : List Site) :
    sites.findSome? Site.error? = none ↔ ∀ s ∈ sites, s.Obeys := by
  rw [List.findSome?_eq_none_iff]
  exact forall₂_congr fun s _ => s.error?_eq_none_iff

/-- The analysis of a program holds what its sites are due, or its sites report an
error. -/
theorem analyze_cases (tree : Program) :
    match analyze tree with
    | .ok a => ∃ d : Checker, Passes .start d tree.sites (Context.initial.behind tree.block) ∧
        a.occurrences = d.occurrences ∧ a.calls = d.calls
    | .error e => tree.sites.findSome? Site.error? = some e := by
  have hblock := checks_block .initial tree.block .start represents_start
  unfold analyze Program.check
  cases hcheck : tree.block.check .start with
  | error e d =>
      rw [hcheck] at hblock
      exact hblock
  | ok a d =>
      rw [hcheck] at hblock
      exact ⟨d, hblock.2, rfl, rfl⟩

/-- The sites of a program that has an analysis obey the rules. -/
theorem obeys_of_analyze {tree : Program} {a : Analysis} (h : analyze tree = .ok a) :
    ∀ s ∈ tree.sites, s.Obeys := by
  have hcases := analyze_cases tree
  rw [h] at hcases
  obtain ⟨d, hpasses, -⟩ := hcases
  exact (silent_iff_obeys tree.sites).1 hpasses.silent

/-- **The analysis of a program** with distinct node numbers knows all its variables and
calls. -/
theorem resolves_of_analyze {tree : Program} {a : Analysis} (h : analyze tree = .ok a)
    (hids : tree.nodeIds.Nodup) : a.Resolves tree.sites := by
  have hcases := analyze_cases tree
  have hobeys := obeys_of_analyze h
  rw [h] at hcases
  obtain ⟨d, hpasses, hoccurrences, hcalls⟩ := hcases
  have hnodup : (siteIds tree.sites).Nodup := (siteIds_program tree).nodup_iff.2 hids
  constructor
  · intro Γ v hsite
    obtain ⟨b, level, hbound, hb⟩ := hobeys _ hsite
    refine ⟨b, level, hbound, hb, ?_⟩
    have hlevel : Site.level? ⟨Γ, .occurrence v⟩ = some (v.id, level) := by
      simp [Site.level?, hbound]
    rw [Analysis.declaredLevel?, hoccurrences, hpasses.occurrences]
    refine (List.append_nil _).symm ▸ lookup_record ?_ hnodup hsite hlevel
    -- only variables have a level on record, each under its own number
    rintro ⟨Δ, duty⟩ id x hx
    cases duty with
    | occurrence w =>
        obtain ⟨found, -, heq⟩ := Option.map_eq_some_iff.1 hx
        cases heq
        rfl
    | fresh name position => cases hx
    | typed type => cases hx
    | call c => cases hx
  · intro Γ c hsite
    obtain ⟨d', level, hbound, hlength⟩ := hobeys _ hsite
    obtain ⟨p, hcallee⟩ := hpasses.known Γ c hsite
    -- the call obeys the rules, so its callee is on record
    have hp : d'.procedure? level = some p := by
      simpa [Site.callee?, hbound] using hcallee
    refine ⟨d', level, p, hbound, hlength, hp, ?_⟩
    rw [Analysis.procedure?, hcalls, hpasses.calls]
    refine (List.append_nil _).symm ▸ lookup_record ?_ hnodup hsite hcallee
    rintro ⟨Δ, duty⟩ id x hx
    cases duty with
    | occurrence w => cases hx
    | fresh name position => cases hx
    | typed type => cases hx
    | call call =>
        simp only [Site.callee?] at hx
        split at hx
        · obtain ⟨q, -, heq⟩ := Option.map_eq_some_iff.1 hx
          cases heq
          rfl
        · cases hx

/-- **The analysis of a program is declarative scoping.**  It succeeds exactly on the
trees all of whose sites obey the rules; it fails with the error of the first site that
does not; and if it succeeds, it knows of every variable the level of its innermost
visible binding, and of every call the procedure of its innermost visible binding. -/
theorem analyze_iff_obeys (tree : Program) (hids : tree.nodeIds.Nodup) :
    ((∃ a, analyze tree = .ok a) ↔ ∀ s ∈ tree.sites, s.Obeys) ∧
      (∀ e, analyze tree = .error e ↔ tree.sites.findSome? Site.error? = some e) ∧
      ∀ a, analyze tree = .ok a → a.Resolves tree.sites := by
  have hcases := analyze_cases tree
  refine ⟨?_, ?_, fun a ha => resolves_of_analyze ha hids⟩
  · rw [← silent_iff_obeys]
    cases hanalyze : analyze tree with
    | ok a =>
        rw [hanalyze] at hcases
        obtain ⟨d, hpasses, -⟩ := hcases
        simp [hpasses.silent]
    | error e =>
        rw [hanalyze] at hcases
        simp [hcases]
  · intro e
    cases hanalyze : analyze tree with
    | ok a =>
        rw [hanalyze] at hcases
        obtain ⟨d, hpasses, -⟩ := hcases
        simp [hpasses.silent]
    | error e' =>
        rw [hanalyze] at hcases
        simp [hcases]

/-- A tree put together by hand: inside of the procedure `F` its own name is that of a
variable, and the numbers of the nodes follow no order.
```
VAR n : INTEGER;
PROCEDURE F(r : REAL); VAR F : REAL; BEGIN F := r; n := n END;
BEGIN F(n) END.
```
-/
def shadowingTree : Program :=
  ⟨"SHADOWING", ⟨
    [.var "n" ⟨"INTEGER", ⟨1, 9⟩⟩ ⟨1, 5⟩,
      .procedure "F" [⟨"r", ⟨"REAL", ⟨2, 17⟩⟩, ⟨2, 13⟩⟩] [.var "F" ⟨"REAL", ⟨2, 32⟩⟩ ⟨2, 28⟩]
        [.assign ⟨"F", 7, ⟨2, 44⟩⟩ (.occurrence ⟨"r", 3, ⟨2, 49⟩⟩) ⟨2, 46⟩,
          .assign ⟨"n", 5, ⟨2, 52⟩⟩ (.occurrence ⟨"n", 9, ⟨2, 57⟩⟩) ⟨2, 54⟩] ⟨2, 11⟩],
    [.call ⟨"F", 2, [.occurrence ⟨"n", 8, ⟨3, 9⟩⟩], ⟨3, 7⟩⟩]⟩, ⟨1, 1⟩⟩

/-- A tree with a shadowed procedure is analyzed by the rules of scoping. -/
theorem shadowingTree_obeys : shadowingTree.nodeIds.Nodup ∧
    ∃ a, analyze shadowingTree = .ok a ∧ a.Resolves shadowingTree.sites := by
  have hids : shadowingTree.nodeIds.Nodup := by decide
  obtain ⟨hok, -, hresolves⟩ := analyze_iff_obeys shadowingTree hids
  have hobeys : ∀ s ∈ shadowingTree.sites, s.Obeys :=
    (silent_iff_obeys _).1 (by decide)
  obtain ⟨a, ha⟩ := hok.2 hobeys
  exact ⟨hids, a, ha, hresolves a ha⟩

/-! ## Source texts -/

/-- The nodes of a tree that was parsed have distinct numbers. -/
theorem nodup_of_parse {source : String} {tree : Program} (h : parse source = .ok tree) :
    tree.nodeIds.Nodup := by
  obtain ⟨ts, p, -, hprogram⟩ := parse_eq_ok_iff.1 h
  exact Grammar.nodup_nodeIds hprogram

/-- Whether a source text parses and has an analysis. -/
def accepts (source : String) : Bool :=
  match parse source with
  | .ok tree => (analyze tree).isOk
  | .error _ => false

/-- An accepted source text has a tree and an analysis. -/
theorem exists_analysis {source : String} (h : accepts source = true) :
    ∃ tree a, parse source = .ok tree ∧ analyze tree = .ok a := by
  unfold accepts at h
  cases hparse : parse source with
  | error e =>
      rw [hparse] at h
      cases h
  | ok tree =>
      rw [hparse] at h
      cases ha : analyze tree with
      | error e =>
          simp only [ha] at h
          cases h
      | ok a => exact ⟨tree, a, rfl, ha⟩

end MiniPascal
