/-
# Checks of programs that are alike

Checks of programs that are alike run in lock step: a name stands for the same in both, up to
what may differ, so both fail with the same fault, or both record the same levels and
procedures that are alike.

* `Scope.Matches.insert` : scopes stay alike when symbols that are alike are inserted;
* `Check.lockstep_lookup` : names that are alike stand for symbols that are alike;
* `lockstep_declaration` : the checks of declarations that are alike;
* `analyze_matches` : the analyses of programs that are alike.
-/
import MiniPascal.Proofs.Likeness
import MiniPascal.Proofs.Lockstep
import MiniPascal.Proofs.Scoping.Tables
import MiniPascal.Scope.Checker

set_option autoImplicit false

namespace MiniPascal

variable {φ : Likeness}

/-! ## Related options and lists -/

theorem isSome_of_rel {α β : Type} {R : α → β → Prop} {o : Option α} {o' : Option β}
    (h : Option.Rel R o o') : o'.isSome = o.isSome := by
  cases h <;> rfl

/-- What follows for each of two related elements holds of all of a related list. -/
theorem forall_mem_of_forall₂ {α β : Type} {R : α → β → Prop} {P : α → Prop} {xs : List α}
    {ys : List β} (h : List.Forall₂ R xs ys) (hR : ∀ x y, R x y → P x) : ∀ x ∈ xs, P x := by
  induction h with
  | nil => exact nofun
  | cons hfirst _ ih => exact List.forall_mem_cons.2 ⟨hR _ _ hfirst, ih⟩

/-! ## Scopes -/

/-- Whether a symbol is that of a type. -/
def Symbol.isType : Symbol → Bool
  | .type _ => true
  | _ => false

theorem exists_of_isType {s : Symbol} (h : s.isType = true) : ∃ t, s = .type t := by
  cases s with
  | type t => exact ⟨t, rfl⟩
  | var _ => cases h
  | procedure _ => cases h

theorem Symbol.Matches.isType {s s' : Symbol} (h : s.Matches φ s') : s'.isType = s.isType := by
  cases h <;> rfl

/-- Scopes that are alike: under names that are alike stand symbols that are alike, and types
that may stand for each other are hidden in both or in none. -/
structure Scope.Matches (φ : Likeness) (scope scope' : Scope) : Prop where
  level : scope'.level = scope.level
  proper : scope.Proper
  proper' : scope'.Proper
  symbols : ∀ name,
    Option.Rel (Symbol.Matches φ) (scope.lookup name) (scope'.lookup (φ.rename name))
  types : ∀ t t', φ.types t t' →
    Option.Rel (fun s s' : Symbol => s'.isType = s.isType) (scope.lookup t.name)
      (scope'.lookup t'.name)

namespace Scope

variable {scope scope' grown : Scope} {symbol symbol' : Symbol}

/-- **Scopes stay alike** when symbols that are alike are inserted. -/
theorem Matches.insert (h : scope.Matches φ scope') (hsymbol : symbol.Matches φ symbol')
    (hdeclares : φ.declares symbol.name) :
    Option.Rel (Scope.Matches φ) (scope.insert? symbol) (scope'.insert? symbol') := by
  have hname : symbol'.name = φ.rename symbol.name := hsymbol.name
  -- the name is taken in both or in none
  have htaken : (scope'.lookup symbol'.name).isSome = (scope.lookup symbol.name).isSome := by
    rw [hname]
    exact isSome_of_rel (h.symbols symbol.name)
  have hrefused : scope'.insert? symbol' = none ↔ scope.insert? symbol = none := by
    rw [insert?_eq_none_iff, insert?_eq_none_iff, htaken]
  cases hgrown : scope.insert? symbol with
  | none =>
      rw [hrefused.2 hgrown]
      exact .none
  | some grown =>
      obtain ⟨grown', hgrown'⟩ : ∃ grown', scope'.insert? symbol' = some grown' := by
        refine Option.ne_none_iff_exists'.1 fun hnone => ?_
        rw [hrefused.1 hnone] at hgrown
        cases hgrown
      rw [hgrown']
      refine .some ⟨?_, h.proper.insert hgrown, h.proper'.insert hgrown', ?_, ?_⟩
      · rw [level_insert hgrown', level_insert hgrown, h.level]
      · intro name
        rw [lookup_insert hgrown, lookup_insert hgrown', hname]
        by_cases heq : name = symbol.name
        · rw [if_pos heq, if_pos (congrArg φ.rename heq)]
          exact .some hsymbol
        · rw [if_neg heq, if_neg fun hsame => heq (φ.injective hsame)]
          exact h.symbols name
      · intro t t' htypes
        have hhides := φ.hides htypes hdeclares
        rw [lookup_insert hgrown, lookup_insert hgrown', hname]
        by_cases heq : t.name = symbol.name
        · rw [if_pos heq, if_pos (hhides.2 heq)]
          exact .some hsymbol.isType
        · rw [if_neg heq, if_neg fun hsame => heq (hhides.1 hsame)]
          exact h.types t t' htypes

theorem matches_new (φ : Likeness) {level : Nat} (name name' : String)
    (enclosing enclosing' : Option String) :
    (Scope.new name level enclosing).Matches φ (Scope.new name' level enclosing') :=
  ⟨rfl, nofun, nofun, fun _ => .none, fun _ _ _ => .none⟩

/-- The global scope is like itself. -/
theorem matches_global (φ : Likeness) : global.Matches φ global := by
  have htype : ∀ t : BuiltinType, global.lookup t.name = some (.type t) := fun t =>
    (lookup_global t.name (.type t)).2 ⟨t, rfl, rfl⟩
  refine ⟨rfl, proper_global, proper_global, ?_, ?_⟩
  · intro name
    cases hlookup : global.lookup name with
    | some symbol =>
        obtain ⟨t, rfl, rfl⟩ := (lookup_global name symbol).1 hlookup
        rw [φ.builtin t, htype t]
        exact .some (.type t)
    | none =>
        -- no other name is renamed to that of a type
        have hnone : global.lookup (φ.rename name) = none := by
          refine Option.eq_none_iff_forall_ne_some.2 fun symbol hsymbol => ?_
          obtain ⟨t, hname, -⟩ := (lookup_global _ symbol).1 hsymbol
          obtain rfl : t.name = name := φ.injective ((φ.builtin t).trans hname)
          rw [htype t] at hlookup
          cases hlookup
        rw [hnone]
        exact .none
  · intro t t' _
    rw [htype t, htype t']
    exact .some rfl

end Scope

/-! ## Chains of scopes -/

/-- What two chains find under two names, if it is related in all scopes. -/
theorem rel_visible? {R : Symbol → Symbol → Prop} {name name' : String}
    {chain chain' : List Scope}
    (h : List.Forall₂ (fun scope scope' : Scope => scope'.level = scope.level ∧
      Option.Rel R (scope.lookup name) (scope'.lookup name')) chain chain') :
    Option.Rel (fun found found' : Symbol × Nat => R found.1 found'.1 ∧ found'.2 = found.2)
      (visible? name chain) (visible? name' chain') := by
  induction h with
  | nil => exact .none
  | @cons scope scope' rest rest' hscope _ ih =>
      obtain ⟨hlevel, hlookup⟩ := hscope
      unfold visible?
      rw [List.findSome?_cons, List.findSome?_cons]
      generalize scope.lookup name = found at hlookup ⊢
      generalize scope'.lookup name' = found' at hlookup ⊢
      cases hlookup with
      | none => exact ih
      | some hfound => exact .some ⟨hfound, hlevel⟩

/-- What a chain of proper scopes finds under a name has this name. -/
theorem name_of_visible? {name : String} {chain : List Scope} {symbol : Symbol} {level : Nat}
    (hchain : ∀ scope ∈ chain, scope.Proper) (h : visible? name chain = some (symbol, level)) :
    symbol.name = name := by
  obtain ⟨scope, hscope, hfound⟩ := List.exists_of_findSome?_eq_some h
  obtain ⟨found, hlookup, heq⟩ := Option.map_eq_some_iff.1 hfound
  cases heq
  exact hchain scope hscope name _ hlookup

/-- States of checkers that are alike; what they have reported does not count. -/
structure Checker.Matches (φ : Likeness) (c c' : Checker) : Prop where
  chain : List.Forall₂ (Scope.Matches φ) c.chain c'.chain
  occurrences : c'.occurrences = c.occurrences
  calls : List.Forall₂ (fun entry entry' : NodeId × Procedure => entry'.1 = entry.1 ∧
    entry.2.Matches φ entry'.2) c.calls c'.calls

namespace Checker.Matches

variable {c c' : Checker}

theorem current (h : c.Matches φ c') : c.current.Matches φ c'.current := by
  cases h.chain with
  | cons hcurrent _ => exact hcurrent

theorem outer (h : c.Matches φ c') : List.Forall₂ (Scope.Matches φ) c.outer c'.outer := by
  cases h.chain with
  | cons _ houter => exact houter

theorem proper (h : c.Matches φ c') : ∀ scope ∈ c.chain, scope.Proper :=
  forall_mem_of_forall₂ h.chain fun _ _ hscope => hscope.proper

theorem proper' (h : c.Matches φ c') : ∀ scope ∈ c'.chain, scope.Proper :=
  forall_mem_of_forall₂ h.chain.flip fun _ _ hscope => hscope.proper'

/-- Scopes are opened in both. -/
theorem enter (h : c.Matches φ c') (name name' : String) :
    (c.enter name).Matches φ (c'.enter name') := by
  refine ⟨.cons ?_ h.chain, h.occurrences, h.calls⟩
  show (Scope.new name (c.current.level + 1) _).Matches φ
    (Scope.new name' (c'.current.level + 1) _)
  rw [h.current.level]
  exact Scope.matches_new φ name name' _ _

/-- Scopes are closed in both. -/
theorem leave (h : c.Matches φ c') : c.leave.Matches φ c'.leave := by
  have houter := h.outer
  unfold Checker.leave
  generalize c.outer = outer at houter
  generalize c'.outer = outer' at houter
  cases houter with
  | nil => exact h
  | cons hparent hrest => exact ⟨.cons hparent hrest, h.occurrences, h.calls⟩

end Checker.Matches

/-! ## Steps of a check -/

/-- Faults that are alike. -/
inductive ScopeFault.Matches (φ : Likeness) : ScopeFault → ScopeFault → Prop where
  | undefinedIdentifier (name : String) :
      Matches φ (.undefinedIdentifier name) (.undefinedIdentifier (φ.rename name))
  | duplicateIdentifier (name : String) :
      Matches φ (.duplicateIdentifier name) (.duplicateIdentifier (φ.rename name))
  | undefinedType {type type' : TypeName} (htype : type.Matches φ type') :
      Matches φ (.undefinedType type.name) (.undefinedType type'.name)
  | notAVariable (name : String) :
      Matches φ (.notAVariable name) (.notAVariable (φ.rename name))
  | notAProcedure (name : String) :
      Matches φ (.notAProcedure name) (.notAProcedure (φ.rename name))
  | argumentCountMismatch (name : String) (expected found : Nat) :
      Matches φ (.argumentCountMismatch name expected found)
        (.argumentCountMismatch (φ.rename name) expected found)

/-- Scope errors that are alike. -/
structure ScopeError.Matches (φ : Likeness) (e e' : ScopeError) : Prop where
  fault : e.value.Matches φ e'.value
  position : φ.places e.position e'.position

/-- Without renaming faults that are alike are equal, if undefined types are. -/
theorem ScopeFault.Matches.eq (hid : φ.rename = id) {fault fault' : ScopeFault}
    (h : fault.Matches φ fault')
    (htypes : ∀ type type' : TypeName, fault = .undefinedType type.name →
      type.Matches φ type' → type'.name = type.name) : fault' = fault := by
  cases h with
  | undefinedType htype => exact congrArg ScopeFault.undefinedType (htypes _ _ rfl htype)
  | undefinedIdentifier name => rw [hid, id]
  | duplicateIdentifier name => rw [hid, id]
  | notAVariable name => rw [hid, id]
  | notAProcedure name => rw [hid, id]
  | argumentCountMismatch name expected found => rw [hid, id]

/-- Two checks in lock step. -/
abbrev ChecksAlike {α α' : Type} (φ : Likeness) (values : α → α' → Prop) (check : Check α)
    (check' : Check α') : Prop :=
  Lockstep (Checker.Matches φ) (ScopeError.Matches φ) values check check'

namespace Check

theorem lockstep_fail {α α' : Type} {values : α → α' → Prop} {fault fault' : ScopeFault}
    {p p' : Position} (hfault : fault.Matches φ fault') (hposition : φ.places p p') :
    ChecksAlike φ values (fail fault p : Check α) (fail fault' p') := by
  intro c c' hc
  exact .error ⟨hfault, hposition⟩ hc

/-- **Names that are alike** stand for symbols that are alike. -/
theorem lockstep_lookup (φ : Likeness) (name : String) :
    ChecksAlike φ (Option.Rel fun found found' : Symbol × Nat =>
      found.1.Matches φ found'.1 ∧ found'.2 = found.2) (lookup name)
      (lookup (φ.rename name)) := by
  intro c c' hc
  refine .ok (rel_visible? ?_) ⟨hc.chain, hc.occurrences, hc.calls⟩
  exact hc.chain.imp fun scope scope' hscope => ⟨hscope.level, hscope.symbols name⟩

/-- Symbols that are alike are declared in both. -/
theorem lockstep_declare {symbol symbol' : Symbol} {p p' : Position}
    (hsymbol : symbol.Matches φ symbol') (hdeclares : φ.declares symbol.name)
    (hposition : φ.places p p') :
    ChecksAlike φ Silent (declare symbol p) (declare symbol' p') := by
  intro c c' hc
  have hgrown := hc.current.insert hsymbol hdeclares
  unfold declare
  simp only [Checker.report]
  generalize c.current.insert? symbol = grown at hgrown ⊢
  generalize c'.current.insert? symbol' = grown' at hgrown ⊢
  cases hgrown with
  | none =>
      refine .error ⟨?_, hposition⟩ ⟨hc.chain, hc.occurrences, hc.calls⟩
      rw [hsymbol.name]
      exact .duplicateIdentifier _
  | some hscope => exact .ok trivial ⟨.cons hscope hc.outer, hc.occurrences, hc.calls⟩

theorem lockstep_currentLevel (φ : Likeness) : ChecksAlike φ Eq currentLevel currentLevel := by
  intro c c' hc
  exact .ok hc.current.level.symm hc

/-- Checks run in lock step inside of new scopes. -/
theorem lockstep_inScope {α α' : Type} {values : α → α' → Prop} {body : Check α}
    {body' : Check α'} (h : ChecksAlike φ values body body') (name name' : String) :
    ChecksAlike φ values (inScope name body) (inScope name' body') := by
  intro c c' hc
  have hbody := h _ _ (hc.enter name name')
  unfold inScope
  generalize body (c.enter name) = result at hbody ⊢
  generalize body' (c'.enter name') = result' at hbody ⊢
  cases hbody with
  | ok hvalue hstate => exact .ok hvalue hstate.leave
  | error herror hstate => exact .error herror hstate.leave

theorem lockstep_resolveVariable (φ : Likeness) (id : NodeId) (level : Nat) :
    ChecksAlike φ Silent (resolveVariable id level) (resolveVariable id level) := by
  intro c c' hc
  exact .ok trivial ⟨hc.chain, congrArg (List.cons (id, level)) hc.occurrences, hc.calls⟩

theorem lockstep_resolveCall {p p' : Procedure} (hp : p.Matches φ p') (id : NodeId) :
    ChecksAlike φ Silent (resolveCall id p) (resolveCall id p') := by
  intro c c' hc
  exact .ok trivial ⟨hc.chain, hc.occurrences, .cons ⟨rfl, hp⟩ hc.calls⟩

end Check

open Check

/-! ## Statements -/

theorem lockstep_seq {first rest first' rest' : Check Unit}
    (hfirst : ChecksAlike φ Silent first first') (hrest : ChecksAlike φ Silent rest rest') :
    ChecksAlike φ Silent (do first; rest) (do first'; rest') :=
  Lockstep.bind hfirst fun _ _ _ => hrest

/-- The checks of variables that are alike. -/
theorem lockstep_variable {v v' : Variable} (h : v.Matches φ v') :
    ChecksAlike φ Silent v.check v'.check := by
  unfold Variable.check
  rw [h.name]
  refine Lockstep.bind (lockstep_lookup φ v.name) fun found found' hfound => ?_
  cases hfound with
  | none => exact lockstep_fail (.undefinedIdentifier v.name) h.position
  | @some found found' hfound =>
      obtain ⟨symbol, level⟩ := found
      obtain ⟨symbol', level'⟩ := found'
      obtain ⟨hsymbol, rfl⟩ := hfound
      cases hsymbol with
      | type t => exact lockstep_fail (.notAVariable v.name) h.position
      | var _ =>
          simp only [h.id]
          exact lockstep_resolveVariable φ v.id _
      | procedure _ => exact lockstep_fail (.notAVariable v.name) h.position

/-- The checks of expressions that are alike. -/
theorem lockstep_expr {e e' : Expr} (h : e.Matches φ e') :
    ChecksAlike φ Silent e.check e'.check := by
  induction h with
  | literal _ => exact Lockstep.pure trivial
  | occurrence hv => exact lockstep_variable hv
  | signed _ _ ih => exact ih
  | binary _ _ _ ihl ihr => exact lockstep_seq ihl ihr

theorem lockstep_exprs {es es' : List Expr} (h : List.Forall₂ (Expr.Matches φ) es es') :
    ChecksAlike φ Silent (Expr.checkAll es) (Expr.checkAll es') := by
  induction h with
  | nil => exact Lockstep.pure trivial
  | cons hfirst _ ih => exact lockstep_seq (lockstep_expr hfirst) ih

/-- The checks of calls that are alike. -/
theorem lockstep_call {c c' : Call} (h : c.Matches φ c') :
    ChecksAlike φ Silent c.check c'.check := by
  unfold Call.check
  refine lockstep_seq (lockstep_exprs h.arguments) ?_
  rw [h.name]
  refine Lockstep.bind (lockstep_lookup φ c.name) fun found found' hfound => ?_
  cases hfound with
  | none => exact lockstep_fail (.undefinedIdentifier c.name) h.position
  | @some found found' hfound =>
      obtain ⟨symbol, level⟩ := found
      obtain ⟨symbol', level'⟩ := found'
      obtain ⟨hsymbol, rfl⟩ := hfound
      cases hsymbol with
      | type t => exact lockstep_fail (.notAProcedure c.name) h.position
      | var _ => exact lockstep_fail (.notAProcedure c.name) h.position
      | @procedure p p' hp =>
          have hparams : p'.params.length = p.params.length := hp.params.length_eq.symm
          have harguments : c'.arguments.length = c.arguments.length :=
            h.arguments.length_eq.symm
          simp only [hparams, harguments, h.id]
          by_cases hcount : p.params.length = c.arguments.length
          · rw [if_pos hcount, if_pos hcount]
            exact lockstep_resolveCall hp c.id
          · rw [if_neg hcount, if_neg hcount]
            exact lockstep_fail (.argumentCountMismatch c.name _ _) h.position

mutual

/-- **The checks of statements** that are alike. -/
theorem lockstep_statement (st : Statement) {st' : Statement} (h : st.Matches φ st') :
    ChecksAlike φ Silent st.check st'.check := by
  -- the recursion is on the first statement, and the second has the same constructor
  cases st with
  | compound body =>
      cases h with
      | compound hbody =>
          rw [Statement.check, Statement.check]
          exact lockstep_statements body hbody
  | assign target value position =>
      cases h with
      | assign htarget hvalue _ =>
          rw [Statement.check, Statement.check]
          exact lockstep_seq (lockstep_expr hvalue) (lockstep_variable htarget)
  | call c =>
      cases h with
      | call hc =>
          rw [Statement.check, Statement.check]
          exact lockstep_call hc
  | empty =>
      cases h with
      | empty =>
          rw [Statement.check]
          exact Lockstep.pure trivial

/-- The checks of statements in turn. -/
theorem lockstep_statements (body : List Statement) {body' : List Statement}
    (h : List.Forall₂ (Statement.Matches φ) body body') :
    ChecksAlike φ Silent (Statement.checkAll body) (Statement.checkAll body') := by
  cases body with
  | nil =>
      cases h with
      | nil =>
          rw [Statement.checkAll]
          exact Lockstep.pure trivial
  | cons first rest =>
      cases h with
      | cons hfirst hrest =>
          rw [Statement.checkAll, Statement.checkAll]
          exact lockstep_seq (lockstep_statement first hfirst) (lockstep_statements rest hrest)

end

/-! ## Declarations -/

/-- Different builtin types have different names. -/
theorem BuiltinType.eq_of_name {t t' : BuiltinType} (h : t.name = t'.name) : t = t' := by
  cases t <;> cases t' <;> first | rfl | exact absurd h (by decide)

/-- What is found under two type names: types that may stand for each other, or no types. -/
inductive TypesFound (φ : Likeness) :
    Option (Symbol × Nat) → Option (Symbol × Nat) → Prop where
  | types {t t' : BuiltinType} {level level' : Nat} (h : φ.types t t') :
      TypesFound φ (some (.type t, level)) (some (.type t', level'))
  | others {found found' : Option (Symbol × Nat)}
      (h : ∀ t level, found ≠ some (.type t, level))
      (h' : ∀ t level, found' ≠ some (.type t, level)) : TypesFound φ found found'

/-- **Type names that are alike** stand for types that may stand for each other, or for no
types. -/
theorem Check.lockstep_lookupType {type type' : TypeName} (h : type.Matches φ type') :
    ChecksAlike φ (TypesFound φ) (lookup type.name) (lookup type'.name) := by
  intro c c' hc
  refine .ok ?_ ⟨hc.chain, hc.occurrences, hc.calls⟩
  cases h with
  | unknown hname _ =>
      refine .others ?_ ?_
      · intro t level hfound
        exact hname t (name_of_visible? hc.proper hfound)
      · intro t level hfound
        exact hname t (name_of_visible? hc.proper' hfound)
  | @builtin t t' _ _ htypes _ =>
      have hrel := rel_visible? (hc.chain.imp fun scope scope' hscope =>
        ⟨hscope.level, hscope.types t t' htypes⟩)
      have hown : ∀ b level, visible? t.name c.chain = some (.type b, level) → b = t :=
        fun b level hfound => BuiltinType.eq_of_name (name_of_visible? hc.proper hfound)
      have hown' : ∀ b level, visible? t'.name c'.chain = some (.type b, level) → b = t' :=
        fun b level hfound => BuiltinType.eq_of_name (name_of_visible? hc.proper' hfound)
      show TypesFound φ (visible? t.name c.chain) (visible? t'.name c'.chain)
      generalize visible? t.name c.chain = found at hrel hown ⊢
      generalize visible? t'.name c'.chain = found' at hrel hown' ⊢
      cases hrel with
      | none => exact .others nofun nofun
      | @some found found' hkind =>
          obtain ⟨symbol, level⟩ := found
          obtain ⟨symbol', level'⟩ := found'
          obtain ⟨hkind, -⟩ := hkind
          by_cases htype : symbol.isType = true
          · obtain ⟨b, rfl⟩ := exists_of_isType htype
            obtain ⟨b', rfl⟩ := exists_of_isType (hkind.trans htype)
            rw [hown b level rfl, hown' b' level' rfl]
            exact .types htypes
          · -- the first symbol is that of no type, and so is the second
            refine .others ?_ ?_
            · intro b l heq
              cases heq
              exact htype rfl
            · intro b l heq
              cases heq
              exact htype hkind.symm

/-- Type names that are alike are resolved to types that may stand for each other. -/
theorem lockstep_typeName {type type' : TypeName} (h : type.Matches φ type') :
    ChecksAlike φ φ.types type.resolve type'.resolve := by
  unfold TypeName.resolve
  refine Lockstep.bind (lockstep_lookupType h) fun found found' hfound => ?_
  cases hfound with
  | types htypes => exact Lockstep.pure htypes
  | others hnone hnone' =>
      have hposition : φ.places type.position type'.position := by
        cases h with
        | builtin _ hposition => exact hposition
        | unknown _ hposition => exact hposition
      split
      next t level => exact absurd rfl (hnone t level)
      next => exact lockstep_fail (.undefinedType h) hposition

/-- Variables that are alike and may be declared. -/
structure TypedName.Declared (φ : Likeness) (v v' : TypedName) : Prop where
  alike : v.Matches φ v'
  declares : φ.declares v.name

/-- The types of parameters are resolved in both. -/
theorem lockstep_resolveParameters {params params' : List Parameter}
    (h : List.Forall₂ (Parameter.Matches φ) params params') :
    ChecksAlike φ (List.Forall₂ (TypedName.Declared φ)) (resolveParameters params)
      (resolveParameters params') := by
  induction h with
  | nil => exact Lockstep.pure .nil
  | cons hfirst _ ih =>
      rw [resolveParameters, resolveParameters]
      refine Lockstep.bind (lockstep_typeName hfirst.type) fun t t' htypes => ?_
      refine Lockstep.bind ih fun more more' hmore => ?_
      exact Lockstep.pure (.cons ⟨⟨hfirst.name, htypes⟩, hfirst.declares⟩ hmore)

/-- Parameters are declared in both. -/
theorem lockstep_declareParameters {params params' : List Parameter}
    {formals formals' : List TypedName} (h : List.Forall₂ (Parameter.Matches φ) params params')
    (hformals : List.Forall₂ (TypedName.Declared φ) formals formals') :
    ChecksAlike φ Silent (declareParameters params formals)
      (declareParameters params' formals') := by
  induction h generalizing formals formals' with
  | nil =>
      rw [declareParameters, declareParameters]
      · exact Lockstep.pure trivial
      · exact nofun
      · exact nofun
  | cons hfirst _ ih =>
      cases hformals with
      | nil => exact Lockstep.pure trivial
      | cons hv hmore =>
          rw [declareParameters, declareParameters]
          exact lockstep_seq (lockstep_declare (.var hv.alike) hv.declares hfirst.position)
            (ih hmore)

mutual

/-- **The checks of declarations** that are alike. -/
theorem lockstep_declaration (d : Declaration) {d' : Declaration} (h : d.Matches φ d') :
    ChecksAlike φ Silent d.check d'.check := by
  cases d with
  | var name type position =>
      cases h with
      | var hdeclares htype hposition =>
          rw [Declaration.check, Declaration.check]
          refine Lockstep.bind (lockstep_typeName htype) fun t t' htypes => ?_
          exact lockstep_declare (.var ⟨rfl, htypes⟩) hdeclares hposition
  | procedure name params declarations body position =>
      cases h with
      | procedure hdeclares hparams hdeclarations hbody hposition =>
          rw [Declaration.check, Declaration.check]
          refine Lockstep.bind (lockstep_resolveParameters hparams)
            fun formals formals' hformals => ?_
          refine Lockstep.bind (lockstep_currentLevel φ) fun level level' hlevel => ?_
          obtain rfl : level = level' := hlevel
          refine lockstep_seq (lockstep_declare (.procedure ⟨rfl, ?_, rfl,
            ⟨hdeclarations, hbody⟩⟩) hdeclares hposition) (lockstep_inScope ?_ _ _)
          · exact hformals.imp fun v v' hv => hv.alike
          · exact lockstep_seq (lockstep_declareParameters hparams hformals)
              (lockstep_seq (lockstep_declarations declarations hdeclarations)
                (lockstep_statements body hbody))

/-- The checks of declarations in turn. -/
theorem lockstep_declarations (ds : List Declaration) {ds' : List Declaration}
    (h : List.Forall₂ (Declaration.Matches φ) ds ds') :
    ChecksAlike φ Silent (Declaration.checkAll ds) (Declaration.checkAll ds') := by
  cases ds with
  | nil =>
      cases h with
      | nil =>
          rw [Declaration.checkAll]
          exact Lockstep.pure trivial
  | cons first rest =>
      cases h with
      | cons hfirst hrest =>
          rw [Declaration.checkAll, Declaration.checkAll]
          exact lockstep_seq (lockstep_declaration first hfirst)
            (lockstep_declarations rest hrest)

end

/-! ## Programs -/

/-- Analyses that are alike: they know the same levels, and procedures that are alike. -/
structure Analysis.Matches (φ : Likeness) (a a' : Analysis) : Prop where
  levels : ∀ id, a'.declaredLevel? id = a.declaredLevel? id
  procedures : ∀ id, Option.Rel (Procedure.Matches φ) (a.procedure? id) (a'.procedure? id)

/-- Entries that are alike are found under the same numbers. -/
theorem rel_lookup {β β' : Type} {R : β → β' → Prop} {entries : List (NodeId × β)}
    {entries' : List (NodeId × β')}
    (h : List.Forall₂ (fun entry entry' => entry'.1 = entry.1 ∧ R entry.2 entry'.2) entries
      entries') (id : NodeId) : Option.Rel R (entries.lookup id) (entries'.lookup id) := by
  induction h with
  | nil => exact .none
  | @cons entry entry' _ _ hentry _ ih =>
      obtain ⟨key, x⟩ := entry
      obtain ⟨key', x'⟩ := entry'
      obtain ⟨hkey, hx⟩ := hentry
      obtain rfl : key' = key := hkey
      rw [List.lookup_cons, List.lookup_cons]
      cases id == key' with
      | true => exact .some hx
      | false => exact ih

/-- **The analyses of programs that are alike**: both fail with errors that are alike, or both
succeed and are alike. -/
theorem analyze_matches {tree tree' : Program} (h : tree.Matches φ tree') :
    AnswersAlike (ScopeError.Matches φ) (Analysis.Matches φ) (analyze tree) (analyze tree') := by
  have hstart : Checker.start.Matches φ .start :=
    ⟨.cons (Scope.matches_global φ) .nil, rfl, .nil⟩
  have hcheck : ChecksAlike φ Silent tree.block.check tree'.block.check :=
    lockstep_seq (lockstep_declarations _ h.block.declarations)
      (lockstep_statements _ h.block.body)
  have hends := hcheck _ _ hstart
  unfold analyze Program.check
  generalize tree.block.check .start = result at hends ⊢
  generalize tree'.block.check .start = result' at hends ⊢
  cases hends with
  | error herror _ => exact .error herror
  | ok _ hstate =>
      refine .ok ⟨fun id => ?_, fun id => rel_lookup hstate.calls id⟩
      show List.lookup id _ = List.lookup id _
      rw [hstate.occurrences]

end MiniPascal
