/-
# Builtin types are kept

No program that is read from a source text hides a builtin type.  At every checkpoint of its
check the outermost scope binds the names of the builtin types to them, and no scope inside
of it binds them at all, because what is declared has other names.  So every type name means
its type, and a name that is misused never stands for a type.

* `Intact.visible` : the name of a builtin type means this type;
* `Chore.endsIntact` : what a chore does to the scopes, and how it may fail;
* `Checkpoint.plain_step` : every step of a check keeps the builtin types;
* `builtinTypes_kept` : the checks of source texts.
-/
import MiniPascal.Proofs.Grammar.Names
import MiniPascal.Proofs.Likeness.Checks
import MiniPascal.Proofs.Scoping.Checkpoints

set_option autoImplicit false

namespace MiniPascal

open Check

/-! ## Scopes that keep the builtin types -/

/-- A chain of scopes, the innermost first, whose outermost scope is the global one and binds
the names of the builtin types to them, and whose other scopes do not bind these names. -/
def KeepsTypes (chain : List Scope) : Prop :=
  ∃ inner outermost, chain = inner ++ [outermost] ∧ outermost.level = globalLevel ∧
    (∀ scope ∈ inner, ∀ t : BuiltinType, scope.lookup t.name = none) ∧
    ∀ t : BuiltinType, outermost.lookup t.name = some (.type t)

/-- A chain that keeps the builtin types, and has all symbols under their own names. -/
structure Intact (chain : List Scope) : Prop where
  types : KeepsTypes chain
  proper : ∀ scope ∈ chain, scope.Proper

namespace Intact

variable {scope grown : Scope} {chain : List Scope}

theorem start : Intact Checker.start.chain := by
  have htype : ∀ t : BuiltinType, Scope.global.lookup t.name = some (.type t) := fun t =>
    (Scope.lookup_global t.name (.type t)).2 ⟨t, rfl, rfl⟩
  refine ⟨⟨[], .global, rfl, rfl, nofun, htype⟩, fun scope hscope => ?_⟩
  rw [List.mem_singleton.1 hscope]
  exact Scope.proper_global

/-- A new scope hides no type. -/
theorem enter (h : Intact chain) (name : String) (level : Nat) (enclosing : Option String) :
    Intact (Scope.new name level enclosing :: chain) := by
  obtain ⟨⟨inner, outermost, rfl, hlevel, hinner, houtermost⟩, hproper⟩ := h
  constructor
  · refine ⟨_ :: inner, outermost, rfl, hlevel, ?_, houtermost⟩
    intro scope hscope t
    rcases List.mem_cons.1 hscope with rfl | hscope
    · rfl
    · exact hinner scope hscope t
  · intro scope hscope
    rcases List.mem_cons.1 hscope with rfl | hscope
    · exact nofun
    · exact hproper scope hscope

/-- **A declared symbol** hides no type unless it has the name of one. -/
theorem insert (h : Intact (scope :: chain)) {symbol : Symbol}
    (hsymbol : ∀ t : BuiltinType, symbol.name ≠ t.name)
    (hgrown : scope.insert? symbol = some grown) : Intact (grown :: chain) := by
  obtain ⟨⟨inner, outermost, heq, hlevel, hinner, houtermost⟩, hproper⟩ := h
  have hsame : ∀ t : BuiltinType, grown.lookup t.name = scope.lookup t.name := by
    intro t
    rw [Scope.lookup_insert hgrown, if_neg (hsymbol t).symm]
  constructor
  · cases inner with
    | nil =>
        cases heq
        exact ⟨[], grown, rfl, (Scope.level_insert hgrown).trans hlevel, nofun,
          fun t => (hsame t).trans (houtermost t)⟩
    | cons first rest =>
        cases heq
        refine ⟨grown :: rest, outermost, rfl, hlevel, ?_, houtermost⟩
        intro other hother t
        rcases List.mem_cons.1 hother with rfl | hother
        · exact (hsame t).trans (hinner scope List.mem_cons_self t)
        · exact hinner other (List.mem_cons_of_mem _ hother) t
  · intro other hother
    rcases List.mem_cons.1 hother with rfl | hother
    · exact (hproper scope List.mem_cons_self).insert hgrown
    · exact hproper other (List.mem_cons_of_mem _ hother)

/-- A scope that is closed was not the one with the types. -/
theorem leave {c : Checker} (h : Intact c.chain) : Intact c.leave.chain := by
  obtain ⟨⟨inner, outermost, heq, hlevel, hinner, houtermost⟩, hproper⟩ := h
  unfold Checker.leave
  cases houter : c.outer with
  | nil => exact ⟨⟨inner, outermost, heq, hlevel, hinner, houtermost⟩, hproper⟩
  | cons parent rest =>
      show Intact (parent :: rest)
      rw [Checker.chain, houter] at heq hproper
      constructor
      · cases inner with
        | nil => cases heq
        | cons first others =>
            obtain ⟨-, hchain⟩ := List.cons.inj heq
            exact ⟨others, outermost, hchain, hlevel,
              fun scope hscope => hinner scope (List.mem_cons_of_mem _ hscope), houtermost⟩
      · exact fun scope hscope => hproper scope (List.mem_cons_of_mem _ hscope)

/-- **The name of a builtin type** means this type. -/
theorem visible (h : Intact chain) (t : BuiltinType) :
    ∃ level, visible? t.name chain = some (.type t, level) := by
  obtain ⟨inner, outermost, rfl, -, hinner, houtermost⟩ := h.types
  have hskipped : visible? t.name inner = none := by
    refine List.findSome?_eq_none_iff.2 fun scope hscope => ?_
    rw [hinner scope hscope t, Option.map_none]
  refine ⟨outermost.level, ?_⟩
  show List.findSome? _ (inner ++ [outermost]) = _
  rw [List.findSome?_append, show List.findSome? _ inner = none from hskipped, Option.none_or,
    List.findSome?_singleton, houtermost t, Option.map_some]

/-- Only the name of a builtin type means a type. -/
theorem name_of_type (h : Intact chain) {name : String} {t : BuiltinType} {level : Nat}
    (hname : visible? name chain = some (.type t, level)) : name = t.name :=
  (name_of_visible? h.proper hname).symm

end Intact

/-! ## Faults without types -/

/-- A fault that no type has a part in: a name that is no variable is that of a procedure, and
one that is no procedure is that of a variable. -/
def ScopeFault.SparesTypes (chain : List Scope) : ScopeFault → Prop
  | .undefinedType _ => False
  | .notAVariable name => ∃ p level, visible? name chain = some (.procedure p, level)
  | .notAProcedure name => ∃ v level, visible? name chain = some (.var v, level)
  | _ => True

/-- An answer of a check that started with an intact chain: the chain that it ends with is
intact too, its value has a property, and a fault spares the types. -/
def EndsIntact {α : Type} (chain : List Scope) (post : α → Prop) :
    EStateM.Result ScopeError Checker α → Prop
  | .ok x c => Intact c.chain ∧ post x
  | .error e c => Intact c.chain ∧ e.value.SparesTypes chain

section EndsIntact

variable {α β : Type} {chain : List Scope} {c : Checker}

/-- A check that goes on where another one ends without a fault. -/
theorem EndsIntact.bind {m : Check α} {f : α → Check β} {mid : α → Prop} {post : β → Prop}
    (hm : EndsIntact chain mid (m c))
    (hf : ∀ x d, Intact d.chain → mid x → EndsIntact chain post (f x d)) :
    EndsIntact chain post ((m >>= f) c) := by
  show EndsIntact chain post (EStateM.bind m f c)
  unfold EStateM.bind
  cases hanswer : m c with
  | ok x d =>
      rw [hanswer] at hm
      exact hf x d hm.1 hm.2
  | error e d =>
      rw [hanswer] at hm
      exact hm

theorem endsIntact_pure {post : α → Prop} {x : α} (hc : Intact c.chain) (hx : post x) :
    EndsIntact chain post ((pure x : Check α) c) := ⟨hc, hx⟩

theorem endsIntact_fail {post : α → Prop} {fault : ScopeFault} {position : Position}
    (hc : Intact c.chain) (hfault : fault.SparesTypes chain) :
    EndsIntact chain post ((fail fault position : Check α) c) := ⟨hc, hfault⟩

theorem endsIntact_lookup {name : String} {f : Option (Symbol × Nat) → Check α}
    {post : α → Prop} (hc : Intact c.chain)
    (hf : ∀ d, Intact d.chain → EndsIntact chain post (f (visible? name c.chain) d)) :
    EndsIntact chain post ((do f (← lookup name)) c) :=
  hf (c.report _) hc

/-! ## Statements -/

/-- **An occurrence of a variable** that is not named like a type. -/
theorem Variable.endsIntact {v : Variable} (hc : Intact c.chain)
    (hv : ∀ t : BuiltinType, v.name ≠ t.name) :
    EndsIntact c.chain (fun _ => True) (v.check c) := by
  unfold Variable.check
  refine endsIntact_lookup hc fun d hd => ?_
  cases hfound : visible? v.name c.chain with
  | none => exact endsIntact_fail hd trivial
  | some found =>
      obtain ⟨symbol, level⟩ := found
      cases symbol with
      | type t => exact absurd (hc.name_of_type hfound) (hv t)
      | var _ => exact ⟨hd, trivial⟩
      | procedure p => exact endsIntact_fail hd ⟨p, level, hfound⟩

/-- **A call** of what is not named like a type. -/
theorem Call.endsIntact {call : Call} (hc : Intact c.chain)
    (hcall : ∀ t : BuiltinType, call.name ≠ t.name) :
    EndsIntact c.chain (fun _ => True) (call.resolve c) := by
  unfold Call.resolve
  refine endsIntact_lookup hc fun d hd => ?_
  cases hfound : visible? call.name c.chain with
  | none => exact endsIntact_fail hd trivial
  | some found =>
      obtain ⟨symbol, level⟩ := found
      cases symbol with
      | type t => exact absurd (hc.name_of_type hfound) (hcall t)
      | var v => exact endsIntact_fail hd ⟨v, level, hfound⟩
      | procedure p =>
          by_cases hcount : p.params.length = call.arguments.length
          · simp only [if_pos hcount]
            exact ⟨hd, trivial⟩
          · simp only [if_neg hcount]
            exact endsIntact_fail hd trivial

/-- What a duty in a statement checks. -/
theorem Duty.endsIntact {duty : Duty} (hc : Intact c.chain) (hduty : duty.Plain) :
    EndsIntact c.chain (fun _ => True) (duty.check c) := by
  cases duty with
  | fresh name position => exact ⟨hc, trivial⟩
  | typed type => exact ⟨hc, trivial⟩
  | occurrence v => exact v.endsIntact hc hduty
  | call call => exact call.endsIntact hc hduty

/-! ## Declarations -/

/-- **A type name** means its type. -/
theorem TypeName.endsIntact {type : TypeName} (hc : Intact c.chain) (htype : type.Named) :
    EndsIntact chain (fun _ => True) (type.resolve c) := by
  obtain ⟨t, ht⟩ := htype
  obtain ⟨level, hlevel⟩ := hc.visible t
  unfold TypeName.resolve
  refine endsIntact_lookup hc fun d hd => ?_
  rw [ht, hlevel]
  exact endsIntact_pure hd trivial

/-- Resolved parameters have the names of parameters. -/
theorem endsIntact_resolveParameters {params : List Parameter} (hc : Intact c.chain)
    (hparams : ∀ p ∈ params, p.type.Named) :
    EndsIntact chain (fun formals => ∀ v ∈ formals, ∃ p ∈ params, v.name = p.name)
      (resolveParameters params c) := by
  induction params generalizing c with
  | nil => exact endsIntact_pure hc nofun
  | cons first rest ih =>
      unfold resolveParameters
      refine (first.type.endsIntact hc (hparams first List.mem_cons_self)).bind fun t d hd _ => ?_
      refine (ih hd fun p hp => hparams p (List.mem_cons_of_mem _ hp)).bind
        fun more d hd hmore => endsIntact_pure hd ?_
      intro v hv
      rcases List.mem_cons.1 hv with rfl | hv
      · exact ⟨first, List.mem_cons_self, rfl⟩
      · obtain ⟨p, hp, hname⟩ := hmore v hv
        exact ⟨p, List.mem_cons_of_mem _ hp, hname⟩

/-- **A declaration** of what is not named like a type. -/
theorem endsIntact_declare {symbol : Symbol} {position : Position} (hc : Intact c.chain)
    (hsymbol : ∀ t : BuiltinType, symbol.name ≠ t.name) :
    EndsIntact chain (fun _ => True) (declare symbol position c) := by
  unfold declare
  cases hgrown : c.current.insert? symbol with
  | none =>
      simp only [Checker.report, hgrown]
      exact ⟨hc, trivial⟩
  | some grown =>
      simp only [Checker.report, hgrown]
      exact ⟨Intact.insert hc hsymbol hgrown, trivial⟩

end EndsIntact

/-! ## Chores -/

/-- A chore that names builtin types where types are asked for, and nowhere else. -/
def Chore.Plain : Chore → Prop
  | .use duty => duty.Plain
  | .declaration d => ∀ duty ∈ d.duties, duty.Plain
  | .declare symbol _ => ∀ t : BuiltinType, symbol.name ≠ t.name
  | .enter d formals => (∀ v ∈ formals, ∀ t : BuiltinType, v.name ≠ t.name) ∧
      ∀ duty ∈ d.block.duties, duty.Plain
  | .leave => True

/-- The chores of a block are as plain as its duties. -/
theorem Block.plain_chores {b : Block} (hb : ∀ duty ∈ b.duties, duty.Plain) :
    ∀ chore ∈ b.chores, chore.Plain := by
  intro chore hchore
  rcases List.mem_append.1 hchore with hchore | hchore
  · obtain ⟨d, hd, rfl⟩ := List.mem_map.1 hchore
    intro duty hduty
    apply hb duty
    apply List.mem_append_left
    rw [Declaration.dutiesAll_eq_flatMap]
    exact List.mem_flatMap.2 ⟨d, hd, hduty⟩
  · obtain ⟨duty, hduty, rfl⟩ := List.mem_map.1 hchore
    exact hb duty (List.mem_append_right _ hduty)

/-- Parameters are declared under their own names. -/
theorem Parameter.plain_chores {params : List Parameter} {formals : List TypedName}
    (hformals : ∀ v ∈ formals, ∀ t : BuiltinType, v.name ≠ t.name) :
    ∀ chore ∈ Parameter.chores params formals, chore.Plain := by
  induction params generalizing formals with
  | nil => exact nofun
  | cons first rest ih =>
      cases formals with
      | nil => exact nofun
      | cons v more =>
          intro chore hchore
          rcases List.mem_cons.1 hchore with rfl | hchore
          · exact hformals v List.mem_cons_self
          · exact ih (fun w hw => hformals w (List.mem_cons_of_mem _ hw)) chore hchore

/-- A plain procedure: its parameter types, its name, its parameters and its block. -/
theorem plain_procedure {name : String} {params : List Parameter}
    {declarations : List Declaration} {body : List Statement} {position : Position}
    (h : (Chore.declaration (.procedure name params declarations body position)).Plain) :
    (∀ p ∈ params, p.type.Named) ∧ (∀ t : BuiltinType, name ≠ t.name) ∧
      (∀ p ∈ params, ∀ t : BuiltinType, p.name ≠ t.name) ∧
      ∀ duty ∈ (Block.mk declarations body).duties, duty.Plain := by
  have hduties : ∀ duty ∈ (Declaration.procedure name params declarations body position).duties,
      duty.Plain := h
  rw [Declaration.duties] at hduties
  simp only [List.mem_append, or_imp, forall_and, List.mem_map, List.mem_singleton,
    forall_exists_index, and_imp, forall_apply_eq_imp_iff₂, forall_eq] at hduties
  obtain ⟨⟨⟨⟨htypes, hname⟩, hparams⟩, hdeclarations⟩, hbody⟩ := hduties
  refine ⟨htypes, hname, hparams, fun duty hduty => ?_⟩
  rcases List.mem_append.1 hduty with hduty | hduty
  · exact hdeclarations duty hduty
  · exact hbody duty hduty

/-- The first chore of a declaration leaves the declaration of its name, and the block of a
procedure. -/
theorem Declaration.endsIntact {d : Declaration} {c : Checker} (hc : Intact c.chain)
    (hd : (Chore.declaration d).Plain) :
    EndsIntact c.chain (fun more => ∀ chore ∈ more, Chore.Plain chore)
      ((Chore.declaration d).check c) := by
  cases d with
  | var name type position =>
      have htype : type.Named := hd (.typed type) List.mem_cons_self
      have hname : ∀ t : BuiltinType, name ≠ t.name :=
        hd (.fresh name position) (List.mem_cons_of_mem _ List.mem_cons_self)
      refine (type.endsIntact hc htype).bind fun t c hc _ => endsIntact_pure hc ?_
      intro chore hchore
      rw [List.mem_singleton.1 hchore]
      exact hname
  | procedure name params declarations body position =>
      obtain ⟨htypes, hname, hparams, hblock⟩ := plain_procedure hd
      have hheading : EndsIntact c.chain
          (fun heading => ∀ v ∈ heading.1, ∀ t : BuiltinType, v.name ≠ t.name)
          (resolveHeading params c) := by
        refine (endsIntact_resolveParameters hc htypes).bind fun formals c hc hformals => ?_
        refine ⟨hc, fun v hv t => ?_⟩
        obtain ⟨p, hp, heq⟩ := hformals v hv
        rw [heq]
        exact hparams p hp t
      refine hheading.bind fun heading c hc hformals => endsIntact_pure hc ?_
      intro chore hchore
      rcases List.mem_cons.1 hchore with rfl | hchore
      · exact hname
      · rw [List.mem_singleton.1 hchore]
        exact ⟨hformals, hblock⟩

/-- **What a plain chore does**: the builtin types are kept, it leaves plain chores, and if it
fails, then not because of a type. -/
theorem Chore.endsIntact {chore : Chore} {c : Checker} (hc : Intact c.chain)
    (hchore : chore.Plain) :
    EndsIntact c.chain (fun more => ∀ chore ∈ more, Chore.Plain chore) (chore.check c) := by
  cases chore with
  | use duty => exact (duty.endsIntact hc hchore).bind fun _ c hc _ => endsIntact_pure hc nofun
  | declaration d => exact d.endsIntact hc hchore
  | declare symbol position =>
      exact (endsIntact_declare hc hchore).bind fun _ c hc _ => endsIntact_pure hc nofun
  | enter d formals =>
      obtain ⟨hformals, hblock⟩ := hchore
      refine ⟨hc.enter d.name _ _, fun chore hchore => ?_⟩
      rcases List.mem_append.1 hchore with hchore | hchore
      · exact Parameter.plain_chores hformals chore hchore
      rcases List.mem_append.1 hchore with hchore | hchore
      · exact Block.plain_chores hblock chore hchore
      · rw [List.mem_singleton.1 hchore]
        trivial
  | leave => exact ⟨hc.leave, nofun⟩

/-! ## Checkpoints -/

/-- A checkpoint with an intact chain of scopes and plain chores. -/
structure Checkpoint.Plain (p : Checkpoint) : Prop where
  chain : Intact p.checker.chain
  chores : ∀ chore ∈ p.chores, chore.Plain

namespace Checkpoint

variable {p q : Checkpoint}

/-- What the next chore of a plain checkpoint does. -/
theorem Plain.endsIntact (h : p.Plain) {chore : Chore} {rest : List Chore}
    (hchores : p.chores = chore :: rest) :
    EndsIntact p.checker.chain (fun more => ∀ chore ∈ more, Chore.Plain chore)
      (chore.check p.checker) := by
  apply Chore.endsIntact h.chain
  apply h.chores
  rw [hchores]
  exact List.mem_cons_self

theorem Plain.rest (h : p.Plain) {first : Chore} {rest : List Chore}
    (hchores : p.chores = first :: rest) : ∀ chore ∈ rest, chore.Plain := by
  intro chore hchore
  apply h.chores
  rw [hchores]
  exact List.mem_cons_of_mem _ hchore

/-- **Every step** of a check keeps the builtin types. -/
theorem plain_step (h : p.Plain) (hstep : p.Step q) : q.Plain := by
  cases hstep with
  | perform _ hchores hcheck =>
      have hends := h.endsIntact hchores
      rw [hcheck] at hends
      obtain ⟨hchain, hmore⟩ := hends
      refine ⟨hchain, fun chore hchore => ?_⟩
      rcases List.mem_append.1 hchore with hchore | hchore
      · exact hmore chore hchore
      · exact h.rest hchores chore hchore
  | fail _ hchores hcheck =>
      have hends := h.endsIntact hchores
      rw [hcheck] at hends
      exact ⟨hends.1, h.rest hchores⟩
  | leave _ hchores => exact ⟨h.chain.leave, h.rest hchores⟩
  | skip _ hchores _ => exact ⟨h.chain, h.rest hchores⟩

/-- The fault of a chore that fails spares the types. -/
theorem Plain.sparesTypes (h : p.Plain) {e : ScopeError} (hfails : p.Fails e) :
    e.value.SparesTypes p.checker.chain := by
  obtain ⟨-, chore, rest, c, hchores, hcheck⟩ := hfails
  have hends := h.endsIntact hchores
  rw [hcheck] at hends
  exact hends.2

/-- All checkpoints of a tree that was read are plain. -/
theorem plain_of_proceeds {source : String} {tree : Program} (h : parse source = .ok tree)
    (hp : Proceeds (.start tree) p) : p.Plain := by
  refine hp.preserves (fun p q hp hstep => plain_step hp hstep) ⟨.start, ?_⟩
  exact Block.plain_chores (plain_of_parse h)

end Checkpoint

/-! ## Source texts -/

/-- **Builtin types are kept.**  No identifier of a source text is a reserved word, and all type
names in its tree are those of builtin types.  So at every checkpoint of its check the global
scope binds these names to the builtin types, and no other scope binds them.  If the check ends
with an error, then not because a type is undefined, and at the chore that fails a name that is
no variable stands for a procedure, and one that is no procedure for a variable. -/
theorem builtinTypes_kept {source : String} {tree : Program} (h : parse source = .ok tree) :
    (∀ name p, .ok ⟨.identifier name, p⟩ ∈ tokenize source →
      Keyword.ofWord? name.toList = none) ∧
    (∀ type, .typed type ∈ tree.duties → ∃ t : BuiltinType, type.name = t.name) ∧
    (∀ p, Proceeds (.start tree) p → KeepsTypes p.checker.chain) ∧
    ∀ e, analyze tree = .error e → (∀ name, e.value ≠ .undefinedType name) ∧
      ∃ p, Proceeds (.start tree) p ∧ p.Fails e ∧
        (∀ name, e.value = .notAVariable name →
          ∃ q level, visible? name p.checker.chain = some (.procedure q, level)) ∧
        ∀ name, e.value = .notAProcedure name →
          ∃ v level, visible? name p.checker.chain = some (.var v, level) := by
  refine ⟨fun _ _ => ofWord?_of_mem_tokenize, fun type htype => plain_of_parse h _ htype,
    fun p hp => (Checkpoint.plain_of_proceeds h hp).chain.types, fun e he => ?_⟩
  obtain ⟨p, hp, hfails⟩ := exists_fails_of_analyze he
  have hspares := (Checkpoint.plain_of_proceeds h hp).sparesTypes hfails
  refine ⟨?_, p, hp, hfails, ?_, ?_⟩
  · intro name heq
    rw [heq] at hspares
    exact hspares
  · intro name heq
    rw [heq] at hspares
    exact hspares
  · intro name heq
    rw [heq] at hspares
    exact hspares

/-- A source text in which a procedure is assigned to, inside of another procedure. -/
def misusedSource : String :=
  "PROGRAM P; PROCEDURE Q(a : REAL); VAR b : Integer; PROCEDURE R; BEGIN Q := b END; "
    ++ "BEGIN R() END; BEGIN Q(1) END."

/-- The check of the source text fails where the name of the procedure is no variable. -/
theorem misusedSource_kept : ∃ tree e, parse misusedSource = .ok tree ∧
    analyze tree = .error e ∧ e.value = .notAVariable "Q" ∧
    ∃ p, Proceeds (.start tree) p ∧ p.Fails e ∧ KeepsTypes p.checker.chain ∧
      ∃ q level, visible? "Q" p.checker.chain = some (.procedure q, level) := by
  have hrejected : (match parse misusedSource with
      | .ok tree => match analyze tree with
        | .ok _ => none
        | .error e => some e.value
      | .error _ => none) = some (.notAVariable "Q") := by decide +kernel
  split at hrejected
  next tree htree =>
    split at hrejected
    · cases hrejected
    next e he =>
      obtain ⟨-, -, hkept, herror⟩ := builtinTypes_kept htree
      obtain ⟨-, p, hp, hfails, hprocedure, -⟩ := herror e he
      have hvalue : e.value = .notAVariable "Q" := Option.some.inj hrejected
      exact ⟨tree, e, htree, he, hvalue, p, hp, hfails, hkept p hp, hprocedure "Q" hvalue⟩
  · cases hrejected

end MiniPascal
