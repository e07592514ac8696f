/-
# Static links implement lexical scoping

The interpreter and the reference semantics run in step.  A map from the records of the
stack to storage locations says where the reference keeps what a record binds, and an
environment agrees with a context along the spine of static links: a variable denotes the
location of its record on the spine, and a procedure keeps the environment that agrees
with the context of its declaration along the rest of the spine.

* `Agrees.lookup_var`, `Agrees.lookup_procedure` : what a visible name denotes;
* `opens_declarations` : entering a body allocates what its record binds;
* `simulates_perform` : a call has the same effect on both sides;
* `run_eq_meaning` : the run of a program is its meaning.
-/
import MiniPascal.Proofs.Reference
import MiniPascal.Proofs.Scoping.Enclosure
import MiniPascal.Proofs.Scoping.Resolution
import MiniPascal.Proofs.StaticChain

set_option autoImplicit false

namespace MiniPascal

open Reference

/-! ## Environments and contexts -/

/-- Where the variables of the records are stored, record by record. -/
abbrev Placement := Nat → String → Option Nat

theorem lookup_cons_of_ne {other name : String} {x : Denotation} {env : Environment}
    (h : other ≠ name) : List.lookup name ((other, x) :: env) = env.lookup name := by
  rw [List.lookup_cons, beq_false_of_ne (Ne.symm h)]

/-- An environment agrees with a context along the indices of a spine. -/
inductive Agrees (ψ : Placement) : Context → List Nat → Environment → Prop where
  | initial (i : Nat) : Agrees ψ .initial [i] []
  | var {Γ : Context} {b : Binding} {i l : Nat} {rest : List Nat} {env : Environment}
      (h : Agrees ψ Γ (i :: rest) env) (hb : b.isVariable) (hl : ψ i b.name = some l) :
      Agrees ψ (Γ.declare b) (i :: rest) ((b.name, .location l) :: env)
  | procedure {Γ : Context} {spine : List Nat} {env : Environment}
      (d : ProcedureDeclaration) (h : Agrees ψ Γ spine env) :
      Agrees ψ (Γ.declare (.procedure d)) spine ((d.name, .closure d env) :: env)
  | enter {Γ : Context} {spine : List Nat} {env : Environment} (d : ProcedureDeclaration)
      (i : Nat) (h : Agrees ψ Γ spine env) : Agrees ψ (Γ.enter d) (i :: spine) env

namespace Agrees

variable {ψ χ : Placement} {Γ : Context} {spine : List Nat} {env : Environment}

/-- More places change nothing. -/
theorem mono (h : Agrees ψ Γ spine env)
    (hle : ∀ i name l, ψ i name = some l → χ i name = some l) : Agrees χ Γ spine env := by
  induction h with
  | initial i => exact .initial i
  | var _ hb hl ih => exact .var ih hb (hle _ _ _ hl)
  | procedure d _ ih => exact .procedure d ih
  | enter d i _ ih => exact .enter d i ih

/-- A spine has one record for each level. -/
theorem length_spine (h : Agrees ψ Γ spine env) : spine.length = Γ.level := by
  induction h with
  | initial i => rfl
  | var _ _ _ ih => rw [ih, Context.level_declare]
  | procedure d _ ih => rw [ih, Context.level_declare]
  | enter d i _ ih => exact congrArg (· + 1) ih

/-- A visible name is bound at a level that the spine has. -/
theorem level_le {name : String} {b : Binding} {level : Nat}
    (hbound : Γ.binding? name = some (b, level)) : level ≤ Γ.level := by
  obtain ⟨-, -, -, -, -, -, hle⟩ := Context.since?_of_binding? hbound
  exact hle

/-- **A visible variable** denotes the location of its record on the spine. -/
theorem lookup_var (h : Agrees ψ Γ spine env) {name : String} {b : Binding} {level : Nat}
    (hbound : Γ.binding? name = some (b, level)) (hb : b.isVariable) :
    ∃ i l, spine[Γ.level - level]? = some i ∧ ψ i name = some l ∧
      env.lookup name = some (.location l) := by
  -- the context and the environment grow together, so the induction is on their agreement
  induction h with
  | initial i =>
      obtain ⟨t, rfl⟩ := Context.eq_type_of_binding?_initial hbound
      cases hb
  | @var Λ c i l rest env h hc hl ih =>
      rw [Context.level_declare]
      rw [Context.binding?_declare] at hbound
      by_cases hname : c.name = name
      · rw [if_pos hname] at hbound
        cases hbound
        refine ⟨i, l, ?_, hname ▸ hl, ?_⟩
        · rw [Nat.sub_self]
          rfl
        · rw [hname]
          exact List.lookup_cons_self
      · rw [if_neg hname] at hbound
        obtain ⟨j, k, hj, hk, hlookup⟩ := ih hbound
        refine ⟨j, k, hj, hk, ?_⟩
        exact (lookup_cons_of_ne hname).trans hlookup
  | procedure d _ ih =>
      rw [Context.level_declare]
      rw [Context.binding?_declare] at hbound
      by_cases hname : (Binding.procedure d).name = name
      · rw [if_pos hname] at hbound
        cases hbound
        cases hb
      · rw [if_neg hname] at hbound
        obtain ⟨j, k, hj, hk, hlookup⟩ := ih hbound
        refine ⟨j, k, hj, hk, ?_⟩
        exact (lookup_cons_of_ne hname).trans hlookup
  | @enter Λ spine env d i h ih =>
      rw [Context.binding?_enter] at hbound
      obtain ⟨j, k, hj, hk, hlookup⟩ := ih hbound
      -- outside of the procedure the spine is one record shorter
      have hle := level_le hbound
      refine ⟨j, k, ?_, hk, hlookup⟩
      rw [show (Λ.enter d).level - level = (Λ.level - level) + 1 from Nat.succ_sub hle]
      exact hj

/-- **A visible procedure** keeps the environment that agrees with the context of its
declaration along the rest of the spine. -/
theorem lookup_procedure (h : Agrees ψ Γ spine env) {name : String}
    {d : ProcedureDeclaration} {level : Nat}
    (hbound : Γ.binding? name = some (.procedure d, level)) :
    ∃ Λ home, env.lookup name = some (.closure d home) ∧
      Agrees ψ Λ (spine.drop (Γ.level - level)) home ∧ Λ.level = level ∧
      Γ.since? name = some (Λ.declare (.procedure d)) := by
  induction h with
  | initial i =>
      obtain ⟨t, ht⟩ := Context.eq_type_of_binding?_initial hbound
      cases ht
  | @var Λ c i l rest env h hc hl ih =>
      rw [Context.level_declare, Context.since?_declare]
      rw [Context.binding?_declare] at hbound
      by_cases hname : c.name = name
      · rw [if_pos hname] at hbound
        cases hbound
        cases hc
      · rw [if_neg hname] at hbound ⊢
        obtain ⟨Θ, home, hlookup, hagrees, hlevel, hsince⟩ := ih hbound
        refine ⟨Θ, home, ?_, hagrees, hlevel, hsince⟩
        exact (lookup_cons_of_ne hname).trans hlookup
  | @procedure Λ spine env e h ih =>
      rw [Context.level_declare, Context.since?_declare]
      rw [Context.binding?_declare] at hbound
      by_cases hname : (Binding.procedure e).name = name
      · rw [if_pos hname] at hbound
        cases hbound
        refine ⟨Λ, env, ?_, ?_, rfl, if_pos hname⟩
        · rw [show d.name = name from hname]
          exact List.lookup_cons_self
        · rw [Nat.sub_self]
          exact h
      · rw [if_neg hname] at hbound
        obtain ⟨Θ, home, hlookup, hagrees, hlevel, hsince⟩ := ih hbound
        refine ⟨Θ, home, ?_, hagrees, hlevel, (if_neg hname).trans hsince⟩
        exact (lookup_cons_of_ne hname).trans hlookup
  | @enter Λ spine env e i h ih =>
      rw [Context.binding?_enter] at hbound
      obtain ⟨Θ, home, hlookup, hagrees, hlevel, hsince⟩ := ih hbound
      have hle := level_le hbound
      refine ⟨Θ, home, hlookup, ?_, hlevel, hsince⟩
      rw [show (Λ.enter e).level - level = (Λ.level - level) + 1 from Nat.succ_sub hle]
      exact hagrees

/-- Whatever denotes a location is placed in a record of the spine. -/
theorem placed_of_lookup (h : Agrees ψ Γ spine env) {name : String} {l : Nat}
    (hlookup : env.lookup name = some (.location l)) : ∃ i ∈ spine, ψ i name = some l := by
  induction h with
  | initial i => cases hlookup
  | @var Λ c i k rest env _ _ hl ih =>
      rw [List.lookup_cons] at hlookup
      split at hlookup
      next hname =>
        cases hlookup
        exact ⟨i, List.mem_cons_self, beq_iff_eq.1 hname ▸ hl⟩
      next => exact ih hlookup
  | procedure d _ ih =>
      rw [List.lookup_cons] at hlookup
      split at hlookup
      · cases hlookup
      · exact ih hlookup
  | enter d i _ ih =>
      obtain ⟨j, hj, hl⟩ := ih hlookup
      exact ⟨j, List.mem_cons_of_mem _ hj, hl⟩

end Agrees

/-! ## Stores and stacks -/

/-- **A store that holds what the records bind**: every placed variable has a location of
its own, and a record binds what the locations of its variables hold. -/
structure Stored (ψ : Placement) (s : CallStack) (σ : Store) : Prop where
  reads : ∀ i r, s.get? i = some r → ∀ name, r.get? name = (ψ i name).bind (read σ)
  bounded : ∀ i name l, ψ i name = some l → i < s.size ∧ l < σ.length
  injective : ∀ i j name other l, ψ i name = some l → ψ j other = some l →
    i = j ∧ name = other

/-- One more place. -/
def Placement.place (ψ : Placement) (i : Nat) (name : String) (l : Nat) : Placement :=
  fun j other => if j = i ∧ other = name then some l else ψ j other

theorem Placement.place_of_ne {ψ : Placement} {i j : Nat} {name other : String} (l : Nat)
    (h : ¬(j = i ∧ other = name)) : ψ.place i name l j other = ψ j other := if_neg h

theorem Placement.place_self (ψ : Placement) (i : Nat) (name : String) (l : Nat) :
    ψ.place i name l i name = some l := if_pos ⟨rfl, rfl⟩

theorem Placement.place_of_index_ne {ψ : Placement} {i j : Nat} (name : String) (l : Nat)
    (h : j ≠ i) : ψ.place i name l j = ψ j := by
  funext other
  exact Placement.place_of_ne l fun heq => h heq.1

/-- A place is the new one or an old one. -/
theorem Placement.eq_or_of_place {ψ : Placement} {i j l k : Nat} {name other : String}
    (h : ψ.place i name l j other = some k) :
    (j = i ∧ other = name ∧ k = l) ∨ ψ j other = some k := by
  by_cases hnew : j = i ∧ other = name
  · obtain ⟨rfl, rfl⟩ := hnew
    rw [Placement.place_self] at h
    exact Or.inl ⟨rfl, rfl, (Option.some.inj h).symm⟩
  · rw [Placement.place_of_ne _ hnew] at h
    exact Or.inr h

namespace Stored

variable {ψ χ : Placement} {s t : CallStack} {σ : Store}

/-- Binding a variable and writing its location keep the store and the stack in step. -/
theorem write (h : Stored ψ s σ) {i l : Nat} {name : String} (hl : ψ i name = some l)
    {value : Number} (ht : s.set? i name value = some t) :
    Stored ψ t (σ.set l (some value)) := by
  refine ⟨fun j r hr other => ?_, fun j other k hk => ?_, h.injective⟩
  -- other variables have other locations, so they hold what they held
  · have hold : ∀ r', s.get? j = some r' → (j, other) ≠ (i, name) →
        r'.get? other = (ψ j other).bind (read (σ.set l (some value))) := by
      intro r' hr' hne
      rw [h.reads j r' hr' other]
      cases hk : ψ j other with
      | none => rfl
      | some k =>
          have hkl : k ≠ l := by
            rintro rfl
            obtain ⟨rfl, rfl⟩ := h.injective j i other name k hk hl
            exact hne rfl
          exact (read_set_of_ne hkl value).symm
    rw [CallStack.get?_set ht] at hr
    split at hr
    next hji =>
      subst hji
      obtain ⟨r', hr', rfl⟩ := Option.map_eq_some_iff.1 hr
      rw [ActivationRecord.get?_set]
      by_cases hname : other = name
      · subst hname
        rw [if_pos rfl, hl]
        exact (read_set_self (h.bounded j other l hl).2 value).symm
      · rw [if_neg hname]
        exact hold r' hr' fun heq => hname (Prod.mk.inj heq).2
    next hji => exact hold r hr fun heq => hji (Prod.mk.inj heq).1
  · rw [CallStack.size_set ht, List.length_set]
    exact h.bounded j other k hk

/-- A new record that binds nothing needs no locations. -/
theorem push (h : Stored ψ s σ) {r : ActivationRecord} (hr : ∀ name, r.get? name = none) :
    Stored ψ (s.push r) σ := by
  refine ⟨fun i r' hr' name => ?_, fun i name l hl => ?_, h.injective⟩
  · rw [CallStack.get?_push] at hr'
    split at hr'
    next htop =>
      cases hr'
      have hnone : ψ i name = none := by
        cases hl : ψ i name with
        | none => rfl
        | some l => exact absurd htop (Nat.ne_of_lt (h.bounded i name l hl).1)
      rw [hr, hnone]
      rfl
    next => exact h.reads i r' hr' name
  · obtain ⟨hi, hlt⟩ := h.bounded i name l hl
    exact ⟨Nat.lt_succ_of_lt hi, hlt⟩

/-- **A fresh location** for one more name of the top record. -/
theorem place {r r' : ActivationRecord} (h : Stored ψ (s.push r) σ) {name : String}
    (hfree : ψ s.size name = none) (content : Option Number)
    (hr' : ∀ other, r'.get? other = if other = name then content else r.get? other) :
    Stored (ψ.place s.size name σ.length) (s.push r') (σ ++ [content]) := by
  -- the old locations lie below the fresh one
  have hold : ∀ i other l, ψ i other = some l → l ≠ σ.length := fun i other l hl =>
    Nat.ne_of_lt (h.bounded i other l hl).2
  have hread : ∀ i other,
      (ψ i other).bind (read (σ ++ [content])) = (ψ i other).bind (read σ) := by
    intro i other
    cases hl : ψ i other with
    | none => rfl
    | some l => exact read_append (h.bounded i other l hl).2 _
  refine ⟨fun i q hq other => ?_, fun i other l hl => ?_, fun i j x y l hx hy => ?_⟩
  · rw [CallStack.get?_push] at hq
    by_cases hnew : i = s.size ∧ other = name
    · obtain ⟨rfl, rfl⟩ := hnew
      rw [if_pos rfl] at hq
      cases hq
      rw [hr', if_pos rfl, Placement.place_self]
      exact (read_append_self σ content).symm
    · rw [Placement.place_of_ne _ hnew, hread]
      split at hq
      next htop =>
        cases hq
        have hother : other ≠ name := fun heq => hnew ⟨htop, heq⟩
        rw [hr', if_neg hother]
        exact h.reads i r (by rw [CallStack.get?_push, if_pos htop]) other
      next htop =>
        exact h.reads i q (by rw [CallStack.get?_push, if_neg htop]; exact hq) other
  · rw [List.length_append]
    rcases Placement.eq_or_of_place hl with ⟨rfl, rfl, rfl⟩ | hl
    · exact ⟨Nat.lt_succ_self _, Nat.lt_succ_self _⟩
    · obtain ⟨hi, hlt⟩ := h.bounded i other l hl
      exact ⟨hi, Nat.lt_succ_of_lt hlt⟩
  -- the new location is fresh, so it is shared with no old place
  · rcases Placement.eq_or_of_place hx with ⟨rfl, rfl, rfl⟩ | hxold
    · rcases Placement.eq_or_of_place hy with ⟨rfl, rfl, -⟩ | hyold
      · exact ⟨rfl, rfl⟩
      · exact absurd rfl (hold j y _ hyold)
    · rcases Placement.eq_or_of_place hy with ⟨-, -, rfl⟩ | hyold
      · exact absurd rfl (hold i x _ hxold)
      · exact h.injective i j x y l hxold hyold

/-- **The locations of a record** are given up together with it. -/
theorem pop {r : ActivationRecord} (h : Stored χ (s.push r) σ)
    (hsame : ∀ i, i < s.size → χ i = ψ i) (hbelow : ∀ i name l, ψ i name = some l → i < s.size) :
    Stored ψ s σ := by
  have hlarger : ∀ i name l, ψ i name = some l → χ i name = some l := fun i name l hl => by
    rw [hsame i (hbelow i name l hl)]
    exact hl
  refine ⟨fun i q hq name => ?_, fun i name l hl => ?_, fun i j x y l hx hy => ?_⟩
  · have hi : i < s.size := by
      refine Nat.lt_of_not_le fun hle => ?_
      rw [CallStack.get?_eq_none_iff.2 hle] at hq
      cases hq
    rw [← hsame i hi]
    exact h.reads i q (by rw [CallStack.get?_push, if_neg (Nat.ne_of_lt hi)]; exact hq) name
  · exact ⟨hbelow i name l hl, (h.bounded i name l (hlarger i name l hl)).2⟩
  · exact h.injective i j x y l (hlarger i x l hx) (hlarger j y l hy)

end Stored

/-! ## Entering a body -/

/-- A body that is being entered: the names that are declared in it so far have their
locations, and its record `r`, on top of the others, binds what they hold. -/
structure Opens (s : CallStack) (rest : List Nat) (r : ActivationRecord) (ψ : Placement)
    (Γ : Context) (env : Environment) (σ : Store) : Prop where
  agrees : Agrees ψ Γ (s.size :: rest) env
  stored : Stored ψ (s.push r) σ
  placed : ∀ name l, ψ s.size name = some l →
    (∃ b ∈ Γ.bindings, b.name = name) ∧ env.lookup name = some (.location l)

namespace Opens

variable {s : CallStack} {rest : List Nat} {r r' : ActivationRecord} {ψ : Placement}
  {Γ : Context} {env : Environment} {σ : Store}

/-- A name that is not declared yet has no place. -/
theorem place_eq_none (h : Opens s rest r ψ Γ env σ) {name : String}
    (hfresh : ∀ b ∈ Γ.bindings, b.name ≠ name) : ψ s.size name = none := by
  cases hl : ψ s.size name with
  | none => rfl
  | some l =>
      obtain ⟨⟨b, hb, hname⟩, -⟩ := h.placed name l hl
      exact absurd hname (hfresh b hb)

/-- **A variable** gets a fresh location with its content. -/
theorem var (h : Opens s rest r ψ Γ env σ) {b : Binding} (hb : b.isVariable)
    (hfresh : ∀ c ∈ Γ.bindings, c.name ≠ b.name) (content : Option Number)
    (hr' : ∀ other, r'.get? other = if other = b.name then content else r.get? other) :
    Opens s rest r' (ψ.place s.size b.name σ.length) (Γ.declare b)
      ((b.name, .location σ.length) :: env) (σ ++ [content]) := by
  have hfree := h.place_eq_none hfresh
  refine ⟨?_, h.stored.place hfree content hr', fun name l hl => ?_⟩
  · refine .var (h.agrees.mono fun i name l hl => ?_) hb (Placement.place_self ψ _ _ _)
    refine (Placement.place_of_ne _ ?_).trans hl
    rintro ⟨rfl, rfl⟩
    rw [hfree] at hl
    cases hl
  · rw [Context.bindings_declare]
    rcases Placement.eq_or_of_place hl with ⟨-, rfl, rfl⟩ | hl
    · exact ⟨⟨b, List.mem_cons_self, rfl⟩, List.lookup_cons_self⟩
    · obtain ⟨⟨c, hc, hcname⟩, hlookup⟩ := h.placed name l hl
      have hname : b.name ≠ name := fun heq => hfresh c hc (hcname.trans heq.symm)
      exact ⟨⟨c, List.mem_cons_of_mem _ hc, hcname⟩, (lookup_cons_of_ne hname).trans hlookup⟩

/-- **A procedure** keeps the environment so far. -/
theorem procedure (h : Opens s rest r ψ Γ env σ) {d : ProcedureDeclaration}
    (hfresh : ∀ c ∈ Γ.bindings, c.name ≠ d.name) :
    Opens s rest r ψ (Γ.declare (.procedure d)) ((d.name, .closure d env) :: env) σ := by
  refine ⟨.procedure d h.agrees, h.stored, fun name l hl => ?_⟩
  obtain ⟨⟨c, hc, hcname⟩, hlookup⟩ := h.placed name l hl
  have hname : d.name ≠ name := fun heq => hfresh c hc (hcname.trans heq.symm)
  rw [Context.bindings_declare]
  exact ⟨⟨c, List.mem_cons_of_mem _ hc, hcname⟩, (lookup_cons_of_ne hname).trans hlookup⟩

end Opens

/-- **The declarations of a block** get locations for the variables among them. -/
theorem opens_declarations {s : CallStack} {rest : List Nat} {r : ActivationRecord}
    {ψ : Placement} {Γ : Context} {env : Environment} {σ : Store} {ds : List Declaration}
    (h : Opens s rest r ψ Γ env σ) (hobeys : ∀ site ∈ Declaration.sitesAll Γ ds, site.Obeys) :
    ∃ χ, (∀ i, i ≠ s.size → χ i = ψ i) ∧
      Opens s rest r χ (Γ.declareAll (ds.map Declaration.binding))
        (declareAll ds env σ).1 (declareAll ds env σ).2 := by
  induction ds generalizing ψ Γ env σ with
  | nil => exact ⟨ψ, fun _ _ => rfl, h⟩
  | cons first more ih =>
      rw [Declaration.sitesAll] at hobeys
      have hmore : ∀ site ∈ Declaration.sitesAll (Γ.declare first.binding) more, site.Obeys :=
        fun site hsite => hobeys site (List.mem_append_right _ hsite)
      cases first with
      | var name type position =>
          have hfresh : ∀ b ∈ Γ.bindings, b.name ≠ name := by
            refine hobeys ⟨Γ, .fresh name position⟩ (List.mem_append_left _ ?_)
            rw [Declaration.sites]
            exact List.mem_cons_of_mem _ List.mem_cons_self
          -- the record binds no name that has no place yet
          have hunbound : r.get? name = none := by
            have hread := h.stored.reads s.size r (by rw [CallStack.get?_push, if_pos rfl]) name
            rw [h.place_eq_none hfresh] at hread
            exact hread
          have hr : ∀ other, r.get? other = if other = name then none else r.get? other := by
            intro other
            split
            next heq => rw [heq, hunbound]
            next => rfl
          obtain ⟨χ, hχ, hopens⟩ := ih (h.var (b := .var name type) rfl hfresh none hr) hmore
          exact ⟨χ, fun i hi => (hχ i hi).trans (Placement.place_of_index_ne _ _ hi), hopens⟩
      | procedure name params declarations body position =>
          have hfresh : ∀ b ∈ Γ.bindings, b.name ≠ name := by
            refine hobeys ⟨Γ, .fresh name position⟩ (List.mem_append_left _ ?_)
            rw [Declaration.sites]
            simp
          exact ih (h.procedure (d := ⟨name, params, ⟨declarations, body⟩, position⟩) hfresh) hmore

/-- **The parameters of a procedure** get locations with their values, as the record of
the call binds them. -/
theorem opens_parameters {s : CallStack} {rest : List Nat} {r : ActivationRecord}
    {ψ : Placement} {Γ : Context} {env : Environment} {σ : Store} {params : List Parameter}
    {formals : List TypedName} {values : List Number} (h : Opens s rest r ψ Γ env σ)
    (hformals : Parameter.typedAll? params = some formals)
    (hlength : values.length = params.length)
    (hobeys : ∀ site ∈ Γ.parameterSites params, site.Obeys) :
    ∃ χ, (∀ i, i ≠ s.size → χ i = ψ i) ∧
      Opens s rest (r.bindAll formals values) χ (Γ.declareAll (params.map .parameter))
        (bindParameters params values env σ).1 (bindParameters params values env σ).2 := by
  induction params generalizing formals values r ψ Γ env σ with
  | nil =>
      cases hformals
      exact ⟨ψ, fun _ _ => rfl, h⟩
  | cons first more ih =>
      cases values with
      | nil => cases hlength
      | cons value others =>
          simp only [Parameter.typedAll?, bind, Option.bind_eq_some_iff, pure,
            Option.some.injEq] at hformals
          obtain ⟨v, hv, later, hlater, rfl⟩ := hformals
          have hname : v.name = first.name := by
            obtain ⟨t, -, rfl⟩ := Option.map_eq_some_iff.1 hv
            rfl
          have hfresh : ∀ b ∈ Γ.bindings, b.name ≠ first.name :=
            hobeys ⟨Γ, .fresh first.name first.position⟩ List.mem_cons_self
          have hset : ∀ other, (r.set v.name value).get? other
              = if other = first.name then some value else r.get? other := by
            intro other
            rw [ActivationRecord.get?_set, hname]
          obtain ⟨χ, hχ, hopens⟩ := ih (h.var (b := .parameter first) rfl hfresh (some value) hset)
            hlater (Nat.succ.inj hlength)
            fun site hsite => hobeys site (List.mem_cons_of_mem _ hsite)
          exact ⟨χ, fun i hi => (hχ i hi).trans (Placement.place_of_index_ne _ _ hi), hopens⟩

/-! ## Running in step -/

/-- A stack and a store in step, where the static links lead from the top of the stack
along a spine. -/
structure InStep (ψ : Placement) (spine : List Nat) (s : CallStack) (σ : Store) : Prop where
  linked : Spine s spine
  top : ∃ rest, spine = (s.size - 1) :: rest
  stored : Stored ψ s σ

/-- What an execution keeps: the headings of all records, and the places of all
variables. -/
structure Keeps (ψ : Placement) (s t : CallStack) (σ : Store) : Prop where
  size : t.size = s.size
  headings : ∀ i, t.heading? i = s.heading? i
  stored : Stored ψ t σ

/-- Results that are alike: both succeed, or both fail with the same error. -/
inductive Alike (ψ : Placement) (s : CallStack) :
    EStateM.Result RuntimeError Machine Unit → EStateM.Result RuntimeError Store Unit → Prop where
  | ok {d : Machine} {τ : Store} (h : Keeps ψ s d.stack τ) : Alike ψ s (.ok () d) (.ok () τ)
  | error {d : Machine} {τ : Store} (e : RuntimeError) (h : Keeps ψ s d.stack τ) :
      Alike ψ s (.error e d) (.error e τ)

/-- An execution and an effect that have results alike, with a stack and a store in
step. -/
def Simulates (ψ : Placement) (spine : List Nat) (run : Execution Unit)
    (effect : Effect Unit) : Prop :=
  ∀ (m : Machine) (σ : Store), InStep ψ spine m.stack σ → Alike ψ m.stack (run m) (effect σ)

section Simulates

variable {ψ : Placement} {spine : List Nat} {s t : CallStack} {σ τ : Store}
  {run more : Execution Unit} {effect other : Effect Unit}

theorem Keeps.inStep (h : Keeps ψ s t τ) (hs : InStep ψ spine s σ) : InStep ψ spine t τ := by
  refine ⟨hs.linked.congr fun i _ => h.headings i, ?_, h.stored⟩
  rw [h.size]
  exact hs.top

theorem Keeps.trans {u : CallStack} {υ : Store} (h : Keeps ψ s t τ) (hmore : Keeps ψ t u υ) :
    Keeps ψ s u υ :=
  ⟨hmore.size.trans h.size, fun i => (hmore.headings i).trans (h.headings i), hmore.stored⟩

theorem InStep.keeps (h : InStep ψ spine s σ) : Keeps ψ s s σ := ⟨rfl, fun _ => rfl, h.stored⟩

theorem simulates_pure : Simulates ψ spine (pure ()) (pure ()) := fun _ _ h => .ok h.keeps

theorem simulates_fail (fault : RuntimeFault) (position : Position) :
    Simulates ψ spine (Execution.fail fault position) (Reference.fail fault position) :=
  fun _ _ h => .error _ h.keeps

/-- **Doing two things in turn** on both sides. -/
theorem simulates_seq (hrun : Simulates ψ spine run effect)
    (hmore : Simulates ψ spine more other) :
    Simulates ψ spine (do run; more) (do effect; other) := by
  intro m σ h
  have hfirst := hrun m σ h
  show Alike ψ m.stack (EStateM.bind run (fun _ => more) m)
    (EStateM.bind effect (fun _ => other) σ)
  unfold EStateM.bind
  generalize run m = x at hfirst
  generalize effect σ = y at hfirst
  cases hfirst with
  | error e hkeeps => exact .error e hkeeps
  | @ok d τ hkeeps =>
      -- the second part starts where the first one ends
      have hsecond := hmore d τ (hkeeps.inStep h)
      simp only
      generalize more d = x at hsecond
      generalize other τ = y at hsecond
      cases hsecond with
      | error e hlast => exact .error e (hkeeps.trans hlast)
      | ok hlast => exact .ok (hkeeps.trans hlast)

end Simulates

/-! ## Expressions and assignments -/

/-- A variable whose innermost visible binding is known to an analysis. -/
def Known (a : Analysis) (Γ : Context) (v : Variable) : Prop :=
  ∃ b level, Γ.binding? v.name = some (b, level) ∧ b.isVariable ∧
    a.declaredLevel? v.id = some level

section Expressions

variable {a : Analysis} {ψ : Placement} {Γ : Context} {spine : List Nat} {env : Environment}
  {s : CallStack} {σ : Store}

/-- The static links lead to the spine's index of a level. -/
theorem InStep.resolve (h : InStep ψ spine s σ) (hagrees : Agrees ψ Γ spine env) {level : Nat}
    (hpos : 0 < level) (hle : level ≤ Γ.level) : s.resolve level = spine[Γ.level - level]? := by
  obtain ⟨rest, rfl⟩ := h.top
  have hlength : rest.length + 1 = Γ.level := hagrees.length_spine
  have htop : s.size - 1 + 1 = s.size := by
    have hlt := h.linked.lt_size
    omega
  rw [← hlength]
  exact h.linked.resolve htop hpos (hlength ▸ hle)

/-- **A known variable** is located in the record whose location it denotes. -/
theorem InStep.locate (h : InStep ψ spine s σ) (hagrees : Agrees ψ Γ spine env) {v : Variable}
    (hv : Known a Γ v) :
    ∃ i l, v.locate? a s = some i ∧ i < s.size ∧ ψ i v.name = some l ∧
      env.lookup v.name = some (.location l) := by
  obtain ⟨b, level, hbound, hb, hlevel⟩ := hv
  obtain ⟨i, l, hi, hl, hlookup⟩ := hagrees.lookup_var hbound hb
  obtain ⟨Λ, -, -, -, hΛ, -, hle⟩ := Context.since?_of_binding? hbound
  have hpos : 0 < level := hΛ ▸ Λ.level_pos
  refine ⟨i, l, ?_, (h.stored.bounded i v.name l hl).1, hl, hlookup⟩
  rw [Variable.locate?, hlevel]
  exact (h.resolve hagrees hpos hle).trans hi

/-- A known variable is bound to the same value on both sides. -/
theorem InStep.read (h : InStep ψ spine s σ) (hagrees : Agrees ψ Γ spine env) {v : Variable}
    (hv : Known a Γ v) : v.read? a s = bindings env σ v.name := by
  obtain ⟨i, l, hlocate, hi, hl, hlookup⟩ := h.locate hagrees hv
  obtain ⟨r, hr, -⟩ := CallStack.exists_heading? hi
  have hread := h.stored.reads i r hr v.name
  rw [hl] at hread
  rw [Variable.read?, hlocate, bindings, hlookup]
  show (s.get? i).bind (fun r => r.get? v.name) = Reference.read σ l
  rw [hr]
  exact hread

/-- **An expression** of known variables has the same value on both sides. -/
theorem InStep.eval (h : InStep ψ spine s σ) (hagrees : Agrees ψ Γ spine env) (e : Expr)
    (hknown : ∀ v, .occurrence v ∈ e.duties → Known a Γ v) :
    e.eval a s = evaluate env σ e := by
  induction e with
  | literal value position => rfl
  | occurrence v =>
      have hread := h.read hagrees (hknown v (List.mem_singleton.2 rfl))
      cases hvalue : bindings env σ v.name with
      | none => simp only [Expr.eval, evaluate, hread, hvalue]
      | some value => simp only [Expr.eval, evaluate, hread, hvalue]
  | signed sign operand position ih =>
      rw [Expr.eval, evaluate, ih hknown]
  | binary op left right position hleft hright =>
      rw [Expr.eval, evaluate,
        hleft fun v hv => hknown v (List.mem_append_left _ hv),
        hright fun v hv => hknown v (List.mem_append_right _ hv)]

/-- Expressions of known variables have the same values on both sides. -/
theorem InStep.evalAll (h : InStep ψ spine s σ) (hagrees : Agrees ψ Γ spine env)
    (es : List Expr) (hknown : ∀ v, .occurrence v ∈ es.flatMap Expr.duties → Known a Γ v) :
    Expr.evalAll a s es = evaluateAll env σ es := by
  induction es with
  | nil => rfl
  | cons first rest ih =>
      rw [List.flatMap_cons] at hknown
      rw [Expr.evalAll, evaluateAll,
        h.eval hagrees first fun v hv => hknown v (List.mem_append_left _ hv),
        ih fun v hv => hknown v (List.mem_append_right _ hv)]

/-- **An assignment** binds the same variable on both sides. -/
theorem simulates_assign (hagrees : Agrees ψ Γ spine env) {target : Variable} {value : Expr}
    (htarget : Known a Γ target)
    (hvalue : ∀ v, .occurrence v ∈ value.duties → Known a Γ v) :
    Simulates ψ spine
      (do
        let result ← Execution.compute fun s => value.eval a s
        target.write a result)
      (do
        let result ← compute fun σ => evaluate env σ value
        assign env target result) := by
  intro m σ h
  simp only [bind, EStateM.bind, Execution.compute, compute, h.eval hagrees value hvalue]
  cases evaluate env σ value with
  | error e => exact .error e h.keeps
  | ok result =>
      obtain ⟨i, l, hlocate, hi, hl, hlookup⟩ := h.locate hagrees htarget
      obtain ⟨t, ht⟩ : ∃ t, m.stack.set? i target.name result = some t :=
        ⟨_, if_pos hi⟩
      simp only [Variable.write, hlocate, Option.bind_some, ht, assign, hlookup]
      exact .ok ⟨CallStack.size_set ht, CallStack.heading?_set ht, h.stored.write hl ht⟩

/-! ## Statements and calls -/

mutual

/-- A statement has the same effect on both sides if its calls do. -/
theorem simulates_statement (hagrees : Agrees ψ Γ spine env) {call : Call → Execution Unit}
    {call' : Call → Effect Unit} (st : Statement)
    (hknown : ∀ v, .occurrence v ∈ st.duties → Known a Γ v)
    (hcall : ∀ c, c.duties ⊆ st.duties → Simulates ψ spine (call c) (call' c)) :
    Simulates ψ spine (st.exec a call) (execute env call' st) := by
  cases st with
  | compound body =>
      rw [Statement.duties] at hknown hcall
      rw [Statement.exec, execute]
      exact simulates_statements hagrees body hknown hcall
  | assign target value position =>
      rw [Statement.duties] at hknown
      rw [Statement.exec, execute]
      refine simulates_assign hagrees (hknown target ?_) fun v hv => hknown v ?_
      · exact List.mem_append_right _ (List.mem_singleton.2 rfl)
      · exact List.mem_append_left _ hv
  | call c =>
      rw [Statement.duties] at hcall
      rw [Statement.exec, execute]
      exact hcall c fun _ hduty => hduty
  | empty =>
      rw [Statement.exec, execute]
      exact simulates_pure

/-- Statements have the same effect on both sides if their calls do. -/
theorem simulates_statements (hagrees : Agrees ψ Γ spine env) {call : Call → Execution Unit}
    {call' : Call → Effect Unit} (body : List Statement)
    (hknown : ∀ v, .occurrence v ∈ Statement.dutiesAll body → Known a Γ v)
    (hcall : ∀ c, c.duties ⊆ Statement.dutiesAll body →
      Simulates ψ spine (call c) (call' c)) :
    Simulates ψ spine (Statement.execAll a call body) (executeAll env call' body) := by
  cases body with
  | nil =>
      rw [Statement.execAll, executeAll]
      exact simulates_pure
  | cons first rest =>
      rw [Statement.dutiesAll] at hknown hcall
      rw [Statement.execAll, executeAll]
      refine simulates_seq ?_ ?_
      · exact simulates_statement hagrees first
          (fun v hv => hknown v (List.mem_append_left _ hv))
          (fun c hc => hcall c fun _ hduty => List.mem_append_left _ (hc hduty))
      · exact simulates_statements hagrees rest
          (fun v hv => hknown v (List.mem_append_right _ hv))
          (fun c hc => hcall c fun _ hduty => List.mem_append_right _ (hc hduty))

end

end Expressions

/-- **What a body keeps** of the stack below its record is kept when the record is taken
off. -/
theorem Keeps.pop {ψ χ : Placement} {s t : CallStack} {r : ActivationRecord} {σ : Store}
    (h : Keeps χ (s.push r) t σ) (hsame : ∀ i, i < s.size → χ i = ψ i)
    (hbelow : ∀ i name l, ψ i name = some l → i < s.size) : Keeps ψ s t.pop σ := by
  obtain ⟨records⟩ := t
  cases records with
  | nil => exact absurd h.size (Nat.succ_ne_zero _).symm
  | cons q rest =>
      have hsize : (CallStack.mk rest).size = s.size := Nat.succ.inj h.size
      have hstored : Stored χ ((CallStack.mk rest).push q) σ := h.stored
      refine ⟨hsize, fun i => ?_, hstored.pop (hsize ▸ hsame) (hsize ▸ hbelow)⟩
      show (CallStack.mk rest).heading? i = s.heading? i
      by_cases hi : i < s.size
      · have hrest : i < (CallStack.mk rest).size := hsize ▸ hi
        rw [← CallStack.heading?_push_of_lt q hrest, ← CallStack.heading?_push_of_lt r hi]
        exact h.headings i
      -- neither stack has a record so high
      · have hnone : ∀ u : CallStack, u.size = s.size → u.heading? i = none := by
          intro u hu
          rw [CallStack.heading?, CallStack.get?_eq_none_iff.2 (hu ▸ Nat.le_of_not_lt hi)]
          rfl
        rw [hnone _ hsize, hnone s rfl]

/-- Arguments have one value each. -/
theorem length_of_evaluateAll {env : Environment} {σ : Store} {es : List Expr}
    {values : List Number} (h : evaluateAll env σ es = .ok values) :
    values.length = es.length := by
  induction es generalizing values with
  | nil =>
      cases h
      rfl
  | cons first rest ih =>
      simp only [evaluateAll, bind, Except.bind, pure, Except.pure] at h
      split at h
      · cases h
      · split at h
        · cases h
        next more hmore =>
          cases h
          rw [List.length_cons, List.length_cons, ih hmore]

/-- **The body of a procedure** is entered alike on both sides: the record of the call
binds what the fresh locations hold. -/
theorem opens_body {ψ : Placement} {s : CallStack} {σ : Store} {Λ : Context} {rest : List Nat}
    {home : Environment} {d : ProcedureDeclaration} {level : Nat} {p : Procedure}
    {values : List Number} (hstored : Stored ψ s σ) (hhome : Agrees ψ Λ rest home)
    (hp : d.procedure? level = some p) (hvalues : values.length = d.params.length)
    (hobeys : ∀ site ∈ d.declaration.sites Λ, site.Obeys) :
    ∃ χ inner τ, enter d home values σ = .ok inner τ ∧ (∀ i, i ≠ s.size → χ i = ψ i) ∧
      Opens s rest (p.activate s values) χ ((Λ.declare (.procedure d)).bodyOf d) inner τ := by
  obtain ⟨formals, hformals, rfl⟩ := Option.map_eq_some_iff.1 hp
  rw [ProcedureDeclaration.declaration, Declaration.sites] at hobeys
  simp only [List.mem_append] at hobeys
  have hempty : Opens s rest (.new d.name .procedure (level + 1) (s.resolve level)) ψ
      ((Λ.declare (.procedure d)).enter d) ((d.name, .closure d home) :: home) σ := by
    refine ⟨.enter d s.size (.procedure d hhome), hstored.push fun _ => rfl, ?_⟩
    intro name l hl
    exact absurd (hstored.bounded s.size name l hl).1 (Nat.lt_irrefl _)
  obtain ⟨ψ', hψ', hparams⟩ := opens_parameters hempty hformals hvalues
    fun site hsite => hobeys site (Or.inl (Or.inl (Or.inr hsite)))
  obtain ⟨χ, hχ, hopens⟩ := opens_declarations hparams
    fun site hsite => hobeys site (Or.inl (Or.inr hsite))
  exact ⟨χ, _, _, rfl, fun i hi => (hχ i hi).trans (hψ' i hi), hopens⟩

/-- The record of a call links to the first record of the rest of the spine. -/
theorem spine_push {s : CallStack} {p : Procedure} {values : List Number} {j : Nat}
    {rest : List Nat} (hspine : Spine s (j :: rest))
    (hresolve : s.resolve p.scopeLevel = some j) (hlevel : p.scopeLevel = rest.length + 1) :
    Spine (s.push (p.activate s values)) (s.size :: j :: rest) := by
  have hheading : (s.push (p.activate s values)).heading? s.size
      = some ⟨p.name, .procedure, p.scopeLevel + 1, s.resolve p.scopeLevel⟩ := by
    rw [CallStack.heading?_push, if_pos rfl, heading_activate]
  refine .link hheading ?_ hresolve hspine.lt_size (hspine.congr fun i hi => ?_)
  · exact congrArg (· + 1) hlevel
  · exact CallStack.heading?_push_of_lt _ hi

/-- The variables of a body are known to an analysis of its program. -/
theorem IsBody.known {tree : Program} {a : Analysis} (ha : a.Resolves tree.sites)
    {Γ : Context} (hbody : IsBody tree Γ) {v : Variable}
    (hv : .occurrence v ∈ Statement.dutiesAll (Γ.block tree).body) : Known a Γ v :=
  ha.occurrences Γ v (hbody.sites _ (List.mem_map_of_mem hv))

/-- The callees of a body are known to an analysis of its program. -/
theorem IsBody.callee {tree : Program} {a : Analysis} (ha : a.Resolves tree.sites)
    {Γ : Context} (hbody : IsBody tree Γ) {c : Call}
    (hc : c.duties ⊆ Statement.dutiesAll (Γ.block tree).body) :
    ∃ d level p, Γ.binding? c.name = some (.procedure d, level) ∧
      d.params.length = c.arguments.length ∧ d.procedure? level = some p ∧
      a.procedure? c.id = some p := by
  have hcall : .call c ∈ Statement.dutiesAll (Γ.block tree).body :=
    hc (List.mem_append_right _ (List.mem_singleton.2 rfl))
  exact ha.calls Γ c (hbody.sites _ (List.mem_map_of_mem hcall))

/-- **Entering the body** of a visible procedure keeps stack and store in step: the new
record links to the first record of the rest of the spine. -/
theorem InStep.enter {ψ χ : Placement} {Γ Λ : Context} {spine : List Nat}
    {env home : Environment} {s : CallStack} {σ τ : Store} {name : String}
    {d : ProcedureDeclaration} {level : Nat} {p : Procedure} {values : List Number}
    (h : InStep ψ spine s σ) (hagrees : Agrees ψ Γ spine env)
    (hbound : Γ.binding? name = some (.procedure d, level))
    (hhome : Agrees ψ Λ (spine.drop (Γ.level - level)) home) (hΛ : Λ.level = level)
    (hp : d.procedure? level = some p)
    (hstored : Stored χ (s.push (p.activate s values)) τ) :
    InStep χ (s.size :: spine.drop (Γ.level - level)) (s.push (p.activate s values)) τ := by
  have hpos : 0 < level := hΛ ▸ Λ.level_pos
  have hlength := hhome.length_spine
  have hresolve := h.resolve hagrees hpos (Agrees.level_le hbound)
  obtain ⟨formals, -, rfl⟩ := Option.map_eq_some_iff.1 hp
  cases hrest : spine.drop (Γ.level - level) with
  | nil =>
      rw [hrest, hΛ] at hlength
      exact absurd hlength (Nat.ne_of_lt hpos)
  | cons j rest =>
      have hj : spine[Γ.level - level]? = some j := by
        have hfirst : (spine.drop (Γ.level - level))[0]? = spine[Γ.level - level]? :=
          List.getElem?_drop
        rw [hrest] at hfirst
        exact hfirst.symm
      have hlt : Γ.level - level < spine.length := (List.getElem?_eq_some_iff.1 hj).1
      have hspine : Spine s (j :: rest) := hrest ▸ h.linked.drop hlt
      rw [hrest, hΛ] at hlength
      exact ⟨spine_push hspine (hresolve.trans hj) hlength.symm, ⟨_, rfl⟩, hstored⟩

/-- **A call** has the same effect on both sides. -/
theorem simulates_perform {tree : Program} {a : Analysis} (ha : a.Resolves tree.sites)
    (hobeys : ∀ site ∈ tree.sites, site.Obeys) (limit left : Nat) {ψ : Placement}
    {Γ : Context} {spine : List Nat} {env : Environment} (hagrees : Agrees ψ Γ spine env)
    (hbody : IsBody tree Γ) {c : Call}
    (hc : c.duties ⊆ Statement.dutiesAll (Γ.block tree).body) :
    Simulates ψ spine (Call.perform a limit left c) (perform limit left env c) := by
  -- a body sees another context than its call, so all but the program is generalized
  induction left generalizing ψ Γ spine env c with
  | zero =>
      obtain ⟨d, level, p, -, -, -, hprocedure⟩ := hbody.callee ha hc
      rw [Call.perform, perform, hprocedure]
      exact simulates_fail _ _
  | succ left ih =>
      obtain ⟨d, level, p, hbound, hlength, hp, hprocedure⟩ := hbody.callee ha hc
      obtain ⟨Λ, home, hlookup, hhome, hΛ, hsince⟩ := hagrees.lookup_procedure hbound
      obtain ⟨Θ, harises, hΘ, hd, hsites⟩ :=
        hbody.arises.procedure hsince (Context.bindings_declare Λ _)
      obtain rfl : Λ = Θ := Context.declare_injective hΘ
      have hinner := harises.bodyOf hd hsites
      have hblock := Context.block_bodyOf tree (Λ.declare (.procedure d)) d
      rw [Call.perform, perform, hprocedure, hlookup]
      intro m σ h
      simp only [bind, EStateM.bind, Execution.compute, compute,
        h.evalAll hagrees c.arguments fun v hv => hbody.known ha (hc (List.mem_append_left _ hv))]
      cases hvalues : evaluateAll env σ c.arguments with
      | error e => exact .error e h.keeps
      | ok values =>
          have hcount : values.length = d.params.length :=
            (length_of_evaluateAll hvalues).trans hlength.symm
          obtain ⟨χ, inner, τ, henter, hχ, hopens⟩ := opens_body h.stored hhome hp hcount
            fun site hsite => hobeys site (hsites site hsite)
          have hstep := h.enter hagrees hbound hhome hΛ hp hopens.stored
          have hrun := simulates_statements hopens.agrees d.block.body
            (fun v hv => hinner.known ha (hblock ▸ hv))
            (fun c' hc' => ih hopens.agrees hinner (hblock ▸ hc'))
            (m.enter (p.activate m.stack values)) τ hstep
          obtain ⟨formals, -, rfl⟩ := Option.map_eq_some_iff.1 hp
          simp only [Except.bind, pure, Except.pure, henter, Execution.within]
          generalize Statement.execAll a _ d.block.body _ = x at hrun ⊢
          generalize executeAll inner _ d.block.body τ = y at hrun ⊢
          -- the body leaves the places of the records below its own as they are
          have hsame : ∀ i, i < m.stack.size → χ i = ψ i := fun i hi => hχ i (Nat.ne_of_lt hi)
          have hbelow : ∀ i name l, ψ i name = some l → i < m.stack.size := fun i name l hl =>
            (h.stored.bounded i name l hl).1
          cases hrun with
          | ok hkeeps => exact .ok (hkeeps.pop hsame hbelow)
          | error e hkeeps => exact .error e (hkeeps.pop hsame hbelow)

/-! ## Programs -/

/-- A program is entered alike on both sides. -/
theorem opens_program {tree : Program} (hobeys : ∀ site ∈ tree.sites, site.Obeys) :
    ∃ χ, Opens .empty [] (Interpreter.programRecord tree) χ
      (Context.initial.behind tree.block) (declareAll tree.block.declarations [] []).1
      (declareAll tree.block.declarations [] []).2 := by
  have hempty : Opens .empty [] (Interpreter.programRecord tree) (fun _ _ => none) .initial
      [] [] := by
    refine ⟨.initial 0, ⟨fun i r hr name => ?_, nofun, nofun⟩, nofun⟩
    rw [CallStack.get?_push] at hr
    split at hr
    · cases hr
      rfl
    next hne =>
      rw [CallStack.get?_eq_none_iff.2 (Nat.zero_le i)] at hr
      cases hr
  obtain ⟨χ, -, hopens⟩ := opens_declarations hempty
    fun site hsite => hobeys site (List.mem_append_left _ hsite)
  exact ⟨χ, hopens⟩

/-- **The record of the program** binds what its variables denote. -/
theorem get?_eq_bindings {r q : ActivationRecord} {χ : Placement} {Γ : Context}
    {env : Environment} {σ τ : Store} {t : CallStack} (hopens : Opens .empty [] r χ Γ env σ)
    (hstored : Stored χ t τ) (hq : t.get? 0 = some q) (name : String) :
    q.get? name = bindings env τ name := by
  rw [hstored.reads 0 q hq name, bindings]
  -- a name with a place denotes it, and a denoted location is the place of its name
  cases hl : χ 0 name with
  | some l =>
      obtain ⟨-, hlookup⟩ := hopens.placed name l hl
      rw [hlookup]
      rfl
  | none =>
      cases hlookup : env.lookup name with
      | none => rfl
      | some denotation =>
          cases denotation with
          | closure d home => rfl
          | location l =>
              obtain ⟨i, hi, hplace⟩ := hopens.agrees.placed_of_lookup hlookup
              rw [List.mem_singleton.1 hi] at hplace
              exact absurd (hl.symm.trans hplace) nofun

/-- **The run of a program** with distinct node numbers is its meaning. -/
theorem run_eq_meaning {tree : Program} {a : Analysis} (ha : analyze tree = .ok a)
    (hids : tree.nodeIds.Nodup) (limit : Nat) :
    ∃ record, ((Interpreter.new a limit).run tree).interpreter.finished = some record ∧
      ((Interpreter.new a limit).run tree).outcome = (tree.meaning limit).outcome ∧
      ∀ name, record.get? name = (tree.meaning limit).bindings name := by
  have hresolves := resolves_of_analyze ha hids
  have hobeys := obeys_of_analyze ha
  obtain ⟨χ, hopens⟩ := opens_program hobeys
  have hbody := isBody_program tree
  have hblock : (Context.initial.behind tree.block).block tree = tree.block :=
    Context.block_declareAll tree .initial _
  -- the record of the program is the whole spine of its body
  have hstep : InStep χ [0] ((Machine.mk .empty []).enter (Interpreter.programRecord tree)).stack
      (declareAll tree.block.declarations [] []).2 :=
    ⟨.program rfl rfl rfl, ⟨[], rfl⟩, hopens.stored⟩
  have hsimulates := simulates_statements hopens.agrees tree.block.body
    (fun v hv => hbody.known hresolves (hblock.symm ▸ hv))
    (fun c hc => simulates_perform hresolves hobeys limit limit hopens.agrees hbody
      (hblock.symm ▸ hc))
    ((Machine.mk .empty []).enter (Interpreter.programRecord tree)) _ hstep
  have hleft : limit + 1
      - ((Machine.mk .empty []).enter (Interpreter.programRecord tree)).stack.size = limit :=
    Nat.add_sub_cancel limit 1
  unfold Interpreter.run Execution.startOn Program.meaning
  simp only [Interpreter.new, hleft]
  generalize Statement.execAll a _ tree.block.body _ = x at hsimulates ⊢
  generalize executeAll _ _ tree.block.body _ = y at hsimulates ⊢
  cases hsimulates with
  | ok hkeeps =>
      obtain ⟨q, hstack, hq⟩ := CallStack.exists_eq_singleton hkeeps.size
      exact ⟨q, congrArg CallStack.top? hstack, rfl, get?_eq_bindings hopens hkeeps.stored hq⟩
  | error e hkeeps =>
      obtain ⟨q, hstack, hq⟩ := CallStack.exists_eq_singleton hkeeps.size
      exact ⟨q, congrArg CallStack.top? hstack, rfl, get?_eq_bindings hopens hkeeps.stored hq⟩

/-- **Static links implement lexical scoping.**  The run of every source text that parses
and has an analysis ends, under every limit, as its meaning says: with success or with
the same error, and in both cases with a record of the program that binds what the
variables of the program denote. -/
theorem interpret_eq_meaning {source : String} {tree : Program} {a : Analysis}
    (hparse : parse source = .ok tree) (ha : analyze tree = .ok a) (limit : Nat) :
    ∃ record, ((Interpreter.new a limit).run tree).interpreter.finished = some record ∧
      ((Interpreter.new a limit).run tree).outcome = (tree.meaning limit).outcome ∧
      (interpret tree a limit).1 = (tree.meaning limit).outcome.map (fun _ => record) ∧
      ∀ name, record.get? name = (tree.meaning limit).bindings name := by
  obtain ⟨record, hfinished, houtcome, hbindings⟩ :=
    run_eq_meaning ha (nodup_of_parse hparse) limit
  refine ⟨record, hfinished, houtcome, ?_, hbindings⟩
  rw [interpret, houtcome, hfinished]
  rfl

/-- A source text in which a procedure hides a variable and calls itself until no more
calls are allowed. -/
def hidingSource : String :=
  "PROGRAM P; VAR x : INTEGER; PROCEDURE Q(x : INTEGER); VAR y : INTEGER; "
    ++ "PROCEDURE R; BEGIN y := x; Q(y + 1) END; BEGIN R() END; BEGIN x := 1; Q(x) END."

/-- A run that ends for lack of calls has the meaning of its source text. -/
theorem hidingSource_eq_meaning : ∃ tree a, parse hidingSource = .ok tree ∧
    analyze tree = .ok a ∧
    ∃ record, ((Interpreter.new a 4).run tree).interpreter.finished = some record ∧
      ((Interpreter.new a 4).run tree).outcome = (tree.meaning 4).outcome ∧
      (interpret tree a 4).1 = (tree.meaning 4).outcome.map (fun _ => record) ∧
      ∀ name, record.get? name = (tree.meaning 4).bindings name := by
  have haccepts : accepts hidingSource = true := by decide +kernel
  obtain ⟨tree, a, hparse, ha⟩ := exists_analysis haccepts
  exact ⟨tree, a, hparse, ha, interpret_eq_meaning hparse ha 4⟩

end MiniPascal
