/-
# What the records of a run bind

The record of a call binds the parameters of its procedure.  From then on a record gains a
binding by an assignment to the name only, and loses none as long as it stays on the stack.

* `get?_activate`, `get?_activate_iff` : what the record of a call binds;
* `Moment.Step.binds` : what a record binds it keeps;
* `Moment.Step.binds_or_assigns` : what a record binds after a step it has bound before, or
  the step has assigned it.
-/
import MiniPascal.Proofs.Moments.Records
import MiniPascal.Proofs.Scoping.Resolution

set_option autoImplicit false

namespace MiniPascal

/-! ## Bindings on the stack -/

namespace CallStack

variable {s t : CallStack} {index : Nat} {name : String}

/-- The record at an index binds a name. -/
def Binds (s : CallStack) (index : Nat) (name : String) : Prop :=
  ∃ r value, s.get? index = some r ∧ r.get? name = some value

theorem binds_congr (h : t.get? index = s.get? index) :
    t.Binds index name ↔ s.Binds index name := by
  rw [Binds, Binds, h]

theorem binds_push_of_lt (r : ActivationRecord) (h : index < s.size) :
    (s.push r).Binds index name ↔ s.Binds index name := by
  refine binds_congr ?_
  rw [get?_push, if_neg (Nat.ne_of_lt h)]

/-- The record on top of the stack. -/
theorem binds_push_top (s : CallStack) (r : ActivationRecord) (name : String) :
    (s.push r).Binds s.size name ↔ ∃ value, r.get? name = some value := by
  have htop : (s.push r).get? s.size = some r := by rw [get?_push, if_pos rfl]
  constructor
  · rintro ⟨q, value, hq, hvalue⟩
    rw [htop] at hq
    cases hq
    exact ⟨value, hvalue⟩
  · rintro ⟨value, hvalue⟩
    exact ⟨r, value, htop, hvalue⟩

/-- The binding of a name adds this name to what its record binds, and nothing else. -/
theorem binds_set {i : Nat} {target : String} {value : Number}
    (h : s.set? i target value = some t) :
    t.Binds index name ↔ (index = i ∧ name = target) ∨ s.Binds index name := by
  by_cases hindex : index = i
  · subst hindex
    have hlt : index < s.size := by
      unfold set? at h
      split at h
      next hlt => exact hlt
      next => cases h
    obtain ⟨r, hr, -⟩ := exists_heading? hlt
    have ht : t.get? index = some (r.set target value) := by
      rw [get?_set h, if_pos rfl, hr]
      rfl
    by_cases hname : name = target
    · refine iff_of_true ⟨_, value, ht, ?_⟩ (Or.inl ⟨rfl, hname⟩)
      rw [ActivationRecord.get?_set, if_pos hname]
    · have hsame : (r.set target value).get? name = r.get? name := by
        rw [ActivationRecord.get?_set, if_neg hname]
      constructor
      · rintro ⟨q, found, hq, hfound⟩
        rw [ht] at hq
        cases hq
        exact Or.inr ⟨r, found, hr, hsame.symm.trans hfound⟩
      · rintro (⟨-, heq⟩ | ⟨q, found, hq, hfound⟩)
        · exact absurd heq hname
        · rw [hr] at hq
          cases hq
          exact ⟨_, found, ht, hsame.trans hfound⟩
  · rw [binds_congr ((get?_set h index).trans (if_neg hindex))]
    exact ⟨Or.inr, fun hor => hor.resolve_left fun hboth => hindex hboth.1⟩

end CallStack

/-! ## The record of a call -/

/-- Parameters with their types keep their names. -/
theorem names_typedAll? {params : List Parameter} {formals : List TypedName}
    (h : Parameter.typedAll? params = some formals) :
    formals.map TypedName.name = params.map Parameter.name := by
  induction params generalizing formals with
  | nil =>
      cases h
      rfl
  | cons first rest ih =>
      simp only [Parameter.typedAll?, bind, Option.bind_eq_some_iff, pure,
        Option.some.injEq] at h
      obtain ⟨v, hv, more, hmore, rfl⟩ := h
      obtain ⟨t, -, rfl⟩ := Option.map_eq_some_iff.1 hv
      rw [List.map_cons, List.map_cons, ih hmore]

/-- Arguments have one value each. -/
theorem length_of_evalAll {a : Analysis} {s : CallStack} {es : List Expr}
    {values : List Number} (h : Expr.evalAll a s es = .ok values) :
    values.length = es.length := by
  induction es generalizing values with
  | nil =>
      cases h
      rfl
  | cons first rest ih =>
      simp only [Expr.evalAll, bind, Except.bind, pure, Except.pure] at h
      split at h
      · cases h
      · split at h
        · cases h
        next more hmore =>
          cases h
          rw [List.length_cons, List.length_cons, ih hmore]

/-- Each argument has its own value. -/
theorem eval_of_evalAll {a : Analysis} {s : CallStack} {es : List Expr} {values : List Number}
    (h : Expr.evalAll a s es = .ok values) {i : Nat} {e : Expr} (he : es[i]? = some e) :
    ∃ value, values[i]? = some value ∧ e.eval a s = .ok value := by
  induction es generalizing values i with
  | nil => cases he
  | cons first rest ih =>
      simp only [Expr.evalAll, bind, Except.bind, pure, Except.pure] at h
      split at h
      · cases h
      next value hvalue =>
        split at h
        · cases h
        next more hmore =>
          cases h
          cases i with
          | zero =>
              cases he
              exact ⟨value, rfl, hvalue⟩
          | succ i => exact ih hmore he

namespace ActivationRecord

variable {params : List TypedName} {values : List Number} {r : ActivationRecord}

/-- Names that are bound in turn leave all other ones alone. -/
theorem get?_bindAll_of_notMem {name : String} (h : name ∉ params.map TypedName.name) :
    (r.bindAll params values).get? name = r.get? name := by
  refine bindAll_keeps (P := fun bound => bound.get? name = r.get? name) rfl ?_
  intro bound v hv value _ hbound
  have hne : name ≠ v.name := fun heq => h (heq ▸ List.mem_map_of_mem hv)
  rw [get?_set, if_neg hne, hbound]

/-- **Names of their own** that are bound in turn have each its own value. -/
theorem get?_bindAll (hnodup : (params.map TypedName.name).Nodup) {i : Nat} {v : TypedName}
    {value : Number} (hv : params[i]? = some v) (hvalue : values[i]? = some value) :
    (r.bindAll params values).get? v.name = some value := by
  induction params generalizing values r i with
  | nil => cases hv
  | cons first rest ih =>
      rw [List.map_cons, List.nodup_cons] at hnodup
      cases values with
      | nil => cases hvalue
      | cons other more =>
          show ((r.set first.name other).bindAll rest more).get? v.name = some value
          cases i with
          | zero =>
              cases hv
              cases hvalue
              -- no later parameter has the name
              rw [get?_bindAll_of_notMem hnodup.1, get?_set, if_pos rfl]
          | succ i => exact ih hnodup.2 hv hvalue

/-- With a value for each name, exactly these names are bound in addition. -/
theorem get?_bindAll_iff (hlength : values.length = params.length) {name : String} :
    (∃ value, (r.bindAll params values).get? name = some value) ↔
      name ∈ params.map TypedName.name ∨ ∃ value, r.get? name = some value := by
  induction params generalizing values r with
  | nil => exact (or_iff_right List.not_mem_nil).symm
  | cons first rest ih =>
      cases values with
      | nil => cases hlength
      | cons value more =>
          show (∃ found, ((r.set first.name value).bindAll rest more).get? name = some found) ↔ _
          rw [ih (Nat.succ.inj hlength), get?_set, List.map_cons, List.mem_cons]
          by_cases hname : name = first.name
          · simp [hname]
          · simp [hname]

end ActivationRecord

/-- **The record of a call** binds each parameter to the value of its argument, if the
parameters have names of their own. -/
theorem get?_activate {p : Procedure} {s : CallStack} {values : List Number}
    (hnodup : (p.params.map TypedName.name).Nodup) {i : Nat} {v : TypedName} {value : Number}
    (hv : p.params[i]? = some v) (hvalue : values[i]? = some value) :
    (p.activate s values).get? v.name = some value := by
  rw [p.activate_eq]
  exact ActivationRecord.get?_bindAll hnodup hv hvalue

/-- **The record of a call** binds the parameters, and nothing else. -/
theorem get?_activate_iff {p : Procedure} {s : CallStack} {values : List Number}
    (hlength : values.length = p.params.length) {name : String} :
    (∃ value, (p.activate s values).get? name = some value)
      ↔ name ∈ p.params.map TypedName.name := by
  have hempty : ¬∃ value, (ActivationRecord.new p.name .procedure (p.scopeLevel + 1)
      (s.resolve p.scopeLevel)).get? name = some value := by
    rintro ⟨value, hvalue⟩
    cases hvalue
  rw [p.activate_eq, ActivationRecord.get?_bindAll_iff hlength]
  exact or_iff_left hempty

/-! ## Steps -/

namespace Moment

variable {a : Analysis} {limit index : Nat} {m n : Moment} {name : String}

/-- The next statement assigns to a name in the record at an index. -/
def Assigns (a : Analysis) (index : Nat) (name : String) (m : Moment) : Prop :=
  ∃ target value position rest, m.running.rest = .assign target value position :: rest ∧
    target.name = name ∧ target.locate? a m.machine.stack = some index

/-- **What a record binds** it keeps as long as it stays on the stack. -/
theorem Step.binds (h : m.Step a limit n) (hindex : index < n.machine.stack.size)
    (hbinds : m.machine.stack.Binds index name) : n.machine.stack.Binds index name := by
  cases h with
  | fail _ _ => exact hbinds
  | skip _ _ => exact hbinds
  | expand _ _ => exact hbinds
  | assign _ _ _ _ hset => exact (CallStack.binds_set hset).2 (Or.inr hbinds)
  | enter _ _ _ _ _ =>
      obtain ⟨r, value, hr, hvalue⟩ := hbinds
      have hlt : index < m.machine.stack.size := by
        refine Nat.lt_of_not_le fun hle => ?_
        rw [CallStack.get?_eq_none_iff.2 hle] at hr
        cases hr
      exact (CallStack.binds_push_of_lt _ hlt).2 ⟨r, value, hr, hvalue⟩
  | leave _ _ => exact (CallStack.binds_congr (CallStack.get?_pop hindex)).2 hbinds

/-- What a record binds it keeps in all moments that leave it on the stack. -/
theorem binds_of_stays (h : Stays a limit (index + 1) m n)
    (hbinds : m.machine.stack.Binds index name) : n.machine.stack.Binds index name := by
  induction h with
  | refl _ => exact hbinds
  | step _ hnext hrest ih => exact ih ((next_eq_some_iff.1 hnext).binds hrest.size_le hbinds)

/-- **What a record binds after a step** it has bound before, or the step has assigned it. -/
theorem Step.binds_or_assigns (h : m.Step a limit n) (hold : index < m.machine.stack.size)
    (hindex : index < n.machine.stack.size) (hbinds : n.machine.stack.Binds index name) :
    m.machine.stack.Binds index name ∨ (m.Assigns a index name ∧ n.fault = none) := by
  cases h with
  | fail _ _ => exact Or.inl hbinds
  | skip _ _ => exact Or.inl hbinds
  | expand _ _ => exact Or.inl hbinds
  | assign hfault hrest _ hlocate hset =>
      rcases (CallStack.binds_set hset).1 hbinds with ⟨rfl, rfl⟩ | hbefore
      · exact Or.inr ⟨⟨_, _, _, _, hrest, rfl, hlocate⟩, hfault⟩
      · exact Or.inl hbefore
  | enter _ _ _ _ _ => exact Or.inl ((CallStack.binds_push_of_lt _ hold).1 hbinds)
  | leave _ _ => exact Or.inl ((CallStack.binds_congr (CallStack.get?_pop hindex)).1 hbinds)

/-- A completed assignment binds its target. -/
theorem Step.binds_of_assigns (h : m.Step a limit n) (hassigns : m.Assigns a index name)
    (hfault : n.fault = none) : n.machine.stack.Binds index name := by
  obtain ⟨target, value, position, rest, hrest, rfl, hlocate⟩ := hassigns
  cases h with
  | fail _ _ => cases hfault
  | skip _ hother => simp [hrest] at hother
  | expand _ hother => simp [hrest] at hother
  | assign _ hother _ hindex hset =>
      rw [hrest] at hother
      cases hother
      rw [hlocate] at hindex
      cases hindex
      exact (CallStack.binds_set hset).2 (Or.inl ⟨rfl, rfl⟩)
  | enter _ hother _ _ _ => simp [hrest] at hother
  | leave hover _ =>
      have hnil : m.running.rest = [] := hover hfault
      simp [hrest] at hnil

end Moment

end MiniPascal
