/-
# Static chains

The *heading* of a record is all of it but its bindings: its name, its kind, its level and
its static link.  Headings never change, and they alone decide where a static chain leads.
A *spine* lists the indices that the static links of a stack lead through, from a record
down to that of the program, with levels that count down to one.

* `CallStack.heading?_push`, `CallStack.heading?_set` : how the headings of a stack change;
* `CallStack.resolve_congr` : what a level is resolved to hangs on levels and links alone;
* `CallStack.LinksDown.call` : where links lead down, that of a call does so as well;
* `Spine.find?_chainFrom` : along a spine every level is found at its own place;
* `Spine.resolve` : resolving a level picks the index of the spine that has it.
-/
import MiniPascal.Activation.Execution

set_option autoImplicit false

namespace MiniPascal

/-! ## Headings -/

/-- What a record has besides its bindings. -/
structure Heading where
  name : String
  kind : BodyKind
  level : Nat
  staticLink : Option Nat
  deriving DecidableEq

/-- The heading of a record. -/
def ActivationRecord.heading (r : ActivationRecord) : Heading :=
  ⟨r.name, r.kind, r.level, r.staticLink⟩

@[simp] theorem ActivationRecord.heading_set (r : ActivationRecord) (name : String)
    (value : Number) : (r.set name value).heading = r.heading := rfl

/-- A record binds a name to the value that it was bound to last. -/
theorem ActivationRecord.get?_set (r : ActivationRecord) (name other : String)
    (value : Number) :
    (r.set name value).get? other = if other = name then some value else r.get? other := by
  by_cases hname : other = name
  · rw [if_pos hname, hname]
    exact NameTable.find?_set_self _ _ _
  · rw [if_neg hname]
    exact NameTable.find?_set_of_ne _ _ hname

/-- Bind parameters to values in turn. -/
def ActivationRecord.bindAll (r : ActivationRecord) (params : List TypedName)
    (values : List Number) : ActivationRecord :=
  (params.zip values).foldl (fun r binding => r.set binding.1.name binding.2) r

/-- The record of a call binds the parameters of the procedure in turn. -/
theorem Procedure.activate_eq (p : Procedure) (s : CallStack) (values : List Number) :
    p.activate s values
      = (ActivationRecord.new p.name .procedure (p.scopeLevel + 1)
          (s.resolve p.scopeLevel)).bindAll p.params values := rfl

/-- **Binding in turn** keeps what every single binding keeps. -/
theorem ActivationRecord.bindAll_keeps {P : ActivationRecord → Prop} {params : List TypedName}
    {values : List Number} {r : ActivationRecord} (hr : P r)
    (hset : ∀ r, ∀ v ∈ params, ∀ value ∈ values, P r → P (r.set v.name value)) :
    P (r.bindAll params values) := by
  induction params generalizing values r with
  | nil => exact hr
  | cons first rest ih =>
      cases values with
      | nil => exact hr
      | cons value more =>
          refine ih (hset r first List.mem_cons_self value List.mem_cons_self hr) ?_
          intro r v hv other hother
          exact hset r v (List.mem_cons_of_mem _ hv) other (List.mem_cons_of_mem _ hother)

/-- The heading of the record of a call. -/
theorem heading_activate (p : Procedure) (s : CallStack) (values : List Number) :
    (p.activate s values).heading
      = ⟨p.name, .procedure, p.scopeLevel + 1, s.resolve p.scopeLevel⟩ := by
  rw [p.activate_eq]
  refine ActivationRecord.bindAll_keeps (P := fun r => r.heading = _) rfl ?_
  intro r v _ value _ hr
  exact (r.heading_set v.name value).trans hr

namespace CallStack

theorem exists_eq_singleton {s : CallStack} (h : s.size = 1) :
    ∃ r, s = ⟨[r]⟩ ∧ s.get? 0 = some r := by
  obtain ⟨records⟩ := s
  obtain ⟨r, rfl⟩ := List.length_eq_one_iff.1 h
  exact ⟨r, rfl, rfl⟩

/-- The heading of the record at an index from the bottom. -/
def heading? (s : CallStack) (index : Nat) : Option Heading :=
  (s.get? index).map ActivationRecord.heading

/-- A new record has the next index, and all others keep their headings. -/
theorem heading?_push (s : CallStack) (r : ActivationRecord) (index : Nat) :
    (s.push r).heading? index = if index = s.size then some r.heading else s.heading? index := by
  unfold heading?
  rw [get?_push]
  split <;> rfl

theorem heading?_push_of_lt {s : CallStack} (r : ActivationRecord) {index : Nat}
    (h : index < s.size) : (s.push r).heading? index = s.heading? index := by
  rw [heading?_push, if_neg (Nat.ne_of_lt h)]

/-- **Binding a name** keeps all headings. -/
theorem heading?_set {s t : CallStack} {index : Nat} {name : String} {value : Number}
    (h : s.set? index name value = some t) (other : Nat) :
    t.heading? other = s.heading? other := by
  unfold heading?
  rw [get?_set h]
  split
  next heq =>
    rw [heq, Option.map_map]
    rfl
  next => rfl

theorem lt_size_of_heading? {s : CallStack} {index : Nat} {h : Heading}
    (hindex : s.heading? index = some h) : index < s.size := by
  refine Nat.lt_of_not_le fun hle => ?_
  rw [heading?, get?_eq_none_iff.2 hle] at hindex
  cases hindex

theorem exists_heading? {s : CallStack} {index : Nat} (h : index < s.size) :
    ∃ r, s.get? index = some r ∧ s.heading? index = some r.heading := by
  cases hget : s.get? index with
  | none => exact absurd (get?_eq_none_iff.1 hget) (Nat.not_le_of_lt h)
  | some r => exact ⟨r, rfl, by rw [heading?, hget]; rfl⟩

/-- The records below the top one stay when it is taken away. -/
theorem get?_pop {s : CallStack} {i : Nat} (hi : i < s.pop.size) : s.pop.get? i = s.get? i := by
  obtain ⟨records⟩ := s
  cases records with
  | nil => rfl
  | cons r rest =>
      have hlt : i < (CallStack.mk rest).size := hi
      have hpush : ((CallStack.mk rest).push r).get? i = (CallStack.mk rest).get? i := by
        rw [get?_push, if_neg (Nat.ne_of_lt hlt)]
      exact hpush.symm

theorem heading?_pop {s : CallStack} {i : Nat} {h : Heading} (hi : s.pop.heading? i = some h) :
    s.heading? i = some h := by
  rw [heading?, ← get?_pop (lt_size_of_heading? hi)]
  exact hi

theorem lt_size_of_resolve {s : CallStack} {level index : Nat}
    (h : s.resolve level = some index) : index < s.size := by
  obtain ⟨r, -, hr, -⟩ := resolve_eq_some h
  refine Nat.lt_of_not_le fun hle => ?_
  rw [get?_eq_none_iff.2 hle] at hr
  cases hr

/-- Levels and links alone decide which levels a chain leads through. -/
theorem levels_chainFrom_congr {s t : CallStack}
    (hsame : ∀ i, (t.heading? i).map (fun h => (h.level, h.staticLink))
      = (s.heading? i).map fun h => (h.level, h.staticLink)) (steps index : Nat) :
    (t.chainFrom steps index).map (fun entry => (entry.1, entry.2.level))
      = (s.chainFrom steps index).map fun entry => (entry.1, entry.2.level) := by
  induction steps generalizing index with
  | zero => rfl
  | succ n ih =>
      have hindex := hsame index
      unfold heading? at hindex
      rw [chainFrom, chainFrom]
      cases hs : s.get? index with
      | none =>
          rw [hs] at hindex
          have ht : t.get? index = none := by simpa using hindex
          rw [ht]
      | some r =>
          rw [hs] at hindex
          obtain ⟨h, hh, hsplit⟩ := Option.map_eq_some_iff.1 hindex
          obtain ⟨q, ht, rfl⟩ := Option.map_eq_some_iff.1 hh
          have hlevel : q.level = r.level := congrArg Prod.fst hsplit
          have hlink : q.staticLink = r.staticLink := congrArg Prod.snd hsplit
          rw [ht]
          simp only [List.map_cons, hlevel, hlink]
          cases r.staticLink with
          | none => rfl
          | some below => simp only [ih below]

/-- **Levels and links alone** decide which record a level is resolved to. -/
theorem resolve_congr {s t : CallStack} (hsize : t.size = s.size)
    (hsame : ∀ i, (t.heading? i).map (fun h => (h.level, h.staticLink))
      = (s.heading? i).map fun h => (h.level, h.staticLink)) (level : Nat) :
    t.resolve level = s.resolve level := by
  have hfind : ∀ u : CallStack, u.resolve level =
      ((u.staticChain.map fun entry => (entry.1, entry.2.level)).find?
        fun entry => entry.2 == level).map Prod.fst := by
    intro u
    rw [resolve, List.find?_map, Option.map_map]
    rfl
  rw [hfind, hfind, staticChain, staticChain, hsize, levels_chainFrom_congr hsame]

/-! ## Links that lead down -/

/-- Static links lead down the stack. -/
def LinksDown (s : CallStack) : Prop :=
  ∀ i h j, s.heading? i = some h → h.staticLink = some j → j < i

/-- The heading of the record of a call is new, and all others are old. -/
theorem heading?_push_activate {s : CallStack} {p : Procedure} {values : List Number} {i : Nat}
    {h : Heading} (hi : (s.push (p.activate s values)).heading? i = some h) :
    (i = s.size ∧ h = ⟨p.name, .procedure, p.scopeLevel + 1, s.resolve p.scopeLevel⟩) ∨
      s.heading? i = some h := by
  rw [heading?_push, heading_activate] at hi
  split at hi
  next htop => exact Or.inl ⟨htop, (Option.some.inj hi).symm⟩
  next => exact Or.inr hi

namespace LinksDown

variable {s t : CallStack}

theorem congr (hs : s.LinksDown) (hsame : ∀ i, t.heading? i = s.heading? i) : t.LinksDown := by
  intro i h j hi hlink
  exact hs i h j ((hsame i).symm.trans hi) hlink

/-- **The link of a call** leads down: it was resolved before its record was pushed. -/
theorem call (hs : s.LinksDown) (p : Procedure) (values : List Number) :
    (s.push (p.activate s values)).LinksDown := by
  intro i h j hi hlink
  rcases heading?_push_activate hi with ⟨rfl, rfl⟩ | hold
  · exact lt_size_of_resolve hlink
  · exact hs i h j hold hlink

theorem pop (hs : s.LinksDown) : s.pop.LinksDown := by
  intro i h j hi hlink
  exact hs i h j (heading?_pop hi) hlink

end LinksDown

end CallStack

/-! ## Spines -/

/-- The static links of the stack lead down the indices, to the record of the program,
and the levels count down to one. -/
inductive Spine (s : CallStack) : List Nat → Prop where
  | program {i : Nat} {h : Heading} (hi : s.heading? i = some h)
      (hlevel : h.level = globalLevel) (hlink : h.staticLink = none) : Spine s [i]
  | link {i j : Nat} {rest : List Nat} {h : Heading} (hi : s.heading? i = some h)
      (hlevel : h.level = rest.length + 2) (hlink : h.staticLink = some j) (hj : j < i)
      (hrest : Spine s (j :: rest)) : Spine s (i :: j :: rest)

namespace Spine

variable {s t : CallStack} {i : Nat} {rest : List Nat}

/-- A spine stays one as long as the headings of its records do. -/
theorem congr {spine : List Nat} (h : Spine s spine)
    (hsame : ∀ i, i < s.size → t.heading? i = s.heading? i) : Spine t spine := by
  induction h with
  | program hi hlevel hlink =>
      have hlt := CallStack.lt_size_of_heading? hi
      exact .program ((hsame _ hlt).trans hi) hlevel hlink
  | link hi hlevel hlink hj _ ih =>
      have hlt := CallStack.lt_size_of_heading? hi
      exact .link ((hsame _ hlt).trans hi) hlevel hlink hj ih

theorem lt_size (h : Spine s (i :: rest)) : i < s.size := by
  cases h with
  | program hi _ _ => exact CallStack.lt_size_of_heading? hi
  | link hi _ _ _ _ => exact CallStack.lt_size_of_heading? hi

/-- What a spine leads to is a spine. -/
theorem drop {spine : List Nat} (h : Spine s spine) {k : Nat} (hk : k < spine.length) :
    Spine s (spine.drop k) := by
  induction h generalizing k with
  | program hi hlevel hlink =>
      obtain rfl : k = 0 := Nat.lt_one_iff.1 hk
      exact .program hi hlevel hlink
  | link hi hlevel hlink hj hrest ih =>
      cases k with
      | zero => exact .link hi hlevel hlink hj hrest
      | succ k => exact ih (Nat.lt_of_succ_lt_succ hk)

/-- A chain begins with the record at its index, and goes on where its link leads. -/
theorem chainFrom_succ {h : Heading} (hi : s.heading? i = some h) (steps : Nat) :
    ∃ r : ActivationRecord, r.level = h.level ∧
      s.chainFrom (steps + 1) i = (i, r) :: match h.staticLink with
        | none => []
        | some below => s.chainFrom steps below := by
  obtain ⟨r, hr, rfl⟩ := Option.map_eq_some_iff.1 hi
  refine ⟨r, rfl, ?_⟩
  rw [CallStack.chainFrom, hr]
  rfl

/-- A static chain that starts on a spine stays on it. -/
theorem mem_of_mem_chainFrom (h : Spine s (i :: rest)) {steps : Nat}
    {entry : Nat × ActivationRecord} (hentry : entry ∈ s.chainFrom steps i) :
    entry.1 ∈ i :: rest := by
  induction steps generalizing i rest with
  | zero => cases hentry
  | succ n ih =>
      cases h with
      | program hi _ hlink =>
          obtain ⟨r, -, hchain⟩ := chainFrom_succ hi n
          rw [hchain, hlink, List.mem_singleton] at hentry
          rw [hentry]
          exact List.mem_cons_self
      | link hi _ hlink _ hrest =>
          obtain ⟨r, -, hchain⟩ := chainFrom_succ hi n
          rw [hchain, hlink] at hentry
          rcases List.mem_cons.1 hentry with rfl | hbelow
          · exact List.mem_cons_self
          · exact List.mem_cons_of_mem _ (ih hrest hbelow)

/-- **Along a spine** every level is found at its own place. -/
theorem find?_chainFrom (h : Spine s (i :: rest)) {steps level : Nat} (hsteps : i < steps)
    (hpos : 0 < level) (hle : level ≤ rest.length + 1) :
    ((s.chainFrom steps i).find? fun entry => entry.2.level == level).map Prod.fst
      = (i :: rest)[rest.length + 1 - level]? := by
  obtain ⟨n, rfl⟩ : ∃ n, steps = n + 1 := ⟨steps - 1, by omega⟩
  generalize hspine : i :: rest = spine at h
  -- the steps exceed the index, so they suffice for links that lead down
  induction h generalizing i rest n with
  | program hi hlevel hlink =>
      cases hspine
      obtain ⟨r, hr, hchain⟩ := chainFrom_succ hi n
      obtain rfl : level = 1 := Nat.le_antisymm hle hpos
      have hfound : (r.level == 1) = true := by
        rw [hr, hlevel]
        rfl
      rw [hchain, List.find?_cons]
      simp only [hfound]
      rfl
  | @link i j rest h hi hlevel hlink hj _ ih =>
      cases hspine
      obtain ⟨r, hr, hchain⟩ := chainFrom_succ hi n
      rw [hchain, hlink, List.length_cons]
      by_cases htop : level = rest.length + 2
      · have hfound : (r.level == level) = true := by
          rw [hr, hlevel, htop]
          exact beq_self_eq_true _
        rw [List.find?_cons, htop, Nat.sub_self]
        rw [htop] at hfound
        simp only [hfound]
        rfl
      · -- the level is one of those below, so the search goes on at the linked record
        have hbelow : level ≤ rest.length + 1 := by
          rw [List.length_cons] at hle
          omega
        have hnot : (r.level == level) = false := by
          rw [hr, hlevel]
          exact beq_false_of_ne (Ne.symm htop)
        obtain ⟨m, rfl⟩ : ∃ m, n = m + 1 := ⟨n - 1, by omega⟩
        rw [List.find?_cons]
        simp only [hnot]
        rw [ih hbelow m (by omega) rfl,
          show rest.length + 1 + 1 - level = (rest.length + 1 - level) + 1 by omega,
          List.getElem?_cons_succ]

/-- **Resolving a level** picks the index of the spine that has it. -/
theorem resolve (h : Spine s (i :: rest)) (htop : i + 1 = s.size) {level : Nat}
    (hpos : 0 < level) (hle : level ≤ rest.length + 1) :
    s.resolve level = (i :: rest)[rest.length + 1 - level]? := by
  have hi : s.size - 1 = i := by omega
  rw [CallStack.resolve, CallStack.staticChain, hi]
  exact find?_chainFrom h (by omega) hpos hle

end Spine

end MiniPascal
