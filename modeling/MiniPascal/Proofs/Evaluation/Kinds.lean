/-
# Kinds of values

Whether a value is real is read off the expression, and off the kinds of the values that its
variables hold; the declared types have no part in it.  So a program without real literals and
without `/` computes in the integers alone: no value that it binds is ever real.

* `Expr.isReal_of_eval` : the kind of a value is that of its expression;
* `Expr.isIntegral_of_landmarks` : reals stand at landmarks;
* `Moment.holdsIntegers_step` : every step of a program without reals binds integers only;
* `kinds_static` : the kinds of values, and of all values bound in a run.
-/
import MiniPascal.Proofs.Diagnostics
import MiniPascal.Proofs.Evaluation.Exactness

set_option autoImplicit false

namespace MiniPascal

/-! ## The kind of an expression -/

/-- Whether an expression is real, where `real` says which variables are: a literal has its own
kind, a sign keeps the kind of its operand, and the kind of an operator depends on those of its
operands. -/
def Expr.isReal (real : Variable → Bool) : Expr → Bool
  | .literal value _ => value.isReal
  | .occurrence v => real v
  | .signed _ operand _ => operand.isReal real
  | .binary op left right _ => op.isReal (left.isReal real) (right.isReal real)

/-- Whether a variable holds a real. -/
def Variable.holdsReal (a : Analysis) (s : CallStack) (v : Variable) : Bool :=
  (v.read? a s).any Number.isReal

section Evaluation

variable {a : Analysis} {s : CallStack}

/-- **The kind of a value** is that of its expression. -/
theorem Expr.isReal_of_eval {e : Expr} {x : Number} (h : e.eval a s = .ok x) :
    x.isReal = e.isReal (Variable.holdsReal a s) := by
  induction e generalizing x with
  | literal value position =>
      cases h
      rfl
  | occurrence v =>
      rw [isReal, Variable.holdsReal]
      unfold eval at h
      split at h
      next value hread =>
        cases h
        rw [hread]
        rfl
      next => cases h
  | signed sign operand position ih =>
      unfold eval at h
      obtain ⟨value, hvalue, hresult⟩ := ok_of_bind h
      rw [isReal, ← ih hvalue]
      exact isReal_sign_apply (ok_of_atOperator hresult)
  | binary op left right position ihleft ihright =>
      unfold eval at h
      obtain ⟨l, hl, hrest⟩ := ok_of_bind h
      obtain ⟨r, hr, hresult⟩ := ok_of_bind hrest
      rw [isReal, ← ihleft hl, ← ihright hr]
      exact isReal_apply (ok_of_atOperator hresult)

/-- An operator that does not divide reals is an integer on integers. -/
theorem Operator.isReal_false {op : Operator} (hop : op ≠ .divideReal) :
    op.isReal false false = false := by
  cases op with
  | divideReal => exact absurd rfl hop
  | _ => rfl

/-- An expression without reals is no real if its variables are none. -/
theorem Expr.IsIntegral.isReal {e : Expr} (he : e.IsIntegral) {real : Variable → Bool}
    (hreal : ∀ v, real v = false) : e.isReal real = false := by
  induction e with
  | literal value position => exact he
  | occurrence v => exact hreal v
  | signed sign operand position ih => exact ih he
  | binary op left right position ihleft ihright =>
      obtain ⟨hop, heleft, heright⟩ := he
      rw [Expr.isReal, ihleft heleft, ihright heright]
      exact Operator.isReal_false hop

end Evaluation

/-! ## Reals among tokens -/

/-- Whether a token brings a real into a program: a real literal, or the operator that divides
reals. -/
def Token.makesReal : Token → Bool
  | .number (.real _) => true
  | .symbol .slash => true
  | _ => false

/-- Some landmarks without a token that brings in a real. -/
def WithoutReals (landmarks : List Landmark) : Prop :=
  ∀ l ∈ landmarks, ∀ token ∈ l.value, token.makesReal = false

/-- Reals stand at landmarks. -/
theorem Expr.isIntegral_of_landmarks {e : Expr} (h : WithoutReals e.landmarks) :
    e.IsIntegral := by
  induction e with
  | literal value position =>
      have hvalue := h _ List.mem_cons_self _ List.mem_cons_self
      cases value with
      | integer n => rfl
      | real x => cases hvalue
  | occurrence v => trivial
  | signed sign operand position ih => exact ih fun l hl => h l (List.mem_cons_of_mem _ hl)
  | binary op left right position ihleft ihright =>
      refine ⟨?_, ihleft fun l hl => h l (List.mem_append_left _ hl),
        ihright fun l hl => h l (List.mem_append_right _ (List.mem_cons_of_mem _ hl))⟩
      rintro rfl
      cases h _ (List.mem_append_right _ List.mem_cons_self) _ List.mem_cons_self

/-! ## Records of integers -/

/-- A record that binds integers only. -/
def ActivationRecord.HoldsIntegers (r : ActivationRecord) : Prop :=
  ∀ name x, r.get? name = some x → x.isReal = false

/-- A stack all of whose records bind integers only. -/
def CallStack.HoldsIntegers (s : CallStack) : Prop :=
  ∀ i r, s.get? i = some r → r.HoldsIntegers

namespace ActivationRecord.HoldsIntegers

variable {r : ActivationRecord}

theorem new (name : String) (kind : BodyKind) (level : Nat) (staticLink : Option Nat) :
    (ActivationRecord.new name kind level staticLink).HoldsIntegers := nofun

/-- One more integer is bound. -/
theorem set (h : r.HoldsIntegers) (name : String) {x : Number} (hx : x.isReal = false) :
    (r.set name x).HoldsIntegers := by
  intro other y hy
  rw [get?_set] at hy
  split at hy
  · cases hy
    exact hx
  · exact h other y hy

theorem activate (p : Procedure) (s : CallStack) {values : List Number}
    (hvalues : ∀ x ∈ values, x.isReal = false) : (p.activate s values).HoldsIntegers := by
  rw [p.activate_eq]
  refine bindAll_keeps (new _ _ _ _) fun r v _ value hvalue hr => ?_
  exact hr.set v.name (hvalues value hvalue)

end ActivationRecord.HoldsIntegers

namespace CallStack.HoldsIntegers

variable {s t : CallStack}

/-- One more record of integers. -/
theorem push (h : s.HoldsIntegers) {r : ActivationRecord} (hr : r.HoldsIntegers) :
    (s.push r).HoldsIntegers := by
  intro i q hq
  rw [get?_push] at hq
  split at hq
  · cases hq
    exact hr
  · exact h i q hq

/-- The top record is taken away. -/
theorem pop (h : s.HoldsIntegers) : s.pop.HoldsIntegers := by
  intro i r hr
  have hi : i < s.pop.size := by
    apply Nat.lt_of_not_le
    intro hle
    rw [get?_eq_none_iff.2 hle] at hr
    cases hr
  rw [get?_pop hi] at hr
  exact h i r hr

/-- One more integer is bound. -/
theorem set (h : s.HoldsIntegers) {index : Nat} {name : String} {x : Number}
    (hx : x.isReal = false) (hset : s.set? index name x = some t) : t.HoldsIntegers := by
  intro i r hr
  rw [get?_set hset] at hr
  split at hr
  · obtain ⟨q, hq, rfl⟩ := Option.map_eq_some_iff.1 hr
    exact (h index q hq).set name hx
  · exact h i r hr

/-- No variable holds a real. -/
theorem holdsReal (h : s.HoldsIntegers) (a : Analysis) (v : Variable) :
    v.holdsReal a s = false := by
  unfold Variable.holdsReal
  cases hread : v.read? a s with
  | none => rfl
  | some x =>
      obtain ⟨index, -, hbound⟩ := Option.bind_eq_some_iff.1 hread
      obtain ⟨r, hr, hx⟩ := Option.bind_eq_some_iff.1 hbound
      exact h index r hr v.name x hx

theorem eval (h : s.HoldsIntegers) {a : Analysis} {e : Expr} (he : e.IsIntegral) {x : Number}
    (hx : e.eval a s = .ok x) : x.isReal = false := by
  rw [Expr.isReal_of_eval hx]
  exact he.isReal (h.holdsReal a)

/-- Expressions without reals have integer values. -/
theorem evalAll (h : s.HoldsIntegers) {a : Analysis} {es : List Expr}
    (hes : ∀ e ∈ es, e.IsIntegral) {values : List Number}
    (hvalues : Expr.evalAll a s es = .ok values) : ∀ x ∈ values, x.isReal = false := by
  induction es generalizing values with
  | nil =>
      cases hvalues
      exact nofun
  | cons first rest ih =>
      unfold Expr.evalAll at hvalues
      obtain ⟨value, hvalue, hvalues⟩ := ok_of_bind hvalues
      obtain ⟨more, hmore, hvalues⟩ := ok_of_bind hvalues
      cases hvalues
      intro x hx
      rcases List.mem_cons.1 hx with rfl | hx
      · exact h.eval (hes first List.mem_cons_self) hvalue
      · exact ih (fun e he => hes e (List.mem_cons_of_mem _ he)) hmore x hx

end CallStack.HoldsIntegers

/-! ## Runs without reals -/

namespace Moment

variable {tree : Program} {a : Analysis} {limit : Nat} {m n : Moment}

/-- **Every step** of a program without reals binds integers only. -/
theorem holdsIntegers_step (htree : WithoutReals tree.landmarks) (hmarked : m.Marked tree)
    (h : m.machine.stack.HoldsIntegers) (hstep : m.Step a limit n) :
    n.machine.stack.HoldsIntegers := by
  cases hstep with
  | fail _ _ => exact h
  | skip _ _ => exact h
  | expand _ _ => exact h
  | @assign target value position _ _ _ _ _ hrest hvalue _ hset =>
      have hlandmarks := hmarked.next hrest
      rw [Statement.landmarks] at hlandmarks
      have hintegral : value.IsIntegral := by
        apply Expr.isIntegral_of_landmarks
        intro l hl
        exact htree l (hlandmarks l (List.mem_cons_of_mem _ (List.mem_cons_of_mem _ hl)))
      exact h.set (h.eval hintegral hvalue) hset
  | @enter c _ p values _ hrest _ _ hvalues =>
      have hlandmarks := hmarked.next hrest
      rw [Statement.landmarks] at hlandmarks
      have hintegral : ∀ e ∈ c.arguments, e.IsIntegral := by
        intro e he
        apply Expr.isIntegral_of_landmarks
        intro l hl
        exact htree l (hlandmarks l
          (List.mem_cons_of_mem _ (List.mem_flatMap.2 ⟨e, he, hl⟩)))
      exact h.push (.activate p _ (h.evalAll hintegral hvalues))
  | leave _ _ => exact h.pop

/-- Every moment of a program without reals binds integers only. -/
theorem holdsIntegers_of_leads (htree : WithoutReals tree.landmarks)
    (ha : a.Resolves tree.sites) (h : Leads a limit (.start tree) m) :
    m.machine.stack.HoldsIntegers := by
  have hstart : (Moment.start tree).machine.stack.HoldsIntegers := by
    refine CallStack.HoldsIntegers.push ?_ (.new _ _ _ _)
    intro i r hr
    rw [CallStack.get?_eq_none_iff.2 (Nat.zero_le i)] at hr
    cases hr
  refine (h.preserves (P := fun m => m.machine.stack.HoldsIntegers ∧ m.Marked tree ∧ m.Sound tree)
    (fun m n hm hstep => ?_) ⟨hstart, marked_start tree, sound_start tree⟩).1
  obtain ⟨hintegers, hmarked, hsound⟩ := hm
  exact ⟨holdsIntegers_step htree hmarked hintegers hstep, marked_step ha hsound hmarked hstep,
    sound_next ha hsound (next_eq_some_iff.2 hstep)⟩

end Moment

/-- **Kinds of values are static.**  The value of an expression is real exactly if the expression
is, whatever the declared types.  And if no token of an accepted source text is a real literal or
`/`, then at every moment of its run, under every limit, all records bind integers only. -/
theorem kinds_static :
    (∀ (a : Analysis) (s : CallStack) (e : Expr) (x : Number), e.eval a s = .ok x →
      x.isReal = e.isReal (Variable.holdsReal a s)) ∧
    ∀ (source : String) (tree : Program) (a : Analysis), parse source = .ok tree →
      analyze tree = .ok a → (∀ t, .ok t ∈ tokenize source → t.value.makesReal = false) →
      ∀ (limit : Nat) (m : Moment), Leads a limit (.start tree) m →
        ∀ i r, m.machine.stack.get? i = some r →
          ∀ name x, r.get? name = some x → x.isReal = false := by
  refine ⟨fun a s e x => Expr.isReal_of_eval, ?_⟩
  intro source tree a hparse hanalyze htokens limit m hm
  have htree : WithoutReals tree.landmarks := by
    intro l hl token htoken
    obtain ⟨t, ht, rfl⟩ := exists_token_of_landmark hparse hl htoken
    exact htokens t ht
  exact Moment.holdsIntegers_of_leads htree
    (resolves_of_analyze hanalyze (nodup_of_parse hparse)) hm

/-- A source text that declares reals, and computes in integers. -/
def integerSource : String :=
  "PROGRAM P; VAR x : REAL; PROCEDURE Q(a : REAL); BEGIN x := a DIV 2 END; BEGIN Q(7) END."

/-- The successor of the value of `x`. -/
def successor : Expr :=
  .binary .add (.occurrence lowest) (.literal (.integer 1) ⟨1, 5⟩) ⟨1, 3⟩

/-- The successor of an integer is an integer, and a variable of type `REAL` holds integers if
nothing else comes to it. -/
theorem integerSource_kinds :
    (∃ x, successor.eval lowestAnalysis lowestStack = .ok x ∧ x.isReal = false) ∧
    ∃ tree a, parse integerSource = .ok tree ∧ analyze tree = .ok a ∧
      (∀ t, .ok t ∈ tokenize integerSource → t.value.makesReal = false) ∧
      ∀ m, Leads a 5 (.start tree) m → ∀ i r, m.machine.stack.get? i = some r →
        ∀ name x, r.get? name = some x → x.isReal = false := by
  obtain ⟨hstatic, hrecords⟩ := kinds_static
  constructor
  · have hvalue : successor.eval lowestAnalysis lowestStack
        = .ok (.integer (Int64.minValue + 1)) := rfl
    exact ⟨_, hvalue, (hstatic _ _ _ _ hvalue).trans rfl⟩
  · have haccepts : accepts integerSource = true := by decide +kernel
    obtain ⟨tree, a, htree, ha⟩ := exists_analysis haccepts
    have hchecked : (tokenize integerSource).all
        (fun t => t.toOption.all fun t => !t.value.makesReal) = true := by decide +kernel
    have htokens : ∀ t, .ok t ∈ tokenize integerSource → t.value.makesReal = false := by
      intro t ht
      have hnot : (!t.value.makesReal) = true := List.all_eq_true.1 hchecked _ ht
      rwa [Bool.not_eq_true'] at hnot
    exact ⟨tree, a, htree, ha, htokens, hrecords _ tree a htree ha htokens 5⟩

end MiniPascal
