/-
# Computations in lock step

Two computations run in lock step if they succeed or fail together: started on related states
they end on related states, with related values or with related errors.

* `Lockstep.bind` : what runs in lock step part by part runs in lock step as a whole.
-/

set_option autoImplicit false

namespace MiniPascal

/-- Answers that say nothing are related. -/
abbrev Silent (_ _ : Unit) : Prop := True

section Lockstep

variable {ε ε' σ σ' α α' β β' : Type} {states : σ → σ' → Prop} {errors : ε → ε' → Prop}

/-- Two results that are related: both are values or both are errors, and the states
behind them are related. -/
inductive EndAlike (states : σ → σ' → Prop) (errors : ε → ε' → Prop)
    (values : α → α' → Prop) : EStateM.Result ε σ α → EStateM.Result ε' σ' α' → Prop where
  | ok {x : α} {x' : α'} {s : σ} {s' : σ'} (hvalue : values x x') (hstate : states s s') :
      EndAlike states errors values (.ok x s) (.ok x' s')
  | error {e : ε} {e' : ε'} {s : σ} {s' : σ'} (herror : errors e e') (hstate : states s s') :
      EndAlike states errors values (.error e s) (.error e' s')

/-- Two computations that end alike wherever they start on related states. -/
def Lockstep (states : σ → σ' → Prop) (errors : ε → ε' → Prop) (values : α → α' → Prop)
    (run : EStateM ε σ α) (run' : EStateM ε' σ' α') : Prop :=
  ∀ s s', states s s' → EndAlike states errors values (run s) (run' s')

/-- Two answers that are related: both are values or both are errors. -/
inductive AnswersAlike (errors : ε → ε' → Prop) (values : α → α' → Prop) :
    Except ε α → Except ε' α' → Prop where
  | ok {x : α} {x' : α'} (hvalue : values x x') : AnswersAlike errors values (.ok x) (.ok x')
  | error {e : ε} {e' : ε'} (herror : errors e e') :
      AnswersAlike errors values (.error e) (.error e')

variable {values : α → α' → Prop} {later : β → β' → Prop} {run : EStateM ε σ α}
  {run' : EStateM ε' σ' α'} {more : α → EStateM ε σ β} {more' : α' → EStateM ε' σ' β'}

theorem Lockstep.pure {x : α} {x' : α'} (h : values x x') :
    Lockstep states errors values (pure x : EStateM ε σ α) (pure x' : EStateM ε' σ' α') := by
  intro s s' hs
  exact .ok h hs

/-- What goes on in lock step behind results that end alike ends alike. -/
theorem EndAlike.bind {s : σ} {s' : σ'} (h : EndAlike states errors values (run s) (run' s'))
    (hmore : ∀ x x', values x x' → Lockstep states errors later (more x) (more' x')) :
    EndAlike states errors later ((run >>= more) s) ((run' >>= more') s') := by
  show EndAlike states errors later (EStateM.bind run more s) (EStateM.bind run' more' s')
  unfold EStateM.bind
  generalize run s = result at h
  generalize run' s' = result' at h
  cases h with
  | ok hvalue hstate => exact hmore _ _ hvalue _ _ hstate
  | error herror hstate => exact .error herror hstate

/-- **What runs in lock step** part by part runs in lock step as a whole. -/
theorem Lockstep.bind (h : Lockstep states errors values run run')
    (hmore : ∀ x x', values x x' → Lockstep states errors later (more x) (more' x')) :
    Lockstep states errors later (run >>= more) (run' >>= more') := by
  intro s s' hs
  exact (h s s' hs).bind hmore

/-- Answers that are related part by part are related as a whole. -/
theorem AnswersAlike.bind {answer : Except ε α} {answer' : Except ε' α'} {next : α → Except ε β}
    {next' : α' → Except ε' β'} (h : AnswersAlike errors values answer answer')
    (hnext : ∀ x x', values x x' → AnswersAlike errors later (next x) (next' x')) :
    AnswersAlike errors later (answer >>= next) (answer' >>= next') := by
  cases h with
  | ok hvalue => exact hnext _ _ hvalue
  | error herror => exact .error herror

/-- Values may be related in a weaker way. -/
theorem AnswersAlike.imp {weaker : α → α' → Prop} {answer : Except ε α} {answer' : Except ε' α'}
    (h : AnswersAlike errors values answer answer')
    (hvalues : ∀ x x', values x x' → weaker x x') :
    AnswersAlike errors weaker answer answer' := by
  cases h with
  | ok hvalue => exact .ok (hvalues _ _ hvalue)
  | error herror => exact .error herror

/-- Answers stay related if related errors are reported in related ways. -/
theorem AnswersAlike.mapError {φ φ' : Type} {reports : φ → φ' → Prop} {answer : Except ε α}
    {answer' : Except ε' α'} {report : ε → φ} {report' : ε' → φ'}
    (h : AnswersAlike errors values answer answer')
    (hreport : ∀ e e', errors e e' → reports (report e) (report' e')) :
    AnswersAlike reports values (answer.mapError report) (answer'.mapError report') := by
  cases h with
  | ok hvalue => exact .ok hvalue
  | error herror => exact .error (hreport _ _ herror)

end Lockstep

end MiniPascal
