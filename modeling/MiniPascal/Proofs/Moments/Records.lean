/-
# The records of a run

Whatever an analysis says, the stack of a run keeps its shape: the record of the program
lies at the bottom, those above it are records of procedures, static links lead down, and
there are no more records than the limit allows.

* `CallStack.Layered` : the shape of a stack, kept by binding, pushing and popping;
* `CallStack.Layered.callCount_add_one` : all records but one are records of calls;
* `stacked_of_leads` : every moment of a run has a stack of this shape;
* `Stays` : runs in which the records up to a size stay on the stack.
-/
import MiniPascal.Proofs.Moments.Steps
import MiniPascal.Proofs.StaticChain

set_option autoImplicit false

namespace MiniPascal

namespace CallStack

/-! ## The shape of a stack -/

/-- **The shape of a stack**: only the bottom record is that of a program, and static
links lead down. -/
structure Layered (s : CallStack) : Prop where
  kind : ∀ i h, s.heading? i = some h → (h.kind = .program ↔ i = 0)
  down : s.LinksDown

/-- The number of active calls. -/
def callCount (s : CallStack) : Nat := s.records.countP fun r => r.kind == .procedure

namespace Layered

variable {s t : CallStack}

/-- The record of a program alone. -/
theorem program (tree : Program) :
    (CallStack.empty.push (Interpreter.programRecord tree)).Layered := by
  have hheading : ∀ i h, (CallStack.empty.push (Interpreter.programRecord tree)).heading? i
      = some h → i = 0 ∧ h.kind = .program ∧ h.staticLink = none := by
    intro i h hi
    rw [heading?_push] at hi
    split at hi
    next hzero =>
      cases hi
      exact ⟨hzero, rfl, rfl⟩
    next hne => exact absurd (lt_size_of_heading? hi) (Nat.not_lt_zero i)
  refine ⟨fun i h hi => ?_, fun i h j hi hlink => ?_⟩
  · obtain ⟨rfl, hkind, -⟩ := hheading i h hi
    exact ⟨fun _ => rfl, fun _ => hkind⟩
  · obtain ⟨-, -, hnone⟩ := hheading i h hi
    rw [hnone] at hlink
    cases hlink

theorem set (h : s.Layered) {index : Nat} {name : String} {value : Number}
    (ht : s.set? index name value = some t) : t.Layered := by
  have hsame := heading?_set ht
  exact ⟨fun i g hi => h.kind i g ((hsame i).symm.trans hi), h.down.congr hsame⟩

theorem call (h : s.Layered) (hpos : 0 < s.size) (p : Procedure) (values : List Number) :
    (s.push (p.activate s values)).Layered := by
  refine ⟨fun i g hi => ?_, h.down.call p values⟩
  rcases heading?_push_activate hi with ⟨rfl, rfl⟩ | hold
  · exact ⟨nofun, fun hzero => absurd hzero (Nat.ne_of_gt hpos)⟩
  · exact h.kind i g hold

theorem pop (h : s.Layered) : s.pop.Layered :=
  ⟨fun i g hi => h.kind i g (heading?_pop hi), h.down.pop⟩

/-- **All records but one** are records of calls. -/
theorem callCount_add_one (h : s.Layered) (hpos : 0 < s.size) : s.callCount + 1 = s.size := by
  obtain ⟨records⟩ := s
  induction records with
  | nil => exact absurd hpos (Nat.lt_irrefl 0)
  | cons r rest ih =>
      have htop : (CallStack.mk (r :: rest)).heading? rest.length = some r.heading := by
        show ((CallStack.mk rest).push r).heading? (CallStack.mk rest).size = _
        rw [heading?_push, if_pos rfl]
      have hkind := h.kind _ _ htop
      cases rest with
      | nil =>
          have hprogram : r.kind = .program := hkind.2 rfl
          simp [callCount, size, hprogram]
      | cons below more =>
          have hne : r.kind ≠ .program := fun hr => absurd (hkind.1 hr) (Nat.succ_ne_zero _)
          have hprocedure : r.kind = .procedure := by
            cases hr : r.kind with
            | program => exact absurd hr hne
            | procedure => rfl
          have hrest := ih h.pop (Nat.succ_pos _)
          have hcons : (CallStack.mk (r :: below :: more)).callCount
              = (CallStack.mk (below :: more)).callCount + 1 := by
            unfold callCount
            rw [List.countP_cons_of_pos (by rw [hprocedure]; rfl)]
          rw [hcons, hrest]
          rfl

end Layered

end CallStack

/-! ## The stack of a moment -/

/-- A moment whose stack has its shape, a record for every body that has been entered, and
no more records than the limit allows. -/
structure Moment.Stacked (limit : Nat) (m : Moment) : Prop where
  layered : m.machine.stack.Layered
  size : m.waiting.length + 1 = m.machine.stack.size
  bound : m.machine.stack.size ≤ limit + 1

theorem stacked_start (tree : Program) (limit : Nat) : (Moment.start tree).Stacked limit :=
  ⟨.program tree, rfl, Nat.succ_le_succ (Nat.zero_le limit)⟩

/-- **Every step** keeps the shape of the stack. -/
theorem stacked_step {a : Analysis} {limit : Nat} {m n : Moment} (h : m.Stacked limit)
    (hstep : m.Step a limit n) : n.Stacked limit := by
  obtain ⟨hlayered, hsize, hbound⟩ := h
  cases hstep with
  | fail _ _ => exact ⟨hlayered, hsize, hbound⟩
  | skip _ _ => exact ⟨hlayered, hsize, hbound⟩
  | expand _ _ => exact ⟨hlayered, hsize, hbound⟩
  | assign _ _ _ _ hset =>
      have hsame := CallStack.size_set hset
      exact ⟨hlayered.set hset, hsize.trans hsame.symm, Nat.le_trans (Nat.le_of_eq hsame) hbound⟩
  | enter _ _ _ hlimit _ =>
      have hpos : 0 < m.machine.stack.size := hsize ▸ Nat.succ_pos _
      exact ⟨hlayered.call hpos _ _, congrArg (· + 1) hsize, Nat.succ_le_succ hlimit⟩
  | @leave caller others _ hwaiting =>
      rw [hwaiting, List.length_cons] at hsize
      have hpop : m.machine.stack.pop.size = m.machine.stack.size - 1 := CallStack.size_pop _
      refine ⟨hlayered.pop, ?_, ?_⟩
      · show others.length + 1 = m.machine.stack.pop.size
        omega
      · show m.machine.stack.pop.size ≤ _
        omega

/-- **Every moment of a run** has a stack of this shape. -/
theorem stacked_of_leads {tree : Program} {a : Analysis} {limit : Nat} {m : Moment}
    (h : Leads a limit (.start tree) m) : m.Stacked limit :=
  h.preserves (fun _ _ => stacked_step) (stacked_start tree limit)

theorem Moment.Stacked.size_pos {limit : Nat} {m : Moment} (h : m.Stacked limit) :
    0 < m.machine.stack.size := h.size ▸ Nat.succ_pos _

/-! ## Moments that keep a record -/

/-- One moment leads to another one, with at least `size` records on the stack all the way. -/
inductive Stays (a : Analysis) (limit size : Nat) : Moment → Moment → Prop where
  | refl {m : Moment} (hsize : size ≤ m.machine.stack.size) : Stays a limit size m m
  | step {m n o : Moment} (hsize : size ≤ m.machine.stack.size) (h : m.next a limit = some n)
      (hrest : Stays a limit size n o) : Stays a limit size m o

/-- The first of such moments has the records on its stack. -/
theorem Stays.size_le {a : Analysis} {limit size : Nat} {m n : Moment}
    (h : Stays a limit size m n) : size ≤ m.machine.stack.size := by
  cases h with
  | refl hsize => exact hsize
  | step hsize _ _ => exact hsize

theorem Stays.snoc {a : Analysis} {limit size : Nat} {m n o : Moment}
    (h : Stays a limit size m n) (hnext : n.next a limit = some o)
    (hsize : size ≤ o.machine.stack.size) : Stays a limit size m o := by
  induction h with
  | refl hm => exact .step hm hnext (.refl hsize)
  | step hm hfirst _ ih => exact .step hm hfirst (ih hnext)

end MiniPascal
