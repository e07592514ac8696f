/-
# Activations

An activation record holds the variables bound while a body runs, and links to the
record of the body around it in the text.  The records of all running bodies form the
call stack, counted from the bottom; the static chain of a stack is what the links lead
through from the top.

* `CallStack.get?_push`, `CallStack.get?_set` : a record keeps its index, and binding a
  name changes one record only;
* `CallStack.resolve_eq_some` : a level is resolved to a record of that level on the
  static chain.
-/
import MiniPascal.Column
import MiniPascal.NameTable
import MiniPascal.Number

set_option autoImplicit false

namespace MiniPascal

/-! ## Records -/

/-- What kind of body a record belongs to. -/
inductive BodyKind where
  | program
  | procedure
  deriving DecidableEq, Repr

/-- The name of a kind of body. -/
def BodyKind.text : BodyKind → String
  | .program => "PROGRAM"
  | .procedure => "PROCEDURE"

/-- The record of one run of a body. -/
structure ActivationRecord where
  name : String
  kind : BodyKind
  level : Nat
  staticLink : Option Nat
  members : NameTable Number

namespace ActivationRecord

/-- A record that binds nothing. -/
def new (name : String) (kind : BodyKind) (level : Nat) (staticLink : Option Nat) :
    ActivationRecord :=
  ⟨name, kind, level, staticLink, .empty⟩

/-- The value bound to a name. -/
def get? (r : ActivationRecord) (name : String) : Option Number :=
  r.members.find? name

/-- Bind a name, replacing an older binding. -/
def set (r : ActivationRecord) (name : String) (value : Number) : ActivationRecord :=
  { r with members := r.members.set name value }

/-- The text of a record: a line for the body and one for each binding. -/
def text (r : ActivationRecord) : String :=
  "\n".intercalate
    ((toString r.level ++ ": " ++ r.kind.text ++ " " ++ r.name) ::
      r.members.entries.map fun (name, value) =>
        "   " ++ alignLeft 20 name ++ ": " ++ value.text)

end ActivationRecord

/-! ## The stack -/

/-- The records of the running bodies, the innermost first.  Records are counted from
the bottom, so a record keeps its index while others come and go above it. -/
structure CallStack where
  records : List ActivationRecord

namespace CallStack

/-- The stack without records. -/
def empty : CallStack := ⟨[]⟩

/-- The number of records. -/
def size (s : CallStack) : Nat := s.records.length

/-- Put a record on top. -/
def push (s : CallStack) (r : ActivationRecord) : CallStack := ⟨r :: s.records⟩

/-- Take the top record away. -/
def pop (s : CallStack) : CallStack := ⟨s.records.tail⟩

/-- The top record. -/
def top? (s : CallStack) : Option ActivationRecord := s.records.head?

/-- The record at an index from the bottom. -/
def get? (s : CallStack) (index : Nat) : Option ActivationRecord :=
  if index < s.size then s.records[s.size - 1 - index]? else none

/-- Bind a name in the record at an index, if there is one. -/
def set? (s : CallStack) (index : Nat) (name : String) (value : Number) : Option CallStack :=
  if index < s.size then
    some ⟨s.records.modify (s.size - 1 - index) (·.set name value)⟩
  else none

/-- The text of a stack, from the top down. -/
def text (s : CallStack) : String :=
  "\n".intercalate ("CALL STACK" :: s.records.map ActivationRecord.text)

/-! ## Records under their indices -/

@[simp] theorem size_push (s : CallStack) (r : ActivationRecord) :
    (s.push r).size = s.size + 1 := rfl

@[simp] theorem pop_push (s : CallStack) (r : ActivationRecord) : (s.push r).pop = s := rfl

theorem size_pop (s : CallStack) : s.pop.size = s.size - 1 := List.length_tail

/-- Exactly the indices below the size have a record. -/
theorem get?_eq_none_iff {s : CallStack} {index : Nat} :
    s.get? index = none ↔ s.size ≤ index := by
  unfold get?
  split
  next h =>
    rw [List.getElem?_eq_none_iff]
    show s.size ≤ s.size - 1 - index ↔ s.size ≤ index
    omega
  next h => simp [Nat.le_of_not_lt h]

/-- **A new record** has the next index, and all others keep theirs. -/
theorem get?_push (s : CallStack) (r : ActivationRecord) (index : Nat) :
    (s.push r).get? index = if index = s.size then some r else s.get? index := by
  unfold get?
  rw [size_push]
  split
  next h =>
    split
    next heq =>
      rw [heq, Nat.add_sub_cancel, Nat.sub_self]
      rfl
    next hne =>
      have hlt : index < s.size := by omega
      rw [if_pos hlt, show s.size + 1 - 1 - index = (s.size - 1 - index) + 1 by omega]
      rfl
  next h => rw [if_neg (by omega), if_neg (by omega)]

/-- Binding a name keeps the size. -/
theorem size_set {s t : CallStack} {index : Nat} {name : String} {value : Number}
    (h : s.set? index name value = some t) : t.size = s.size := by
  unfold set? at h
  split at h
  · cases h
    exact List.length_modify ..
  · cases h

/-- **Binding a name** changes the record at the index and no other. -/
theorem get?_set {s t : CallStack} {index : Nat} {name : String} {value : Number}
    (h : s.set? index name value = some t) (other : Nat) :
    t.get? other =
      if other = index then (s.get? index).map (·.set name value) else s.get? other := by
  have hsize := size_set h
  unfold get?
  rw [hsize]
  unfold set? at h
  split at h
  next hindex =>
    cases h
    by_cases hother : other < s.size
    · by_cases heq : other = index
      · subst heq
        simp [hother]
      · have hne : s.size - 1 - index ≠ s.size - 1 - other := by omega
        rw [if_pos hother, if_neg heq, if_pos hother, List.getElem?_modify]
        simp [hne]
    · rw [if_neg hother, if_neg (by omega), if_neg hother]
  next => cases h

/-! ## The static chain -/

/-- The records that the static links lead through from an index on, with their
indices; at most `steps` of them. -/
def chainFrom (s : CallStack) : Nat → Nat → List (Nat × ActivationRecord)
  | 0, _ => []
  | steps + 1, index =>
    match s.get? index with
    | none => []
    | some r => (index, r) :: match r.staticLink with
      | none => []
      | some link => s.chainFrom steps link

/-- The records that the static links lead through from the top.  Links that form no
cycle lead through no more records than there are. -/
def staticChain (s : CallStack) : List (Nat × ActivationRecord) :=
  s.chainFrom s.size (s.size - 1)

/-- The index of the first record on the static chain that has a level. -/
def resolve (s : CallStack) (level : Nat) : Option Nat :=
  (s.staticChain.find? fun entry => entry.2.level == level).map Prod.fst

/-- The chain lists records of the stack under their indices. -/
theorem get?_of_mem_chainFrom {s : CallStack} {steps index : Nat}
    {entry : Nat × ActivationRecord} (h : entry ∈ s.chainFrom steps index) :
    s.get? entry.1 = some entry.2 := by
  induction steps generalizing index with
  | zero => cases h
  | succ steps ih =>
      unfold chainFrom at h
      split at h
      · cases h
      next r hr =>
        rcases List.mem_cons.1 h with rfl | h
        · exact hr
        · split at h
          · cases h
          · exact ih h

/-- **A level is resolved** to a record of that level on the static chain. -/
theorem resolve_eq_some {s : CallStack} {level index : Nat} (h : s.resolve level = some index) :
    ∃ r, (index, r) ∈ s.staticChain ∧ s.get? index = some r ∧ r.level = level := by
  obtain ⟨entry, hfind, rfl⟩ := Option.map_eq_some_iff.1 h
  have hmem := List.mem_of_find?_eq_some hfind
  have hlevel := List.find?_some hfind
  exact ⟨entry.2, hmem, get?_of_mem_chainFrom hmem, beq_iff_eq.1 hlevel⟩

end CallStack

end MiniPascal
