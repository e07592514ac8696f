/-
# Name tables

A name table binds names to values and lists its bindings in the code point order of
the names.  The order is part of the type, so a table is determined by what it binds.

* `find?_set_self`, `find?_set_of_ne` : setting a name binds that name and no other;
* `ext` : two tables that bind the same names to the same values are equal.
-/

set_option autoImplicit false

namespace MiniPascal

/-! ## Sorted bindings -/

/-- Bind `name` among sorted bindings, replacing an older binding. -/
def bindName {α : Type} (name : String) (value : α) : List (String × α) → List (String × α)
  | [] => [(name, value)]
  | (other, old) :: rest =>
    if name < other then (name, value) :: (other, old) :: rest
    else if other < name then (other, old) :: bindName name value rest
    else (name, value) :: rest

/-- A name among the bindings after one more is an older one or the new one. -/
theorem mem_bindName {α : Type} {name : String} {value : α} {entries : List (String × α)}
    {entry : String × α} (h : entry ∈ bindName name value entries) :
    entry = (name, value) ∨ entry ∈ entries := by
  induction entries with
  | nil => exact Or.inl (List.mem_singleton.1 h)
  | cons first rest ih =>
      unfold bindName at h
      split at h
      · exact List.mem_cons.1 h
      · split at h
        · rcases List.mem_cons.1 h with h | h
          · exact Or.inr (h ▸ List.mem_cons_self)
          · rcases ih h with h | h
            · exact Or.inl h
            · exact Or.inr (List.mem_cons_of_mem _ h)
        · rcases List.mem_cons.1 h with h | h
          · exact Or.inl h
          · exact Or.inr (List.mem_cons_of_mem _ h)

/-- One more binding keeps the order of the names. -/
theorem pairwise_bindName {α : Type} (name : String) (value : α)
    {entries : List (String × α)} (h : entries.Pairwise (·.1 < ·.1)) :
    (bindName name value entries).Pairwise (·.1 < ·.1) := by
  induction entries with
  | nil => exact List.pairwise_singleton _ _
  | cons first rest ih =>
      obtain ⟨other, old⟩ := first
      have hfirst := (List.pairwise_cons.1 h).1
      have hrest := (List.pairwise_cons.1 h).2
      unfold bindName
      split
      next hlt =>
        refine List.pairwise_cons.2 ⟨fun entry hentry => ?_, h⟩
        rcases List.mem_cons.1 hentry with rfl | hentry
        · exact hlt
        · exact String.lt_trans hlt (hfirst entry hentry)
      next hnlt =>
        split
        next hgt =>
          refine List.pairwise_cons.2 ⟨fun entry hentry => ?_, ih hrest⟩
          rcases mem_bindName hentry with rfl | hentry
          · exact hgt
          · exact hfirst entry hentry
        next hngt =>
          have heq : name = other :=
            String.le_antisymm (String.not_lt.1 hngt) (String.not_lt.1 hnlt)
          refine List.pairwise_cons.2 ⟨fun entry hentry => ?_, hrest⟩
          rw [heq]
          exact hfirst entry hentry

/-! ## Tables -/

/-- A table of bindings in the order of their names. -/
structure NameTable (α : Type) where
  entries : List (String × α)
  ordered : entries.Pairwise (·.1 < ·.1)

namespace NameTable

variable {α : Type}

/-- The table without bindings. -/
def empty : NameTable α := ⟨[], List.Pairwise.nil⟩

/-- The value bound to a name. -/
def find? (t : NameTable α) (name : String) : Option α :=
  t.entries.lookup name

/-- Bind a name, replacing an older binding. -/
def set (t : NameTable α) (name : String) (value : α) : NameTable α :=
  ⟨bindName name value t.entries, pairwise_bindName name value t.ordered⟩

/-- The bound values in the order of the names. -/
def values (t : NameTable α) : List α := t.entries.map Prod.snd

/-! ## What a table binds -/

@[simp] theorem find?_empty (name : String) : (empty : NameTable α).find? name = none := rfl

/-- Setting a name binds it. -/
@[simp] theorem find?_set_self (t : NameTable α) (name : String) (value : α) :
    (t.set name value).find? name = some value := by
  obtain ⟨entries, ordered⟩ := t
  show (bindName name value entries).lookup name = some value
  clear ordered
  induction entries with
  | nil => simp [bindName]
  | cons first rest ih =>
      obtain ⟨other, old⟩ := first
      unfold bindName
      split
      · simp
      · split
        next hgt =>
          have hne : (name == other) = false :=
            beq_false_of_ne fun h => String.lt_irrefl other (h ▸ hgt)
          simp [List.lookup_cons, hne, ih]
        next => simp

/-- Setting a name leaves the other names alone. -/
theorem find?_set_of_ne (t : NameTable α) {name other : String} (value : α)
    (h : other ≠ name) : (t.set name value).find? other = t.find? other := by
  obtain ⟨entries, ordered⟩ := t
  show (bindName name value entries).lookup other = entries.lookup other
  clear ordered
  have hne : (other == name) = false := beq_false_of_ne h
  induction entries with
  | nil => simp [bindName, List.lookup_cons, hne]
  | cons first rest ih =>
      obtain ⟨key, old⟩ := first
      unfold bindName
      split
      · simp [List.lookup_cons, hne]
      next hnlt =>
        split
        · simp [List.lookup_cons, ih]
        next hngt =>
          have heq : name = key :=
            String.le_antisymm (String.not_lt.1 hngt) (String.not_lt.1 hnlt)
          simp [List.lookup_cons, ← heq, hne]

/-- A table lists exactly the bindings that it finds. -/
theorem mem_entries_iff (t : NameTable α) (name : String) (value : α) :
    (name, value) ∈ t.entries ↔ t.find? name = some value := by
  obtain ⟨entries, ordered⟩ := t
  show (name, value) ∈ entries ↔ entries.lookup name = some value
  induction entries with
  | nil => simp
  | cons first rest ih =>
      obtain ⟨key, old⟩ := first
      have hfirst := (List.pairwise_cons.1 ordered).1
      have hrest := (List.pairwise_cons.1 ordered).2
      by_cases hkey : name = key
      · subst hkey
        have hnot : ∀ v, (name, v) ∉ rest := fun v hv =>
          String.lt_irrefl name (hfirst (name, v) hv)
        simp [hnot, eq_comm]
      · have hne : (name == key) = false := beq_false_of_ne hkey
        simp [List.lookup_cons, hkey, hne, ih hrest]

/-- **Extensionality.**  Two tables that bind the same names to the same values are
equal. -/
theorem ext {s t : NameTable α} (h : ∀ name, s.find? name = t.find? name) : s = t := by
  obtain ⟨left, hleft⟩ := s
  obtain ⟨right, hright⟩ := t
  suffices heq : left = right by subst heq; rfl
  have hmem : ∀ entry, entry ∈ left ↔ entry ∈ right := by
    intro entry
    have hl := mem_entries_iff ⟨left, hleft⟩ entry.1 entry.2
    have hr := mem_entries_iff ⟨right, hright⟩ entry.1 entry.2
    rw [h entry.1] at hl
    exact hl.trans hr.symm
  clear h
  induction left generalizing right with
  | nil =>
      cases right with
      | nil => rfl
      | cons first rest => exact absurd ((hmem first).2 List.mem_cons_self) (by simp)
  | cons first rest ih =>
      cases right with
      | nil => exact absurd ((hmem first).1 List.mem_cons_self) (by simp)
      | cons other more =>
          have hl := List.pairwise_cons.1 hleft
          have hr := List.pairwise_cons.1 hright
          have hfirst : first = other := by
            rcases List.mem_cons.1 ((hmem first).1 List.mem_cons_self) with heq | hin
            · exact heq
            · rcases List.mem_cons.1 ((hmem other).2 List.mem_cons_self) with heq | hin'
              · exact heq.symm
              · exact absurd (hl.1 other hin') (String.lt_asymm (hr.1 first hin))
          subst hfirst
          have hmore : rest = more := by
            refine ih hl.2 more hr.2 fun entry => ?_
            have hentry := hmem entry
            constructor
            · intro hin
              rcases List.mem_cons.1 (hentry.1 (List.mem_cons_of_mem _ hin)) with heq | hout
              · exact absurd (hl.1 entry hin) (heq ▸ String.lt_irrefl _)
              · exact hout
            · intro hin
              rcases List.mem_cons.1 (hentry.2 (List.mem_cons_of_mem _ hin)) with heq | hout
              · exact absurd (hr.1 entry hin) (heq ▸ String.lt_irrefl _)
              · exact hout
          rw [hmore]

end NameTable

end MiniPascal
