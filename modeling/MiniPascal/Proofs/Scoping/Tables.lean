/-
# Tables of symbols

A scope is a table of symbols in the code point order of their names.  The first symbol of a name
stays, and later ones are refused, so what the table holds depends on the order of insertions
among symbols of one name only.

* `Scope.gains_of_insert` : what an insertion does to a scope;
* `Scope.lookup_insertAll` : what a name stands for after insertions in turn;
* `Scope.proper_global`, `Scope.Proper.insert` : every symbol stands under its own name;
* `Scope.insertAll_firstWins` : scopes that are made by insertions.
-/
import MiniPascal.Scope

set_option autoImplicit false

namespace MiniPascal

/-- Every symbol of a scope stands under its own name. -/
def Scope.Proper (scope : Scope) : Prop :=
  ∀ name symbol, scope.lookup name = some symbol → symbol.name = name

namespace Scope

/-! ## One insertion -/

/-- A scope with one more symbol, under a name that was free. -/
structure Gains (scope : Scope) (symbol : Symbol) (grown : Scope) : Prop where
  name : grown.name = scope.name
  level : grown.level = scope.level
  enclosing : grown.enclosing = scope.enclosing
  free : scope.lookup symbol.name = none
  lookup : ∀ name,
    grown.lookup name = if name = symbol.name then some symbol else scope.lookup name

/-- A scope that is the same as before, with all its symbols and maybe more. -/
structure Keeps (scope grown : Scope) : Prop where
  name : grown.name = scope.name
  level : grown.level = scope.level
  enclosing : grown.enclosing = scope.enclosing
  symbols : ∀ name symbol, scope.lookup name = some symbol → grown.lookup name = some symbol

section Insertion

variable {scope grown later : Scope} {symbol : Symbol}

/-- **An insertion** adds one symbol, if it is not refused. -/
theorem gains_of_insert (h : scope.insert? symbol = some grown) : scope.Gains symbol grown := by
  have hlookup := lookup_insert h
  unfold insert? at h
  split at h
  · cases h
  next hfree =>
    cases h
    exact ⟨rfl, rfl, rfl, hfree, hlookup⟩

/-- One more symbol replaces none. -/
theorem Gains.keeps (h : scope.Gains symbol grown) : scope.Keeps grown := by
  refine ⟨h.name, h.level, h.enclosing, fun name found hfound => ?_⟩
  have hname : name ≠ symbol.name := by
    rintro rfl
    rw [h.free] at hfound
    cases hfound
  rw [h.lookup, if_neg hname]
  exact hfound

theorem Keeps.refl (scope : Scope) : scope.Keeps scope := ⟨rfl, rfl, rfl, fun _ _ h => h⟩

theorem Keeps.trans (h : scope.Keeps grown) (hlater : grown.Keeps later) : scope.Keeps later :=
  ⟨hlater.name.trans h.name, hlater.level.trans h.level, hlater.enclosing.trans h.enclosing,
    fun name symbol hsymbol => hlater.symbols name symbol (h.symbols name symbol hsymbol)⟩

theorem level_insert (h : scope.insert? symbol = some grown) : grown.level = scope.level :=
  (gains_of_insert h).level

/-- Inserted symbols stand under their own names. -/
theorem Proper.insert (hscope : scope.Proper) (h : scope.insert? symbol = some grown) :
    grown.Proper := by
  intro name found hfound
  rw [lookup_insert h] at hfound
  split at hfound
  next heq =>
    cases hfound
    exact heq.symm
  next => exact hscope name found hfound

end Insertion

/-- A scope after an insertion, which may be refused. -/
def inserting (scope : Scope) (symbol : Symbol) : Scope := (scope.insert? symbol).getD scope

/-- **After an insertion** a name stands for what it stood for before, or else for the symbol
if that is its name. -/
theorem lookup_inserting (scope : Scope) (symbol : Symbol) (name : String) :
    (scope.inserting symbol).lookup name
      = (scope.lookup name).or ([symbol].find? (·.name == name)) := by
  unfold inserting
  rw [List.find?_singleton]
  cases hgrown : scope.insert? symbol with
  | none =>
      -- the symbol is refused, so its name stands for another one
      rw [Option.getD_none]
      by_cases hname : symbol.name = name
      · obtain ⟨found, hfound⟩ := Option.isSome_iff_exists.1 (insert?_eq_none_iff.1 hgrown)
        rw [← hname, hfound, Option.some_or]
      · rw [if_neg (by simpa using hname), Option.or_none]
  | some grown =>
      rw [Option.getD_some, lookup_insert hgrown]
      by_cases hname : name = symbol.name
      · rw [if_pos hname, hname, (gains_of_insert hgrown).free, if_pos (beq_self_eq_true _),
          Option.none_or]
      · rw [if_neg hname, if_neg (by simpa using Ne.symm hname), Option.or_none]

theorem inserting_eq (scope : Scope) (symbol : Symbol) :
    scope.inserting symbol = { scope with symbols := (scope.inserting symbol).symbols } := by
  unfold inserting insert?
  cases scope.lookup symbol.name <;> rfl

/-! ## Insertions in turn -/

/-- A scope after insertions in turn. -/
def insertAll (scope : Scope) (symbols : List Symbol) : Scope :=
  symbols.foldl inserting scope

/-- **After insertions in turn** a name stands for what it stood for before, or else for the
first symbol of that name. -/
theorem lookup_insertAll (scope : Scope) (symbols : List Symbol) (name : String) :
    (scope.insertAll symbols).lookup name
      = (scope.lookup name).or (symbols.find? (·.name == name)) := by
  induction symbols generalizing scope with
  | nil => exact (Option.or_none).symm
  | cons first rest ih =>
      show ((scope.inserting first).insertAll rest).lookup name = _
      rw [ih, lookup_inserting, Option.or_assoc, ← List.find?_append, List.singleton_append]

/-- Insertions in turn change nothing but the symbols. -/
theorem insertAll_eq (scope : Scope) (symbols : List Symbol) :
    scope.insertAll symbols = { scope with symbols := (scope.insertAll symbols).symbols } := by
  induction symbols generalizing scope with
  | nil => rfl
  | cons first rest ih =>
      show (scope.inserting first).insertAll rest
        = { scope with symbols := ((scope.inserting first).insertAll rest).symbols }
      have hrest := ih (scope.inserting first)
      rw [inserting_eq] at hrest ⊢
      exact hrest

/-- Scopes that differ in nothing that is found in them are equal. -/
theorem insertAll_congr {scope : Scope} {symbols others : List Symbol}
    (h : ∀ name, (scope.insertAll others).lookup name = (scope.insertAll symbols).lookup name) :
    scope.insertAll others = scope.insertAll symbols := by
  have hsymbols : (scope.insertAll others).symbols = (scope.insertAll symbols).symbols :=
    NameTable.ext h
  rw [insertAll_eq, hsymbols, ← insertAll_eq]

/-! ## New scopes -/

/-- The symbols of the builtin types. -/
def builtins : List Symbol := [.type .integer, .type .real]

/-- **The global scope** is made by inserting the builtin types. -/
theorem global_eq : global = (new "global" globalLevel none).insertAll builtins := rfl

/-- What the global scope holds at the start: each builtin type under its name. -/
theorem lookup_global (name : String) (symbol : Symbol) :
    global.lookup name = some symbol ↔ ∃ t : BuiltinType, t.name = name ∧ symbol = .type t := by
  have hlookup : global.lookup name = builtins.find? (·.name == name) := by
    rw [global_eq, lookup_insertAll]
    rfl
  rw [hlookup]
  constructor
  · intro h
    have hmem := List.mem_of_find?_eq_some h
    have hname := List.find?_some h
    obtain ⟨t, rfl⟩ : ∃ t, symbol = .type t := by
      rcases List.mem_cons.1 hmem with rfl | hmem
      · exact ⟨.integer, rfl⟩
      · exact ⟨.real, List.mem_singleton.1 hmem⟩
    exact ⟨t, eq_of_beq hname, rfl⟩
  · rintro ⟨t, rfl, rfl⟩
    cases t <;> rfl

theorem proper_global : global.Proper := by
  intro name symbol h
  obtain ⟨t, rfl, rfl⟩ := (lookup_global name symbol).1 h
  rfl

/-- A scope as it is made, with the symbols that it holds then. -/
inductive StartsWith : Scope → List Symbol → Prop where
  | new (name : String) (level : Nat) (enclosing : Option String) :
      StartsWith (new name level enclosing) []
  | global : StartsWith global builtins

/-- **Scopes are made by insertions** into empty ones. -/
theorem StartsWith.exists_eq {scope : Scope} {initial : List Symbol}
    (h : scope.StartsWith initial) :
    ∃ name level enclosing, scope = (Scope.new name level enclosing).insertAll initial := by
  cases h with
  | new name level enclosing => exact ⟨name, level, enclosing, rfl⟩
  | global => exact ⟨"global", globalLevel, none, global_eq⟩

/-- What a name stands for in a scope that is made by insertions. -/
theorem StartsWith.lookup_insertAll {scope : Scope} {initial : List Symbol}
    (h : scope.StartsWith initial) (symbols : List Symbol) (name : String) :
    (scope.insertAll symbols).lookup name = (initial ++ symbols).find? (·.name == name) := by
  obtain ⟨label, level, enclosing, rfl⟩ := h.exists_eq
  rw [Scope.lookup_insertAll, Scope.lookup_insertAll, Option.or_assoc, List.find?_append]
  exact Option.none_or

/-! ## Listing symbols -/

/-- The listed symbols are those that are found under their names. -/
theorem Proper.mem_values_iff {scope : Scope} (h : scope.Proper) (symbol : Symbol) :
    symbol ∈ scope.symbols.values ↔ scope.lookup symbol.name = some symbol := by
  constructor
  · intro hmem
    obtain ⟨⟨name, _⟩, hentry, rfl⟩ := List.mem_map.1 hmem
    have hfound := (NameTable.mem_entries_iff _ _ _).1 hentry
    show scope.symbols.find? _ = _
    rw [h name _ hfound]
    exact hfound
  · intro hfound
    exact List.mem_map_of_mem ((NameTable.mem_entries_iff _ symbol.name _).2 hfound)

/-- **Symbols are listed** in the order of their names. -/
theorem Proper.pairwise_values {scope : Scope} (h : scope.Proper) :
    (scope.symbols.values.map Symbol.name).Pairwise (· < ·) := by
  have hnames : scope.symbols.values.map Symbol.name = scope.symbols.entries.map Prod.fst := by
    rw [NameTable.values, List.map_map]
    refine List.map_congr_left fun entry hentry => ?_
    exact h entry.1 entry.2 ((NameTable.mem_entries_iff _ _ _).1 hentry)
  rw [hnames]
  exact List.pairwise_map.2 scope.symbols.ordered

/-! ## Scopes that are made by insertions -/

/-- Sequences of the same symbols in which those of one name come in the same order, while
different names may come in any order. -/
def Rearranged (symbols others : List Symbol) : Prop :=
  ∀ name, others.filter (·.name == name) = symbols.filter (·.name == name)

/-- **The first symbol of a name wins.**  Take a new scope, or the global one with the builtin
types, and insert any symbols in turn.  The next insertion is accepted exactly if no symbol came
before under the same name.  A name stands for the first symbol that came under it, or
for nothing.  Every symbol is stored under its own name, the symbols are listed in strictly
increasing order of their names, each name that came is listed, and what is listed is what is
found.  The scope is the same in whatever order different names came. -/
theorem insertAll_firstWins {scope : Scope} {initial : List Symbol}
    (h : scope.StartsWith initial) (symbols : List Symbol) :
    (∀ symbol, ((scope.insertAll symbols).insert? symbol).isSome ↔
      ∀ s ∈ initial ++ symbols, s.name ≠ symbol.name) ∧
    (∀ name, (scope.insertAll symbols).lookup name
      = (initial ++ symbols).find? (·.name == name)) ∧
    (∀ entry ∈ (scope.insertAll symbols).symbols.entries, entry.2.name = entry.1) ∧
    ((scope.insertAll symbols).symbols.values.map Symbol.name).Pairwise (· < ·) ∧
    (∀ name, name ∈ (scope.insertAll symbols).symbols.values.map Symbol.name ↔
      ∃ s ∈ initial ++ symbols, s.name = name) ∧
    (∀ symbol, symbol ∈ (scope.insertAll symbols).symbols.values ↔
      (initial ++ symbols).find? (·.name == symbol.name) = some symbol) ∧
    ∀ others, Rearranged symbols others →
      scope.insertAll others = scope.insertAll symbols := by
  have hlookup := h.lookup_insertAll symbols
  have hproper : (scope.insertAll symbols).Proper := by
    intro name symbol hsymbol
    rw [hlookup] at hsymbol
    have hname := List.find?_some hsymbol
    exact eq_of_beq hname
  have hlisted : ∀ symbol, symbol ∈ (scope.insertAll symbols).symbols.values ↔
      (initial ++ symbols).find? (·.name == symbol.name) = some symbol := by
    intro symbol
    rw [hproper.mem_values_iff, hlookup]
  refine ⟨fun symbol => ?_, hlookup, fun entry hentry => ?_, hproper.pairwise_values,
    fun name => ?_, hlisted, fun others hothers => ?_⟩
  · rw [← Option.not_isNone, Bool.not_eq_true', ← Bool.not_eq_true, Option.isNone_iff_eq_none,
      insert?_eq_none_iff, hlookup, List.find?_isSome]
    simp
  · exact hproper entry.1 entry.2 ((NameTable.mem_entries_iff _ _ _).1 hentry)
  · constructor
    · intro hname
      obtain ⟨symbol, hsymbol, rfl⟩ := List.mem_map.1 hname
      exact ⟨symbol, List.mem_of_find?_eq_some ((hlisted symbol).1 hsymbol), rfl⟩
    · rintro ⟨s, hs, rfl⟩
      -- the first symbol of the name is listed in place of a later one
      have hsome : ((initial ++ symbols).find? (·.name == s.name)).isSome :=
        List.find?_isSome.2 ⟨s, hs, beq_self_eq_true _⟩
      obtain ⟨symbol, hfound⟩ := Option.isSome_iff_exists.1 hsome
      have hname := List.find?_some hfound
      obtain heq : symbol.name = s.name := eq_of_beq hname
      rw [← heq] at hfound ⊢
      exact List.mem_map_of_mem ((hlisted symbol).2 hfound)
  · apply insertAll_congr
    intro name
    rw [Scope.lookup_insertAll, Scope.lookup_insertAll, ← List.head?_filter, hothers name,
      List.head?_filter]

/-- Symbols that clash with one another and with a builtin type. -/
def clashingSymbols : List Symbol :=
  [.var ⟨"b", .integer⟩, .procedure ⟨"a", [], globalLevel, ⟨[], []⟩⟩, .var ⟨"REAL", .integer⟩,
    .var ⟨"b", .real⟩]

/-- The clashing symbols are inserted into the global scope, also in another order. -/
theorem clashingSymbols_firstWins : global.StartsWith builtins ∧
    (global.insertAll clashingSymbols).lookup "b" = some (.var ⟨"b", .integer⟩) ∧
    (global.insertAll clashingSymbols).lookup "REAL" = some (.type .real) ∧
    ((global.insertAll clashingSymbols).insert? (.var ⟨"c", .real⟩)).isSome ∧
    Rearranged clashingSymbols
      [.procedure ⟨"a", [], globalLevel, ⟨[], []⟩⟩, .var ⟨"REAL", .integer⟩,
        .var ⟨"b", .integer⟩, .var ⟨"b", .real⟩] ∧
    global.insertAll [.procedure ⟨"a", [], globalLevel, ⟨[], []⟩⟩, .var ⟨"REAL", .integer⟩,
        .var ⟨"b", .integer⟩, .var ⟨"b", .real⟩]
      = global.insertAll clashingSymbols := by
  obtain ⟨haccepted, hlookup, -, -, -, -, hsame⟩ :=
    insertAll_firstWins .global clashingSymbols
  have hrearranged : Rearranged clashingSymbols
      [.procedure ⟨"a", [], globalLevel, ⟨[], []⟩⟩, .var ⟨"REAL", .integer⟩,
        .var ⟨"b", .integer⟩, .var ⟨"b", .real⟩] := by
    intro name
    by_cases hb : "b" = name
    · subst hb
      rfl
    · have hname : ("b" == name) = false := beq_false_of_ne hb
      simp [clashingSymbols, List.filter_cons, Symbol.name, hname]
  refine ⟨.global, (hlookup "b").trans rfl, (hlookup "REAL").trans rfl, ?_, hrearranged,
    hsame _ hrearranged⟩
  rw [haccepted]
  decide

end Scope

end MiniPascal
