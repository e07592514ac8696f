/-
# Names do not matter

Names only serve to tell apart what is declared.  If all names of a tree are renamed by an
injective function that keeps the names of the builtin types, then the check of the tree
resolves the same nodes to the renamed procedures, or fails with the renamed error, and
every run ends with the renamed record, or with the renamed fault.

* `NameTable.find?_rename` : a renamed table binds the renamed names;
* `Declaration.matches_iff` : a declaration is like exactly one other, the renamed one;
* `ActivationRecord.Matches.eq_rename` : a record is like exactly one other;
* `rename_commutes` : renaming commutes with checking and with execution.
-/
import Mathlib.Logic.Equiv.Basic
import MiniPascal.Proofs.Likeness.Runs
import MiniPascal.Proofs.Scoping.Resolution

set_option autoImplicit false

namespace MiniPascal

/-! ## Renamed trees -/

section Trees

variable (r : String → String)

/-- A renamed variable. -/
def Variable.rename (v : Variable) : Variable := ⟨r v.name, v.id, v.position⟩

/-- An expression with renamed variables. -/
def Expr.rename : Expr → Expr
  | .literal value position => .literal value position
  | .occurrence v => .occurrence (v.rename r)
  | .signed sign operand position => .signed sign operand.rename position
  | .binary op left right position => .binary op left.rename right.rename position

/-- A call of a renamed procedure. -/
def Call.rename (c : Call) : Call :=
  ⟨r c.name, c.id, c.arguments.map (Expr.rename r), c.position⟩

mutual

/-- A statement with renamed variables and calls. -/
def Statement.rename : Statement → Statement
  | .compound body => .compound (Statement.renameAll body)
  | .assign target value position => .assign (target.rename r) (value.rename r) position
  | .call c => .call (c.rename r)
  | .empty => .empty

/-- Statements with renamed variables and calls. -/
def Statement.renameAll : List Statement → List Statement
  | [] => []
  | first :: rest => first.rename :: Statement.renameAll rest

end

/-- A renamed parameter; its type keeps its name. -/
def Parameter.rename (p : Parameter) : Parameter := ⟨r p.name, p.type, p.position⟩

mutual

/-- A renamed declaration; types keep their names. -/
def Declaration.rename : Declaration → Declaration
  | .var name type position => .var (r name) type position
  | .procedure name params declarations body position =>
    .procedure (r name) (params.map (Parameter.rename r)) (Declaration.renameAll declarations)
      (Statement.renameAll r body) position

/-- Renamed declarations. -/
def Declaration.renameAll : List Declaration → List Declaration
  | [] => []
  | first :: rest => first.rename :: Declaration.renameAll rest

end

/-- A renamed block. -/
def Block.rename (b : Block) : Block :=
  ⟨Declaration.renameAll r b.declarations, Statement.renameAll r b.body⟩

/-- A program in which all names of programs, variables, parameters and procedures are renamed,
where they are declared and where they are used. -/
def Program.rename (p : Program) : Program := ⟨r p.name, p.block.rename r, p.position⟩

end Trees

/-! ## Nothing is renamed -/

theorem Expr.rename_id (e : Expr) : e.rename id = e := by
  induction e with
  | literal value position => rfl
  | occurrence v => rfl
  | signed sign operand position ih => rw [rename, ih]
  | binary op left right position ihleft ihright => rw [rename, ihleft, ihright]

theorem rename_id_call (c : Call) : c.rename id = c := by
  have harguments : c.arguments.map (Expr.rename id) = c.arguments :=
    (List.map_congr_left fun e _ => e.rename_id).trans (List.map_id _)
  rw [Call.rename, harguments]
  rfl

mutual

/-- Renaming no name changes no statement. -/
theorem Statement.rename_id (st : Statement) : st.rename id = st := by
  cases st with
  | compound body => rw [Statement.rename, Statement.renameAll_id body]
  | assign target value position =>
      rw [Statement.rename, value.rename_id]
      rfl
  | call c => rw [Statement.rename, rename_id_call c]
  | empty => rw [Statement.rename]

theorem Statement.renameAll_id (body : List Statement) : Statement.renameAll id body = body := by
  cases body with
  | nil => rw [Statement.renameAll]
  | cons first rest =>
      rw [Statement.renameAll, Statement.rename_id first, Statement.renameAll_id rest]

end

/-! ## Renamed answers -/

section Answers

variable (r : String → String)

/-- A renamed variable with its type. -/
def TypedName.rename (v : TypedName) : TypedName := ⟨r v.name, v.type⟩

/-- A renamed procedure. -/
def Procedure.rename (p : Procedure) : Procedure :=
  ⟨r p.name, p.params.map (TypedName.rename r), p.scopeLevel, p.block.rename r⟩

/-- A scope fault with renamed names; an undefined type keeps its name. -/
def ScopeFault.rename : ScopeFault → ScopeFault
  | .undefinedIdentifier name => .undefinedIdentifier (r name)
  | .duplicateIdentifier name => .duplicateIdentifier (r name)
  | .undefinedType name => .undefinedType name
  | .notAVariable name => .notAVariable (r name)
  | .notAProcedure name => .notAProcedure (r name)
  | .argumentCountMismatch name expected found => .argumentCountMismatch (r name) expected found

/-- A scope error with renamed names, at the same place. -/
def ScopeError.rename (e : ScopeError) : ScopeError := ⟨e.value.rename r, e.position⟩

/-- A runtime error with renamed names, at the same place. -/
def RuntimeError.rename (e : RuntimeError) : RuntimeError := ⟨e.value.rename r, e.position⟩

/-- The table that binds renamed names to the same values. -/
def NameTable.rename {α : Type} (t : NameTable α) : NameTable α :=
  t.entries.foldr (fun entry table => table.set (r entry.1) entry.2) .empty

/-- A record that binds renamed names to the same values. -/
def ActivationRecord.rename (record : ActivationRecord) : ActivationRecord :=
  ⟨r record.name, record.kind, record.level, record.staticLink, record.members.rename r⟩

end Answers

/-! ## What a renamed table binds -/

namespace NameTable

variable {α : Type} {r : String → String}

/-- **A renamed table** binds the renamed names to the same values. -/
theorem find?_rename (hr : Function.Injective r) (t : NameTable α) (name : String) :
    (t.rename r).find? (r name) = t.find? name := by
  show NameTable.find? (t.entries.foldr _ .empty) (r name) = t.entries.lookup name
  induction t.entries with
  | nil => rfl
  | cons entry rest ih =>
      obtain ⟨key, value⟩ := entry
      rw [List.foldr_cons]
      by_cases heq : name = key
      · subst heq
        rw [find?_set_self, List.lookup_cons_self]
      · rw [find?_set_of_ne _ _ fun hsame => heq (hr hsame), ih, List.lookup_cons,
          beq_false_of_ne heq]

/-- A renamed table binds renamed names only. -/
theorem find?_rename_eq_none (t : NameTable α) {name : String}
    (hname : ∀ other, r other ≠ name) : (t.rename r).find? name = none := by
  unfold rename
  induction t.entries with
  | nil => rfl
  | cons entry rest ih =>
      rw [List.foldr_cons, find?_set_of_ne _ _ (Ne.symm (hname entry.1)), ih]

end NameTable

/-! ## Trees that are alike -/

/-- The likeness of trees that differ in names only. -/
def Likeness.renaming {r : String → String} (hr : Function.Injective r)
    (hbuiltin : ∀ t : BuiltinType, r t.name = t.name) : Likeness where
  rename := r
  places := Eq
  types := Eq
  declares := fun _ => True
  injective := fun h => hr h
  builtin := hbuiltin
  hides := by
    rintro t t' name rfl -
    constructor
    · intro h
      exact hr ((hbuiltin t).trans h)
    · intro h
      exact (hbuiltin t).symm.trans (congrArg r h)

/-- If each element is related to its image only, so are lists. -/
theorem forall₂_iff_map_eq {α β : Type} {R : α → β → Prop} {f : α → β}
    (h : ∀ x y, R x y ↔ f x = y) {xs : List α} {ys : List β} :
    List.Forall₂ R xs ys ↔ xs.map f = ys := by
  have hR : R = fun x y => f x = y := by
    funext x y
    exact propext (h x y)
  rw [hR, ← List.forall₂_map_left_iff, List.forall₂_eq_eq_eq]

/-- Nothing stands at another place. -/
def Likeness.KeepsPlaces (φ : Likeness) : Prop := ∀ p p', φ.places p p' ↔ p = p'

section Bodies

variable {φ : Likeness}

/-- A variable is like its renamed one only, if its place is kept. -/
theorem Variable.matches_iff (hplaces : φ.KeepsPlaces) (v v' : Variable) :
    v.Matches φ v' ↔ v.rename φ.rename = v' := by
  obtain ⟨name, id, position⟩ := v
  obtain ⟨name', id', position'⟩ := v'
  constructor
  · rintro ⟨rfl, hid, hposition⟩
    obtain rfl : id' = id := hid
    obtain rfl := (hplaces _ _).1 hposition
    rfl
  · intro h
    cases h
    exact ⟨rfl, rfl, (hplaces _ _).2 rfl⟩

/-- An expression is like its renamed one only. -/
theorem Expr.matches_iff (hplaces : φ.KeepsPlaces) (e e' : Expr) :
    e.Matches φ e' ↔ e.rename φ.rename = e' := by
  constructor
  · intro h
    induction h with
    | literal hposition =>
        obtain rfl := (hplaces _ _).1 hposition
        rfl
    | occurrence hv =>
        exact congrArg Expr.occurrence ((Variable.matches_iff hplaces _ _).1 hv)
    | signed _ hposition ih =>
        obtain rfl := (hplaces _ _).1 hposition
        rw [rename, ih]
    | binary _ _ hposition ihleft ihright =>
        obtain rfl := (hplaces _ _).1 hposition
        rw [rename, ihleft, ihright]
  · rintro rfl
    have hkept : ∀ p, φ.places p p := fun p => (hplaces p p).2 rfl
    induction e with
    | literal value position => exact .literal (hkept position)
    | occurrence v => exact .occurrence ((Variable.matches_iff hplaces _ _).2 rfl)
    | signed sign operand position ih => exact .signed ih (hkept position)
    | binary op left right position ihleft ihright =>
        exact .binary ihleft ihright (hkept position)

/-- A call is like its renamed one only. -/
theorem Call.matches_iff (hplaces : φ.KeepsPlaces) (c c' : Call) :
    c.Matches φ c' ↔ c.rename φ.rename = c' := by
  obtain ⟨name, id, arguments, position⟩ := c
  obtain ⟨name', id', arguments', position'⟩ := c'
  constructor
  · rintro ⟨rfl, hid, harguments, hposition⟩
    obtain rfl : id' = id := hid
    obtain rfl := (forall₂_iff_map_eq (Expr.matches_iff hplaces)).1 harguments
    obtain rfl := (hplaces _ _).1 hposition
    rfl
  · intro h
    cases h
    exact ⟨rfl, rfl, (forall₂_iff_map_eq (Expr.matches_iff hplaces)).2 rfl, (hplaces _ _).2 rfl⟩

mutual

/-- A statement is like its renamed one only. -/
theorem Statement.matches_iff (hplaces : φ.KeepsPlaces) (st st' : Statement) :
    st.Matches φ st' ↔ st.rename φ.rename = st' := by
  cases st with
  | compound body =>
      rw [Statement.rename]
      constructor
      · intro h
        cases h with
        | compound hbody => exact congrArg _ ((Statement.matchesAll_iff hplaces body _).1 hbody)
      · rintro rfl
        exact .compound ((Statement.matchesAll_iff hplaces body _).2 rfl)
  | assign target value position =>
      rw [Statement.rename]
      constructor
      · intro h
        cases h with
        | assign htarget hvalue hposition =>
            obtain rfl := (hplaces _ _).1 hposition
            rw [(Variable.matches_iff hplaces _ _).1 htarget,
              (Expr.matches_iff hplaces _ _).1 hvalue]
      · rintro rfl
        exact .assign ((Variable.matches_iff hplaces _ _).2 rfl)
          ((Expr.matches_iff hplaces _ _).2 rfl) ((hplaces _ _).2 rfl)
  | call c =>
      rw [Statement.rename]
      constructor
      · intro h
        cases h with
        | call hc => exact congrArg _ ((Call.matches_iff hplaces _ _).1 hc)
      · rintro rfl
        exact .call ((Call.matches_iff hplaces _ _).2 rfl)
  | empty =>
      rw [Statement.rename]
      constructor
      · intro h
        cases h
        rfl
      · rintro rfl
        exact .empty

/-- Statements are like their renamed ones only. -/
theorem Statement.matchesAll_iff (hplaces : φ.KeepsPlaces) (body body' : List Statement) :
    List.Forall₂ (Statement.Matches φ) body body' ↔
      Statement.renameAll φ.rename body = body' := by
  cases body with
  | nil =>
      rw [Statement.renameAll, List.forall₂_nil_left_iff]
      exact eq_comm
  | cons first rest =>
      rw [Statement.renameAll]
      constructor
      · intro h
        cases h with
        | cons hfirst hrest =>
            rw [(Statement.matches_iff hplaces first _).1 hfirst,
              (Statement.matchesAll_iff hplaces rest _).1 hrest]
      · rintro rfl
        exact .cons ((Statement.matches_iff hplaces first _).2 rfl)
          ((Statement.matchesAll_iff hplaces rest _).2 rfl)

end

end Bodies

section Matches

variable {r : String → String} {hr : Function.Injective r}
  {hbuiltin : ∀ t : BuiltinType, r t.name = t.name}

theorem Statement.renamed_iff (body body' : List Statement) :
    List.Forall₂ (Statement.Matches (.renaming hr hbuiltin)) body body' ↔
      Statement.renameAll r body = body' :=
  Statement.matchesAll_iff (fun _ _ => Iff.rfl) body body'

/-- Names of types are alike if they are equal. -/
theorem TypeName.matches_iff (type type' : TypeName) :
    type.Matches (.renaming hr hbuiltin) type' ↔ type = type' := by
  constructor
  · intro h
    cases h with
    | builtin htypes hposition =>
        obtain rfl := htypes
        obtain rfl := hposition
        rfl
    | unknown hname hposition =>
        obtain rfl := hposition
        rfl
  · rintro rfl
    obtain ⟨name, position⟩ := type
    by_cases hname : ∃ t : BuiltinType, t.name = name
    · obtain ⟨t, rfl⟩ := hname
      exact .builtin rfl rfl
    · exact .unknown (not_exists.1 hname) rfl

/-- A parameter is like its renamed one only. -/
theorem Parameter.matches_iff (p p' : Parameter) :
    p.Matches (.renaming hr hbuiltin) p' ↔ p.rename r = p' := by
  obtain ⟨name, type, position⟩ := p
  obtain ⟨name', type', position'⟩ := p'
  constructor
  · rintro ⟨-, rfl, htype, rfl⟩
    obtain rfl := (TypeName.matches_iff _ _).1 htype
    rfl
  · intro h
    cases h
    exact ⟨trivial, rfl, (TypeName.matches_iff _ _).2 rfl, rfl⟩

mutual

/-- **A declaration** is like its renamed one only. -/
theorem Declaration.matches_iff (d d' : Declaration) :
    d.Matches (.renaming hr hbuiltin) d' ↔ d.rename r = d' := by
  cases d with
  | var name type position =>
      rw [Declaration.rename]
      constructor
      · intro h
        cases h with
        | var _ htype hposition =>
            obtain rfl := hposition
            obtain rfl := (TypeName.matches_iff _ _).1 htype
            rfl
      · rintro rfl
        exact .var trivial ((TypeName.matches_iff _ _).2 rfl) rfl
  | procedure name params declarations body position =>
      rw [Declaration.rename]
      constructor
      · intro h
        cases h with
        | procedure _ hparams hdeclarations hbody hposition =>
            obtain rfl := hposition
            rw [(forall₂_iff_map_eq Parameter.matches_iff).1 hparams,
              (Declaration.matchesAll_iff declarations _).1 hdeclarations,
              (Statement.renamed_iff body _).1 hbody]
            rfl
      · rintro rfl
        exact .procedure trivial ((forall₂_iff_map_eq Parameter.matches_iff).2 rfl)
          ((Declaration.matchesAll_iff declarations _).2 rfl)
          ((Statement.renamed_iff body _).2 rfl) rfl

/-- Declarations are like their renamed ones only. -/
theorem Declaration.matchesAll_iff (ds ds' : List Declaration) :
    List.Forall₂ (Declaration.Matches (.renaming hr hbuiltin)) ds ds' ↔
      Declaration.renameAll r ds = ds' := by
  cases ds with
  | nil =>
      rw [Declaration.renameAll, List.forall₂_nil_left_iff]
      exact eq_comm
  | cons first rest =>
      rw [Declaration.renameAll]
      constructor
      · intro h
        cases h with
        | cons hfirst hrest =>
            rw [(Declaration.matches_iff first _).1 hfirst,
              (Declaration.matchesAll_iff rest _).1 hrest]
      · rintro rfl
        exact .cons ((Declaration.matches_iff first _).2 rfl)
          ((Declaration.matchesAll_iff rest _).2 rfl)

end

/-- A block is like its renamed one only. -/
theorem Block.matches_iff (b b' : Block) :
    b.Matches (.renaming hr hbuiltin) b' ↔ b.rename r = b' := by
  obtain ⟨declarations, body⟩ := b
  obtain ⟨declarations', body'⟩ := b'
  constructor
  · rintro ⟨hdeclarations, hbody⟩
    obtain rfl := (Declaration.matchesAll_iff _ _).1 hdeclarations
    obtain rfl := (Statement.renamed_iff _ _).1 hbody
    rfl
  · intro h
    cases h
    exact ⟨(Declaration.matchesAll_iff _ _).2 rfl, (Statement.renamed_iff _ _).2 rfl⟩

theorem Program.matches_rename (p : Program) :
    p.Matches (.renaming hr hbuiltin) (p.rename r) :=
  ⟨rfl, (Block.matches_iff _ _).2 rfl, rfl⟩

/-! ## Answers that are alike -/

/-- A variable with its type is like its renamed one only. -/
theorem TypedName.matches_iff (v v' : TypedName) :
    v.Matches (.renaming hr hbuiltin) v' ↔ v.rename r = v' := by
  obtain ⟨name, type⟩ := v
  obtain ⟨name', type'⟩ := v'
  constructor
  · rintro ⟨rfl, rfl⟩
    rfl
  · intro h
    cases h
    exact ⟨rfl, rfl⟩

/-- A procedure is like its renamed one only. -/
theorem Procedure.Matches.eq_rename {p p' : Procedure}
    (h : p.Matches (.renaming hr hbuiltin) p') : p' = p.rename r := by
  obtain ⟨name, params, scopeLevel, block⟩ := p
  obtain ⟨name', params', scopeLevel', block'⟩ := p'
  obtain ⟨rfl, hparams, hlevel, hblock⟩ := h
  obtain rfl : scopeLevel' = scopeLevel := hlevel
  obtain rfl := (forall₂_iff_map_eq TypedName.matches_iff).1 hparams
  obtain rfl := (Block.matches_iff _ _).1 hblock
  rfl

/-- A scope error is like its renamed one only. -/
theorem ScopeError.Matches.eq_rename {e e' : ScopeError}
    (h : ScopeError.Matches (.renaming hr hbuiltin) e e') : e' = ScopeError.rename r e := by
  obtain ⟨fault, position⟩ := e
  obtain ⟨fault', position'⟩ := e'
  obtain ⟨hfault, rfl⟩ := h
  cases hfault with
  | undefinedIdentifier name => rfl
  | duplicateIdentifier name => rfl
  | undefinedType htype =>
      obtain rfl := (TypeName.matches_iff _ _).1 htype
      rfl
  | notAVariable name => rfl
  | notAProcedure name => rfl
  | argumentCountMismatch name expected found => rfl

theorem RuntimeError.Matches.eq_rename {e e' : RuntimeError}
    (h : RuntimeError.Matches (.renaming hr hbuiltin) e e') : e' = RuntimeError.rename r e := by
  obtain ⟨fault, position⟩ := e
  obtain ⟨fault', position'⟩ := e'
  obtain ⟨rfl, rfl⟩ := h
  rfl

/-- **A record** is like its renamed one only. -/
theorem ActivationRecord.Matches.eq_rename {record record' : ActivationRecord}
    (h : record.Matches (.renaming hr hbuiltin) record') : record' = record.rename r := by
  have hmembers : record'.members = record.members.rename r := by
    apply NameTable.ext
    intro name
    by_cases hname : ∃ other, r other = name
    · obtain ⟨other, rfl⟩ := hname
      exact (h.bound other).trans (NameTable.find?_rename hr _ _).symm
    · rw [NameTable.find?_rename_eq_none _ (not_exists.1 hname)]
      exact h.unbound name (not_exists.1 hname)
  obtain ⟨name, kind, level, staticLink, members⟩ := record
  obtain ⟨name', kind', level', staticLink', members'⟩ := record'
  obtain rfl : name' = r name := h.name
  obtain rfl : kind' = kind := h.kind
  obtain rfl : level' = level := h.level
  obtain rfl : staticLink' = staticLink := h.staticLink
  obtain rfl : members' = members.rename r := hmembers
  rfl

end Matches

/-! ## Checking and execution -/

/-- **Renaming commutes** with checking and with execution.  Let all names of a tree be renamed
by an injective function that keeps the names of the builtin types.  If the check of the tree
fails, then that of the renamed tree fails with the renamed error.  If it succeeds, so does the
other: it knows the same levels and the renamed procedures, and under every limit the run of the
renamed tree ends with the renamed record or with the renamed error. -/
theorem rename_commutes {r : String → String} (hr : Function.Injective r)
    (hbuiltin : ∀ t : BuiltinType, r t.name = t.name) (tree : Program) :
    (∀ e, analyze tree = .error e →
      analyze (tree.rename r) = .error (ScopeError.rename r e)) ∧
    ∀ a, analyze tree = .ok a → ∃ a', analyze (tree.rename r) = .ok a' ∧
      (∀ id, a'.declaredLevel? id = a.declaredLevel? id) ∧
      (∀ id, a'.procedure? id = (a.procedure? id).map (Procedure.rename r)) ∧
      ∀ limit, (interpret (tree.rename r) a' limit).1
        = ((interpret tree a limit).1.map (ActivationRecord.rename r)).mapError
            (RuntimeError.rename r) := by
  have htree : tree.Matches (.renaming hr hbuiltin) (tree.rename r) := tree.matches_rename
  have hanalyze := analyze_matches htree
  constructor
  · intro e he
    rw [he] at hanalyze
    generalize analyze (tree.rename r) = answer at hanalyze ⊢
    cases hanalyze with
    | error herror => rw [ScopeError.Matches.eq_rename herror]
  · intro a ha
    rw [ha] at hanalyze
    generalize analyze (tree.rename r) = answer at hanalyze ⊢
    cases hanalyze with
    | @ok _ a' hmatches =>
        refine ⟨a', rfl, hmatches.levels, fun id => ?_, fun limit => ?_⟩
        · have hprocedure := hmatches.procedures id
          generalize a.procedure? id = found at hprocedure ⊢
          generalize a'.procedure? id = found' at hprocedure ⊢
          cases hprocedure with
          | none => rfl
          | some hp => rw [hp.eq_rename, Option.map_some]
        · have hruns := interpret_matches htree hmatches limit
          generalize (interpret tree a limit).1 = answer at hruns ⊢
          generalize (interpret (tree.rename r) a' limit).1 = answer' at hruns ⊢
          cases hruns with
          | ok hrecord =>
              rw [hrecord.eq_rename]
              rfl
          | error herror =>
              rw [RuntimeError.Matches.eq_rename herror]
              rfl

/-- A source text in which a parameter has the name of a variable of the program. -/
def homonymSource : String :=
  "PROGRAM P; VAR a, b : INTEGER; PROCEDURE Q(a : REAL); BEGIN b := a + 1; Q(b) END; "
    ++ "BEGIN a := 1; Q(a) END."

/-- Two names are exchanged. -/
def exchanged : String → String := Equiv.swap "a" "b"

/-- Exchanging the names of its variables commutes with checking and executing the tree. -/
theorem homonymSource_rename : Function.Injective exchanged ∧
    (∀ t : BuiltinType, exchanged t.name = t.name) ∧
    ∃ tree a a', parse homonymSource = .ok tree ∧ analyze tree = .ok a ∧
      analyze (tree.rename exchanged) = .ok a' ∧
      ∀ limit, (interpret (tree.rename exchanged) a' limit).1
        = ((interpret tree a limit).1.map (ActivationRecord.rename exchanged)).mapError
            (RuntimeError.rename exchanged) := by
  have hinjective : Function.Injective exchanged := (Equiv.swap "a" "b").injective
  have hbuiltin : ∀ t : BuiltinType, exchanged t.name = t.name := by
    intro t
    apply Equiv.swap_apply_of_ne_of_ne
    · cases t <;> decide
    · cases t <;> decide
  have haccepts : accepts homonymSource = true := by decide +kernel
  obtain ⟨tree, a, htree, ha⟩ := exists_analysis haccepts
  obtain ⟨a', ha', -, -, hruns⟩ := (rename_commutes hinjective hbuiltin tree).2 a ha
  exact ⟨hinjective, hbuiltin, tree, a, a', htree, ha, ha', hruns⟩

end MiniPascal
