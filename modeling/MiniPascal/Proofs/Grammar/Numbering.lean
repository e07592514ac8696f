/-
# The numbers of the nodes

The nodes of a tree that carry a number, listed in the order of the source text: of an
assignment the target before the value, of a call the arguments before the call itself.

* `Program.map_id_nodes` : the numbers of a program are those of its nodes;
* `Grammar.nodeIds_eq_range` : the nodes of a program of the grammar carry the numbers
  from zero on, one after another.
-/
import MiniPascal.Proofs.Grammar

set_option autoImplicit false

namespace MiniPascal

/-! ## Listing the numbers -/

/-- The numbers in an expression. -/
def Expr.nodeIds : Expr → List NodeId
  | .literal _ _ => []
  | .occurrence v => [v.id]
  | .signed _ operand _ => operand.nodeIds
  | .binary _ left right _ => left.nodeIds ++ right.nodeIds

/-- The numbers in a call; its own stands last. -/
def Call.nodeIds (c : Call) : List NodeId :=
  c.arguments.flatMap Expr.nodeIds ++ [c.id]

mutual

/-- The numbers in a statement. -/
def Statement.nodeIds : Statement → List NodeId
  | .compound body => Statement.nodeIdsAll body
  | .assign target value _ => target.id :: value.nodeIds
  | .call c => c.nodeIds
  | .empty => []

/-- The numbers in statements. -/
def Statement.nodeIdsAll : List Statement → List NodeId
  | [] => []
  | first :: rest => first.nodeIds ++ Statement.nodeIdsAll rest

end

mutual

/-- The numbers in a declaration. -/
def Declaration.nodeIds : Declaration → List NodeId
  | .var _ _ _ => []
  | .procedure _ _ declarations body _ =>
    Declaration.nodeIdsAll declarations ++ Statement.nodeIdsAll body

/-- The numbers in declarations. -/
def Declaration.nodeIdsAll : List Declaration → List NodeId
  | [] => []
  | first :: rest => first.nodeIds ++ Declaration.nodeIdsAll rest

end

/-- The numbers in a block. -/
def Block.nodeIds (b : Block) : List NodeId :=
  Declaration.nodeIdsAll b.declarations ++ Statement.nodeIdsAll b.body

/-- The numbers in a program. -/
def Program.nodeIds (p : Program) : List NodeId := p.block.nodeIds

/-! ## Listing the nodes -/

/-- A node that carries a number. -/
inductive Node where
  | occurrence (v : Variable)
  | call (c : Call)

/-- The number of a node. -/
def Node.id : Node → NodeId
  | .occurrence v => v.id
  | .call c => c.id

/-- The nodes in an expression, operands from left to right. -/
def Expr.nodes : Expr → List Node
  | .literal _ _ => []
  | .occurrence v => [.occurrence v]
  | .signed _ operand _ => operand.nodes
  | .binary _ left right _ => left.nodes ++ right.nodes

/-- The nodes in a call; it stands itself behind those of its arguments. -/
def Call.nodes (c : Call) : List Node :=
  c.arguments.flatMap Expr.nodes ++ [.call c]

mutual

/-- The nodes in a statement; of an assignment the target comes first. -/
def Statement.nodes : Statement → List Node
  | .compound body => Statement.nodesAll body
  | .assign target value _ => .occurrence target :: value.nodes
  | .call c => c.nodes
  | .empty => []

/-- The nodes in statements. -/
def Statement.nodesAll : List Statement → List Node
  | [] => []
  | first :: rest => first.nodes ++ Statement.nodesAll rest

end

mutual

/-- The nodes in a declaration; those in the body of a procedure stand in its place. -/
def Declaration.nodes : Declaration → List Node
  | .var _ _ _ => []
  | .procedure _ _ declarations body _ =>
    Declaration.nodesAll declarations ++ Statement.nodesAll body

/-- The nodes in declarations. -/
def Declaration.nodesAll : List Declaration → List Node
  | [] => []
  | first :: rest => first.nodes ++ Declaration.nodesAll rest

end

/-- The nodes in a program: those in its declarations, then those in its body. -/
def Program.nodes (p : Program) : List Node :=
  Declaration.nodesAll p.block.declarations ++ Statement.nodesAll p.block.body

/-- The numbers in an expression are those of its nodes. -/
theorem Expr.map_id_nodes (e : Expr) : e.nodes.map Node.id = e.nodeIds := by
  induction e with
  | literal value position => rfl
  | occurrence v => rfl
  | signed sign operand position ih => exact ih
  | binary op left right position ihl ihr =>
      rw [Expr.nodes, Expr.nodeIds, List.map_append, ihl, ihr]

theorem Call.map_id_nodes (c : Call) : c.nodes.map Node.id = c.nodeIds := by
  rw [Call.nodes, Call.nodeIds, List.map_append, List.map_flatMap]
  congr 2
  funext e
  exact e.map_id_nodes

mutual

/-- The numbers in a statement are those of its nodes. -/
theorem Statement.map_id_nodes (st : Statement) : st.nodes.map Node.id = st.nodeIds := by
  cases st with
  | compound body =>
      rw [Statement.nodes, Statement.nodeIds]
      exact Statement.map_id_nodesAll body
  | assign target value position =>
      rw [Statement.nodes, Statement.nodeIds, List.map_cons, value.map_id_nodes]
      rfl
  | call c =>
      rw [Statement.nodes, Statement.nodeIds]
      exact c.map_id_nodes
  | empty => rfl

/-- The numbers in statements are those of their nodes. -/
theorem Statement.map_id_nodesAll (body : List Statement) :
    (Statement.nodesAll body).map Node.id = Statement.nodeIdsAll body := by
  cases body with
  | nil => rfl
  | cons first rest =>
      rw [Statement.nodesAll, Statement.nodeIdsAll, List.map_append, first.map_id_nodes,
        Statement.map_id_nodesAll rest]

end

mutual

theorem Declaration.map_id_nodes (d : Declaration) : d.nodes.map Node.id = d.nodeIds := by
  cases d with
  | var name type position => rfl
  | procedure name params declarations body position =>
      rw [Declaration.nodes, Declaration.nodeIds, List.map_append,
        Declaration.map_id_nodesAll declarations, Statement.map_id_nodesAll body]

/-- The numbers in declarations are those of their nodes. -/
theorem Declaration.map_id_nodesAll (ds : List Declaration) :
    (Declaration.nodesAll ds).map Node.id = Declaration.nodeIdsAll ds := by
  cases ds with
  | nil => rfl
  | cons first rest =>
      rw [Declaration.nodesAll, Declaration.nodeIdsAll, List.map_append, first.map_id_nodes,
        Declaration.map_id_nodesAll rest]

end

/-- **The numbers of a program** are those of its nodes. -/
theorem Program.map_id_nodes (p : Program) : p.nodes.map Node.id = p.nodeIds := by
  rw [Program.nodes, Program.nodeIds, Block.nodeIds, List.map_append,
    Declaration.map_id_nodesAll, Statement.map_id_nodesAll]

/-! ## Statements and declarations in turn -/

theorem Statement.nodeIdsAll_eq_flatMap (body : List Statement) :
    Statement.nodeIdsAll body = body.flatMap Statement.nodeIds := by
  induction body with
  | nil => rfl
  | cons first rest ih => rw [Statement.nodeIdsAll, ih, List.flatMap_cons]

theorem Declaration.nodeIdsAll_eq_flatMap (declarations : List Declaration) :
    Declaration.nodeIdsAll declarations = declarations.flatMap Declaration.nodeIds := by
  induction declarations with
  | nil => rfl
  | cons first rest ih => rw [Declaration.nodeIdsAll, ih, List.flatMap_cons]

namespace Grammar

/-! ## Consecutive numbers -/

/-- The numbers from `i` on up to, and without, `j`. -/
def Consecutive (ids : List NodeId) (i j : Nat) : Prop :=
  ∃ n, j = i + n ∧ ids = List.range' i n

theorem Consecutive.nil (i : Nat) : Consecutive [] i i := ⟨0, rfl, rfl⟩

theorem Consecutive.single (i : Nat) : Consecutive [i] i (i + 1) := ⟨1, rfl, rfl⟩

theorem Consecutive.append {a b : List NodeId} {i j k : Nat} (ha : Consecutive a i j)
    (hb : Consecutive b j k) : Consecutive (a ++ b) i k := by
  obtain ⟨m, rfl, rfl⟩ := ha
  obtain ⟨n, rfl, rfl⟩ := hb
  refine ⟨m + n, Nat.add_assoc i m n, ?_⟩
  rw [List.range'_append_1]

variable {α : Type}

/-- Phrases of fewer than `k` tokens number the nodes of what they denote one after
another. -/
def Numbers (k : Nat) (phrase : Language α) (nodes : α → List NodeId) : Prop :=
  ∀ ⦃ts : List (Located Token)⦄ ⦃i : Nat⦄ ⦃x : α⦄ ⦃j : Nat⦄,
    ts.length < k → phrase ts i x j → Consecutive (nodes x) i j

variable {k : Nat} {phrase : Language α} {nodes : α → List NodeId}

/-- Separated items number their nodes if one item does. -/
theorem numbers_separated {separator : Token} (h : Numbers k phrase nodes) :
    Numbers k (Separated phrase separator) (List.flatMap nodes) := by
  intro ts i xs j hk hxs
  induction hxs with
  | one hx =>
      rw [List.flatMap_singleton]
      exact h hk hx
  | more hx _ ih =>
      simp only [List.length_append, List.length_cons] at hk
      rw [List.flatMap_cons]
      exact (h (by omega) hx).append (ih (by omega))

/-- Repeated items number their nodes if one item does. -/
theorem numbers_repeated (h : Numbers k phrase nodes) :
    Numbers k (Repeated phrase) (List.flatMap nodes) := by
  intro ts i xs j hk hxs
  induction hxs with
  | none => exact Consecutive.nil _
  | more hx _ ih =>
      simp only [List.length_append] at hk
      rw [List.flatMap_cons]
      exact (h (by omega) hx).append (ih (by omega))

/-! ## Expressions and statements -/

/-- Operands joined by operators number their nodes behind those of the first one. -/
theorem consecutive_chain {operand : Language Expr} {operators : List Operator}
    (h : Numbers k operand Expr.nodeIds) {ts : List (Located Token)} {left e : Expr}
    {i j l : Nat} (hk : ts.length < k) (hleft : Consecutive left.nodeIds l i)
    (hchain : Chain operand operators left ts i e j) : Consecutive e.nodeIds l j := by
  induction hchain with
  | done => exact hleft
  | more _ hright _ ih =>
      simp only [List.length_cons, List.length_append] at hk
      exact ih (by omega) (hleft.append (h (by omega) hright))

theorem numbers_term (h : Numbers k IsFactor Expr.nodeIds) : Numbers k IsTerm Expr.nodeIds := by
  intro ts i e j hk hterm
  cases hterm with
  | mk hleft hchain =>
      rw [List.length_append] at hk
      exact consecutive_chain h (by omega) (h (by omega) hleft) hchain

/-- Expressions number their nodes if factors do. -/
theorem numbers_expression_of_factor (h : Numbers k IsFactor Expr.nodeIds) :
    Numbers k IsExpression Expr.nodeIds := by
  intro ts i e j hk hexpression
  cases hexpression with
  | mk hleft hchain =>
      rw [List.length_append] at hk
      exact consecutive_chain (numbers_term h) (by omega)
        (numbers_term h (by omega) hleft) hchain

/-- **Factors number their nodes** one after another. -/
theorem numbers_factor (k : Nat) : Numbers k IsFactor Expr.nodeIds := by
  -- an operand is shorter than its factor, so the induction is on the number of tokens
  induction k with
  | zero => exact fun _ _ _ _ hk => absurd hk (Nat.not_lt_zero _)
  | succ k ih =>
      intro ts i e j hk hfactor
      cases hfactor with
      | signed hoperand =>
          rw [List.length_cons] at hk
          rw [Expr.nodeIds]
          exact ih (by omega) hoperand
      | literal => exact Consecutive.nil i
      | parenthesized hinner =>
          simp only [List.length_cons, List.length_append] at hk
          exact numbers_expression_of_factor ih (by omega) hinner
      | occurrence => exact Consecutive.single i

theorem numbers_expression (k : Nat) : Numbers k IsExpression Expr.nodeIds :=
  numbers_expression_of_factor (numbers_factor k)

/-- Calls number their nodes one after another. -/
theorem numbers_call (k : Nat) : Numbers k IsCall Call.nodeIds := by
  intro ts i c j hk hcall
  cases hcall with
  | mk harguments =>
      refine Consecutive.append ?_ (Consecutive.single _)
      cases harguments with
      | none => exact Consecutive.nil i
      | some hvalues =>
          simp only [List.length_cons, List.length_append] at hk
          refine numbers_separated (numbers_expression k) ?_ hvalues
          omega

/-- Compound statements number their nodes if shorter statements do. -/
theorem numbers_compound_of_statement (h : Numbers k IsStatement Statement.nodeIds) :
    Numbers (k + 1) IsCompound Statement.nodeIdsAll := by
  intro ts i body j hk hcompound
  cases hcompound with
  | mk hbody =>
      simp only [List.length_cons, List.length_append] at hk
      rw [Statement.nodeIdsAll_eq_flatMap]
      refine numbers_separated h ?_ hbody
      omega

/-- **Statements number their nodes** one after another. -/
theorem numbers_statement (k : Nat) : Numbers k IsStatement Statement.nodeIds := by
  induction k with
  | zero => exact fun _ _ _ _ hk => absurd hk (Nat.not_lt_zero _)
  | succ k ih =>
      intro ts i st j hk hstatement
      cases hstatement with
      | compound hbody =>
          rw [Statement.nodeIds]
          exact numbers_compound_of_statement ih hk hbody
      | call hcall =>
          rw [Statement.nodeIds]
          exact numbers_call (k + 1) hk hcall
      | assign hvalue =>
          rw [Statement.nodeIds]
          simp only [List.length_cons] at hk
          exact (Consecutive.single i).append (numbers_expression k (by omega) hvalue)
      | empty =>
          rw [Statement.nodeIds]
          exact Consecutive.nil i

theorem numbers_compound (k : Nat) : Numbers k IsCompound Statement.nodeIdsAll :=
  fun _ _ _ _ hk h => numbers_compound_of_statement (numbers_statement k) (by omega) h

/-! ## Declarations -/

/-- Names and types take no numbers. -/
theorem eq_of_isTyped {ts : List (Located Token)} {i j : Nat}
    {typed : List (Located String) × TypeName} (h : IsTyped ts i typed j) : j = i := by
  cases h with
  | mk hnames htype =>
      have hname : ∀ {us : List (Located Token)} {l m : Nat} {names : List (Located String)},
          Separated IsName (.symbol .comma) us l names m → m = l := by
        intro us l m names hnames
        induction hnames with
        | one h => cases h; rfl
        | more h _ ih => cases h; exact ih
      cases htype <;> exact hname hnames

/-- Variables take no numbers. -/
theorem numbers_variableLine (k : Nat) : Numbers k IsVariableLine Declaration.nodeIdsAll := by
  intro ts i line j _ hline
  cases hline with
  | mk htyped =>
      obtain rfl := eq_of_isTyped htyped
      have hnone : ∀ (names : List (Located String)) (type : TypeName),
          Declaration.nodeIdsAll
            (names.map fun name => .var name.value type name.position) = [] := by
        intro names type
        induction names with
        | nil => rfl
        | cons name rest ih => rw [List.map_cons, Declaration.nodeIdsAll, ih]; rfl
      rw [hnone]
      exact Consecutive.nil _

/-- The numbers of lists of declarations, list by list. -/
theorem nodeIdsAll_flatten (groups : List (List Declaration)) :
    Declaration.nodeIdsAll groups.flatten = groups.flatMap Declaration.nodeIdsAll := by
  induction groups with
  | nil => rfl
  | cons group rest ih =>
      rw [List.flatten_cons, Declaration.nodeIdsAll_eq_flatMap, List.flatMap_append,
        ← Declaration.nodeIdsAll_eq_flatMap, ← Declaration.nodeIdsAll_eq_flatMap, ih,
        List.flatMap_cons]

/-- Sections of variables take no numbers. -/
theorem numbers_section (k : Nat) : Numbers k IsSection Declaration.nodeIdsAll := by
  intro ts i vars j hk hsection
  cases hsection with
  | mk hfirst hrest =>
      simp only [List.length_cons, List.length_append] at hk
      rw [Declaration.nodeIdsAll_eq_flatMap, List.flatMap_append,
        ← Declaration.nodeIdsAll_eq_flatMap, ← Declaration.nodeIdsAll_eq_flatMap,
        nodeIdsAll_flatten]
      exact (numbers_variableLine k (by omega) hfirst).append
        (numbers_repeated (numbers_variableLine k) (by omega) hrest)

/-- Parameters take no numbers. -/
theorem eq_of_isParameters {ts : List (Located Token)} {i j : Nat} {params : List Parameter}
    (h : IsParameters ts i params j) : j = i := by
  cases h with
  | absent => rfl
  | none => rfl
  | some hgroups =>
      induction hgroups with
      | one h => cases h with | mk htyped => exact eq_of_isTyped htyped
      | more h _ ih =>
          cases h with
          | mk htyped =>
              obtain rfl := eq_of_isTyped htyped
              exact ih

/-- Blocks number their nodes if procedures do. -/
theorem numbers_block_of_procedure (h : Numbers k IsProcedure Declaration.nodeIds) :
    Numbers k IsBlock Block.nodeIds := by
  intro ts i block j hk hblock
  cases hblock with
  | mk hsections hprocedures hbody =>
      simp only [List.length_append] at hk
      have hvars := numbers_repeated (numbers_section k) (by omega) hsections
      have hprocs := numbers_repeated h (by omega) hprocedures
      have hstatements := numbers_compound k (by omega) hbody
      rw [Block.nodeIds, Declaration.nodeIdsAll_eq_flatMap, List.flatMap_append,
        ← Declaration.nodeIdsAll_eq_flatMap, nodeIdsAll_flatten]
      exact (hvars.append hprocs).append hstatements

/-- **Procedures number their nodes** one after another. -/
theorem numbers_procedure (k : Nat) : Numbers k IsProcedure Declaration.nodeIds := by
  induction k with
  | zero => exact fun _ _ _ _ hk => absurd hk (Nat.not_lt_zero _)
  | succ k ih =>
      intro ts i declaration j hk hprocedure
      cases hprocedure with
      | mk hparams hblock =>
          obtain rfl := eq_of_isParameters hparams
          simp only [List.length_cons, List.length_append] at hk
          rw [Declaration.nodeIds]
          exact numbers_block_of_procedure ih (by omega) hblock

/-- **The nodes of a program** carry the numbers from zero on. -/
theorem nodeIds_eq_range {ts : List (Located Token)} {tree : Program} (h : IsProgram ts tree) :
    tree.nodeIds = List.range tree.nodeIds.length := by
  cases h with
  | mk hblock =>
      obtain ⟨n, -, hids⟩ := numbers_block_of_procedure (numbers_procedure _)
        (Nat.lt_succ_self _) hblock
      rw [Program.nodeIds, hids, List.length_range', List.range_eq_range']

theorem nodup_nodeIds {ts : List (Located Token)} {tree : Program} (h : IsProgram ts tree) :
    tree.nodeIds.Nodup := by
  rw [nodeIds_eq_range h]
  exact List.nodup_range

end Grammar

end MiniPascal
