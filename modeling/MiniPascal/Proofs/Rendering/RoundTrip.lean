/-
# Round trip

The tokens of a tree of the language derive the tree again, whatever their places are: the
loops of the grammar group operators from the left, and the parentheses of a rendering stand
where an operand would be grouped otherwise.

* `derives_expression` : the tokens of an expression, as a factor, a term or an expression;
* `derives_statement`, `derives_block` : those of statements and blocks;
* `parse_rendered` : every rendering of a tree is read as that tree.
-/
import MiniPascal.Proofs.Grammar.Completeness
import MiniPascal.Proofs.Grammar.Numbering
import MiniPascal.Proofs.Rendering.Spelling

set_option autoImplicit false

namespace MiniPascal

open Grammar

/-- **Tokens of `y`**: each of them has a word, and wherever they stand, and from whatever
number on, they are a phrase that denotes `y` without places and numbers. -/
structure Derives {α β : Type} (phrase : Language α) (bare : α → β) (tokens : List Token)
    (y : β) : Prop where
  spelled : ∀ token ∈ tokens, ∃ word, Spells token word
  derived : ∀ (ts : List (Located Token)) (i : Nat), ts.map Located.value = tokens →
    ∃ x j, phrase ts i x j ∧ bare x = y

section Lists

variable {α β γ : Type} {phrase : Language α} {bare : α → β}

theorem spelled_cons {token : Token} {tokens : List Token} {word : List Char}
    (h : Spells token word) (hrest : ∀ t ∈ tokens, ∃ word, Spells t word) :
    ∀ t ∈ token :: tokens, ∃ word, Spells t word :=
  List.forall_mem_cons.2 ⟨⟨word, h⟩, hrest⟩

theorem spelled_append {tokens more : List Token} (h : ∀ t ∈ tokens, ∃ word, Spells t word)
    (hmore : ∀ t ∈ more, ∃ word, Spells t word) :
    ∀ t ∈ tokens ++ more, ∃ word, Spells t word :=
  List.forall_mem_append.2 ⟨h, hmore⟩

theorem spelled_nil : ∀ t ∈ ([] : List Token), ∃ word, Spells t word := nofun

theorem separatedBy_cons_cons (separator : Punctuation) (first second : List Token)
    (others : List (List Token)) : separatedBy separator (first :: second :: others)
      = first ++ .symbol separator :: separatedBy separator (second :: others) := by
  rw [separatedBy, separatedBy, List.intercalate_cons_cons, List.append_assoc]
  rfl

/-- **Separated items** derive what each of them does. -/
theorem derives_separated (separator : Punctuation) {tokens : γ → List Token} {y : γ → β}
    {items : List γ} (hne : items ≠ [])
    (h : ∀ x ∈ items, Derives phrase bare (tokens x) (y x)) :
    Derives (Separated phrase (.symbol separator)) (List.map bare)
      (separatedBy separator (items.map tokens)) (items.map y) := by
  induction items with
  | nil => exact absurd rfl hne
  | cons first rest ih =>
      obtain ⟨hfirst, hothers⟩ := List.forall_mem_cons.1 h
      cases rest with
      | nil =>
          have htokens : separatedBy separator ([first].map tokens) = tokens first :=
            List.intercalate_singleton
          rw [htokens]
          refine ⟨hfirst.spelled, fun ts i hts => ?_⟩
          obtain ⟨x, j, hx, hbare⟩ := hfirst.derived ts i hts
          exact ⟨[x], j, .one hx, by rw [List.map_singleton, hbare]; rfl⟩
      | cons second others =>
          have hrest := ih (List.cons_ne_nil _ _) hothers
          rw [List.map_cons, List.map_cons, separatedBy_cons_cons]
          refine ⟨spelled_append hfirst.spelled (spelled_cons (spells_symbol _) hrest.spelled),
            fun ts i hts => ?_⟩
          obtain ⟨us, vs, rfl, hus, hvs⟩ := List.map_eq_append_iff.1 hts
          obtain ⟨⟨_, p⟩, ws, rfl, rfl, hws⟩ := List.map_eq_cons_iff.1 hvs
          obtain ⟨x, j, hx, hbare⟩ := hfirst.derived us i hus
          obtain ⟨xs, k, hxs, hbares⟩ := hrest.derived ws j hws
          exact ⟨x :: xs, k, .more hx hxs, by rw [List.map_cons, hbare, hbares]; rfl⟩

/-- **Repeated items** derive what each of them does. -/
theorem derives_repeated {tokens : γ → List Token} {y : γ → β} {items : List γ}
    (h : ∀ x ∈ items, Derives phrase bare (tokens x) (y x)) :
    Derives (Repeated phrase) (List.map bare) (items.flatMap tokens) (items.map y) := by
  induction items with
  | nil =>
      refine ⟨spelled_nil, fun ts i hts => ?_⟩
      obtain rfl := List.map_eq_nil_iff.1 hts
      exact ⟨[], i, .none, rfl⟩
  | cons first rest ih =>
      obtain ⟨hfirst, hothers⟩ := List.forall_mem_cons.1 h
      have hrest := ih hothers
      rw [List.flatMap_cons]
      refine ⟨spelled_append hfirst.spelled hrest.spelled, fun ts i hts => ?_⟩
      obtain ⟨us, vs, rfl, hus, hvs⟩ := List.map_eq_append_iff.1 hts
      obtain ⟨x, j, hx, hbare⟩ := hfirst.derived us i hus
      obtain ⟨xs, k, hxs, hbares⟩ := hrest.derived vs j hvs
      exact ⟨x :: xs, k, .more hx hxs, by rw [List.map_cons, hbare, hbares]; rfl⟩

end Lists

/-! ## Expressions -/

section Operands

variable {tokens more : List Token} {e left right : Expr} {op : Operator}

/-- The token of an operator has a word. -/
theorem exists_spells_operator (op : Operator) : ∃ word, Spells (operatorToken op) word := by
  cases op with
  | divideInteger => exact ⟨_, spells_keyword .div⟩
  | add => exact ⟨_, spells_symbol .plus⟩
  | subtract => exact ⟨_, spells_symbol .minus⟩
  | multiply => exact ⟨_, spells_symbol .star⟩
  | divideReal => exact ⟨_, spells_symbol .slash⟩

theorem exists_spells_sign (sign : Sign) : ∃ word, Spells (signToken sign) word := by
  cases sign with
  | plus => exact ⟨_, spells_symbol .plus⟩
  | minus => exact ⟨_, spells_symbol .minus⟩

theorem Derives.term (h : Derives IsFactor Expr.bare tokens e) :
    Derives IsTerm Expr.bare tokens e := by
  refine ⟨h.spelled, fun ts i hts => ?_⟩
  obtain ⟨x, j, hx, hbare⟩ := h.derived ts i hts
  exact ⟨x, j, List.append_nil ts ▸ .mk hx .done, hbare⟩

theorem Derives.expression (h : Derives IsTerm Expr.bare tokens e) :
    Derives IsExpression Expr.bare tokens e := by
  refine ⟨h.spelled, fun ts i hts => ?_⟩
  obtain ⟨x, j, hx, hbare⟩ := h.derived ts i hts
  exact ⟨x, j, List.append_nil ts ▸ .mk hx .done, hbare⟩

/-- An expression in parentheses is a factor. -/
theorem Derives.parenthesized (h : Derives IsExpression Expr.bare tokens e) :
    Derives IsFactor Expr.bare (.symbol .leftParen :: (tokens ++ [.symbol .rightParen])) e := by
  refine ⟨spelled_cons (spells_symbol _)
    (spelled_append h.spelled (spelled_cons (spells_symbol _) spelled_nil)), fun ts i hts => ?_⟩
  obtain ⟨⟨_, p⟩, us, rfl, rfl, hus⟩ := List.map_eq_cons_iff.1 hts
  obtain ⟨vs, ws, rfl, hvs, hws⟩ := List.map_eq_append_iff.1 hus
  obtain ⟨⟨_, q⟩, rfl, rfl⟩ := List.map_eq_singleton_iff.1 hws
  obtain ⟨x, j, hx, hbare⟩ := h.derived vs i hvs
  exact ⟨x, j, .parenthesized hx, hbare⟩

/-- A sign in front of a factor. -/
theorem Derives.signed (sign : Sign) (h : Derives IsFactor Expr.bare tokens e) :
    Derives IsFactor Expr.bare (signToken sign :: tokens) (.signed sign e .origin) := by
  obtain ⟨word, hword⟩ := exists_spells_sign sign
  refine ⟨spelled_cons hword h.spelled, fun ts i hts => ?_⟩
  obtain ⟨⟨_, p⟩, us, rfl, rfl, hus⟩ := List.map_eq_cons_iff.1 hts
  obtain ⟨x, j, hx, hbare⟩ := h.derived us i hus
  exact ⟨.signed sign x p, j, .signed hx, by rw [Expr.bare, hbare]⟩

/-- A chain may go on with one operator and operand more. -/
theorem chain_snoc {operand : Language Expr} {operators : List Operator} {first e right : Expr}
    {ts us : List (Located Token)} {i j k : Nat} {op : Operator} {p : Position}
    (h : Chain operand operators first ts i e j) (hop : op ∈ operators)
    (hright : operand us j right k) :
    Chain operand operators first (ts ++ ⟨operatorToken op, p⟩ :: us) i
      (.binary op e right p) k := by
  induction h with
  | done => exact List.append_nil us ▸ .more hop hright .done
  | more hop' hright' _ ih =>
      rw [List.cons_append, List.append_assoc]
      exact .more hop' hright' (ih hright)

/-- What a level of precedence is: an operand, and a chain of operators and operands
behind it. -/
def IsLevel (level operand : Language Expr) (operators : List Operator) : Prop :=
  ∀ (ts : List (Located Token)) (i : Nat) (e : Expr) (k : Nat), level ts i e k ↔
    ∃ us vs first j, ts = us ++ vs ∧ operand us i first j ∧
      Chain operand operators first vs j e k

/-- Terms are the level of multiplicative operators. -/
theorem isLevel_term : IsLevel IsTerm IsFactor [.multiply, .divideInteger, .divideReal] := by
  intro ts i e k
  constructor
  · rintro ⟨hfirst, hchain⟩
    exact ⟨_, _, _, _, rfl, hfirst, hchain⟩
  · rintro ⟨us, vs, first, j, rfl, hfirst, hchain⟩
    exact .mk hfirst hchain

/-- Expressions are the level of additive operators. -/
theorem isLevel_expression : IsLevel IsExpression IsTerm [.add, .subtract] := by
  intro ts i e k
  constructor
  · rintro ⟨hfirst, hchain⟩
    exact ⟨_, _, _, _, rfl, hfirst, hchain⟩
  · rintro ⟨us, vs, first, j, rfl, hfirst, hchain⟩
    exact .mk hfirst hchain

/-- **Operators are grouped from the left**: what stands in front of an operator of a level
is its left operand, and what stands behind it is an operand of the level. -/
theorem Derives.operation {level operand : Language Expr} {operators : List Operator}
    (hlevel : IsLevel level operand operators) (hop : op ∈ operators)
    (hleft : Derives level Expr.bare tokens left)
    (hright : Derives operand Expr.bare more right) :
    Derives level Expr.bare (tokens ++ operatorToken op :: more)
      (.binary op left right .origin) := by
  obtain ⟨word, hword⟩ := exists_spells_operator op
  refine ⟨spelled_append hleft.spelled (spelled_cons hword hright.spelled), fun ts i hts => ?_⟩
  obtain ⟨us, vs, rfl, hus, hvs⟩ := List.map_eq_append_iff.1 hts
  obtain ⟨⟨_, p⟩, ws, rfl, rfl, hws⟩ := List.map_eq_cons_iff.1 hvs
  obtain ⟨x, j, hx, hbare⟩ := hleft.derived us i hus
  obtain ⟨y, k, hy, hbare'⟩ := hright.derived ws j hws
  obtain ⟨ts₁, ts₂, first, l, rfl, hfirst, hchain⟩ := (hlevel us i x j).1 hx
  refine ⟨.binary op x y p, k, (hlevel _ _ _ _).2 ?_, by rw [Expr.bare, hbare, hbare']⟩
  exact ⟨ts₁, _, first, l, List.append_assoc _ _ _, hfirst, chain_snoc hchain hop hy⟩

/-- Behind an expression stands an additive operator with a term. -/
theorem Derives.additive (hop : op.isAdditive = true)
    (hleft : Derives IsExpression Expr.bare tokens left)
    (hright : Derives IsTerm Expr.bare more right) :
    Derives IsExpression Expr.bare (tokens ++ operatorToken op :: more)
      (.binary op left right .origin) := by
  refine .operation isLevel_expression ?_ hleft hright
  cases op with
  | add => decide
  | subtract => decide
  | _ => cases hop

/-- Behind a term stands a multiplicative operator with a factor. -/
theorem Derives.multiplicative (hop : op.isAdditive = false)
    (hleft : Derives IsTerm Expr.bare tokens left)
    (hright : Derives IsFactor Expr.bare more right) :
    Derives IsTerm Expr.bare (tokens ++ operatorToken op :: more)
      (.binary op left right .origin) := by
  refine .operation isLevel_term ?_ hleft hright
  cases op with
  | add => cases hop
  | subtract => cases hop
  | _ => decide

end Operands

/-- What the tokens of an expression are: a factor, unless it joins two operands, and a
term, unless an operator like `+` joins them. -/
structure Expr.Rendered (e : Expr) : Prop where
  factor : e.isBinary = false → Derives IsFactor Expr.bare e.tokens e.bare
  term : e.isAdditive = false → Derives IsTerm Expr.bare e.tokens e.bare
  expression : Derives IsExpression Expr.bare e.tokens e.bare

namespace Expr.Rendered

variable {e : Expr}

theorem of_factor (h : Derives IsFactor Expr.bare e.tokens e.bare) : e.Rendered :=
  ⟨fun _ => h, fun _ => h.term, h.term.expression⟩

/-- With parentheses around an operator, an expression is a factor. -/
theorem factorIf (h : e.Rendered) :
    Derives IsFactor Expr.bare (parenthesizedIf e.isBinary e.tokens) e.bare := by
  unfold parenthesizedIf
  cases hbinary : e.isBinary with
  | false => exact h.factor hbinary
  | true => exact h.expression.parenthesized

/-- With parentheses around an additive operator, an expression is a term. -/
theorem termIf (h : e.Rendered) :
    Derives IsTerm Expr.bare (parenthesizedIf e.isAdditive e.tokens) e.bare := by
  unfold parenthesizedIf
  cases hadditive : e.isAdditive with
  | false => exact h.term hadditive
  | true => exact h.expression.parenthesized.term

end Expr.Rendered

/-- A literal of the language is a factor. -/
theorem derives_literal {value : Number} {p : Position}
    (h : (Expr.literal value p).InLanguage) :
    Derives IsFactor Expr.bare [.number value] (.literal value .origin) := by
  obtain ⟨word, hword⟩ : ∃ word, Spells (.number value) word := by
    cases value with
    | integer n => exact ⟨_, spells_integer h⟩
    | real x =>
        obtain ⟨text, htext⟩ := h
        exact ⟨text, spells_real htext⟩
  refine ⟨spelled_cons hword spelled_nil, fun ts i hts => ?_⟩
  obtain ⟨⟨_, q⟩, rfl, rfl⟩ := List.map_eq_singleton_iff.1 hts
  exact ⟨.literal value q, i, .literal, rfl⟩

theorem derives_occurrence {v : Variable} (h : IsIdentifier v.name) :
    Derives IsFactor Expr.bare [.identifier v.name] (.occurrence v.bare) := by
  refine ⟨spelled_cons (spells_identifier h) spelled_nil, fun ts i hts => ?_⟩
  obtain ⟨⟨_, q⟩, rfl, rfl⟩ := List.map_eq_singleton_iff.1 hts
  exact ⟨.occurrence ⟨v.name, i, q⟩, i + 1, .occurrence, rfl⟩

/-- **The tokens of an expression** derive the expression. -/
theorem derives_expression (e : Expr) (h : e.InLanguage) : e.Rendered := by
  induction e with
  | literal value p => exact .of_factor (derives_literal h)
  | occurrence v => exact .of_factor (derives_occurrence h)
  | signed sign operand p ih => exact .of_factor ((ih h).factorIf.signed sign)
  | binary op left right p ihLeft ihRight =>
      have hleft := ihLeft h.1
      have hright := ihRight h.2
      cases hop : op.isAdditive with
      | true =>
          have htokens : (Expr.binary op left right p).tokens = left.tokens ++
              operatorToken op :: parenthesizedIf right.isAdditive right.tokens := by
            rw [Expr.tokens, if_pos hop]
          have hwhole := hleft.expression.additive hop hright.termIf
          rw [← htokens] at hwhole
          refine ⟨nofun, fun hnot => ?_, hwhole⟩
          rw [Expr.isAdditive, hop] at hnot
          cases hnot
      | false =>
          have htokens : (Expr.binary op left right p).tokens =
              parenthesizedIf left.isAdditive left.tokens ++
                operatorToken op :: parenthesizedIf right.isBinary right.tokens := by
            rw [Expr.tokens, if_neg (Bool.eq_false_iff.1 hop)]
          have hwhole := hleft.termIf.multiplicative hop hright.factorIf
          rw [← htokens] at hwhole
          exact ⟨nofun, fun _ => hwhole, hwhole.expression⟩

/-! ## Statements -/

/-- The tokens of a call derive the call. -/
theorem derives_call {c : Call} (hname : IsIdentifier c.name)
    (harguments : ∀ e ∈ c.arguments, e.InLanguage) :
    Derives IsCall Call.bare c.tokens c.bare := by
  have hvalues : Derives IsArguments (List.map Expr.bare)
      (separatedBy .comma (c.arguments.map Expr.tokens)) (c.arguments.map Expr.bare) := by
    cases hargs : c.arguments with
    | nil =>
        refine ⟨spelled_nil, fun ts i hts => ?_⟩
        obtain rfl := List.map_eq_nil_iff.1 hts
        exact ⟨[], i, .none, rfl⟩
    | cons first rest =>
        have hall := derives_separated .comma (List.cons_ne_nil first rest)
          fun e he => (derives_expression e (harguments e (hargs ▸ he))).expression
        refine ⟨hall.spelled, fun ts i hts => ?_⟩
        obtain ⟨values, j, hvalues, hbare⟩ := hall.derived ts i hts
        exact ⟨values, j, .some hvalues, hbare⟩
  refine ⟨spelled_cons (spells_identifier hname) (spelled_cons (spells_symbol _)
    (spelled_append hvalues.spelled (spelled_cons (spells_symbol _) spelled_nil))),
    fun ts i hts => ?_⟩
  obtain ⟨⟨_, p⟩, us, rfl, rfl, hus⟩ := List.map_eq_cons_iff.1 hts
  obtain ⟨⟨_, q⟩, vs, rfl, rfl, hvs⟩ := List.map_eq_cons_iff.1 hus
  obtain ⟨ws, zs, rfl, hws, hzs⟩ := List.map_eq_append_iff.1 hvs
  obtain ⟨⟨_, r⟩, rfl, rfl⟩ := List.map_eq_singleton_iff.1 hzs
  obtain ⟨values, j, hderived, hbare⟩ := hvalues.derived ws i hws
  exact ⟨⟨c.name, j, values, p⟩, j + 1, .mk hderived, by rw [Call.bare, hbare]; rfl⟩

/-- The tokens of an assignment derive the assignment. -/
theorem derives_assign {target : Variable} {value : Expr} (htarget : IsIdentifier target.name)
    (hvalue : value.InLanguage) :
    Derives IsStatement Statement.bare
      (.identifier target.name :: .symbol .assign :: value.tokens)
      (.assign target.bare value.bare .origin) := by
  have hrendered := (derives_expression value hvalue).expression
  refine ⟨spelled_cons (spells_identifier htarget)
    (spelled_cons (spells_symbol _) hrendered.spelled), fun ts i hts => ?_⟩
  obtain ⟨⟨_, p⟩, us, rfl, rfl, hus⟩ := List.map_eq_cons_iff.1 hts
  obtain ⟨⟨_, q⟩, vs, rfl, rfl, hvs⟩ := List.map_eq_cons_iff.1 hus
  obtain ⟨x, j, hx, hbare⟩ := hrendered.derived vs (i + 1) hvs
  exact ⟨.assign ⟨target.name, i, p⟩ x q, j, .assign hx, by rw [Statement.bare, hbare]; rfl⟩

/-- The tokens of a compound statement derive it, if those of its statements do. -/
theorem derives_compound {body : List Statement} (hne : body ≠ [])
    (h : ∀ st ∈ body, Derives IsStatement Statement.bare st.tokens st.bare) :
    Derives IsCompound Statement.bareAll (compoundTokens (Statement.tokensEach body))
      (Statement.bareAll body) := by
  have hbody := derives_separated .semicolon hne h
  rw [compoundTokens, Statement.tokensEach_eq_map]
  refine ⟨spelled_cons (spells_keyword _) (spelled_append hbody.spelled
    (spelled_cons (spells_keyword _) spelled_nil)), fun ts i hts => ?_⟩
  obtain ⟨⟨_, p⟩, us, rfl, rfl, hus⟩ := List.map_eq_cons_iff.1 hts
  obtain ⟨vs, ws, rfl, hvs, hws⟩ := List.map_eq_append_iff.1 hus
  obtain ⟨⟨_, q⟩, rfl, rfl⟩ := List.map_eq_singleton_iff.1 hws
  obtain ⟨xs, j, hxs, hbare⟩ := hbody.derived vs i hvs
  refine ⟨xs, j, .mk hxs, ?_⟩
  rw [Statement.bareAll_eq_map, hbare, Statement.bareAll_eq_map]

mutual

/-- **The tokens of a statement** derive the statement. -/
theorem derives_statement (st : Statement) (h : st.InLanguage) :
    Derives IsStatement Statement.bare st.tokens st.bare := by
  cases st with
  | compound body =>
      rw [Statement.InLanguage] at h
      have hbody := derives_compound h.1 (derives_statements body h.2)
      rw [Statement.tokens, Statement.bare]
      refine ⟨hbody.spelled, fun ts i hts => ?_⟩
      obtain ⟨xs, j, hxs, hbare⟩ := hbody.derived ts i hts
      exact ⟨.compound xs, j, .compound hxs, by rw [Statement.bare, hbare]⟩
  | assign target value position =>
      rw [Statement.InLanguage] at h
      rw [Statement.tokens, Statement.bare]
      exact derives_assign h.1 h.2
  | call c =>
      rw [Statement.InLanguage] at h
      have hcall := derives_call h.1 h.2
      rw [Statement.tokens, Statement.bare]
      refine ⟨hcall.spelled, fun ts i hts => ?_⟩
      obtain ⟨x, j, hx, hbare⟩ := hcall.derived ts i hts
      exact ⟨.call x, j, .call hx, by rw [Statement.bare, hbare]⟩
  | empty =>
      rw [Statement.tokens, Statement.bare]
      refine ⟨spelled_nil, fun ts i hts => ?_⟩
      obtain rfl := List.map_eq_nil_iff.1 hts
      exact ⟨.empty, i, .empty, by rw [Statement.bare]⟩

/-- The tokens of each of some statements derive that statement. -/
theorem derives_statements (body : List Statement) (h : Statement.InLanguageAll body) :
    ∀ st ∈ body, Derives IsStatement Statement.bare st.tokens st.bare := by
  cases body with
  | nil => exact nofun
  | cons first rest =>
      rw [Statement.InLanguageAll] at h
      exact List.forall_mem_cons.2 ⟨derives_statement first h.1, derives_statements rest h.2⟩

end

/-! ## Declarations -/

/-- The token of a type derives the type. -/
theorem derives_type {type : TypeName} (h : type.InLanguage) :
    Derives IsType TypeName.bare [type.token] type.bare := by
  obtain ⟨name, position⟩ := type
  rcases h with hname | hname
  · obtain rfl : name = "INTEGER" := hname
    have htoken : (TypeName.mk "INTEGER" position).token = .keyword .integer :=
      if_neg (show ¬"INTEGER" = "REAL" by decide)
    rw [htoken]
    refine ⟨spelled_cons (spells_keyword _) spelled_nil, fun ts i hts => ?_⟩
    obtain ⟨⟨_, q⟩, rfl, rfl⟩ := List.map_eq_singleton_iff.1 hts
    exact ⟨_, i, .integer, rfl⟩
  · obtain rfl : name = "REAL" := hname
    have htoken : (TypeName.mk "REAL" position).token = .keyword .real := if_pos rfl
    rw [htoken]
    refine ⟨spelled_cons (spells_keyword _) spelled_nil, fun ts i hts => ?_⟩
    obtain ⟨⟨_, q⟩, rfl, rfl⟩ := List.map_eq_singleton_iff.1 hts
    exact ⟨_, i, .real, rfl⟩

/-- A name with its type. -/
theorem derives_typed {name : String} {type : TypeName} (hname : IsIdentifier name)
    (htype : type.InLanguage) :
    Derives IsTyped (fun typed => (typed.1.map Located.value, typed.2.bare))
      [.identifier name, .symbol .colon, type.token] ([name], type.bare) := by
  have hderives := derives_type htype
  refine ⟨spelled_cons (spells_identifier hname)
    (spelled_cons (spells_symbol _) hderives.spelled), fun ts i hts => ?_⟩
  obtain ⟨⟨_, p⟩, us, rfl, rfl, hus⟩ := List.map_eq_cons_iff.1 hts
  obtain ⟨⟨_, q⟩, vs, rfl, rfl, hvs⟩ := List.map_eq_cons_iff.1 hus
  obtain ⟨x, j, hx, hbare⟩ := hderives.derived vs i hvs
  exact ⟨([⟨name, p⟩], x), j, .mk (.one .mk) hx, by rw [← hbare]; rfl⟩

/-- The tokens of a variable derive its declaration. -/
theorem derives_variable {d : Declaration} (h : d.InLanguage) (hvar : d.isProcedure = false) :
    Derives IsVariableLine (List.map Declaration.bare) d.tokens [d.bare] := by
  cases d with
  | procedure name params declarations body position => cases hvar
  | var name type position =>
      rw [Declaration.InLanguage] at h
      have htyped := derives_typed h.1 h.2
      have htokens : (Declaration.var name type position).tokens
          = [.identifier name, .symbol .colon, type.token] ++ [.symbol .semicolon] := by
        rw [Declaration.tokens]
        rfl
      rw [htokens, Declaration.bare]
      refine ⟨spelled_append htyped.spelled (spelled_cons (spells_symbol _) spelled_nil),
        fun ts i hts => ?_⟩
      obtain ⟨us, vs, rfl, hus, hvs⟩ := List.map_eq_append_iff.1 hts
      obtain ⟨⟨_, q⟩, rfl, rfl⟩ := List.map_eq_singleton_iff.1 hvs
      obtain ⟨⟨names, written⟩, j, hx, hbare⟩ := htyped.derived us i hus
      obtain ⟨hnames, hwritten⟩ := Prod.mk.inj hbare
      obtain ⟨⟨_, p⟩, rfl, rfl⟩ := List.map_eq_singleton_iff.1 hnames
      refine ⟨_, j, .mk hx, ?_⟩
      rw [List.map_singleton, List.map_singleton, Declaration.bare, hwritten]

/-- The tokens of a parameter derive the parameter. -/
theorem derives_parameter {p : Parameter} (h : p.InLanguage) :
    Derives IsParameterGroup (List.map Parameter.bare) p.tokens [p.bare] := by
  have htyped := derives_typed h.1 h.2
  refine ⟨htyped.spelled, fun ts i hts => ?_⟩
  obtain ⟨⟨names, written⟩, j, hx, hbare⟩ := htyped.derived ts i hts
  obtain ⟨hnames, hwritten⟩ := Prod.mk.inj hbare
  obtain ⟨⟨_, q⟩, rfl, hname⟩ := List.map_eq_singleton_iff.1 hnames
  refine ⟨_, j, .mk hx, ?_⟩
  rw [List.map_singleton, List.map_singleton, Parameter.bare, hwritten, hname]
  rfl

/-- The tokens of the parameters of a procedure derive them. -/
theorem derives_parameters {params : List Parameter} (h : ∀ p ∈ params, p.InLanguage) :
    Derives IsParameters (List.map Parameter.bare) (parameterTokens params)
      (params.map Parameter.bare) := by
  cases params with
  | nil =>
      refine ⟨spelled_nil, fun ts i hts => ?_⟩
      obtain rfl := List.map_eq_nil_iff.1 hts
      exact ⟨[], i, .absent, rfl⟩
  | cons first rest =>
      have hgroups := derives_separated .semicolon (List.cons_ne_nil first rest)
        fun p hp => derives_parameter (h p hp)
      rw [parameterTokens]
      · refine ⟨spelled_cons (spells_symbol _) (spelled_append hgroups.spelled
          (spelled_cons (spells_symbol _) spelled_nil)), fun ts i hts => ?_⟩
        obtain ⟨⟨_, p⟩, us, rfl, rfl, hus⟩ := List.map_eq_cons_iff.1 hts
        obtain ⟨vs, ws, rfl, hvs, hws⟩ := List.map_eq_append_iff.1 hus
        obtain ⟨⟨_, q⟩, rfl, rfl⟩ := List.map_eq_singleton_iff.1 hws
        obtain ⟨groups, j, hgroup, hbare⟩ := hgroups.derived vs i hvs
        refine ⟨groups.flatten, j, .some hgroup, ?_⟩
        rw [List.map_flatten, hbare, ← List.flatMap_def, List.map_eq_flatMap]
      · exact nofun

/-- Variables that come first are followed by procedures only. -/
theorem exists_variables_procedures {declarations : List Declaration}
    (h : Declaration.VariablesFirst declarations) :
    ∃ vars procedures, declarations = vars ++ procedures ∧
      (∀ d ∈ vars, d.isProcedure = false) ∧ ∀ d ∈ procedures, d.isProcedure = true := by
  induction declarations with
  | nil => exact ⟨[], [], rfl, nofun, nofun⟩
  | cons first rest ih =>
      obtain ⟨hfirst, hrest⟩ := List.pairwise_cons.1 h
      cases hkind : first.isProcedure with
      | true =>
          exact ⟨[], first :: rest, rfl, nofun,
            List.forall_mem_cons.2 ⟨hkind, fun d hd => hfirst d hd hkind⟩⟩
      | false =>
          obtain ⟨vars, procedures, rfl, hvariables, hprocedures⟩ := ih hrest
          exact ⟨first :: vars, procedures, rfl,
            List.forall_mem_cons.2 ⟨hkind, hvariables⟩, hprocedures⟩

/-- The word in front of the variables is due to the variables. -/
theorem sectionTokens_append {vars procedures : List Declaration}
    (hprocedures : ∀ d ∈ procedures, d.isProcedure = true) :
    sectionTokens (vars ++ procedures) = sectionTokens vars := by
  cases vars with
  | cons first rest => cases first <;> rfl
  | nil =>
      cases procedures with
      | nil => rfl
      | cons first rest =>
          have hfirst := hprocedures first List.mem_cons_self
          cases first with
          | var name type position => cases hfirst
          | procedure name params declarations body position => rfl

/-- The tokens of the variables of a block derive their declarations. -/
theorem derives_sections {vars : List Declaration} (h : ∀ d ∈ vars, d.InLanguage)
    (hvariables : ∀ d ∈ vars, d.isProcedure = false) :
    Derives (Repeated IsSection) (fun sections => sections.flatten.map Declaration.bare)
      (sectionTokens vars ++ vars.flatMap Declaration.tokens)
      (vars.map Declaration.bare) := by
  cases vars with
  | nil =>
      refine ⟨spelled_nil, fun ts i hts => ?_⟩
      obtain rfl := List.map_eq_nil_iff.1 hts
      exact ⟨[], i, .none, rfl⟩
  | cons first rest =>
      have hsection : sectionTokens (first :: rest) = [.keyword .var] := by
        have hfirst := hvariables first List.mem_cons_self
        cases first with
        | var name type position => rfl
        | procedure name params declarations body position => cases hfirst
      obtain ⟨hline, hlines⟩ := List.forall_mem_cons.1 fun d hd =>
        derives_variable (h d hd) (hvariables d hd)
      have hrest := derives_repeated hlines
      rw [hsection, List.flatMap_cons, List.singleton_append]
      refine ⟨spelled_cons (spells_keyword _) (spelled_append hline.spelled hrest.spelled),
        fun ts i hts => ?_⟩
      obtain ⟨⟨_, p⟩, us, rfl, rfl, hus⟩ := List.map_eq_cons_iff.1 hts
      obtain ⟨vs, ws, rfl, hvs, hws⟩ := List.map_eq_append_iff.1 hus
      obtain ⟨x, j, hx, hbare⟩ := hline.derived vs i hvs
      obtain ⟨xs, k, hxs, hbares⟩ := hrest.derived ws j hws
      have hall : Repeated IsSection (⟨.keyword .var, p⟩ :: (vs ++ ws) ++ []) i
          [x ++ xs.flatten] k := .more (.mk hx hxs) .none
      rw [List.append_nil] at hall
      refine ⟨_, k, hall, ?_⟩
      rw [List.flatten_singleton, List.map_append, hbare, List.map_flatten, hbares,
        ← List.flatMap_def, ← List.map_eq_flatMap, List.map_cons, List.singleton_append]

/-- The tokens of a block derive the block, if those of its procedures do. -/
theorem derives_block_of_procedures {b : Block} (h : b.InLanguage)
    (hprocedures : ∀ d ∈ b.declarations, d.isProcedure = true →
      Derives IsProcedure Declaration.bare d.tokens d.bare) :
    Derives IsBlock Block.bare b.tokens b.bare := by
  obtain ⟨declarations, body⟩ := b
  obtain ⟨vars, procedures, hsplit, hvars, hprocs⟩ :=
    exists_variables_procedures h.variablesFirst
  obtain rfl : declarations = vars ++ procedures := hsplit
  have hlanguage := Declaration.inLanguage_of_mem h.declarations
  have hsections := derives_sections
    (fun d hd => hlanguage d (List.mem_append_left _ hd)) hvars
  have hrepeated := derives_repeated fun d hd =>
    hprocedures d (List.mem_append_right _ hd) (hprocs d hd)
  have hcompound := derives_compound h.body_ne_nil (derives_statements body h.body)
  have htokens : Block.tokens ⟨vars ++ procedures, body⟩
      = (sectionTokens vars ++ vars.flatMap Declaration.tokens) ++
        (procedures.flatMap Declaration.tokens ++
          compoundTokens (Statement.tokensEach body)) := by
    rw [Block.tokens, sectionTokens_append hprocs, Declaration.tokensAll_eq_flatMap,
      List.flatMap_append]
    simp only [List.append_assoc]
  rw [htokens]
  refine ⟨spelled_append hsections.spelled (spelled_append hrepeated.spelled hcompound.spelled),
    fun ts i hts => ?_⟩
  obtain ⟨us, vs, rfl, hus, hvs⟩ := List.map_eq_append_iff.1 hts
  obtain ⟨ws, zs, rfl, hws, hzs⟩ := List.map_eq_append_iff.1 hvs
  obtain ⟨sections, j, hsection, hbare⟩ := hsections.derived us i hus
  obtain ⟨others, k, hother, hbares⟩ := hrepeated.derived ws j hws
  obtain ⟨statements, l, hstatements, hbody⟩ := hcompound.derived zs k hzs
  refine ⟨⟨sections.flatten ++ others, statements⟩, l, .mk hsection hother hstatements, ?_⟩
  rw [Block.bare, Block.bare, hbody, Declaration.bareAll_eq_map, Declaration.bareAll_eq_map,
    List.map_append, List.map_append, hbare, hbares]

mutual

/-- **The tokens of a procedure** derive its declaration. -/
theorem derives_procedure (d : Declaration) (h : d.InLanguage) (hkind : d.isProcedure = true) :
    Derives IsProcedure Declaration.bare d.tokens d.bare := by
  cases d with
  | var name type position => cases hkind
  | procedure name params declarations body position =>
      rw [Declaration.InLanguage] at h
      obtain ⟨hname, hparams, hfirst, hinside, hne, hbody⟩ := h
      have hheading := derives_parameters hparams
      have hblock := derives_block_of_procedures (b := ⟨declarations, body⟩)
        ⟨hfirst, hinside, hne, hbody⟩ (derives_procedures declarations hinside)
      have htokens : (Declaration.procedure name params declarations body position).tokens
          = .keyword .procedure :: .identifier name :: (parameterTokens params ++
            .symbol .semicolon :: (Block.tokens ⟨declarations, body⟩ ++ [.symbol .semicolon])) := by
        rw [Declaration.tokens, Block.tokens]
      rw [htokens, Declaration.bare]
      refine ⟨spelled_cons (spells_keyword _) (spelled_cons (spells_identifier hname)
        (spelled_append hheading.spelled (spelled_cons (spells_symbol _)
          (spelled_append hblock.spelled (spelled_cons (spells_symbol _) spelled_nil))))),
        fun ts i hts => ?_⟩
      obtain ⟨⟨_, p⟩, named, rfl, rfl, hnamed⟩ := List.map_eq_cons_iff.1 hts
      obtain ⟨⟨_, q⟩, more, rfl, rfl, hmore⟩ := List.map_eq_cons_iff.1 hnamed
      obtain ⟨us, vs, rfl, hus, hvs⟩ := List.map_eq_append_iff.1 hmore
      obtain ⟨⟨_, r⟩, ws, rfl, rfl, hws⟩ := List.map_eq_cons_iff.1 hvs
      obtain ⟨zs, last, rfl, hzs, hlast⟩ := List.map_eq_append_iff.1 hws
      obtain ⟨⟨_, t⟩, rfl, rfl⟩ := List.map_eq_singleton_iff.1 hlast
      obtain ⟨x, j, hx, hbare⟩ := hheading.derived us i hus
      obtain ⟨⟨ds, statements⟩, k, hy, hbare'⟩ := hblock.derived zs j hzs
      obtain ⟨hds, hstatements⟩ := Block.mk.inj hbare'
      refine ⟨_, k, .mk hx hy, ?_⟩
      rw [Declaration.bare, hbare, hds, hstatements]

/-- The tokens of each procedure of some declarations derive its declaration. -/
theorem derives_procedures (ds : List Declaration) (h : Declaration.InLanguageAll ds) :
    ∀ d ∈ ds, d.isProcedure = true → Derives IsProcedure Declaration.bare d.tokens d.bare := by
  cases ds with
  | nil => exact nofun
  | cons first rest =>
      rw [Declaration.InLanguageAll] at h
      exact List.forall_mem_cons.2
        ⟨fun hkind => derives_procedure first h.1 hkind, derives_procedures rest h.2⟩

end

/-- **The tokens of a block** derive the block. -/
theorem derives_block {b : Block} (h : b.InLanguage) : Derives IsBlock Block.bare b.tokens b.bare :=
  derives_block_of_procedures h (derives_procedures b.declarations h.declarations)

/-! ## Programs -/

theorem spelled_program {tree : Program} (h : tree.InLanguage) :
    ∀ token ∈ tree.tokens, ∃ word, Spells token word :=
  spelled_cons (spells_keyword _) (spelled_cons (spells_identifier h.1) (spelled_cons
    (spells_symbol _) (spelled_append (derives_block h.2).spelled
      (spelled_cons (spells_symbol _) spelled_nil))))

/-- **The tokens of a program** derive the program. -/
theorem derives_program {tree : Program} (h : tree.InLanguage) {ts : List (Located Token)}
    (hts : ts.map Located.value = tree.tokens) :
    ∃ parsed, IsProgram ts parsed ∧ parsed.bare = tree.bare := by
  obtain ⟨⟨_, p⟩, named, rfl, rfl, hnamed⟩ := List.map_eq_cons_iff.1 hts
  obtain ⟨⟨_, q⟩, more, rfl, rfl, hmore⟩ := List.map_eq_cons_iff.1 hnamed
  obtain ⟨⟨_, r⟩, rest, rfl, rfl, hrest⟩ := List.map_eq_cons_iff.1 hmore
  obtain ⟨us, vs, rfl, hus, hvs⟩ := List.map_eq_append_iff.1 hrest
  obtain ⟨⟨_, t⟩, rfl, rfl⟩ := List.map_eq_singleton_iff.1 hvs
  obtain ⟨block, k, hblock, hbare⟩ := (derives_block h.2).derived us 0 hus
  exact ⟨⟨tree.name, block, p⟩, .mk hblock, by rw [Program.bare, hbare]; rfl⟩

/-- **Round trip**: every program tree of the language has a rendering as a text, and every
rendering of it is read as a tree that is the same without places and numbers, with its nodes
numbered from zero on. -/
theorem parse_rendered {tree : Program} (h : tree.InLanguage) :
    (∃ source : String, Spaced tree.tokens source.toList) ∧
      ∀ source : String, Spaced tree.tokens source.toList →
        ∃ parsed, parse source = .ok parsed ∧ parsed.bare = tree.bare ∧
          parsed.nodeIds = List.range parsed.nodeIds.length := by
  constructor
  · obtain ⟨text, htext⟩ := exists_spaced (spelled_program h)
    exact ⟨String.ofList text, by rw [String.toList_ofList]; exact htext⟩
  · intro source hsource
    obtain ⟨ts, p, hvalues, hitems⟩ := hsource.items_eq []
    obtain ⟨parsed, hprogram, hbare⟩ := derives_program h hvalues
    exact ⟨parsed, parse_eq_ok_iff.2 ⟨ts, p, hitems, hprogram⟩, hbare, nodeIds_eq_range hprogram⟩

/-- A tree put together by hand, whose places and numbers mean nothing:
```
PROGRAM Sample; VAR a : INTEGER; b : REAL;
PROCEDURE Half(x : REAL); BEGIN b := x / (2 * a); END;
BEGIN Half(-(a - (a - 1.5))) END.
```
-/
def sampleTree : Program :=
  let a : Expr := .occurrence ⟨"a", 7, .origin⟩
  let x : Expr := .occurrence ⟨"x", 7, .origin⟩
  let two : Expr := .literal (.integer 2) .origin
  let real : Expr := .literal (.real (Float.ofScientific 15 true 1)) .origin
  let half : Expr := .binary .divideReal x (.binary .multiply two a .origin) .origin
  let difference : Expr :=
    .binary .subtract a (.binary .subtract a real .origin) .origin
  ⟨"Sample",
    ⟨[.var "a" ⟨"INTEGER", .origin⟩ .origin, .var "b" ⟨"REAL", .origin⟩ .origin,
        .procedure "Half" [⟨"x", ⟨"REAL", .origin⟩, .origin⟩] []
          [.assign ⟨"b", 7, .origin⟩ half .origin, .empty] .origin],
      [.call ⟨"Half", 7, [.signed .minus difference .origin], .origin⟩]⟩, .origin⟩

/-- The sample is a tree of the language, and its renderings are read as the sample. -/
theorem sampleTree_rendered : sampleTree.InLanguage ∧
    (∃ source : String, Spaced sampleTree.tokens source.toList) ∧
      ∀ source : String, Spaced sampleTree.tokens source.toList →
        ∃ parsed, parse source = .ok parsed ∧ parsed.bare = sampleTree.bare ∧
          parsed.nodeIds = List.range parsed.nodeIds.length := by
  have hreal : ∃ text, Denotes .real text
      (.ok (.number (.real (Float.ofScientific 15 true 1)))) :=
    ⟨_, .real (show IsDigits ['1'] by decide) (show IsDigits ['5'] by decide)⟩
  have hhalf : IsIdentifier "x" ∧ 0 ≤ Int64.toInt 2 ∧ IsIdentifier "a" := by decide
  have hparam : Parameter.InLanguage ⟨"x", ⟨"REAL", .origin⟩, .origin⟩ :=
    ⟨hhalf.1, Or.inr rfl⟩
  have hlanguage : sampleTree.InLanguage := by
    refine ⟨by decide, by decide, ?_, by decide, ?_⟩
    · simp only [sampleTree, Declaration.InLanguageAll, Declaration.InLanguage,
        Statement.InLanguageAll, Statement.InLanguage, Expr.InLanguage]
      exact ⟨⟨hhalf.2.2, Or.inl rfl⟩, ⟨by decide, Or.inr rfl⟩,
        ⟨by decide, List.forall_mem_singleton.2 hparam, by decide, trivial, by decide,
          ⟨by decide, hhalf⟩, trivial, trivial⟩, trivial⟩
    · simp only [sampleTree, Statement.InLanguageAll, Statement.InLanguage]
      exact ⟨⟨by decide, List.forall_mem_singleton.2 ⟨hhalf.2.2, hhalf.2.2, hreal⟩⟩, trivial⟩
  exact ⟨hlanguage, parse_rendered hlanguage⟩

end MiniPascal
