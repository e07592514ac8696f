/-
# What the readers have to accept

Before a phrase of the grammar, and with a token behind it that cannot continue the phrase,
a reader with a sufficient budget succeeds, takes exactly the phrase and answers with what it
denotes.  Together with soundness, reading a text as a program is deriving its tokens.

* `Reader.accepts_expression`, `Reader.accepts_statement`, `Reader.accepts_block` : the
  readers of expressions, statements and blocks accept every phrase;
* `parse_eq_ok_iff` : a text is read as a tree exactly if the grammar derives its tokens with that
  tree;
* `parse_iff_isProgram` : it derives them with one tree at most.
-/
import MiniPascal.Proofs.Grammar.Soundness
import MiniPascal.Tree.Phrase

set_option autoImplicit false

namespace MiniPascal

namespace Reader

open TokenStream Grammar

variable {α β : Type}

/-! ## Where a stream stands -/

/-- The items that a stream has to offer, and the next free number. -/
def Stands (s : TokenStream) (items : List Item) (i : Nat) : Prop :=
  s.upcoming = items ∧ s.nextId = i

/-- A reader succeeds with `x` and leaves the stream before `items`. -/
def Yields (p : Reader α) (s : TokenStream) (x : α) (items : List Item) (i : Nat) : Prop :=
  ∃ t, p s = .ok x t ∧ Stands t items i

/-- Items that begin with a token of a certain kind. -/
def Follows (allowed : Token → Prop) (items : List Item) : Prop :=
  ∃ next more, items = .ok next :: more ∧ allowed next.value

/-- Any token at all. -/
def anyToken (_ : Token) : Prop := True

theorem follows_cons {allowed : Token → Prop} {token : Located Token} {items : List Item}
    (h : allowed token.value) : Follows allowed (.ok token :: items) :=
  ⟨token, items, rfl, h⟩

theorem Follows.mono {allowed other : Token → Prop} {items : List Item}
    (h : Follows allowed items) (himp : ∀ v, allowed v → other v) : Follows other items := by
  obtain ⟨next, more, rfl, hnext⟩ := h
  exact ⟨next, more, rfl, himp _ hnext⟩

theorem Follows.append {allowed : Token → Prop} {items : List Item} (h : Follows allowed items)
    (ts : List (Located Token)) : Follows anyToken (ts.map Except.ok ++ items) := by
  cases ts with
  | nil => exact h.mono fun _ _ => trivial
  | cons token ts => exact follows_cons trivial

/-! ## Steps that succeed -/

/-- Reading in turn. -/
theorem Yields.bind {p : Reader α} {f : α → Reader β} {s : TokenStream} {x : α} {y : β}
    {items rest : List Item} {i j : Nat} (hp : Yields p s x items i)
    (hf : ∀ t, Stands t items i → Yields (f x) t y rest j) :
    Yields (p >>= f) s y rest j := by
  obtain ⟨t, ht, hstands⟩ := hp
  obtain ⟨u, hu, hend⟩ := hf t hstands
  exact ⟨u, bind_eq_ok.2 ⟨x, t, ht, hu⟩, hend⟩

theorem yields_pure {s : TokenStream} {items : List Item} {i : Nat} (h : Stands s items i)
    (x : α) : Yields (pure x) s x items i :=
  ⟨s, rfl, h⟩

theorem yields_peekCurrent {f : Located Token → Reader α} {s : TokenStream}
    {token : Located Token} {rest items : List Item} {x : α} {i j : Nat}
    (hs : Stands s (.ok token :: rest) i) (h : Yields (f token) s x items j) :
    Yields (peekCurrent >>= f) s x items j := by
  rw [← current_eq hs.1] at h
  exact h

theorem yields_advance {s : TokenStream} {token : Located Token} {rest : List Item} {i : Nat}
    (hs : Stands s (.ok token :: rest) i) (hrest : Follows anyToken rest) :
    Yields advance s token rest i := by
  obtain ⟨next, more, rfl, -⟩ := hrest
  obtain ⟨t, ht, hupcoming, hid⟩ := advance_of_upcoming hs.1
  exact ⟨t, ht, hupcoming, hid.trans hs.2⟩

/-- Moving past a required token. -/
theorem yields_eat {s : TokenStream} {token : Token} {p : Position} {rest : List Item} {i : Nat}
    (htoken : token.isFixed = true) (hs : Stands s (.ok ⟨token, p⟩ :: rest) i)
    (hrest : Follows anyToken rest) : Yields (eat token) s ⟨token, p⟩ rest i := by
  have heat : eat token s =
      (if s.current.value == token then advance else unexpected token.describe) s := rfl
  have hcheck : (s.current.value == token) = true := by
    rw [Token.beq_iff_eq_of_isFixed htoken, current_eq hs.1]
  rw [Yields, heat, if_pos hcheck]
  exact yields_advance hs hrest

/-- Going on behind an optional token. -/
theorem yields_ifTaken {s : TokenStream} {token : Token} {p : Position} {yes no : Reader α}
    {rest items : List Item} {x : α} {i j : Nat} (htoken : token.isFixed = true)
    (hs : Stands s (.ok ⟨token, p⟩ :: rest) i) (hrest : Follows anyToken rest)
    (hyes : ∀ t, Stands t rest i → Yields yes t x items j) :
    Yields (ifTaken token yes no) s x items j := by
  have htaken : ifTaken token yes no s =
      (if s.current.value == token then advance >>= fun _ => yes else no) s := rfl
  have hcheck : (s.current.value == token) = true := by
    rw [Token.beq_iff_eq_of_isFixed htoken, current_eq hs.1]
  rw [Yields, htaken, if_pos hcheck]
  exact (yields_advance hs hrest).bind hyes

/-- Going on without an optional token. -/
theorem yields_ifTaken_of_ne {s : TokenStream} {token : Token} {yes no : Reader α}
    {rest items : List Item} {x : α} {i j : Nat} (htoken : token.isFixed = true)
    (hs : Stands s rest i) (hrest : Follows (· ≠ token) rest)
    (hno : Yields no s x items j) : Yields (ifTaken token yes no) s x items j := by
  obtain ⟨next, more, rfl, hne⟩ := hrest
  have htaken : ifTaken token yes no s =
      (if s.current.value == token then advance >>= fun _ => yes else no) s := rfl
  have hcheck : ¬(s.current.value == token) = true := by
    rw [Token.beq_iff_eq_of_isFixed htoken, current_eq hs.1]
    exact hne
  rw [Yields, htaken, if_neg hcheck]
  exact hno

theorem yields_peekNext {s : TokenStream} {token next : Located Token} {rest : List Item}
    {i : Nat} (hs : Stands s (.ok token :: .ok next :: rest) i) :
    Yields peekNext s next (.ok token :: .ok next :: rest) i := by
  obtain ⟨t, ht, hupcoming, hid⟩ := peekNext_of_upcoming hs.1
  exact ⟨t, ht, hupcoming.trans hs.1, hid.trans hs.2⟩

theorem yields_takeId {s : TokenStream} {items : List Item} {i : Nat} (hs : Stands s items i) :
    Yields takeId s i items (i + 1) := by
  obtain ⟨hupcoming, rfl⟩ := hs
  exact ⟨_, rfl, hupcoming, rfl⟩

theorem yields_identifier {s : TokenStream} {name : String} {p : Position} {rest : List Item}
    {i : Nat} (hs : Stands s (.ok ⟨.identifier name, p⟩ :: rest) i)
    (hrest : Follows anyToken rest) : Yields identifier s ⟨name, p⟩ rest i := by
  refine yields_peekCurrent hs ?_
  exact (yields_advance hs hrest).bind fun t ht => yields_pure ht _

theorem yields_occurrence {s : TokenStream} {name : String} {p : Position} {rest : List Item}
    {i : Nat} (hs : Stands s (.ok ⟨.identifier name, p⟩ :: rest) i)
    (hrest : Follows anyToken rest) : Yields occurrence s ⟨name, i, p⟩ rest (i + 1) := by
  refine (yields_identifier hs hrest).bind fun t ht => ?_
  exact (yields_takeId ht).bind fun u hu => yields_pure hu _

/-! ## Accepting phrases -/

/-- A reader accepts the phrases of at most `k` tokens, if a token of the kind `follow`
stands behind them. -/
def Accepts (k : Nat) (p : Reader α) (phrase : Language α) (follow : Token → Prop) : Prop :=
  ∀ ⦃s : TokenStream⦄ ⦃ts : List (Located Token)⦄ ⦃i : Nat⦄ ⦃x : α⦄ ⦃j : Nat⦄
    ⦃rest : List Item⦄, ts.length ≤ k → phrase ts i x j → Follows follow rest →
    Stands s (ts.map Except.ok ++ rest) i → Yields p s x rest j

theorem Accepts.mono {k l : Nat} {p : Reader α} {phrase : Language α} {follow : Token → Prop}
    (h : Accepts k p phrase follow) (hl : l ≤ k) : Accepts l p phrase follow :=
  fun _ _ _ _ _ _ hts => h (Nat.le_trans hts hl)

/-- **Separated items are accepted** if one item is, before a separator and at the end. -/
theorem accepts_separated {k n : Nat} {item : Reader α} {phrase : Language α}
    {inner : Token → Prop} (separator : Token) (follow : Token → Prop)
    (hseparator : separator.isFixed = true) (hitem : Accepts k item phrase inner)
    (hinner : inner separator) (hfollow : ∀ v, follow v → inner v ∧ v ≠ separator) (hn : k < n) :
    Accepts k (separated item separator n) (Separated phrase separator) follow := by
  induction n generalizing k with
  | zero => omega
  | succ n ih =>
      intro s ts i xs j rest hk hphrase hrest hs
      unfold separated
      -- the token behind an item tells whether another one is to come
      cases hphrase with
      | one hx =>
          refine (hitem hk hx (hrest.mono fun v hv => (hfollow v hv).1) hs).bind
            fun t ht => ?_
          refine yields_ifTaken_of_ne hseparator ht
            (hrest.mono fun v hv => (hfollow v hv).2) ?_
          exact yields_pure ht _
      | more hx hxs =>
          simp only [List.length_append, List.length_cons] at hk
          simp only [List.map_append, List.map_cons, List.append_assoc,
            List.cons_append] at hs
          refine (hitem (by omega) hx (follows_cons hinner) hs).bind fun t ht => ?_
          refine yields_ifTaken hseparator ht (hrest.append _) fun u hu => ?_
          have hmore := ih (hitem.mono (Nat.sub_le k 1)) (by omega)
          exact (hmore (by omega) hxs hrest hu).bind fun w hw => yields_pure hw _

/-- Separated items begin like the first of them. -/
theorem follows_separated {phrase : Language α} {separator : Token} {first : Token → Prop}
    (hfirst : ∀ {us : List (Located Token)} {a b : Nat} {x : α}, phrase us a x b →
      ∃ token vs, us = token :: vs ∧ first token.value)
    {ts : List (Located Token)} {i j : Nat} {xs : List α}
    (h : Separated phrase separator ts i xs j) (rest : List Item) :
    Follows first (ts.map Except.ok ++ rest) := by
  cases h with
  | one hx =>
      obtain ⟨token, us, rfl, htoken⟩ := hfirst hx
      exact follows_cons htoken
  | more hx _ =>
      obtain ⟨token, us, rfl, htoken⟩ := hfirst hx
      exact follows_cons htoken

/-- **Repeated items are accepted** if one item is, before another one and at the end, and
the first token tells whether an item is there. -/
theorem accepts_whileStarts {k n : Nat} {item : Reader α} {phrase : Language α}
    {inner : Token → Prop} (starts : Reader Bool) (first : Token → Bool)
    (follow : Token → Prop) (hstarts : ∀ s, starts s = .ok (first s.current.value) s)
    (hitem : Accepts k item phrase inner)
    (hphrase : ∀ {ts : List (Located Token)} {i : Nat} {x : α} {j : Nat}, phrase ts i x j →
      ∃ token us, ts = token :: us ∧ first token.value = true)
    (hinner : ∀ v, first v = true → inner v)
    (hfollow : ∀ v, follow v → inner v ∧ first v = false) (hn : k < n) :
    Accepts k (whileStarts starts item n) (Repeated phrase) follow := by
  induction n generalizing k with
  | zero => omega
  | succ n ih =>
      intro s ts i xs j rest hk hxs hrest hs
      have hread : whileStarts starts item (n + 1) s =
          (if first s.current.value then (do
            let x ← item
            let more ← whileStarts starts item n
            return x :: more) else return []) s := by
        show EStateM.bind starts _ s = _
        unfold EStateM.bind
        rw [hstarts s]
      rw [Yields, hread]
      cases hxs with
      | none =>
          obtain ⟨next, more, rfl, hnext⟩ := hrest
          have hno : ¬first s.current.value = true := by
            rw [current_eq hs.1, (hfollow _ hnext).2]
            exact Bool.false_ne_true
          rw [if_neg hno]
          exact yields_pure hs _
      | more hx hxs =>
          -- behind an item stands another one or what follows them all
          have hnext : ∀ {us : List (Located Token)} {l m : Nat} {ys : List α},
              Repeated phrase us l ys m → Follows inner (us.map Except.ok ++ rest) := by
            intro us l m ys hys
            cases hys with
            | none => exact hrest.mono fun v hv => (hfollow v hv).1
            | more hy _ =>
                obtain ⟨token, vs, rfl, htoken⟩ := hphrase hy
                exact follows_cons (hinner _ htoken)
          obtain ⟨token, us, rfl, htoken⟩ := hphrase hx
          simp only [List.length_append, List.length_cons] at hk
          have hyes : first s.current.value = true := by
            rw [current_eq hs.1]
            exact htoken
          rw [if_pos hyes]
          rw [List.map_append, List.append_assoc] at hs
          refine (hitem (by simp only [List.length_cons]; omega) hx (hnext hxs) hs).bind
            fun t ht => ?_
          have hmore := ih (hitem.mono (Nat.sub_le k 1)) (by omega)
          exact (hmore (by omega) hxs hrest ht).bind fun w hw => yields_pure hw _

theorem operator?_operatorToken (op : Operator) :
    (operatorToken op).operator? = some op := by
  cases op <;> rfl

/-- **Chains of operands are accepted** if one operand is, before an operator and at the
end. -/
theorem accepts_chain {k n : Nat} {operand : Reader Expr} {phrase : Language Expr}
    {belongs : Operator → Bool} {operators : List Operator} {inner follow : Token → Prop}
    (hbelongs : ∀ op, belongs op = true ↔ op ∈ operators)
    (hoperand : Accepts k operand phrase inner)
    (hinner : ∀ op ∈ operators, inner (operatorToken op))
    (hfollow : ∀ v, follow v → inner v ∧ ∀ op ∈ operators, v ≠ operatorToken op) (hn : k < n)
    (left : Expr) :
    Accepts k (chain operand belongs n left) (Chain phrase operators left) follow := by
  induction n generalizing k left with
  | zero => omega
  | succ n ih =>
      intro s ts i e j rest hk hchain hrest hs
      unfold chain
      cases hchain with
      | done =>
          obtain ⟨next, more, rfl, hnext⟩ := hrest
          refine yields_peekCurrent hs ?_
          split
          next op hop =>
            have hno : ¬belongs op = true := by
              rw [hbelongs]
              intro hmember
              exact (hfollow _ hnext).2 op hmember (eq_operatorToken hop)
            rw [if_neg hno]
            exact yields_pure hs _
          next => exact yields_pure hs _
      | more hmember hright hrest' =>
          simp only [List.length_append, List.length_cons] at hk
          simp only [List.map_append, List.map_cons, List.append_assoc,
            List.cons_append] at hs
          refine yields_peekCurrent hs ?_
          dsimp only
          rw [operator?_operatorToken]
          dsimp only
          rw [if_pos ((hbelongs _).2 hmember)]
          refine (yields_advance hs ?_).bind fun t ht => ?_
          · rw [← List.append_assoc, ← List.map_append]
            exact hrest.append _
          -- behind the operand stands the next operator or what follows the chain
          have hnext : ∀ {us : List (Located Token)} {l e : Expr} {a b : Nat},
              Chain phrase operators l us a e b → Follows inner (us.map Except.ok ++ rest) := by
            intro us l e a b hus
            cases hus with
            | done => exact hrest.mono fun v hv => (hfollow v hv).1
            | more hop _ _ => exact follows_cons (hinner _ hop)
          refine (hoperand (by omega) hright (hnext hrest') ht).bind fun u hu => ?_
          exact ih (hoperand.mono (Nat.sub_le k 1)) (by omega) _ (by omega) hrest' hrest hu

/-! ## Names and types -/

theorem accepts_identifier (k : Nat) : Accepts k identifier IsName anyToken := by
  intro s ts i name j rest _ hname hrest hs
  cases hname with
  | mk => exact yields_identifier hs hrest

/-- Types are accepted, whatever stands behind them. -/
theorem accepts_typeName (k : Nat) : Accepts k typeName IsType anyToken := by
  intro s ts i type j rest _ htype hrest hs
  cases htype with
  | integer =>
      refine yields_peekCurrent hs ?_
      exact (yields_advance hs hrest).bind fun t ht => yields_pure ht _
  | real =>
      refine yields_peekCurrent hs ?_
      exact (yields_advance hs hrest).bind fun t ht => yields_pure ht _

/-- Names with a type are accepted, whatever stands behind them. -/
theorem accepts_typed {k n : Nat} (hn : k < n) : Accepts k (typed n) IsTyped anyToken := by
  intro s ts i x j rest hk htyped hrest hs
  unfold typed
  cases htyped with
  | mk hnames htype =>
      simp only [List.length_append, List.length_cons] at hk
      simp only [List.map_append, List.map_cons, List.append_assoc, List.cons_append] at hs
      have hids := accepts_separated (.symbol .comma) (· = .symbol .colon) rfl
        (accepts_identifier k) trivial (by rintro v rfl; exact ⟨trivial, by simp⟩) hn
      refine (hids (by omega) hnames (follows_cons rfl) hs).bind fun t ht => ?_
      refine (yields_eat rfl ht (hrest.append _)).bind fun u hu => ?_
      refine (accepts_typeName k (by omega) htype hrest hu).bind fun v hv => ?_
      exact yields_pure hv _

/-! ## Expressions -/

/-- The tokens that end a term: no operator between factors. -/
def endsTerm (v : Token) : Prop :=
  ∀ op ∈ [Operator.multiply, .divideInteger, .divideReal], v ≠ operatorToken op

/-- The tokens that end an expression: no operator at all. -/
def endsExpression (v : Token) : Prop := ∀ op, v ≠ operatorToken op

/-- Closing parentheses, commas, semicolons and `END` end an expression. -/
theorem endsExpression_of_mem {v : Token}
    (h : v ∈ [Token.symbol .rightParen, .symbol .comma, .symbol .semicolon,
      .keyword .blockEnd]) : endsExpression v := by
  intro op
  simp only [List.mem_cons, List.not_mem_nil, or_false] at h
  rcases h with rfl | rfl | rfl | rfl <;> cases op <;> simp [operatorToken]

theorem endsTerm_of_additive :
    ∀ op ∈ [Operator.add, .subtract], endsTerm (operatorToken op) := by
  intro op hop op' hop'
  cases op <;> cases op' <;> simp_all [operatorToken]

/-- What ends an expression ends a term and is no additive operator. -/
theorem endsTerm_of_endsExpression {v : Token} (h : endsExpression v) :
    endsTerm v ∧ ∀ op ∈ [Operator.add, .subtract], v ≠ operatorToken op :=
  ⟨fun op _ => h op, fun op _ => h op⟩

/-- Terms are accepted if factors are. -/
theorem accepts_termOf {k n : Nat} {p : Reader Expr} (hp : Accepts k p IsFactor anyToken)
    (hn : k < n) : Accepts k (termOf p n) IsTerm endsTerm := by
  intro s ts i e j rest hk hterm hrest hs
  unfold termOf
  cases hterm with
  | mk hleft hchain =>
      rw [List.length_append] at hk
      rw [List.map_append, List.append_assoc] at hs
      refine (hp (by omega) hleft (hrest.append _) hs).bind fun t ht => ?_
      exact accepts_chain isMultiplicative_iff hp (fun _ _ => trivial)
        (fun v hv => ⟨trivial, hv⟩) hn _ (by omega) hchain hrest ht

/-- Expressions are accepted if factors are. -/
theorem accepts_expressionOf {k n : Nat} {p : Reader Expr} (hp : Accepts k p IsFactor anyToken)
    (hn : k < n) : Accepts k (expressionOf p n) IsExpression endsExpression := by
  intro s ts i e j rest hk hexpression hrest hs
  unfold expressionOf
  cases hexpression with
  | mk hleft hchain =>
      rw [List.length_append] at hk
      rw [List.map_append, List.append_assoc] at hs
      refine (accepts_termOf hp hn (by omega) hleft ?_ hs).bind fun t ht => ?_
      -- behind the first term stands an additive operator or the end
      · cases hchain with
        | done => exact hrest.mono fun v hv => (endsTerm_of_endsExpression hv).1
        | more hop _ _ => exact follows_cons (endsTerm_of_additive _ hop)
      · exact accepts_chain isAdditive_iff (accepts_termOf hp hn) endsTerm_of_additive
          (fun _ => endsTerm_of_endsExpression) hn _ (by omega) hchain hrest ht

/-- **Factors are accepted,** whatever stands behind them. -/
theorem accepts_factor {k n : Nat} (hn : k < n) : Accepts k (factor n) IsFactor anyToken := by
  induction n generalizing k with
  | zero => omega
  | succ n ih =>
      intro s ts i e j rest hk hfactor hrest hs
      unfold factor
      cases hfactor with
      | @signed sign p us _ _ inner hoperand =>
          rw [List.length_cons] at hk
          have hsign : Yields (advance >>= fun _ => factor n >>= fun operand =>
              pure (Expr.signed sign operand p)) s (.signed sign inner p) rest j := by
            refine (yields_advance hs (hrest.append _)).bind fun t ht => ?_
            have hmore := ih (k := k - 1) (by omega)
            exact (hmore (by omega) hoperand hrest ht).bind fun u hu => yields_pure hu _
          refine yields_peekCurrent hs ?_
          cases sign with
          | plus => exact hsign
          | minus => exact hsign
      | literal =>
          refine yields_peekCurrent hs ?_
          exact (yields_advance hs hrest).bind fun t ht => yields_pure ht _
      | parenthesized hinner =>
          simp only [List.length_cons, List.length_append] at hk
          simp only [List.map_cons, List.map_append, List.append_assoc, List.cons_append,
            List.map_nil, List.nil_append] at hs
          refine yields_peekCurrent hs ?_
          have hparen : ∀ q, Follows (· = .symbol .rightParen)
              (.ok ⟨.symbol .rightParen, q⟩ :: rest) := fun q => follows_cons rfl
          refine (yields_advance hs ((hparen _).append _)).bind fun t ht => ?_
          have hexpression := accepts_expressionOf (ih (k := k - 1) (by omega))
            (n := n) (by omega)
          refine (hexpression (by omega) hinner ((hparen _).mono ?_) ht).bind fun u hu => ?_
          · rintro v rfl
            exact endsExpression_of_mem (by simp)
          · exact (yields_eat rfl hu (hrest.mono fun _ _ => trivial)).bind
              fun w hw => yields_pure hw _
      | occurrence =>
          refine yields_peekCurrent hs ?_
          exact (yields_occurrence hs hrest).bind fun t ht => yields_pure ht _

theorem accepts_expression {k n : Nat} (hn : k < n) :
    Accepts k (expression n) IsExpression endsExpression :=
  accepts_expressionOf (accepts_factor hn) hn

/-- A factor does not begin with a closing parenthesis. -/
theorem exists_cons_of_isFactor {ts : List (Located Token)} {i j : Nat} {e : Expr}
    (h : IsFactor ts i e j) :
    ∃ token us, ts = token :: us ∧ token.value ≠ .symbol .rightParen := by
  cases h with
  | @signed sign => exact ⟨_, _, rfl, by cases sign <;> simp [signToken]⟩
  | literal => exact ⟨_, _, rfl, by simp⟩
  | parenthesized => exact ⟨_, _, rfl, by simp⟩
  | occurrence => exact ⟨_, _, rfl, by simp⟩

/-- An expression does not begin with a closing parenthesis. -/
theorem exists_cons_of_isExpression {ts : List (Located Token)} {i j : Nat} {e : Expr}
    (h : IsExpression ts i e j) :
    ∃ token us, ts = token :: us ∧ token.value ≠ .symbol .rightParen := by
  cases h with
  | mk hterm _ =>
      cases hterm with
      | mk hfactor _ =>
          obtain ⟨token, us, rfl, hne⟩ := exists_cons_of_isFactor hfactor
          exact ⟨token, _, rfl, hne⟩

/-! ## Statements -/

/-- Calls are accepted, whatever stands behind them. -/
theorem accepts_call {k n : Nat} (hn : k < n) : Accepts (k + 2) (call n) IsCall anyToken := by
  intro s ts i c j rest hk hcall hrest hs
  unfold call
  cases hcall with
  | @mk name p q r us _ j values harguments =>
      simp only [List.length_cons, List.length_append, List.length_nil] at hk
      simp only [List.map_cons, List.map_append, List.append_assoc, List.cons_append,
        List.map_nil, List.nil_append] at hs
      have hparen : Follows (· = .symbol .rightParen)
          (.ok ⟨.symbol .rightParen, r⟩ :: rest) := follows_cons rfl
      refine (yields_identifier hs (follows_cons trivial)).bind fun t ht => ?_
      refine (yields_eat rfl ht (hparen.append _)).bind fun u hu => ?_
      have hvalues : Yields (arguments n) u values rest j := by
        unfold arguments
        cases harguments with
        | none => exact yields_ifTaken rfl hu hrest fun v hv => yields_pure hv _
        | some hexpressions =>
            refine yields_ifTaken_of_ne rfl hu
              (follows_separated exists_cons_of_isExpression hexpressions _) ?_
            have hitems := accepts_separated (.symbol .comma) (· = .symbol .rightParen) rfl
              (accepts_expression hn) (endsExpression_of_mem (by simp))
              (by rintro v rfl; exact ⟨endsExpression_of_mem (by simp), by simp⟩) hn
            refine (hitems (by omega) hexpressions hparen hu).bind fun v hv => ?_
            exact yields_ifTaken rfl hv hrest fun w hw => yields_pure hw _
      refine hvalues.bind fun v hv => ?_
      exact (yields_takeId hv).bind fun w hw => yields_pure hw _

/-- The tokens behind a statement of a compound statement. -/
def endsStatement (v : Token) : Prop := v = .symbol .semicolon ∨ v = .keyword .blockEnd

theorem endsExpression_of_endsStatement {v : Token} (h : endsStatement v) :
    endsExpression v := by
  rcases h with rfl | rfl
  · exact endsExpression_of_mem (by simp)
  · exact endsExpression_of_mem (by simp)

/-- Compound statements are accepted if their statements are, whatever stands behind
them. -/
theorem accepts_compoundOf {k n : Nat} {p : Reader Statement}
    (hp : Accepts k p IsStatement endsStatement) (hn : k < n) :
    Accepts (k + 2) (compoundOf p n) IsCompound anyToken := by
  intro s ts i body j rest hk hcompound hrest hs
  unfold compoundOf
  cases hcompound with
  | @mk q r us _ _ _ hbody =>
      simp only [List.length_cons, List.length_append, List.length_nil] at hk
      simp only [List.map_cons, List.map_append, List.append_assoc, List.cons_append,
        List.map_nil, List.nil_append] at hs
      have hend : Follows (· = .keyword .blockEnd) (.ok ⟨.keyword .blockEnd, r⟩ :: rest) :=
        follows_cons rfl
      have hitems := accepts_separated (.symbol .semicolon) (· = .keyword .blockEnd) rfl hp
        (Or.inl rfl) (by rintro v rfl; exact ⟨Or.inr rfl, by simp⟩) hn
      refine (yields_eat rfl hs (hend.append _)).bind fun t ht => ?_
      refine (hitems (by omega) hbody hend ht).bind fun u hu => ?_
      exact (yields_eat rfl hu hrest).bind fun v hv => yields_pure hv _

/-- **Statements are accepted** before a token that ends them. -/
theorem accepts_statement {k n : Nat} (hn : k < n) :
    Accepts k (statement n) IsStatement endsStatement := by
  induction n generalizing k with
  | zero => omega
  | succ n ih =>
      intro s ts i st j rest hk hstatement hrest hs
      unfold statement
      have hany : Follows anyToken rest := hrest.mono fun _ _ => trivial
      cases hstatement with
      | @compound _ _ _ body hcompound =>
          have hread : Yields (compoundOf (statement n) n >>= fun found =>
              pure (Statement.compound found)) s (.compound body) rest j := by
            have hlength : 2 ≤ ts.length := by
              cases hcompound
              simp
            have hbody := accepts_compoundOf (ih (k := k - 2) (by omega)) (n := n) (by omega)
            exact (hbody (by omega) hcompound hany hs).bind fun t ht => yields_pure ht _
          cases hcompound with
          | mk hbody => exact yields_peekCurrent hs hread
      | @call _ _ _ c hcall =>
          have hread := accepts_call (k := k - 2) (n := n)
          cases hcall with
          | mk harguments =>
              have hlength := hk
              simp only [List.length_cons, List.length_append, List.length_nil] at hlength
              refine yields_peekCurrent hs ?_
              -- the token behind the name tells a call from an assignment
              refine (yields_peekNext hs).bind fun t ht => ?_
              rw [if_pos (by rfl)]
              exact (hread (by omega) (by omega) (IsCall.mk harguments) hany ht).bind
                fun u hu => yields_pure hu _
      | assign hvalue =>
          simp only [List.length_cons] at hk
          refine yields_peekCurrent hs ?_
          refine (yields_peekNext hs).bind fun t ht => ?_
          rw [if_neg (by simp [BEq.beq, instBEqToken.beq])]
          have hexpression := accepts_expression (k := k - 2) (n := n) (by omega)
          refine (yields_occurrence ht (follows_cons trivial)).bind fun u hu => ?_
          refine (yields_eat rfl hu (hrest.append _)).bind fun v hv => ?_
          exact (hexpression (by omega) hvalue
            (hrest.mono fun _ => endsExpression_of_endsStatement) hv).bind
            fun w hw => yields_pure hw _
      | empty =>
          obtain ⟨next, more, rfl, hnext⟩ := hrest
          refine yields_peekCurrent hs ?_
          rcases hnext with hnext | hnext
          · rw [hnext]
            exact yields_pure hs _
          · rw [hnext]
            exact yields_pure hs _

theorem accepts_compound {k n : Nat} (hn : k < n) :
    Accepts k (compound n) IsCompound anyToken :=
  (accepts_compoundOf (accepts_statement hn) hn).mono (by omega)

/-! ## Declarations -/

/-- A line of variables begins with an identifier. -/
theorem exists_cons_of_isVariableLine {ts : List (Located Token)} {i j : Nat}
    {line : List Declaration} (h : IsVariableLine ts i line j) :
    ∃ token us, ts = token :: us ∧ token.value.name?.isSome = true := by
  cases h with
  | mk htyped =>
      cases htyped with
      | mk hnames _ =>
          cases hnames with
          | one hname => cases hname; exact ⟨_, _, rfl, rfl⟩
          | more hname _ => cases hname; exact ⟨_, _, rfl, rfl⟩

/-- Lines of variables are accepted, whatever stands behind them. -/
theorem accepts_variableLine {k n : Nat} (hn : k < n) :
    Accepts k (variableLine n) IsVariableLine anyToken := by
  intro s ts i line j rest hk hline hrest hs
  unfold variableLine
  cases hline with
  | @mk us p _ _ names type htyped =>
      rw [List.length_append] at hk
      rw [List.map_append, List.append_assoc] at hs
      refine (accepts_typed hn (by omega) htyped (hrest.append [_]) hs).bind fun t ht => ?_
      exact (yields_eat rfl ht hrest).bind fun u hu => yields_pure hu _

/-- The tokens behind a section of variables. -/
def endsSection (v : Token) : Prop := v.name?.isSome = false

/-- Sections of variables are accepted before a token that is no identifier. -/
theorem accepts_variableSection {k n : Nat} (hn : k < n) :
    Accepts k (variableSection n) IsSection endsSection := by
  intro s ts i vars j rest hk hsection hrest hs
  unfold variableSection
  cases hsection with
  | @mk p us vs _ _ _ _ _ hline hlines =>
      simp only [List.length_cons, List.length_append] at hk
      simp only [List.map_cons, List.map_append, List.append_assoc, List.cons_append] at hs
      have hmore : Follows anyToken (vs.map Except.ok ++ rest) := hrest.append vs
      refine (yields_eat rfl hs (hmore.append us)).bind fun t ht => ?_
      refine (accepts_variableLine hn (by omega) hline hmore ht).bind fun u hu => ?_
      have hrepeated := accepts_whileStarts atIdentifier (fun v => v.name?.isSome)
        endsSection (fun _ => rfl) (accepts_variableLine hn) exists_cons_of_isVariableLine
        (fun _ _ => trivial) (fun _ h => ⟨trivial, h⟩) hn
      exact (hrepeated (by omega) hlines hrest hu).bind fun v hv => yields_pure hv _

/-- Groups of parameters are accepted, whatever stands behind them. -/
theorem accepts_parameterGroup {k n : Nat} (hn : k < n) :
    Accepts k (parameterGroup n) IsParameterGroup anyToken := by
  intro s ts i group j rest hk hgroup hrest hs
  unfold parameterGroup
  cases hgroup with
  | mk htyped =>
      exact (accepts_typed hn hk htyped hrest hs).bind fun t ht => yields_pure ht _

/-- A group of parameters does not begin with a closing parenthesis. -/
theorem exists_cons_of_isParameterGroup {ts : List (Located Token)} {i j : Nat}
    {group : List Parameter} (h : IsParameterGroup ts i group j) :
    ∃ token us, ts = token :: us ∧ token.value ≠ .symbol .rightParen := by
  cases h with
  | mk htyped =>
      cases htyped with
      | mk hnames _ =>
          cases hnames with
          | one hname => cases hname; exact ⟨_, _, rfl, by simp⟩
          | more hname _ => cases hname; exact ⟨_, _, rfl, by simp⟩

/-- Parameters are accepted, unless a parenthesis stands behind them. -/
theorem accepts_parameters {k n : Nat} (hn : k < n) :
    Accepts k (parameters n) IsParameters (· ≠ .symbol .leftParen) := by
  intro s ts i params j rest hk hparams hrest hs
  unfold parameters
  have hany : Follows anyToken rest := hrest.mono fun _ _ => trivial
  cases hparams with
  | absent => exact yields_ifTaken_of_ne rfl hs hrest (yields_pure hs _)
  | none =>
      refine yields_ifTaken rfl hs (follows_cons trivial) fun t ht => ?_
      exact yields_ifTaken rfl ht hany fun u hu => yields_pure hu _
  | @some p q us _ _ groups hgroups =>
      simp only [List.length_cons, List.length_append] at hk
      simp only [List.map_cons, List.map_append, List.append_assoc, List.cons_append,
        List.map_nil, List.nil_append] at hs
      have hend : Follows (· = .symbol .rightParen) (.ok ⟨.symbol .rightParen, q⟩ :: rest) :=
        follows_cons rfl
      refine yields_ifTaken rfl hs (hend.append _) fun t ht => ?_
      refine yields_ifTaken_of_ne rfl ht
        (follows_separated exists_cons_of_isParameterGroup hgroups _) ?_
      have hitems := accepts_separated (.symbol .semicolon) (· = .symbol .rightParen) rfl
        (accepts_parameterGroup hn) trivial (by rintro v rfl; exact ⟨trivial, by simp⟩) hn
      refine (hitems (by omega) hgroups hend ht).bind fun u hu => ?_
      exact (yields_eat rfl hu hany).bind fun v hv => yields_pure hv _

/-- What begins with a reserved word begins no other section, procedure or line. -/
theorem follows_of_isCompound {ts : List (Located Token)} {i j : Nat} {body : List Statement}
    (h : IsCompound ts i body j) (rest : List Item) :
    Follows (· = .keyword .blockBegin) (ts.map Except.ok ++ rest) := by
  cases h with
  | mk => exact follows_cons rfl

theorem check_eq_false {v : Token} {a b : Keyword} (h : v = .keyword a) (hne : a ≠ b) :
    (v == .keyword b) = false := by
  rw [h]
  refine Bool.eq_false_iff.2 fun heq => hne ?_
  exact Token.keyword.inj ((Token.beq_iff_eq_of_isFixed rfl).1 heq)

/-- Blocks are accepted if their procedures are, whatever stands behind them. -/
theorem accepts_blockOf {k n : Nat} {p : Reader Declaration}
    (hp : Accepts k p IsProcedure anyToken) (hn : k < n) :
    Accepts k (blockOf p n) IsBlock anyToken := by
  intro s ts i b j rest hk hblock hrest hs
  unfold blockOf declarationsOf
  cases hblock with
  | @mk us vs ws _ _ l _ sections procedures body hsections hprocedures hbody =>
      simp only [List.length_append] at hk
      simp only [List.map_append, List.append_assoc] at hs
      have hbegin := follows_of_isCompound hbody rest
      -- behind the sections stands a procedure or the body
      have hword : ∀ {xs : List (Located Token)} {l m : Nat} {ys : List Declaration},
          Repeated IsProcedure xs l ys m →
          Follows (fun v => v = .keyword .procedure ∨ v = .keyword .blockBegin)
            (xs.map Except.ok ++ (ws.map Except.ok ++ rest)) := by
        intro xs l m ys hys
        cases hys with
        | none => exact hbegin.mono fun _ => Or.inr
        | more hy _ => cases hy; exact follows_cons (Or.inl rfl)
      have hvars := accepts_whileStarts (check (.keyword .var)) (· == .keyword .var)
        (fun v => v = .keyword .procedure ∨ v = .keyword .blockBegin) (fun _ => rfl)
        (accepts_variableSection hn)
        (fun h => by cases h; exact ⟨_, _, rfl, by rfl⟩)
        (fun v hv => by rw [(Token.beq_iff_eq_of_isFixed rfl).1 hv]; rfl)
        (fun v hv => by
          rcases hv with rfl | rfl
          · exact ⟨rfl, check_eq_false rfl (by simp)⟩
          · exact ⟨rfl, check_eq_false rfl (by simp)⟩) hn
      have hprocs := accepts_whileStarts (check (.keyword .procedure))
        (· == .keyword .procedure) (· = .keyword .blockBegin) (fun _ => rfl) hp
        (fun h => by cases h; exact ⟨_, _, rfl, by rfl⟩) (fun _ _ => trivial)
        (fun v hv => ⟨trivial, check_eq_false hv (by simp)⟩) hn
      have hdeclarations : Yields (do
          let sections ← whileStarts (check (.keyword .var)) (variableSection n) n
          let procedures ← whileStarts (check (.keyword .procedure)) p n
          return sections.flatten ++ procedures) s (sections.flatten ++ procedures)
            (ws.map Except.ok ++ rest) l := by
        refine (hvars (by omega) hsections (hword hprocedures) hs).bind fun t ht => ?_
        exact (hprocs (by omega) hprocedures hbegin ht).bind fun u hu => yields_pure hu _
      refine hdeclarations.bind fun t ht => ?_
      exact (accepts_compound hn (by omega) hbody hrest ht).bind fun u hu => yields_pure hu _

/-- **Procedures are accepted,** whatever stands behind them. -/
theorem accepts_procedure {k n : Nat} (hn : k < n) :
    Accepts k (procedure n) IsProcedure anyToken := by
  induction n generalizing k with
  | zero => omega
  | succ n ih =>
      intro s ts i declaration j rest hk hprocedure hrest hs
      unfold procedure
      cases hprocedure with
      | mk hparams hblock =>
          simp only [List.length_cons, List.length_append, List.length_nil] at hk
          simp only [List.map_cons, List.map_append, List.append_assoc, List.cons_append,
            List.map_nil, List.nil_append] at hs
          have hmiddle : ∀ {q : Position} {items : List Item},
              Follows (· ≠ .symbol .leftParen) (.ok ⟨.symbol .semicolon, q⟩ :: items) :=
            follows_cons (by simp)
          have hlast : ∀ {q : Position},
              Follows anyToken (.ok ⟨.symbol .semicolon, q⟩ :: rest) := follows_cons trivial
          have hbody := accepts_blockOf (ih (k := k - 2) (by omega)) (n := n) (by omega)
          refine (yields_eat rfl hs (follows_cons trivial)).bind fun s1 h1 => ?_
          refine (yields_identifier h1 (hmiddle.append _)).bind fun s2 h2 => ?_
          refine (accepts_parameters (k := k - 2) (by omega) (by omega) hparams hmiddle
            h2).bind fun s3 h3 => ?_
          refine (yields_eat rfl h3 (hlast.append _)).bind fun s4 h4 => ?_
          refine (hbody (by omega) hblock hlast h4).bind fun s5 h5 => ?_
          exact (yields_eat rfl h5 hrest).bind fun s6 h6 => yields_pure h6 _

theorem accepts_block {k n : Nat} (hn : k < n) : Accepts k (block n) IsBlock anyToken :=
  accepts_blockOf (accepts_procedure hn) hn

/-! ## Programs -/

/-- **The tokens of a program** and the end of the input are read as the program. -/
theorem wholeProgram_of_isProgram {n : Nat} {s : TokenStream} {ts : List (Located Token)}
    {p : Position} {tree : Program} (hn : ts.length < n)
    (hs : Stands s (ts.map Except.ok ++ [.ok ⟨.endOfInput, p⟩]) 0)
    (htree : IsProgram ts tree) : ∃ t, wholeProgram n s = .ok tree t := by
  cases htree with
  | @mk name q _ _ _ us k b hblock =>
      simp only [List.length_cons, List.length_append, List.length_nil] at hn
      simp only [List.map_cons, List.map_append, List.append_assoc, List.cons_append,
        List.map_nil, List.nil_append] at hs
      have hdot : ∀ {q : Position} {items : List Item},
          Follows anyToken (.ok ⟨.symbol .dot, q⟩ :: items) := follows_cons trivial
      have hbody := accepts_block (k := us.length) (n := n) (by omega)
      have hread : Yields (wholeProgram n) s ⟨name, b, q⟩ [.ok ⟨.endOfInput, p⟩] k := by
        unfold wholeProgram
        have hprogram : Yields (program n) s ⟨name, b, q⟩ [.ok ⟨.endOfInput, p⟩] k := by
          unfold program
          refine (yields_eat rfl hs (follows_cons trivial)).bind fun s1 h1 => ?_
          refine (yields_identifier h1 (follows_cons trivial)).bind fun s2 h2 => ?_
          refine (yields_eat rfl h2 (hdot.append _)).bind fun s3 h3 => ?_
          refine (hbody (Nat.le_refl _) hblock hdot h3).bind fun s4 h4 => ?_
          exact (yields_eat rfl h4 (follows_cons trivial)).bind fun s5 h5 => yields_pure h5 _
        refine hprogram.bind fun t ht => ?_
        exact yields_peekCurrent ht (yields_pure ht _)
      obtain ⟨t, ht, -⟩ := hread
      exact ⟨t, ht⟩

end Reader

theorem error_not_mem_tokens (e : LexicalError) (ts : List (Located Token))
    (last : Located Token) : Except.error e ∉ ts.map Except.ok ++ [.ok last] := by
  simp

open Grammar in
/-- A text is read as a tree exactly if it has no lexical error and the grammar derives its
tokens with that tree. -/
theorem parse_eq_ok_iff {source : String} {tree : Program} :
    parse source = .ok tree ↔
      ∃ (ts : List (Located Token)) (p : Position),
        tokenize source = ts.map Except.ok ++ [.ok ⟨.endOfInput, p⟩] ∧ IsProgram ts tree := by
  unfold parse readProgram
  cases hstream : TokenStream.ofString source with
  | error e =>
      rw [TokenStream.tokenize_of_ofString_error hstream]
      constructor
      · intro h
        cases h
      · rintro ⟨ts, p, hitems, -⟩
        refine absurd ?_ (error_not_mem_tokens e ts ⟨.endOfInput, p⟩)
        rw [← hitems]
        exact List.mem_singleton_self _
  | ok s =>
      obtain ⟨hupcoming, hid⟩ := TokenStream.upcoming_ofString hstream
      dsimp only
      constructor
      · intro h
        rcases s.read_eq Phrase.wholeProgram (Nat.lt_succ_self _) with
          ⟨found, t, hread, heq⟩ | ⟨e, t, -, heq⟩
        · rw [heq] at h
          obtain rfl := Except.ok.inj h
          rw [← hupcoming]
          exact Reader.wholeProgram_eq_ok hid hread
        · rw [heq] at h
          cases h
      · rintro ⟨ts, p, hitems, htree⟩
        -- a budget that suffices for the tokens and for the reader
        have hts : ts.length < s.remaining + ts.length + 1 := by omega
        have hremaining : s.remaining < s.remaining + ts.length + 1 := by omega
        obtain ⟨t, ht⟩ := Reader.wholeProgram_of_isProgram hts
          ⟨hupcoming.trans hitems, hid⟩ htree
        have hreader : Phrase.wholeProgram.reader (s.remaining + ts.length + 1) s =
            .ok tree t := ht
        rcases s.read_eq Phrase.wholeProgram hremaining with
          ⟨found, u, hread, heq⟩ | ⟨e, u, hread, -⟩
        · rw [hreader] at hread
          cases hread
          rw [heq]
        · rw [hreader] at hread
          cases hread

open Grammar in
/-- **Reading a text is deriving it.**  If the text has no lexical error, it is read as a tree
exactly if the grammar derives the tokens before the end of the input with that tree, and the
grammar derives them with one tree at most; a text with a lexical error is not read as any tree. -/
theorem parse_iff_isProgram (source : String) :
    (∃ (ts : List (Located Token)) (p : Position),
      tokenize source = ts.map Except.ok ++ [.ok ⟨.endOfInput, p⟩] ∧
        (∀ tree, parse source = .ok tree ↔ IsProgram ts tree) ∧
        ∀ tree other, IsProgram ts tree → IsProgram ts other → other = tree) ∨
    ∃ (ts : List (Located Token)) (e : LexicalError),
      tokenize source = ts.map Except.ok ++ [.error e] ∧ ∀ tree, parse source ≠ .ok tree := by
  rcases Lexer.items_cases (Lexer.ofString source) with ⟨ts, p, hitems⟩ | ⟨ts, e, hitems⟩
  · -- the tokens of the text are determined by its items
    have hderive : ∀ tree, parse source = .ok tree ↔ IsProgram ts tree := by
      intro tree
      rw [parse_eq_ok_iff]
      constructor
      · rintro ⟨us, q, hus, htree⟩
        rw [show tokenize source = _ from hitems] at hus
        obtain ⟨hsame, -⟩ := List.append_inj' hus rfl
        rwa [(List.map_inj_right fun _ _ => Except.ok.inj).1 hsame]
      · exact fun htree => ⟨ts, p, hitems, htree⟩
    refine Or.inl ⟨ts, p, hitems, hderive, fun tree other htree hother => ?_⟩
    rw [← hderive] at htree hother
    exact Except.ok.inj (hother.symm.trans htree)
  · refine Or.inr ⟨ts, e, hitems, fun tree h => ?_⟩
    obtain ⟨us, p, hus, -⟩ := parse_eq_ok_iff.1 h
    rw [show tokenize source = _ from hitems] at hus
    refine absurd ?_ (error_not_mem_tokens e us ⟨.endOfInput, p⟩)
    rw [← hus]
    exact List.mem_append_right _ (List.mem_singleton_self _)

end MiniPascal
