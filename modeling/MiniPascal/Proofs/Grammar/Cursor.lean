/-
# Streams are cursors

A token stream scans on demand and keeps at most one token that it has looked ahead at.  Seen
from outside it is a plain cursor in the items of its lexer: one item after the other becomes
current or is reported as an error, in order, and a look ahead that succeeds cannot be told from
no look ahead.

* `Cursor` : a cursor without a buffer;
* `TokenStream.view_act` : every operation on a stream is the operation on its cursor;
* `TokenStream.run_view` : so is every sequence of operations;
* `Cursor.items_run` : what a cursor passes or reports are its items, in order;
* `TokenStream.cursor_ofString` : all of this for the stream of a text.
-/
import Mathlib.Data.Stream.Init
import MiniPascal.Proofs.Lexical.Offsets
import MiniPascal.Token.Stream

set_option autoImplicit false

namespace MiniPascal

/-! ## Operations -/

/-- The operations on a token stream. -/
inductive StreamOp where
  | current
  | peekNext
  | advance
  | check (token : Token)
  | eat (token : Token)
  | unexpected (expected : String)
  | takeId

/-- What an operation answers if it does not fail. -/
inductive Answer where
  | token (t : Located Token)
  | flag (b : Bool)
  | id (n : Nat)

/-- One operation as it is seen from outside: with its answer or its error, and with the token
that is current afterwards. -/
structure Step where
  op : StreamOp
  answer : Except Halt Answer
  current : Located Token

/-- What one operation does to a state, and which token is current there. -/
structure Device (σ : Type) where
  act : StreamOp → EStateM Halt σ Answer
  current : σ → Located Token

namespace Device

variable {σ : Type}

/-- One operation; what it does to the state stays done if it fails. -/
def step (m : Device σ) (op : StreamOp) (s : σ) : Step × σ :=
  match m.act op s with
  | .ok answer t => (⟨op, .ok answer, m.current t⟩, t)
  | .error halt t => (⟨op, .error halt, m.current t⟩, t)

theorem step_of_ok {m : Device σ} {op : StreamOp} {s t : σ} {answer : Answer}
    (h : m.act op s = .ok answer t) : m.step op s = (⟨op, .ok answer, m.current t⟩, t) := by
  rw [step, h]

theorem step_of_error {m : Device σ} {op : StreamOp} {s t : σ} {halt : Halt}
    (h : m.act op s = .error halt t) : m.step op s = (⟨op, .error halt, m.current t⟩, t) := by
  rw [step, h]

/-- Operations in turn, whether they fail or not. -/
def run (m : Device σ) : List StreamOp → σ → List Step × σ
  | [], s => ([], s)
  | op :: ops, s =>
    let (step, t) := m.step op s
    let (steps, u) := m.run ops t
    (step :: steps, u)

end Device

/-- The item that an operation passes on: the token that it makes current, or the lexical error
that it reports. -/
def Step.item? : Step → Option Item
  | ⟨.advance, .ok _, current⟩ => some (.ok current)
  | ⟨.eat _, .ok _, current⟩ => some (.ok current)
  | ⟨_, .error (.failed (.lexical e)), _⟩ => some (.error e)
  | _ => none

/-- Whatever reports a lexical error passes it on. -/
theorem Step.item?_of_error (op : StreamOp) (e : LexicalError) (current : Located Token) :
    Step.item? ⟨op, .error (.failed (.lexical e)), current⟩ = some (.error e) := by
  cases op <;> rfl

/-! ## Cursors -/

/-- A cursor in items: the current token, the next free node number, and the items behind the
current token. -/
structure Cursor where
  current : Located Token
  nextId : Nat
  items : Stream' Item

namespace Cursor

/-- Move on to the next token; an error is passed, and the current token stays. -/
def advance : EStateM Halt Cursor Answer := fun c =>
  match c.items.head with
  | .ok token => .ok (.token c.current) { c with current := token, items := c.items.tail }
  | .error e => .error (.failed (.lexical e)) { c with items := c.items.tail }

/-- The next token, which stays where it is; an error is passed. -/
def peekNext : EStateM Halt Cursor Answer := fun c =>
  match c.items.head with
  | .ok token => .ok (.token token) c
  | .error e => .error (.failed (.lexical e)) { c with items := c.items.tail }

/-- Refuse the current token. -/
def unexpected (expected : String) : EStateM Halt Cursor Answer := fun c =>
  .error (.failed (.grammar ⟨.unexpectedToken c.current.value expected, c.current.position⟩)) c

/-- The operations on a cursor. -/
def act : StreamOp → EStateM Halt Cursor Answer
  | .current => fun c => .ok (.token c.current) c
  | .peekNext => peekNext
  | .advance => advance
  | .check token => fun c => .ok (.flag (c.current.value == token)) c
  | .eat token => fun c =>
    if c.current.value == token then advance c else unexpected token.describe c
  | .unexpected expected => unexpected expected
  | .takeId => fun c => .ok (.id c.nextId) { c with nextId := c.nextId + 1 }

/-- A cursor as it is operated on. -/
def device : Device Cursor := ⟨act, Cursor.current⟩

/-- Moving on passes the next item. -/
theorem advance_cases (c : Cursor) :
    (∃ token, c.items.head = .ok token ∧
        advance c = .ok (.token c.current) { c with current := token, items := c.items.tail }) ∨
      ∃ e, c.items.head = .error e ∧
        advance c = .error (.failed (.lexical e)) { c with items := c.items.tail } := by
  unfold advance
  cases c.items.head with
  | ok token => exact Or.inl ⟨token, rfl, rfl⟩
  | error e => exact Or.inr ⟨e, rfl, rfl⟩

/-- Looking ahead passes nothing but an error. -/
theorem peekNext_cases (c : Cursor) :
    (∃ token, peekNext c = .ok (.token token) c) ∨
      ∃ e, c.items.head = .error e ∧
        peekNext c = .error (.failed (.lexical e)) { c with items := c.items.tail } := by
  unfold peekNext
  cases c.items.head with
  | ok token => exact Or.inl ⟨token, rfl⟩
  | error e => exact Or.inr ⟨e, rfl, rfl⟩

theorem items_of_head {c : Cursor} {item : Item} (h : c.items.head = item) :
    c.items = Stream'.appendStream' [item] c.items.tail := by
  rw [← h]
  exact c.items.append_stream_head_tail.symm

/-- An operation that fails with the next item passes it. -/
theorem items_of_error {op : StreamOp} {c : Cursor} {e : LexicalError}
    (hhead : c.items.head = .error e)
    (hact : device.act op c = .error (.failed (.lexical e)) { c with items := c.items.tail }) :
    c.items = Stream'.appendStream' (device.step op c).1.item?.toList
      (device.step op c).2.items := by
  rw [Device.step_of_error hact, Step.item?_of_error]
  exact items_of_head hhead

/-- An operation that moves on passes the next item. -/
theorem items_of_advance {op : StreamOp} {c : Cursor} (hact : device.act op c = advance c)
    (hop : ∀ answer current, Step.item? ⟨op, .ok answer, current⟩ = some (.ok current)) :
    c.items = Stream'.appendStream' (device.step op c).1.item?.toList
      (device.step op c).2.items := by
  rcases c.advance_cases with ⟨token, hhead, hadvance⟩ | ⟨e, hhead, hadvance⟩
  · rw [Device.step_of_ok (hact.trans hadvance), hop]
    exact items_of_head hhead
  · exact items_of_error hhead (hact.trans hadvance)

/-- One operation passes at most one item, the next one. -/
theorem items_step (op : StreamOp) (c : Cursor) :
    c.items = Stream'.appendStream' (device.step op c).1.item?.toList
      (device.step op c).2.items := by
  cases op with
  | current => rfl
  | check token => rfl
  | unexpected expected => rfl
  | takeId => rfl
  | advance => exact items_of_advance rfl fun _ _ => rfl
  | peekNext =>
      rcases c.peekNext_cases with ⟨token, hpeek⟩ | ⟨e, hhead, hpeek⟩
      · rw [Device.step_of_ok (show device.act .peekNext c = _ from hpeek)]
        rfl
      · exact items_of_error hhead hpeek
  | eat token =>
      by_cases hcheck : (c.current.value == token) = true
      · exact items_of_advance (if_pos hcheck) fun _ _ => rfl
      · rw [Device.step_of_error (show device.act (.eat token) c = _ from if_neg hcheck)]
        rfl

/-- An operation that reports a lexical error leaves the current token in place. -/
theorem current_of_error {op : StreamOp} {c d : Cursor} {e : LexicalError}
    (h : act op c = .error (.failed (.lexical e)) d) : d.current = c.current := by
  have hadvance : advance c = .error (.failed (.lexical e)) d → d.current = c.current := by
    intro h
    rcases c.advance_cases with ⟨token, -, hact⟩ | ⟨e', -, hact⟩
    · cases hact.symm.trans h
    · cases hact.symm.trans h
      rfl
  cases op with
  | current => cases h
  | check token => cases h
  | unexpected expected => cases h
  | takeId => cases h
  | advance => exact hadvance h
  | peekNext =>
      rcases c.peekNext_cases with ⟨token, hact⟩ | ⟨e', -, hact⟩
      · cases hact.symm.trans h
      · cases hact.symm.trans h
        rfl
  | eat token =>
      by_cases hcheck : (c.current.value == token) = true
      · exact hadvance ((if_pos hcheck).symm.trans h)
      · have hrefuse : unexpected token.describe c = .error (.failed (.lexical e)) d :=
          (if_neg hcheck).symm.trans h
        cases hrefuse

/-- **What a cursor passes are its items**, in order. -/
theorem items_run (ops : List StreamOp) (c : Cursor) :
    c.items = Stream'.appendStream' ((device.run ops c).1.filterMap Step.item?)
      (device.run ops c).2.items := by
  induction ops generalizing c with
  | nil => rfl
  | cons op ops ih =>
      have hpassed : (device.run (op :: ops) c).1.filterMap Step.item?
          = (device.step op c).1.item?.toList
            ++ (device.run ops (device.step op c).2).1.filterMap Step.item? := by
        show List.filterMap Step.item? ((device.step op c).1 :: _) = _
        rw [List.filterMap_cons]
        cases (device.step op c).1.item? <;> rfl
      calc c.items
          = Stream'.appendStream' (device.step op c).1.item?.toList
              (device.step op c).2.items := items_step op c
        _ = Stream'.appendStream' (device.step op c).1.item?.toList
              (Stream'.appendStream'
                ((device.run ops (device.step op c).2).1.filterMap Step.item?)
                (device.run (op :: ops) c).2.items) :=
            congrArg (Stream'.appendStream' _) (ih _)
        _ = Stream'.appendStream' ((device.run (op :: ops) c).1.filterMap Step.item?)
              (device.run (op :: ops) c).2.items := by
            rw [hpassed, Stream'.append_append_stream]

end Cursor

/-! ## The cursor of a stream -/

/-- The items that a lexer gives, one after the other, errors and what stands behind them
included. -/
def Lexer.results (lx : Lexer) : Stream' Item := fun n => (lx.after n).next.1

theorem Lexer.results_eq (lx : Lexer) :
    lx.results = Stream'.cons lx.next.1 lx.next.2.results := by
  funext n
  cases n with
  | zero => rfl
  | succ n => rfl

namespace TokenStream

/-- The items behind the current token: what has been looked ahead at stands in front of what
the lexer gives. -/
def results (s : TokenStream) : Stream' Item :=
  match s.lookahead with
  | some token => Stream'.cons (.ok token) s.lexer.results
  | none => s.lexer.results

/-- The cursor that a stream is, seen from outside. -/
def view (s : TokenStream) : Cursor := ⟨s.current, s.nextId, s.results⟩

/-- The operations on a stream. -/
def act : StreamOp → Reader Answer
  | .current => Answer.token <$> peekCurrent
  | .peekNext => Answer.token <$> peekNext
  | .advance => Answer.token <$> advance
  | .check token => Answer.flag <$> check token
  | .eat token => Answer.token <$> eat token
  | .unexpected expected => unexpected expected
  | .takeId => Answer.id <$> takeId

/-- A stream as it is operated on. -/
def device : Device TokenStream := ⟨act, TokenStream.current⟩

/-- What an operation on a stream does to its cursor. -/
def viewed {α : Type} : EStateM.Result Halt TokenStream α → EStateM.Result Halt Cursor α
  | .ok x t => .ok x t.view
  | .error halt t => .error halt t.view

section View

variable {s : TokenStream}

theorem results_of_some {token : Located Token} (hlook : s.lookahead = some token) :
    s.results = Stream'.cons (.ok token) s.lexer.results := by
  rw [results, hlook]

theorem results_of_none (hlook : s.lookahead = none) :
    s.results = Stream'.cons s.lexer.next.1 s.lexer.next.2.results := by
  rw [results, hlook]
  exact s.lexer.results_eq

/-- Looking ahead, as the cursor does it. -/
theorem view_peekNext (s : TokenStream) : viewed (act .peekNext s) = Cursor.peekNext s.view := by
  show viewed (EStateM.map Answer.token peekNext s) = _
  unfold EStateM.map peekNext Cursor.peekNext view
  cases hlook : s.lookahead with
  | some token =>
      rw [results_of_some hlook]
      exact congrArg (fun items => EStateM.Result.ok _ (Cursor.mk _ _ items))
        (results_of_some hlook)
  | none =>
      rw [results_of_none hlook]
      unfold scan
      rcases hnext : s.lexer.next with ⟨e | token, lexer⟩
      · simp only [viewed, view, Stream'.head_cons, Stream'.tail_cons, hlook]
        rfl
      · simp only [viewed, view, Stream'.head_cons]
        rfl

/-- Advancing, as the cursor does it. -/
theorem view_advance (s : TokenStream) : viewed (act .advance s) = Cursor.advance s.view := by
  show viewed (EStateM.map Answer.token advance s) = _
  unfold EStateM.map advance Cursor.advance view
  cases hlook : s.lookahead with
  | some token =>
      rw [results_of_some hlook]
      rfl
  | none =>
      rw [results_of_none hlook]
      unfold scan
      rcases hnext : s.lexer.next with ⟨e | token, lexer⟩
      · simp only [viewed, view, Stream'.head_cons, Stream'.tail_cons, hlook]
        rfl
      · simp only [viewed, view, Stream'.head_cons, Stream'.tail_cons, hlook]
        rfl

/-- An item that is required is passed like any other, and otherwise refused. -/
theorem act_eat (token : Token) (s : TokenStream) :
    act (.eat token) s
      = if s.current.value == token then act .advance s
        else act (.unexpected token.describe) s := by
  have heat : eat token s
      = (if s.current.value == token then advance else TokenStream.unexpected token.describe) s :=
    rfl
  show EStateM.map Answer.token (eat token) s = _
  unfold EStateM.map
  rw [heat]
  by_cases hcheck : (s.current.value == token) = true
  · rw [if_pos hcheck, if_pos hcheck]
    rfl
  · rw [if_neg hcheck, if_neg hcheck]
    rfl

/-- **Every operation on a stream** is the operation on its cursor. -/
theorem view_act (op : StreamOp) (s : TokenStream) :
    viewed (act op s) = Cursor.act op s.view := by
  cases op with
  | current => rfl
  | peekNext => exact view_peekNext s
  | advance => exact view_advance s
  | check token => rfl
  | eat token =>
      rw [act_eat]
      show viewed _ = if s.current.value == token then _ else _
      split
      · exact view_advance s
      · rfl
  | unexpected expected => rfl
  | takeId => rfl

/-- One operation looks the same on a stream and on its cursor. -/
theorem step_view (op : StreamOp) (s : TokenStream) :
    (device.step op s).1 = (Cursor.device.step op s.view).1 ∧
      (device.step op s).2.view = (Cursor.device.step op s.view).2 := by
  have hview : Cursor.device.act op s.view = viewed (device.act op s) := (view_act op s).symm
  cases hact : device.act op s with
  | ok answer t =>
      rw [hact] at hview
      rw [Device.step_of_ok hact, Device.step_of_ok hview]
      exact ⟨rfl, rfl⟩
  | error halt t =>
      rw [hact] at hview
      rw [Device.step_of_error hact, Device.step_of_error hview]
      exact ⟨rfl, rfl⟩

/-- **Operations in turn** look the same on a stream and on its cursor. -/
theorem run_view (ops : List StreamOp) (s : TokenStream) :
    (device.run ops s).1 = (Cursor.device.run ops s.view).1 ∧
      (device.run ops s).2.view = (Cursor.device.run ops s.view).2 := by
  induction ops generalizing s with
  | nil => exact ⟨rfl, rfl⟩
  | cons op ops ih =>
      obtain ⟨hstep, hstate⟩ := step_view op s
      obtain ⟨hsteps, hend⟩ := ih (device.step op s).2
      rw [hstate] at hsteps hend
      exact ⟨congrArg₂ List.cons hstep hsteps, hend⟩

/-- What a stream passes or reports are the items behind its current token, in order. -/
theorem results_run (ops : List StreamOp) (s : TokenStream) :
    s.results = Stream'.appendStream' ((device.run ops s).1.filterMap Step.item?)
      (device.run ops s).2.results := by
  obtain ⟨hsteps, hend⟩ := run_view ops s
  have hitems := Cursor.items_run ops s.view
  rw [← hsteps, ← hend] at hitems
  exact hitems

end View

/-! ## The stream of a text -/

section Laws

variable {s t : TokenStream} {token : Located Token}

/-- At the start of a text its first item is current, and the others are to come. -/
theorem results_ofString {source : String} (h : ofString source = .ok s) :
    (Lexer.ofString source).results = Stream'.cons (.ok s.current) s.results ∧ s.nextId = 0 := by
  unfold ofString at h
  split at h
  next token lexer hnext =>
    obtain rfl := Except.ok.inj h
    rw [Lexer.results_eq, hnext]
    exact ⟨rfl, rfl⟩
  next => cases h

/-- A text that no stream can be made of begins with an error. -/
theorem head_results_of_error {source : String} {e : LexicalError}
    (h : ofString source = .error e) : (Lexer.ofString source).results.head = .error e := by
  unfold ofString at h
  split at h
  next => cases h
  next e' lexer hnext =>
    obtain rfl := Except.error.inj h
    rw [Lexer.results_eq, hnext]
    rfl

/-- **Looking ahead** leaves the cursor as it is, and the next token is the one that is shown. -/
theorem view_of_peekNext (h : peekNext s = .ok token t) :
    t.view = s.view ∧ ∃ u, advance t = .ok s.current u ∧ u.current = token := by
  refine ⟨?_, _, advance_peekNext h, rfl⟩
  have hact : act .peekNext s = .ok (.token token) t := by
    show EStateM.map Answer.token peekNext s = _
    unfold EStateM.map
    rw [h]
  have hview := view_peekNext s
  rw [hact] at hview
  rcases s.view.peekNext_cases with ⟨other, hpeek⟩ | ⟨e, -, hpeek⟩
  · rw [hpeek] at hview
    exact (EStateM.Result.ok.inj hview).2
  · rw [hpeek] at hview
    cases hview

/-- **A lexical error** is the next item of the operation that reports it, which takes it away
and leaves the current token in place. -/
theorem results_of_error {op : StreamOp} {e : LexicalError}
    (h : act op s = .error (.failed (.lexical e)) t) :
    s.results = Stream'.cons (.error e) t.results ∧ t.current = s.current := by
  have hview : Cursor.device.act op s.view = .error (.failed (.lexical e)) t.view := by
    show Cursor.act op s.view = _
    rw [← view_act, h]
    rfl
  refine ⟨?_, Cursor.current_of_error hview⟩
  have hitems := Cursor.items_step op s.view
  rw [Device.step_of_error hview, Step.item?_of_error] at hitems
  exact hitems

end Laws

/-- **The stream of a text is a cursor** in the items of its lexer.  Whatever operations are done,
they look as on a plain cursor, and what becomes current or is reported as a lexical error are
the items of the text, in order.  A look ahead that succeeds shows the token that the next advance
makes current, and nothing else tells that it has been done.  A lexical error is reported by the
operation that comes to it, and the current token stays.  Testing a token and refusing one change
nothing. -/
theorem cursor_ofString (source : String) :
    (match ofString source with
      | .error e => (Lexer.ofString source).results.head = .error e
      | .ok s => ∀ ops,
          (device.run ops s).1 = (Cursor.device.run ops
            ⟨s.current, 0, (Lexer.ofString source).results.tail⟩).1 ∧
          (Lexer.ofString source).results = Stream'.appendStream'
            (.ok s.current :: (device.run ops s).1.filterMap Step.item?)
            (device.run ops s).2.results) ∧
      (∀ {s t token}, peekNext s = .ok token t →
        (∀ ops, (device.run ops t).1 = (device.run ops s).1) ∧
          ∃ u, advance t = .ok s.current u ∧ u.current = token) ∧
      (∀ {op s t e}, act op s = .error (.failed (.lexical e)) t →
        s.results = Stream'.cons (.error e) t.results ∧ t.current = s.current) ∧
      (∀ token s, check token s = .ok (s.current.value == token) s) ∧
      (∀ expected s, act (.unexpected expected) s = .error (.failed
        (.grammar ⟨.unexpectedToken s.current.value expected, s.current.position⟩)) s) ∧
      ∀ token s, (s.current.value == token) = false → eat token s = .error (.failed
        (.grammar ⟨.unexpectedToken s.current.value token.describe, s.current.position⟩)) s := by
  refine ⟨?_, fun h => ?_, results_of_error, fun _ _ => rfl, fun _ _ => rfl, fun token s h => ?_⟩
  · split
    next e hs => exact head_results_of_error hs
    next s hs =>
      intro ops
      obtain ⟨hresults, hid⟩ := results_ofString hs
      rw [hresults]
      refine ⟨?_, congrArg (Stream'.cons _) (results_run ops s)⟩
      rw [(run_view ops s).1, view, hid]
      rfl
  · obtain ⟨hview, hadvance⟩ := view_of_peekNext h
    refine ⟨fun ops => ?_, hadvance⟩
    rw [(run_view ops _).1, (run_view ops _).1, hview]
  · show (if s.current.value == token then advance else TokenStream.unexpected token.describe) s = _
    rw [if_neg (by rw [h]; exact Bool.false_ne_true)]
    rfl

end TokenStream

end MiniPascal
