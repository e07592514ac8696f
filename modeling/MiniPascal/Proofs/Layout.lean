/-
# Layout does not matter

Blanks, comments and the case of reserved words show in the places of tokens only, and
places only show in diagnostics.  So source texts with the same tokens run alike: both end with
the same record, or with the same diagnostic, each at the place of the same token.

* `runSource_eq` : a run is reading, checking and executing in turn;
* `TypeName.Matches.name_eq` : type names of programs that differ in places only are equal;
* `runSource_layout` : texts with the same tokens run alike.
-/
import MiniPascal.Proofs.Likeness.Readers
import MiniPascal.Proofs.Likeness.Runs
import MiniPascal.Source

set_option autoImplicit false

namespace MiniPascal

/-! ## Stages -/

/-- **A run** is reading, checking and executing in turn. -/
theorem runSource_eq (source : String) (limit : Nat) :
    runSource source limit = (do
      let tree ← (parse source).mapError Diagnostic.ofParseError
      let a ← (analyze tree).mapError Diagnostic.scope
      (interpret tree a limit).1.mapError Diagnostic.runtime) := by
  unfold runSource runLogged parse analyze
  rcases readProgram source with ⟨parsed, tokens⟩
  cases parsed with
  | error e => rfl
  | ok tree =>
      show _ = (tree.check.1.mapError Diagnostic.scope >>= fun a =>
        (interpret tree a limit).1.mapError Diagnostic.runtime)
      rcases hcheck : tree.check with ⟨checked, scopeEvents⟩
      simp only [hcheck]
      cases checked with
      | error e => rfl
      | ok a => rfl

/-! ## Programs that differ in places only -/

section Places

variable {places : Position → Position → Prop}

/-- Type names that are alike are equal. -/
theorem TypeName.Matches.name_eq {type type' : TypeName}
    (h : type.Matches (.layout places) type') : type'.name = type.name := by
  cases h with
  | builtin htypes _ =>
      obtain rfl := htypes
      rfl
  | unknown _ _ => rfl

end Places

/-! ## Diagnostics -/

/-- The same diagnostic at another place. -/
def Diagnostic.movedTo (p : Position) : Diagnostic → Diagnostic
  | .lexical e => .lexical ⟨e.value, p⟩
  | .grammar e => .grammar ⟨e.value, p⟩
  | .scope e => .scope ⟨e.value, p⟩
  | .runtime e => .runtime ⟨e.value, p⟩

/-- Places of the same token in two sequences of tokens. -/
def SamePlace (ts ts' : List (Located Token)) (p p' : Position) : Prop :=
  ∃ (i : Nat) (t t' : Located Token), ts[i]? = some t ∧ ts'[i]? = some t' ∧
    p = t.position ∧ p' = t'.position

/-- The same diagnostic at the places of the same token. -/
structure Diagnostic.Moved (ts ts' : List (Located Token)) (d d' : Diagnostic) : Prop where
  moved : d' = d.movedTo d'.position
  place : SamePlace ts ts' d.position d'.position

/-- Tokens with the same values are the same at the places of tokens with the same index. -/
theorem forall₂_samePlace {ts ts' : List (Located Token)}
    (h : ts'.map Located.value = ts.map Located.value) :
    List.Forall₂ (Located.Moved (SamePlace ts ts')) ts ts' := by
  have hlength : ts.length = ts'.length := by
    have hmap := congrArg List.length h
    rw [List.length_map, List.length_map] at hmap
    exact hmap.symm
  refine List.forall₂_of_length_eq_of_get hlength ?_
  intro i hi hi'
  refine ⟨?_, i, ts.get ⟨i, hi⟩, ts'.get ⟨i, hi'⟩, ?_, ?_, rfl, rfl⟩
  · have hvalue := congrArg (·[i]?) h
    simpa [hi, hi'] using hvalue
  · simp [hi]
  · simp [hi']

/-- **Layout does not matter.**  Take two source texts without lexical errors and with the same
tokens, one by one.  Under every limit both run alike: both end with the same record of the
program, or with the same diagnostic at the places of tokens with the same index. -/
theorem runSource_layout {source source' : String} {ts ts' : List (Located Token)}
    (h : tokenize source = ts.map .ok) (h' : tokenize source' = ts'.map .ok)
    (hsame : ts'.map Located.value = ts.map Located.value) (limit : Nat) :
    AnswersAlike (Diagnostic.Moved ts ts') Eq (runSource source limit)
      (runSource source' limit) := by
  have htokens : SameTokens (SamePlace ts ts') (tokenize source) (tokenize source') :=
    ⟨ts, ts', h, h', forall₂_samePlace hsame⟩
  rw [runSource_eq, runSource_eq]
  refine AnswersAlike.bind (AnswersAlike.mapError (parse_moved htokens) ?_)
    fun tree tree' htree => ?_
  · rintro e e' ⟨he⟩
    exact ⟨congrArg Diagnostic.grammar (congrArg (Located.mk · _) he.value), he.position⟩
  refine AnswersAlike.bind (AnswersAlike.mapError (analyze_matches htree) ?_)
    fun a a' ha => ?_
  · intro e e' he
    have hfault : e'.value = e.value := he.fault.eq rfl fun _ _ _ htype => htype.name_eq
    exact ⟨congrArg Diagnostic.scope (congrArg (Located.mk · _) hfault), he.position⟩
  refine AnswersAlike.mapError
    ((interpret_matches htree ha limit).imp fun _ _ hr => (hr.eq rfl).symm) ?_
  intro e e' he
  have hfault : e'.value = e.value := he.fault.trans (RuntimeFault.rename_id e.value)
  exact ⟨congrArg Diagnostic.runtime (congrArg (Located.mk · _) hfault), he.position⟩

/-! ## Comparing texts -/

/-- Whether two tokens are the same; only tokens without reals are compared. -/
def Token.agrees : Token → Token → Bool
  | .keyword k, .keyword k' => k == k'
  | .symbol s, .symbol s' => s == s'
  | .identifier name, .identifier name' => name == name'
  | .number (.integer n), .number (.integer n') => n == n'
  | .endOfInput, .endOfInput => true
  | _, _ => false

/-- Tokens that agree are the same. -/
theorem Token.eq_of_agrees {t t' : Token} (h : t.agrees t' = true) : t' = t := by
  unfold agrees at h
  split at h
  next k k' => rw [eq_of_beq h]
  next s s' => rw [eq_of_beq h]
  next name name' => rw [eq_of_beq h]
  next n n' => rw [eq_of_beq h]
  next => rfl
  next => cases h

/-- Whether items are the same tokens, one by one. -/
def itemsAgree : List Item → List Item → Bool
  | [], [] => true
  | .ok t :: rest, .ok t' :: rest' => t.value.agrees t'.value && itemsAgree rest rest'
  | _, _ => false

/-- Items that agree are the same tokens. -/
theorem tokens_of_itemsAgree {items items' : List Item} (h : itemsAgree items items' = true) :
    ∃ ts ts' : List (Located Token), items = ts.map .ok ∧ items' = ts'.map .ok ∧
      ts'.map Located.value = ts.map Located.value := by
  fun_induction itemsAgree items items' with
  | case1 => exact ⟨[], [], rfl, rfl, rfl⟩
  | case2 t rest t' rest' ih =>
      obtain ⟨htoken, hrest⟩ := Bool.and_eq_true_iff.1 h
      obtain ⟨ts, ts', rfl, rfl, hsame⟩ := ih hrest
      refine ⟨t :: ts, t' :: ts', rfl, rfl, ?_⟩
      rw [List.map_cons, List.map_cons, hsame, Token.eq_of_agrees htoken]
  | case3 => cases h

/-- A source text on one line. -/
def compactSource : String :=
  "PROGRAM P; VAR x : INTEGER; PROCEDURE Q; BEGIN x := x + 1; Q() END; BEGIN x := 0; Q() END."

/-- The same tokens on many lines, with comments and reserved words in small letters. -/
def spreadSource : String :=
  "program P;\nvar x:integer;\n procedure Q; \x7b calls itself \x7d\nbegin\n  x:=x+1;\n  Q()\nend;"
    ++ "\nBegin\n  x:=0;\n  Q() \x7b \u00e9 \x7d\nend."

/-- Both texts run alike: the procedure calls itself too often. -/
theorem spreadSource_layout : ∃ ts ts', tokenize compactSource = ts.map .ok ∧
    tokenize spreadSource = ts'.map .ok ∧ ts'.map Located.value = ts.map Located.value ∧
    AnswersAlike (Diagnostic.Moved ts ts') Eq (runSource compactSource 3)
      (runSource spreadSource 3) := by
  have hagree : itemsAgree (tokenize compactSource) (tokenize spreadSource) = true := by
    decide +kernel
  obtain ⟨ts, ts', h, h', hsame⟩ := tokens_of_itemsAgree hagree
  exact ⟨ts, ts', h, h', hsame, runSource_layout h h' hsame 3⟩

end MiniPascal
