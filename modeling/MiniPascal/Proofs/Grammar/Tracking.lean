/-
# Readers that notice faults at once

A reader *tracks* a phrase if it never takes a token too many.  What it has taken can always
be completed to a phrase; where it stops with an error, no rival goes on as the stream does;
and where it succeeds, the only rival that goes on so is what it has taken.  The rivals are
the words that it has to tell apart, each with a token of a certain kind behind it.

* `Reader.TracksAt.andThen` : reading in turn tracks phrases in turn;
* `Reader.TracksAt.mono`, `Reader.TracksAt.mono_two` : other phrases and rivals, told apart by
  the current token, or by that one and the next;
* `Reader.tracksAt_ifTaken`, `Reader.tracksAt_advance` : a token that decides what comes;
* `Reader.tracks_separated`, `Reader.tracks_whileStarts`, `Reader.tracks_chain` : repetition.
-/
import MiniPascal.Proofs.Grammar.Completeness

set_option autoImplicit false

namespace MiniPascal

open Grammar TokenStream

/-! ## Words -/

/-- A set of lists of tokens. -/
abbrev Words := List (Located Token) → Prop

/-- The words that are phrases, whatever they denote. -/
def wordsOf {α : Type} (phrase : Language α) : Words := fun w => ∃ i x j, phrase w i x j

/-- A word of one set and behind it one of another. -/
def Words.andThen (first second : Words) : Words :=
  fun w => ∃ us vs, w = us ++ vs ∧ first us ∧ second vs

/-- Tokens that begin with one of a certain kind. -/
def Begins (follow : Token → Prop) (ts : List (Located Token)) : Prop :=
  ∃ token more, ts = token :: more ∧ follow token.value

theorem Begins.mono {follow other : Token → Prop} {ts : List (Located Token)}
    (h : Begins follow ts) (himp : ∀ v, follow v → other v) : Begins other ts := by
  obtain ⟨token, more, rfl, htoken⟩ := h
  exact ⟨token, more, rfl, himp _ htoken⟩

theorem Begins.append {follow : Token → Prop} {ts : List (Located Token)} (h : Begins follow ts)
    (us : List (Located Token)) : Begins Reader.anyToken (us ++ ts) := by
  obtain ⟨token, more, rfl, -⟩ := h
  cases us with
  | nil => exact ⟨token, more, rfl, trivial⟩
  | cons first rest => exact ⟨first, rest ++ token :: more, rfl, trivial⟩

theorem value_of_append_eq {a token : Located Token} {w cont more : List (Located Token)}
    (h : (a :: w) ++ cont = token :: more) : token.value = a.value := by
  rw [(List.cons.inj h).1]

/-! ## Languages -/

section Languages

variable {α β : Type}

/-- A phrase, and behind it one that may depend on what the first one denotes. -/
def InTurn (first : Language α) (second : α → Language β) : Language β :=
  fun ts i y k => ∃ us vs x j, ts = us ++ vs ∧ first us i x j ∧ second x vs j y k

/-- A phrase that denotes something else. -/
def Denoting (g : α → β) (phrase : Language α) : Language β :=
  fun ts i y j => ∃ x, phrase ts i x j ∧ y = g x

/-- A token of a certain value. -/
def IsToken (token : Token) : Language (Located Token) :=
  fun ts i x j => ∃ p, ts = [⟨token, p⟩] ∧ x = ⟨token, p⟩ ∧ j = i

/-- One token. -/
def IsJust (token : Located Token) : Language (Located Token) :=
  fun ts i x j => ts = [token] ∧ x = token ∧ j = i

/-- No token; the next number is taken. -/
def TakesId : Language Nat := fun ts i x j => ts = [] ∧ x = i ∧ j = i + 1

/-- Tokens that can be completed to a phrase. -/
def Open (phrase : Language α) (i : Nat) (ts : List (Located Token)) : Prop :=
  ∃ us x j, phrase (ts ++ us) i x j

/-- There are phrases, whatever the next number. -/
def Productive (phrase : Language α) : Prop := ∀ i, Open phrase i []

theorem words_of {phrase : Language α} {w : List (Located Token)} {i j : Nat} {x : α}
    (h : phrase w i x j) : wordsOf phrase w :=
  ⟨i, x, j, h⟩

theorem words_append {first second : Words} {us vs : List (Located Token)} (hus : first us)
    (hvs : second vs) : first.andThen second (us ++ vs) :=
  ⟨us, vs, rfl, hus, hvs⟩

theorem words_token (token : Token) (p : Position) : wordsOf (IsToken token) [⟨token, p⟩] :=
  ⟨0, _, 0, p, rfl, rfl, rfl⟩

theorem begins_word {token : Token} {w : List (Located Token)} (h : wordsOf (IsToken token) w)
    (cont : List (Located Token)) : Begins (· = token) (w ++ cont) := by
  obtain ⟨i, x, j, p, rfl, -, -⟩ := h
  exact ⟨_, _, rfl, rfl⟩

theorem begins_token {token : Token} {more : Words} {w : List (Located Token)}
    (h : (wordsOf (IsToken token)).andThen more w) (cont : List (Located Token)) :
    Begins (· = token) (w ++ cont) := by
  obtain ⟨us, vs, rfl, hus, -⟩ := h
  rw [List.append_assoc]
  exact begins_word hus _

theorem Open.mono {phrase other : Language α} {i : Nat} {ts : List (Located Token)}
    (h : Open phrase i ts) (himp : ∀ {ts i x j}, phrase ts i x j → other ts i x j) :
    Open other i ts := by
  obtain ⟨us, x, j, hus⟩ := h
  exact ⟨us, x, j, himp hus⟩

theorem Productive.mono {phrase other : Language α} (h : Productive phrase)
    (himp : ∀ {ts i x j}, phrase ts i x j → other ts i x j) : Productive other :=
  fun i => (h i).mono himp

theorem Open.denoting {phrase : Language α} {i : Nat} {ts : List (Located Token)}
    (h : Open phrase i ts) (g : α → β) : Open (Denoting g phrase) i ts := by
  obtain ⟨us, x, j, hus⟩ := h
  exact ⟨us, g x, j, x, hus, rfl⟩

/-- Phrases in turn can be completed if those behind can. -/
theorem Open.inTurn {first : Language α} {second : α → Language β} {i : Nat}
    {ts : List (Located Token)} (h : Open first i ts) (hsecond : ∀ x, Productive (second x)) :
    Open (InTurn first second) i ts := by
  obtain ⟨us, x, j, hus⟩ := h
  obtain ⟨vs, y, k, hvs⟩ := hsecond x j
  exact ⟨us ++ vs, y, k, ts ++ us, vs, x, j, (List.append_assoc ts us vs).symm, hus, hvs⟩

/-- Phrases in turn can be completed if the second one can. -/
theorem Open.behind {first : Language α} {second : α → Language β} {i j : Nat} {x : α}
    {ts us : List (Located Token)} (hfirst : first ts i x j) (h : Open (second x) j us) :
    Open (InTurn first second) i (ts ++ us) := by
  obtain ⟨vs, y, k, hvs⟩ := h
  exact ⟨vs, y, k, ts, us ++ vs, x, j, List.append_assoc ts us vs, hfirst, hvs⟩

end Languages

namespace Reader

variable {α β : Type}

/-! ## Tracking -/

/-- How a reader that tracks a phrase ends, from `items` on. -/
inductive Tracked (items : List Item) (i : Nat) (phrase : Language α) (rivals : Words)
    (follow : Token → Prop) : EStateM.Result Halt TokenStream α → Prop where
  | ok {x : α} {t : TokenStream} (ts : List (Located Token))
      (hitems : items = ts.map Except.ok ++ t.upcoming) (hphrase : phrase ts i x t.nextId)
      (hend : ∀ w cont more, rivals w → Begins follow cont →
        w ++ cont = ts ++ t.current :: more → w = ts) :
      Tracked items i phrase rivals follow (.ok x t)
  | lexical {e : LexicalError} {t : TokenStream} (ts : List (Located Token))
      (hitems : items = ts.map Except.ok ++ [.error e]) (hopen : Open phrase i ts) :
      Tracked items i phrase rivals follow (.error (.failed (.lexical e)) t)
  | fault {t : TokenStream} {expected : String} (ts : List (Located Token))
      (hitems : items = ts.map Except.ok ++ t.upcoming) (hopen : Open phrase i ts)
      (hfault : ∀ w cont more, rivals w → Begins follow cont →
        w ++ cont ≠ ts ++ t.current :: more) :
      Tracked items i phrase rivals follow
        (.error (.failed (.grammar ⟨.unexpectedToken t.current.value expected,
          t.current.position⟩)) t)
  | outOfSteps {t : TokenStream} : Tracked items i phrase rivals follow (.error .outOfSteps t)

/-- A reader tracks a phrase here. -/
def TracksAt (p : Reader α) (phrase : Language α) (rivals : Words) (follow : Token → Prop)
    (s : TokenStream) : Prop :=
  Tracked s.upcoming s.nextId phrase rivals follow (p s)

/-- A reader tracks a phrase wherever it stands. -/
structure Tracks (p : Reader α) (phrase : Language α) (rivals : Words)
    (follow : Token → Prop) : Prop where
  productive : Productive phrase
  here : ∀ s, TracksAt p phrase rivals follow s

/-- A reader tells the phrases of a language apart. -/
abbrev Recognizes (p : Reader α) (phrase : Language α) (follow : Token → Prop) : Prop :=
  Tracks p phrase (wordsOf phrase) follow

section Combinators

variable {p : Reader α} {phrase first other : Language α} {second : α → Language β}
  {rivals more others : Words} {follow inner : Token → Prop} {s : TokenStream}

/-- What has been taken begins with the current token, as what stands behind it does. -/
theorem exists_cons_of_upcoming {t : TokenStream} {ts : List (Located Token)}
    (h : s.upcoming = ts.map Except.ok ++ t.upcoming) (behind : List (Located Token)) :
    ∃ rest, ts ++ t.current :: behind = s.current :: rest := by
  cases ts with
  | nil =>
      obtain ⟨rest, hrest⟩ := t.exists_upcoming_eq
      have hcurrent : s.current = t.current := current_eq (h.trans hrest)
      exact ⟨behind, by rw [hcurrent]; rfl⟩
  | cons token ts =>
      have hcurrent : s.current = token := current_eq h
      exact ⟨ts ++ t.current :: behind, by rw [hcurrent]; rfl⟩

/-- Where the first token has been taken, the one behind it stands there too. -/
theorem exists_cons_cons_of_upcoming {t : TokenStream} {a b : Located Token} {rest : List Item}
    {ts : List (Located Token)} (hs : s.upcoming = .ok a :: .ok b :: rest) (hne : ts ≠ [])
    (h : s.upcoming = ts.map Except.ok ++ t.upcoming) (behind : List (Located Token)) :
    ∃ more, ts ++ t.current :: behind = a :: b :: more := by
  rw [hs] at h
  cases ts with
  | nil => exact absurd rfl hne
  | cons token us =>
      obtain ⟨hfirst, hsecond⟩ := List.cons.inj h
      obtain rfl : a = token := Except.ok.inj hfirst
      cases us with
      | nil =>
          have hcurrent : t.current = b := current_eq hsecond.symm
          exact ⟨behind, by rw [hcurrent]; rfl⟩
      | cons token' vs =>
          obtain rfl : b = token' := Except.ok.inj (List.cons.inj hsecond).1
          exact ⟨vs ++ t.current :: behind, rfl⟩

/-- **Reading in turn** tracks phrases in turn.  Behind a word of the first kind stands what
the first reader needs there to see its end. -/
theorem TracksAt.andThen {f : α → Reader β} (hp : TracksAt p first rivals inner s)
    (hf : ∀ x, Tracks (f x) (second x) more follow)
    (hbegins : ∀ w cont, more w → Begins follow cont → Begins inner (w ++ cont)) :
    TracksAt (p >>= f) (InTurn first second) (rivals.andThen more) follow s := by
  have hproductive : ∀ x, Productive (second x) := fun x => (hf x).productive
  show Tracked s.upcoming s.nextId _ _ _ (EStateM.bind p f s)
  unfold TracksAt at hp
  unfold EStateM.bind
  generalize p s = result at hp
  cases hp with
  | lexical ts hitems hopen => exact .lexical ts hitems (hopen.inTurn hproductive)
  | outOfSteps => exact .outOfSteps
  | fault ts hitems hopen hfault =>
      refine .fault ts hitems (hopen.inTurn hproductive) ?_
      rintro w cont behind ⟨w₁, w₂, rfl, h₁, h₂⟩ hcont heq
      rw [List.append_assoc] at heq
      exact hfault w₁ (w₂ ++ cont) behind h₁ (hbegins w₂ cont h₂ hcont) heq
  | @ok x t ts hitems hphrase hend =>
      -- the word of a rival is parted where the first reader has ended
      have hpart : ∀ {us : List (Located Token)} {u : TokenStream}
          {w₁ w₂ cont behind : List (Located Token)}, t.upcoming = us.map Except.ok ++ u.upcoming →
          rivals w₁ → more w₂ → Begins follow cont →
          (w₁ ++ w₂) ++ cont = (ts ++ us) ++ u.current :: behind →
          w₁ = ts ∧ w₂ ++ cont = us ++ u.current :: behind := by
        intro us u w₁ w₂ cont behind hus h₁ h₂ hcont heq
        rw [List.append_assoc, List.append_assoc] at heq
        obtain ⟨rest, hrest⟩ := exists_cons_of_upcoming hus behind
        have hsame : w₁ = ts :=
          hend w₁ (w₂ ++ cont) rest h₁ (hbegins w₂ cont h₂ hcont) (heq.trans (by rw [hrest]))
        rw [hsame] at heq
        exact ⟨hsame, List.append_cancel_left heq⟩
      have hsecond := (hf x).here t
      unfold TracksAt at hsecond
      show Tracked _ _ _ _ _ (f x t)
      generalize f x t = last at hsecond
      cases hsecond with
      | outOfSteps => exact .outOfSteps
      | @lexical e u us hus hopen =>
          have hitems' : s.upcoming = (ts ++ us).map Except.ok ++ [.error e] := by
            rw [hitems, hus, List.map_append, List.append_assoc]
          exact .lexical _ hitems' (hopen.behind hphrase)
      | @fault u _ us hus hopen hfault =>
          have hitems' : s.upcoming = (ts ++ us).map Except.ok ++ u.upcoming := by
            rw [hitems, hus, List.map_append, List.append_assoc]
          refine .fault _ hitems' (hopen.behind hphrase) ?_
          rintro w cont behind ⟨w₁, w₂, rfl, h₁, h₂⟩ hcont heq
          obtain ⟨-, hbehind⟩ := hpart hus h₁ h₂ hcont heq
          exact hfault w₂ cont behind h₂ hcont hbehind
      | @ok y u us hus hphrase' hend' =>
          have hitems' : s.upcoming = (ts ++ us).map Except.ok ++ u.upcoming := by
            rw [hitems, hus, List.map_append, List.append_assoc]
          refine .ok _ hitems' ⟨ts, us, x, t.nextId, rfl, hphrase, hphrase'⟩ ?_
          rintro w cont behind ⟨w₁, w₂, rfl, h₁, h₂⟩ hcont heq
          obtain ⟨rfl, hbehind⟩ := hpart hus h₁ h₂ hcont heq
          rw [hend' w₂ cont behind h₂ hcont hbehind]

theorem TracksAt.bind {f : α → Reader β}
    (hp : TracksAt p first rivals anyToken s)
    (hf : ∀ x, Tracks (f x) (second x) more follow) :
    TracksAt (p >>= f) (InTurn first second) (rivals.andThen more) follow s :=
  hp.andThen hf fun w _ _ hcont => hcont.append w

theorem Tracks.andThen {f : α → Reader β} (hp : Tracks p first rivals inner)
    (hf : ∀ x, Tracks (f x) (second x) more follow)
    (hbegins : ∀ w cont, more w → Begins follow cont → Begins inner (w ++ cont)) :
    Tracks (p >>= f) (InTurn first second) (rivals.andThen more) follow :=
  ⟨fun i => (hp.productive i).inTurn fun x => (hf x).productive,
    fun s => (hp.here s).andThen hf hbegins⟩

theorem Tracks.bind {f : α → Reader β} (hp : Tracks p first rivals anyToken)
    (hf : ∀ x, Tracks (f x) (second x) more follow) :
    Tracks (p >>= f) (InTurn first second) (rivals.andThen more) follow :=
  hp.andThen hf fun w _ _ hcont => hcont.append w

/-- An answer that is computed from what has been read. -/
theorem TracksAt.map (hp : TracksAt p phrase rivals follow s) (g : α → β) :
    TracksAt (p >>= fun x => pure (g x)) (Denoting g phrase) rivals follow s := by
  show Tracked s.upcoming s.nextId _ _ _ (EStateM.bind p _ s)
  unfold TracksAt at hp
  unfold EStateM.bind
  generalize p s = result at hp
  cases hp with
  | lexical ts hitems hphrase => exact .lexical ts hitems (hphrase.denoting g)
  | outOfSteps => exact .outOfSteps
  | fault ts hitems hphrase hfault => exact .fault ts hitems (hphrase.denoting g) hfault
  | ok ts hitems hphrase hend => exact .ok ts hitems ⟨_, hphrase, rfl⟩ hend

theorem Tracks.map (hp : Tracks p phrase rivals follow) (g : α → β) :
    Tracks (p >>= fun x => pure (g x)) (Denoting g phrase) rivals follow :=
  ⟨fun i => (hp.productive i).denoting g, fun s => (hp.here s).map g⟩

/-- **Other phrases and rivals**: only rivals that begin with the current token matter. -/
theorem TracksAt.mono (h : TracksAt p phrase rivals follow s)
    (hphrase : ∀ {ts i x j}, phrase ts i x j → other ts i x j)
    (hrivals : ∀ {w cont behind}, others w → Begins follow cont →
      w ++ cont = s.current :: behind → rivals w) :
    TracksAt p other others follow s := by
  unfold TracksAt at h ⊢
  generalize p s = result at h
  cases h with
  | lexical ts hitems hts => exact .lexical ts hitems (hts.mono hphrase)
  | outOfSteps => exact .outOfSteps
  | fault ts hitems hts hfault =>
      refine .fault ts hitems (hts.mono hphrase) fun w cont behind hw hcont heq => ?_
      obtain ⟨rest, hrest⟩ := exists_cons_of_upcoming hitems behind
      exact hfault w cont behind (hrivals hw hcont (heq.trans hrest)) hcont heq
  | ok ts hitems hts hend =>
      refine .ok ts hitems (hphrase hts) fun w cont behind hw hcont heq => ?_
      obtain ⟨rest, hrest⟩ := exists_cons_of_upcoming hitems behind
      exact hend w cont behind (hrivals hw hcont (heq.trans hrest)) hcont heq

/-- Other phrases and rivals, told apart by two tokens, of which the first one is sure to be
taken. -/
theorem TracksAt.mono_two {a b : Located Token} {rest : List Item}
    {w₀ cont₀ : List (Located Token)} (h : TracksAt p phrase rivals follow s)
    (hs : s.upcoming = .ok a :: .ok b :: rest) (hw₀ : rivals (a :: w₀))
    (hcont₀ : Begins follow cont₀)
    (hphrase : ∀ {ts i x j}, phrase ts i x j → other ts i x j)
    (hrivals : ∀ {w cont behind}, others w → Begins follow cont →
      w ++ cont = a :: b :: behind → rivals w) :
    TracksAt p other others follow s := by
  -- a rival that begins with the first token goes on wherever nothing has been taken
  have hstart : ∀ {t : TokenStream}, s.upcoming = t.upcoming →
      (a :: w₀) ++ cont₀ = t.current :: (w₀ ++ cont₀) := by
    intro t hupcoming
    rw [current_eq (hupcoming.symm.trans hs)]
    rfl
  unfold TracksAt at h ⊢
  generalize p s = result at h
  cases h with
  | lexical ts hitems hts => exact .lexical ts hitems (hts.mono hphrase)
  | outOfSteps => exact .outOfSteps
  | @fault t expected ts hitems hts hfault =>
      have hne : ts ≠ [] := by
        rintro rfl
        exact hfault _ _ _ hw₀ hcont₀ (hstart hitems)
      refine .fault ts hitems (hts.mono hphrase) fun w cont behind hw hcont heq => ?_
      obtain ⟨more, hmore⟩ := exists_cons_cons_of_upcoming hs hne hitems behind
      exact hfault w cont behind (hrivals hw hcont (heq.trans hmore)) hcont heq
  | @ok x t ts hitems hts hend =>
      have hne : ts ≠ [] := by
        rintro rfl
        exact List.cons_ne_nil a w₀ (hend _ _ _ hw₀ hcont₀ (hstart hitems))
      refine .ok ts hitems (hphrase hts) fun w cont behind hw hcont heq => ?_
      obtain ⟨more, hmore⟩ := exists_cons_cons_of_upcoming hs hne hitems behind
      exact hend w cont behind (hrivals hw hcont (heq.trans hmore)) hcont heq

/-- Fewer tokens that may stand behind. -/
theorem TracksAt.before (h : TracksAt p phrase rivals inner s)
    (hinner : ∀ v, follow v → inner v) : TracksAt p phrase rivals follow s := by
  unfold TracksAt at h ⊢
  generalize p s = result at h
  cases h with
  | lexical ts hitems hts => exact .lexical ts hitems hts
  | outOfSteps => exact .outOfSteps
  | fault ts hitems hts hfault =>
      exact .fault ts hitems hts fun w cont behind hw hcont =>
        hfault w cont behind hw (hcont.mono hinner)
  | ok ts hitems hts hend =>
      exact .ok ts hitems hts fun w cont behind hw hcont =>
        hend w cont behind hw (hcont.mono hinner)

theorem Tracks.before (h : Tracks p phrase rivals inner) (hinner : ∀ v, follow v → inner v) :
    Tracks p phrase rivals follow :=
  ⟨h.productive, fun s => (h.here s).before hinner⟩

theorem Tracks.mono (h : Tracks p phrase rivals follow)
    (hphrase : ∀ {ts i x j}, phrase ts i x j → other ts i x j)
    (hrivals : ∀ {w}, others w → rivals w) : Tracks p other others follow :=
  ⟨h.productive.mono hphrase, fun s => (h.here s).mono hphrase fun hw _ _ => hrivals hw⟩

end Combinators

/-! ## One token -/

section Tokens

variable {q : Reader α} {phrase : Language α} {rivals : Words} {follow : Token → Prop}
  {s : TokenStream}

/-- An answer without reading: no rival has a token here. -/
theorem tracksAt_pure {x : α} (hphrase : phrase [] s.nextId x s.nextId)
    (hrivals : ∀ {w cont behind}, rivals w → Begins follow cont →
      w ++ cont = s.current :: behind → w = []) :
    TracksAt (pure x) phrase rivals follow s :=
  .ok [] rfl hphrase fun _ _ _ hw hcont heq => hrivals hw hcont heq

theorem tracks_pure {x : α} (hphrase : ∀ i, phrase [] i x i) (hrivals : ∀ {w}, rivals w → w = []) :
    Tracks (pure x) phrase rivals follow :=
  ⟨fun i => ⟨[], x, i, hphrase i⟩,
    fun s => tracksAt_pure (hphrase s.nextId) fun hw _ _ => hrivals hw⟩

/-- An error at the current token: no rival goes on with it. -/
theorem tracksAt_unexpected {expected : String} (hopen : Open phrase s.nextId [])
    (hrivals : ∀ {w cont behind}, rivals w → Begins follow cont →
      w ++ cont ≠ s.current :: behind) :
    TracksAt (unexpected expected) phrase rivals follow s :=
  .fault [] rfl hopen fun _ _ _ hw hcont => hrivals hw hcont

theorem tracksAt_peekCurrent {f : Located Token → Reader α}
    (h : TracksAt (f s.current) phrase rivals follow s) :
    TracksAt (peekCurrent >>= f) phrase rivals follow s := h

/-- **Looking ahead** takes nothing away.  It may meet a lexical error, so the current token
has to belong to a phrase whatever comes behind it. -/
theorem tracksAt_peekNext {f : Located Token → Reader α} (hs : s.current.value ≠ .endOfInput)
    (hopen : Open phrase s.nextId [s.current])
    (hf : ∀ {next : Located Token} {rest : List Item} {t : TokenStream},
      t.upcoming = .ok s.current :: .ok next :: rest → t.nextId = s.nextId →
        TracksAt (f next) phrase rivals follow t) :
    TracksAt (peekNext >>= f) phrase rivals follow s := by
  show Tracked _ _ _ _ _ (EStateM.bind peekNext f s)
  unfold EStateM.bind
  cases hpeek : peekNext s with
  | error halt t =>
      obtain ⟨e, rfl, hupcoming⟩ := peekNext_eq_error hs hpeek
      exact .lexical [s.current] hupcoming hopen
  | ok next t =>
      obtain ⟨⟨rest, hrest⟩, hsame, hid⟩ := peekNext_eq_ok hs hpeek
      have htracks := hf (hsame.trans hrest) hid
      rw [TracksAt, hsame, hid] at htracks
      exact htracks

/-- Moving past the current token. -/
theorem tracksAt_just (hs : s.current.value ≠ .endOfInput) :
    TracksAt advance (IsJust s.current) (fun w => ∃ token, w = [token]) follow s := by
  unfold TracksAt
  cases hadvance : advance s with
  | ok x t =>
      obtain ⟨rfl, hupcoming, hid⟩ := advance_eq_ok hs hadvance
      refine .ok [s.current] hupcoming ⟨rfl, rfl, hid⟩ ?_
      rintro w cont behind ⟨token, rfl⟩ - heq
      rw [(List.cons.inj heq).1]
  | error halt t =>
      obtain ⟨e, rfl, hupcoming⟩ := advance_eq_error hs hadvance
      exact .lexical [s.current] hupcoming ⟨[], s.current, s.nextId, rfl, rfl, rfl⟩

/-- **Behind the current token** stands what completes a phrase that begins with it. -/
theorem tracksAt_advance (hs : s.current.value ≠ .endOfInput)
    (hq : Tracks q (fun ts => phrase (s.current :: ts)) (fun w => rivals (s.current :: w)) follow)
    (hnil : rivals [] → ¬follow s.current.value) :
    TracksAt (advance >>= fun _ => q) phrase rivals follow s := by
  refine ((tracksAt_just hs).bind fun _ => hq).mono ?_ ?_
  · rintro ts i x j ⟨us, vs, token, k, rfl, ⟨rfl, -, rfl⟩, hvs⟩
    exact hvs
  · rintro w cont behind hw ⟨token, rest, rfl, htoken⟩ heq
    cases w with
    | nil =>
        -- the phrase would end in front of the current token
        rw [(List.cons.inj heq).1] at htoken
        exact absurd htoken (hnil hw)
    | cons a w =>
        have ha : a = s.current := (List.cons.inj heq).1
        rw [ha] at hw ⊢
        exact ⟨[s.current], w, rfl, ⟨_, rfl⟩, hw⟩

/-- A required token. -/
theorem tracks_eat {token : Token} (htoken : token.isFixed = true) :
    Recognizes (eat token) (IsToken token) follow := by
  have hproductive : Productive (IsToken token) :=
    fun i => ⟨[⟨token, .origin⟩], _, i, .origin, rfl, rfl, rfl⟩
  refine ⟨hproductive, fun s => ?_⟩
  have heat : eat token s =
      (if s.current.value == token then advance else unexpected token.describe) s := rfl
  rw [TracksAt, heat]
  by_cases hcheck : (s.current.value == token) = true
  · rw [if_pos hcheck]
    have hvalue := (Token.beq_iff_eq_of_isFixed htoken).1 hcheck
    have hs : s.current.value ≠ .endOfInput := by
      rw [hvalue]
      exact Token.ne_endOfInput_of_isFixed htoken
    refine (tracksAt_just hs).mono ?_ ?_
    · rintro ts i x j ⟨rfl, rfl, rfl⟩
      have hcurrent : s.current = ⟨token, s.current.position⟩ := by rw [← hvalue]
      exact ⟨s.current.position, by rw [← hcurrent], hcurrent, rfl⟩
    · rintro w cont behind ⟨i, x, j, p, rfl, -, -⟩ - -
      exact ⟨_, rfl⟩
  · rw [if_neg hcheck]
    refine tracksAt_unexpected (hproductive _) ?_
    rintro w cont behind ⟨i, x, j, p, rfl, -, -⟩ - heq
    exact hcheck ((Token.beq_iff_eq_of_isFixed htoken).2 (value_of_append_eq heq))

theorem tracks_takeId : Tracks takeId TakesId (fun w => w = []) follow :=
  ⟨fun i => ⟨[], i, i + 1, rfl, rfl, rfl⟩,
    fun _ => .ok [] rfl ⟨rfl, rfl, rfl⟩ fun _ _ _ hw _ _ => hw⟩

/-- **An optional token**: with it the phrase goes on behind it, and without it no rival
begins with it. -/
theorem tracksAt_ifTaken {token : Token} {yes no : Reader α} (htoken : token.isFixed = true)
    (hyes : ∀ p, Tracks yes (fun ts => phrase (⟨token, p⟩ :: ts))
      (fun w => rivals (⟨token, p⟩ :: w)) follow)
    (hnil : rivals [] → ¬follow token)
    (hno : s.current.value ≠ token → TracksAt no phrase rivals follow s) :
    TracksAt (ifTaken token yes no) phrase rivals follow s := by
  have htaken : ifTaken token yes no s =
      (if s.current.value == token then advance >>= fun _ => yes else no) s := rfl
  rw [TracksAt, htaken]
  by_cases hcheck : (s.current.value == token) = true
  · rw [if_pos hcheck]
    have hvalue := (Token.beq_iff_eq_of_isFixed htoken).1 hcheck
    have hcurrent : s.current = ⟨token, s.current.position⟩ := by rw [← hvalue]
    refine tracksAt_advance ?_ ?_ ?_
    · rw [hvalue]
      exact Token.ne_endOfInput_of_isFixed htoken
    · rw [hcurrent]
      exact hyes s.current.position
    · rw [hvalue]
      exact hnil
  · rw [if_neg hcheck]
    exact hno fun hvalue => hcheck ((Token.beq_iff_eq_of_isFixed htoken).2 hvalue)

end Tokens

/-! ## Repetition -/

/-- Separated items begin like the first of them. -/
theorem begins_separated {phrase : Language α} {separator : Token} {first : Token → Prop}
    (hfirst : ∀ {us : List (Located Token)} {i : Nat} {x : α} {j : Nat}, phrase us i x j →
      Begins first us) {ts : List (Located Token)} {i j : Nat} {xs : List α}
    (h : Separated phrase separator ts i xs j) : Begins first ts := by
  cases h with
  | one hx => exact hfirst hx
  | more hx _ =>
      obtain ⟨token, us, rfl, htoken⟩ := hfirst hx
      exact ⟨token, _, rfl, htoken⟩

/-- **Separated items** are tracked if one item is, before a separator and at the end. -/
theorem tracks_separated {item : Reader α} {phrase : Language α} {separator : Token}
    {inner follow : Token → Prop} (hseparator : separator.isFixed = true)
    (hitem : Recognizes item phrase inner) (hinner : inner separator)
    (hfollow : ∀ v, follow v → inner v ∧ v ≠ separator) (n : Nat) :
    Recognizes (separated item separator n) (Separated phrase separator) follow := by
  have hproductive : Productive (Separated phrase separator) := by
    intro i
    obtain ⟨us, x, j, hus⟩ := hitem.productive i
    exact ⟨us, [x], j, .one hus⟩
  induction n with
  | zero => exact ⟨hproductive, fun s => .outOfSteps⟩
  | succ n ih =>
      -- behind an item stands nothing, or a separator and more items
      let rest (x : α) : Language (List α) := fun ts i xs j =>
        (ts = [] ∧ xs = [x] ∧ j = i) ∨ ∃ p us ys, ts = ⟨separator, p⟩ :: us ∧
          Separated phrase separator us i ys j ∧ xs = x :: ys
      let words : Words := fun w =>
        w = [] ∨ ∃ p us, w = ⟨separator, p⟩ :: us ∧ wordsOf (Separated phrase separator) us
      have hrest : ∀ x, Tracks (ifTaken separator (do
          let xs ← separated item separator n
          return x :: xs) (return [x])) (rest x) words follow := by
        intro x
        refine ⟨fun i => ⟨[], [x], i, Or.inl ⟨rfl, rfl, rfl⟩⟩, fun s => ?_⟩
        refine tracksAt_ifTaken hseparator (fun p => (ih.map fun xs => x :: xs).mono ?_ ?_)
          (fun _ hsep => (hfollow _ hsep).2 rfl) fun hne => ?_
        · rintro ts i xs j ⟨ys, hys, rfl⟩
          exact Or.inr ⟨p, ts, ys, rfl, hys, rfl⟩
        · rintro w (hw | ⟨q, us, hw, hus⟩)
          · cases hw
          · cases hw
            exact hus
        · refine tracksAt_pure (Or.inl ⟨rfl, rfl, rfl⟩) ?_
          rintro w cont behind (hw | ⟨q, us, rfl, -⟩) - heq
          · exact hw
          · exact absurd (value_of_append_eq heq) hne
      have hbegins : ∀ w cont, words w → Begins follow cont → Begins inner (w ++ cont) := by
        rintro w cont (rfl | ⟨p, us, rfl, -⟩) ⟨token, more, rfl, htoken⟩
        · exact ⟨token, more, rfl, (hfollow _ htoken).1⟩
        · exact ⟨_, _, rfl, hinner⟩
      refine (hitem.andThen hrest hbegins).mono ?_ ?_
      · rintro ts i xs k ⟨us, vs, x, j, rfl, hx, ⟨rfl, rfl, rfl⟩ | ⟨p, vs', ys, rfl, hys, rfl⟩⟩
        · rw [List.append_nil]
          exact .one hx
        · exact .more hx hys
      · rintro w ⟨i, xs, k, hw⟩
        cases hw with
        | one hx =>
            rw [← List.append_nil w]
            exact words_append (words_of hx) (Or.inl rfl)
        | @more us vs p _ _ _ _ _ hx hxs =>
            exact words_append (words_of hx) (Or.inr ⟨p, vs, rfl, words_of hxs⟩)

/-- Behind an item stands another one or what follows the items. -/
theorem begins_repeated {phrase : Language α} {inner first follow : Token → Prop}
    (hphrase : ∀ {ts : List (Located Token)} {i : Nat} {x : α} {j : Nat}, phrase ts i x j →
      Begins first ts)
    (hinner : ∀ v, first v → inner v) (hfollow : ∀ v, follow v → inner v)
    {w cont : List (Located Token)} (hw : wordsOf (Repeated phrase) w)
    (hcont : Begins follow cont) : Begins inner (w ++ cont) := by
  obtain ⟨i, xs, j, hw⟩ := hw
  cases hw with
  | none => exact hcont.mono hfollow
  | more hx _ =>
      obtain ⟨a, us, rfl, ha⟩ := hphrase hx
      exact ⟨a, _, rfl, hinner _ ha⟩

/-- **Repeated items** are tracked if one item is, before another one and at the end, and the
first token tells whether an item is there. -/
theorem tracks_whileStarts {item : Reader α} {phrase : Language α} {inner follow : Token → Prop}
    {starts : Reader Bool} (first : Token → Bool)
    (hstarts : ∀ s, starts s = .ok (first s.current.value) s)
    (hitem : Recognizes item phrase inner)
    (hphrase : ∀ {ts : List (Located Token)} {i : Nat} {x : α} {j : Nat}, phrase ts i x j →
      Begins (first · = true) ts)
    (hinner : ∀ v, first v = true → inner v)
    (hfollow : ∀ v, follow v → inner v ∧ first v = false) (n : Nat) :
    Recognizes (whileStarts starts item n) (Repeated phrase) follow := by
  have hproductive : Productive (Repeated phrase) := fun i => ⟨[], [], i, .none⟩
  induction n with
  | zero => exact ⟨hproductive, fun s => .outOfSteps⟩
  | succ n ih =>
      refine ⟨hproductive, fun s => ?_⟩
      have hread : whileStarts starts item (n + 1) s =
          (if first s.current.value then (do
            let x ← item
            let xs ← whileStarts starts item n
            return x :: xs) else return []) s := by
        show EStateM.bind starts _ s = _
        unfold EStateM.bind
        rw [hstarts s]
      rw [TracksAt, hread]
      by_cases hfirst : first s.current.value = true
      · rw [if_pos hfirst]
        have hbegins : ∀ w cont, wordsOf (Repeated phrase) w → Begins follow cont →
            Begins inner (w ++ cont) := fun _ _ hw hcont =>
          begins_repeated hphrase hinner (fun v hv => (hfollow v hv).1) hw hcont
        refine ((hitem.here s).andThen (fun x => ih.map fun xs => x :: xs) hbegins).mono ?_ ?_
        · rintro ts i xs k ⟨us, vs, x, j, rfl, hx, ys, hys, rfl⟩
          exact .more hx hys
        · rintro w cont behind ⟨i, xs, k, hw⟩ ⟨token, more, rfl, htoken⟩ heq
          cases hw with
          | none =>
              -- what follows the items does not begin one
              rw [(List.cons.inj heq).1] at htoken
              exact absurd hfirst (by rw [(hfollow _ htoken).2]; exact Bool.false_ne_true)
          | more hx hxs => exact words_append (words_of hx) (words_of hxs)
      · rw [if_neg hfirst]
        refine tracksAt_pure .none ?_
        rintro w cont behind ⟨i, xs, k, hw⟩ - heq
        cases hw with
        | none => rfl
        | more hx _ =>
            obtain ⟨a, us, rfl, ha⟩ := hphrase hx
            rw [List.append_assoc] at heq
            rw [← value_of_append_eq heq] at ha
            exact absurd ha hfirst

/-- Operators and operands behind any operand. -/
def chainWords (operand : Language Expr) (operators : List Operator) : Words :=
  fun w => ∃ left i e j, Chain operand operators left w i e j

/-- Behind an operand stands an operator or what follows the chain. -/
theorem begins_chain {operand : Language Expr} {operators : List Operator}
    {inner follow : Token → Prop} (hinner : ∀ op ∈ operators, inner (operatorToken op))
    (hfollow : ∀ v, follow v → inner v) {w cont : List (Located Token)}
    (hw : chainWords operand operators w) (hcont : Begins follow cont) :
    Begins inner (w ++ cont) := by
  obtain ⟨left, i, e, j, hw⟩ := hw
  cases hw with
  | done => exact hcont.mono hfollow
  | more hop _ _ => exact ⟨_, _, rfl, hinner _ hop⟩

/-- A chain ends in front of a token that is none of its operators. -/
theorem tracksAt_chainEnd {operand : Language Expr} {operators : List Operator} {left : Expr}
    {follow : Token → Prop} {s : TokenStream}
    (hnone : ∀ op ∈ operators, s.current.value ≠ operatorToken op) :
    TracksAt (pure left) (Chain operand operators left) (chainWords operand operators) follow
      s := by
  refine tracksAt_pure .done ?_
  rintro w cont behind ⟨left', i, e, j, hw⟩ - heq
  cases hw with
  | done => rfl
  | more hop _ _ => exact absurd (value_of_append_eq heq) (hnone _ hop)

/-- **Chains of operands** are tracked if one operand is, before an operator and at the end. -/
theorem tracks_chain {operand : Reader Expr} {phrase : Language Expr}
    {belongs : Operator → Bool} {operators : List Operator} {inner follow : Token → Prop}
    (hbelongs : ∀ op, belongs op = true ↔ op ∈ operators)
    (hoperand : Recognizes operand phrase inner)
    (hinner : ∀ op ∈ operators, inner (operatorToken op))
    (hfollow : ∀ v, follow v → inner v ∧ ∀ op ∈ operators, v ≠ operatorToken op) (n : Nat)
    (left : Expr) :
    Tracks (chain operand belongs n left) (Chain phrase operators left)
      (chainWords phrase operators) follow := by
  have hproductive : ∀ left, Productive (Chain phrase operators left) :=
    fun left i => ⟨[], left, i, .done⟩
  have hbegins : ∀ w cont, chainWords phrase operators w → Begins follow cont →
      Begins inner (w ++ cont) := fun _ _ hw hcont =>
    begins_chain hinner (fun v hv => (hfollow v hv).1) hw hcont
  induction n generalizing left with
  | zero => exact ⟨hproductive left, fun s => .outOfSteps⟩
  | succ n ih =>
      refine ⟨hproductive left, fun s => ?_⟩
      unfold chain
      refine tracksAt_peekCurrent ?_
      split
      next op hop =>
        have hvalue : s.current.value = operatorToken op := eq_operatorToken hop
        by_cases hmember : belongs op = true
        · rw [if_pos hmember]
          have hcurrent : s.current = ⟨operatorToken op, s.current.position⟩ := by rw [← hvalue]
          refine tracksAt_advance (hvalue ▸ operatorToken_ne_endOfInput op)
            ((hoperand.andThen (fun right => ih (.binary op left right s.current.position))
              hbegins).mono ?_ ?_) ?_
          · rintro ts i e k ⟨us, vs, right, j, rfl, hright, hmore⟩
            rw [hcurrent]
            exact .more ((hbelongs op).1 hmember) hright hmore
          · rintro w ⟨l, i, e, j, hw⟩
            generalize hword : s.current :: w = word at hw
            cases hw with
            | done => cases hword
            | more _ hright hmore =>
                obtain ⟨-, rfl⟩ := List.cons.inj hword
                exact words_append (words_of hright) ⟨_, _, _, _, hmore⟩
          · rintro - hfirst
            rw [hvalue] at hfirst
            exact (hfollow _ hfirst).2 op ((hbelongs op).1 hmember) rfl
        · rw [if_neg hmember]
          refine tracksAt_chainEnd fun op' hop' heq => hmember ((hbelongs op).2 ?_)
          rw [heq, operator?_operatorToken] at hop
          rw [← Option.some.inj hop]
          exact hop'
      next hnone =>
        refine tracksAt_chainEnd fun op' _ heq => ?_
        rw [heq, operator?_operatorToken] at hnone
        cases hnone

end Reader

end MiniPascal
