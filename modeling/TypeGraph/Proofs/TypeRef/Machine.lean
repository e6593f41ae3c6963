import TypeGraph.Proofs.TypeRef.Grammar
import TypeGraph.Proofs.TypeRef.Splitting
import TypeGraph.TypeRef.Phrase

/-!
# The machine reads the grammar

What the machine has in its stack and its mode is always the beginning of a derivation: every open
bracket with the complete members after it, and the postfix form that the last tokens are.  So the
phrases that it ends with are those that derivations say.

**Results.**
* `Reading.run?_tokens`: the tokens of a derivation are read to the end.
* `Reading.Spells.step`: every token that the machine takes goes on with the derivation it holds.
* `phrase_eq_ok_iff`: a text has a phrase exactly when it splits into the tokens of a derivation that
  says it.
-/

namespace TypeGraph
namespace TypeRef

namespace Derivation

/-- The phrases of the members of a derivation. -/
def said : {part : Part} → Derivation part → List Phrase
  | _, member p => p.said
  | _, alternative u p => u.said ++ p.said
  | _, plain a => a.said
  | _, suffixed p => [.array (.ofMembers p.said)]
  | _, generic head u => [.generic head [.ofMembers u.said]]
  | _, genericPair head u v => [.generic head [.ofMembers u.said, .ofMembers v.said]]
  | _, named name => [.name name]
  | _, group u => [.ofMembers u.said]

/-- Only a union has more than one member. -/
theorem exists_said
    {part : Part}
    (d : Derivation part)
    (h : part ≠ .union) :
    ∃ phrase, d.said = [phrase] := by
  induction d with
  | member => exact absurd rfl h
  | alternative => exact absurd rfl h
  | plain a ih => exact ih (by simp)
  | suffixed p => exact ⟨_, rfl⟩
  | generic head u => exact ⟨_, rfl⟩
  | genericPair head u v => exact ⟨_, rfl⟩
  | named name => exact ⟨_, rfl⟩
  | group u => exact ⟨_, rfl⟩

end Derivation

/-- The phrase that the tokens since the last member form, where they may end a member. -/
def Mode.phrase? : Mode → Option Phrase
  | .named text => some (.name text)
  | .complete phrase => some phrase
  | _ => none

namespace Reading

/-- The machine after some tokens, if it takes them all. -/
def run? (r : Reading) (ts : List Token) : Option Reading :=
  ts.foldlM step? r

section Run

variable {r : Reading} {ts us : List Token}

@[simp] theorem run?_nil :
    r.run? [] = some r := rfl

theorem run?_cons
    {t : Token} :
    r.run? (t :: ts) = (r.step? t).bind fun next => next.run? ts := rfl

theorem run?_append :
    r.run? (ts ++ us) = (r.run? ts).bind fun next => next.run? us := by
  simp [run?, List.foldlM_append]

/-- A token after what may end a member goes on with it, unless it opens the arguments of a name. -/
theorem step?_of_phrase?
    {phrase : Phrase}
    {t : Token}
    (h : r.mode.phrase? = some phrase)
    (ht : t ≠ .less) :
    r.step? t = r.extend? phrase t := by
  obtain ⟨level, outer, mode⟩ := r
  cases mode with
  | wanting => cases h
  | named text =>
      cases h
      cases t with
      | less => exact absurd rfl ht
      | _ => rfl
  | complete p =>
      cases h
      rfl
  | bracket p => cases h

/-- So does a token after tokens that may end a member. -/
theorem run?_append_cons
    {after : Reading}
    {phrase : Phrase}
    {t : Token}
    (hrun : r.run? ts = some after)
    (h : after.mode.phrase? = some phrase)
    (ht : t ≠ .less) :
    r.run? (ts ++ t :: us) = (after.extend? phrase t).bind fun next => next.run? us := by
  rw [run?_append, hrun, Option.bind_some, run?_cons, step?_of_phrase? h ht]

end Run

section Complete

/-- Tokens that are wanted are read to the end: their members are complete up to the last one, which
the mode has. -/
def Reaches (level : Level) (outer : List Level) (ts : List Token) (said : List Phrase) : Prop :=
  ∃ members last mode,
    (Reading.mk level outer .wanting).run? ts = some ⟨⟨level.opening, members⟩, outer, mode⟩ ∧
    mode.phrase? = some last ∧ level.members ++ said = members ++ [last]

/-- The tokens of a derivation are read to the end wherever one is wanted. -/
theorem run?_tokens
    {part : Part}
    (d : Derivation part)
    (level : Level)
    (outer : List Level) :
    Reaches level outer d.tokens d.said := by
  induction d generalizing level outer with
  | member p ih => exact ih level outer
  | alternative u p ihu ihp =>
      obtain ⟨members, last, mode, hrun, hlast, hsaid⟩ := ihu level outer
      obtain ⟨members', last', mode', hrun', hlast', hsaid'⟩ :=
        ihp ⟨level.opening, members ++ [last]⟩ outer
      refine ⟨members', last', mode', ?_, hlast', ?_⟩
      · rw [Derivation.tokens, run?_append_cons hrun hlast (by simp)]
        exact hrun'
      · rw [Derivation.said, ← List.append_assoc, hsaid, hsaid']
  | plain a ih => exact ih level outer
  | suffixed p ih =>
      obtain ⟨members, last, mode, hrun, hlast, hsaid⟩ := ih level outer
      obtain ⟨element, helement⟩ := p.exists_said (by simp)
      rw [helement] at hsaid
      obtain ⟨rfl, he⟩ := List.append_inj' hsaid rfl
      cases he
      refine ⟨level.members, .array last, .complete _, ?_, rfl, by simp [Derivation.said, helement]⟩
      rw [Derivation.tokens, run?_append_cons hrun hlast (by simp)]
      rfl
  | generic head u ih =>
      obtain ⟨members, last, mode, hrun, hlast, hsaid⟩ := ih ⟨.first head, []⟩ (level :: outer)
      refine ⟨level.members, _, .complete _, ?_, rfl, rfl⟩
      rw [Derivation.tokens, run?_cons]
      simp only [step?, Option.bind_some, run?_cons, push]
      rw [run?_append_cons hrun hlast (by simp)]
      simp [extend?, pop?, closed, ← hsaid]
  | genericPair head u v ihu ihv =>
      obtain ⟨members, last, mode, hrun, hlast, hsaid⟩ := ihu ⟨.first head, []⟩ (level :: outer)
      obtain ⟨members', last', mode', hrun', hlast', hsaid'⟩ :=
        ihv ⟨.second head (.ofMembers u.said), []⟩ (level :: outer)
      refine ⟨level.members, _, .complete _, ?_, rfl, rfl⟩
      rw [Derivation.tokens, run?_cons]
      simp only [step?, Option.bind_some, run?_cons, push]
      rw [run?_append_cons hrun hlast (by simp)]
      simp only [extend?, closed, ← hsaid, List.nil_append, Option.bind_some]
      rw [run?_append_cons hrun' hlast' (by simp)]
      simp [extend?, pop?, closed, ← hsaid']
  | named name => exact ⟨level.members, .name name, .named name, rfl, rfl, rfl⟩
  | group u ih =>
      obtain ⟨members, last, mode, hrun, hlast, hsaid⟩ := ih ⟨.group, []⟩ (level :: outer)
      refine ⟨level.members, _, .complete _, ?_, rfl, rfl⟩
      rw [Derivation.tokens, run?_cons]
      simp only [step?, Option.bind_some, push]
      rw [run?_append_cons hrun hlast (by simp)]
      simp [extend?, pop?, closed, ← hsaid]

end Complete

end Reading

section Spelling

/-- The tokens that opened a level. -/
inductive Opening.Spells : Opening → List Token → Prop
  | top :
      Spells .top []
  | group :
      Spells .group [.openParen]
  | first (head : String) :
      Spells (.first head) [.name head, .less]
  | second (head : String) (u : Derivation .union) :
      Spells (.second head (.ofMembers u.said)) (.name head :: .less :: (u.tokens ++ [.comma]))

/-- The tokens of a level: those that opened it, and its complete members up to a bar. -/
inductive Level.Spells : Level → List Token → Prop
  | opened {o : Opening} {ts : List Token} :
      o.Spells ts →
      Spells ⟨o, []⟩ ts
  | barred {o : Opening} {ts : List Token} (u : Derivation .union) :
      o.Spells ts →
      Spells ⟨o, u.said⟩ (ts ++ u.tokens ++ [.bar])

/-- The tokens of the levels around a bracket: the outermost level alone is inside none. -/
inductive Around : Opening → List Level → List Token → Prop
  | top :
      Around .top [] []
  | bracket {o : Opening} {level : Level} {outer : List Level} {ts us : List Token} :
      o ≠ .top →
      Around level.opening outer ts →
      level.Spells us →
      Around o (level :: outer) (ts ++ us)

/-- The tokens since the last complete member, as a postfix form. -/
inductive Mode.Spells : Mode → List Token → Prop
  | wanting :
      Spells .wanting []
  | named (text : String) :
      Spells (.named text) [.name text]
  | complete {phrase : Phrase} (p : Derivation .member) :
      p.said = [phrase] →
      Spells (.complete phrase) p.tokens
  | bracket {phrase : Phrase} (p : Derivation .member) :
      p.said = [phrase] →
      Spells (.bracket phrase) (p.tokens ++ [.openBracket])

/-- The tokens that the machine has read. -/
inductive Reading.Spells : Reading → List Token → Prop
  | intro {level : Level} {outer : List Level} {mode : Mode} {ts us vs : List Token} :
      Around level.opening outer ts →
      level.Spells us →
      mode.Spells vs →
      Spells ⟨level, outer, mode⟩ (ts ++ us ++ vs)

variable {level : Level} {outer : List Level} {mode : Mode} {phrase : Phrase} {ts us : List Token}

/-- What may end a member is a postfix form. -/
theorem Mode.Spells.of_phrase?
    (h : mode.Spells us)
    (hp : mode.phrase? = some phrase) :
    ∃ p : Derivation .member, us = p.tokens ∧ p.said = [phrase] := by
  cases h with
  | wanting => cases hp
  | named text =>
      cases hp
      exact ⟨.plain (.named text), rfl, rfl⟩
  | complete p hsaid =>
      cases hp
      exact ⟨p, rfl, hsaid⟩
  | bracket => cases hp

/-- A postfix form completes the union of its level. -/
theorem Level.Spells.closed
    (h : level.Spells ts)
    {p : Derivation .member}
    (hp : p.said = [phrase]) :
    ∃ (u : Derivation .union) (os : List Token), level.opening.Spells os ∧
      ts ++ p.tokens = os ++ u.tokens ∧ level.members ++ [phrase] = u.said := by
  cases h with
  | opened ho => exact ⟨.member p, ts, ho, rfl, hp.symm⟩
  | barred u ho =>
      exact ⟨.alternative u p, _, ho, by simp [Derivation.tokens], by simp [Derivation.said, hp]⟩

/-- A second argument stands where the first one stood. -/
theorem Around.reopen
    {o o' : Opening}
    (h : Around o outer ts)
    (ho : o ≠ .top)
    (ho' : o' ≠ .top) :
    Around o' outer ts := by
  cases h with
  | top => exact absurd rfl ho
  | bracket _ haround hlevel => exact .bracket ho' haround hlevel

/-- A bracket is closed: its tokens are an atom of the level around it. -/
theorem Around.pop
    {o : Opening}
    {rest : Level}
    {r : Reading}
    (h : Around o outer ts)
    (ho : o ≠ .top)
    (a : Derivation .atom)
    (ha : a.said = [phrase])
    (hr : Reading.pop? ⟨rest, outer, mode⟩ phrase = some r) :
    r.Spells (ts ++ a.tokens) := by
  cases h with
  | top => exact absurd rfl ho
  | bracket _ haround hlevel =>
      cases hr
      exact .intro haround hlevel (.complete (.plain a) ha)

/-- A token after a postfix form goes on with the derivation. -/
theorem Reading.Spells.extend
    (haround : Around level.opening outer ts)
    (hlevel : level.Spells us)
    {p : Derivation .member}
    (hp : p.said = [phrase])
    {t : Token}
    {r : Reading}
    (hr : Reading.extend? ⟨level, outer, mode⟩ phrase t = some r) :
    r.Spells (ts ++ us ++ p.tokens ++ [t]) := by
  obtain ⟨u, os, hopening, htokens, hsaid⟩ := hlevel.closed hp
  have hall : ts ++ us ++ p.tokens ++ [t] = ts ++ (os ++ u.tokens ++ [t]) := by
    rw [List.append_assoc ts, htokens, List.append_assoc]
  obtain ⟨opening, members⟩ := level
  simp only at hopening hsaid haround
  simp only [Reading.extend?, Reading.closed, hsaid] at hr
  split at hr
  · cases hr
    simpa using Reading.Spells.intro haround hlevel (.bracket p hp)
  · cases hr
    rw [hall]
    simpa using Reading.Spells.intro haround (Level.Spells.barred u hopening) .wanting
  · cases hopening
    rw [hall]
    exact haround.pop (by simp) (.group u) rfl hr
  · cases hopening
    cases hr
    rw [hall]
    simpa using Reading.Spells.intro (haround.reopen (by simp) (by simp))
      (Level.Spells.opened (.second _ u)) .wanting
  · cases hopening with
    | first _ =>
        rw [hall]
        simpa [Derivation.tokens] using haround.pop (by simp) (.generic _ u) rfl hr
  · cases hopening with
    | second _ v =>
        rw [hall]
        simpa [Derivation.tokens] using haround.pop (by simp) (.genericPair _ v u) rfl hr
  · cases hr

/-- Every token that the machine takes goes on with the derivation it holds. -/
theorem Reading.Spells.step
    {r r' : Reading}
    (h : r.Spells ts)
    {t : Token}
    (hr : r.step? t = some r') :
    r'.Spells (ts ++ [t]) := by
  obtain @⟨level, outer, mode, ts, us, vs, haround, hlevel, hmode⟩ := h
  have hbracket : ∀ {o : Opening} {ws : List Token}, o ≠ .top → o.Spells ws →
      (Reading.push ⟨level, outer, mode⟩ o).Spells (ts ++ us ++ ws) := by
    intro o ws ho hws
    simpa [Reading.push] using
      Reading.Spells.intro (.bracket ho haround hlevel) (.opened hws) .wanting
  cases hmode with
  | wanting =>
      cases t with
      | name text =>
          cases hr
          simpa using Reading.Spells.intro haround hlevel (.named text)
      | openParen =>
          cases hr
          simpa using hbracket (by simp) .group
      | _ => cases hr
  | named text =>
      by_cases ht : t = .less
      · subst ht
        cases hr
        simpa using hbracket (by simp) (.first text)
      · rw [Reading.step?_of_phrase? rfl ht] at hr
        exact Reading.Spells.extend (p := .plain (.named text)) haround hlevel rfl hr
  | complete p hp => exact Reading.Spells.extend haround hlevel hp hr
  | bracket p hp =>
      cases t with
      | closeBracket =>
          cases hr
          simpa [Derivation.tokens] using Reading.Spells.intro haround hlevel
            (.complete (.suffixed p) (by simp [Derivation.said, hp]))
      | _ => cases hr

/-- What the machine has read after a run. -/
theorem Reading.Spells.run
    {r r' : Reading}
    (h : r.Spells ts)
    (hr : r.run? us = some r') :
    r'.Spells (ts ++ us) := by
  induction us generalizing r ts with
  | nil =>
      cases hr
      simpa using h
  | cons t us ih =>
      rw [Reading.run?_cons] at hr
      obtain ⟨next, hnext, hr⟩ := Option.bind_eq_some_iff.1 hr
      simpa using ih (h.step hnext) hr

theorem Reading.spells_start :
    Reading.start.Spells [] := by
  simpa [Reading.start] using Reading.Spells.intro .top (.opened .top) .wanting

/-- The machine ends with the phrase of a derivation of all that it has read. -/
theorem Reading.Spells.finish
    {r : Reading}
    (h : r.Spells ts)
    (hr : r.finish? = some phrase) :
    ∃ u : Derivation .union, u.tokens = ts ∧ phrase = .ofMembers u.said := by
  obtain @⟨level, outer, mode, ts, us, vs, haround, hlevel, hmode⟩ := h
  obtain ⟨opening, members⟩ := level
  have hfinish : opening = .top ∧ ∃ last, mode.phrase? = some last ∧
      phrase = .ofMembers (members ++ [last]) := by
    unfold Reading.finish? at hr
    split at hr
    · rename_i htop hnamed
      cases hr
      simp only at htop hnamed
      exact ⟨htop, _, by rw [hnamed]; rfl, rfl⟩
    · rename_i htop hcomplete
      cases hr
      simp only at htop hcomplete
      exact ⟨htop, _, by rw [hcomplete]; rfl, rfl⟩
    · cases hr
  obtain ⟨rfl, last, hlast, rfl⟩ := hfinish
  obtain ⟨p, rfl, hp⟩ := hmode.of_phrase? hlast
  obtain ⟨u, os, hopening, htokens, hsaid⟩ := hlevel.closed hp
  cases haround with
  | top =>
      cases hopening
      exact ⟨u, by simpa using htokens.symm, by rw [← hsaid]⟩
  | bracket ho => exact absurd rfl ho

end Spelling

section Phrases

variable {ts : List Token} {p : Phrase}

/-- A run of the machine from the start ends with a phrase exactly on the tokens of a derivation that
says it. -/
theorem run?_start_iff :
    (∃ r, Reading.start.run? ts = some r ∧ r.finish? = some p) ↔
      ∃ u : Derivation .union, u.tokens = ts ∧ p = .ofMembers u.said := by
  constructor
  · rintro ⟨r, hrun, hfinish⟩
    exact (Reading.spells_start.run hrun).finish hfinish
  · rintro ⟨u, rfl, rfl⟩
    obtain ⟨members, last, mode, hrun, hlast, hsaid⟩ := Reading.run?_tokens u ⟨.top, []⟩ []
    refine ⟨_, hrun, ?_⟩
    rw [List.nil_append] at hsaid
    rw [hsaid]
    cases mode with
    | named text =>
        cases hlast
        rfl
    | complete phrase =>
        cases hlast
        rfl
    | wanting => cases hlast
    | bracket => cases hlast

/-- Tokens have a phrase exactly when nothing stray follows and the machine takes them all. -/
theorem phraseOf_eq_ok_iff
    {r : Reading}
    {last : Nat}
    {stray : Option Nat}
    {placed : List Placed} :
    phraseOf r last stray placed = .ok p ↔
      stray = none ∧ ∃ r', r.run? (placed.map Placed.token) = some r' ∧ r'.finish? = some p := by
  induction placed generalizing r last with
  | nil =>
      cases stray with
      | some column => simp [phraseOf]
      | none => cases hf : r.finish? <;> simp [phraseOf, hf]
  | cons token rest ih =>
      rw [phraseOf, List.map_cons, Reading.run?_cons]
      cases hstep : r.step? token.token with
      | none => simp
      | some next => simpa using ih

/-- A text has a phrase exactly when it splits into the tokens of a derivation that says it. -/
theorem phrase_eq_ok_iff
    {text : String} :
    phrase text = .ok p ↔
      ∃ u : Derivation .union, Splits text.toList u.tokens [] ∧ p = .ofMembers u.said := by
  have hphrase : phrase text = phraseOf .start 1 (tokens text).2 (tokens text).1 := rfl
  rw [hphrase, phraseOf_eq_ok_iff, run?_start_iff]
  constructor
  · rintro ⟨hstray, u, htokens, rfl⟩
    exact ⟨u, tokens_iff.1 ⟨htokens.symm, hstray⟩, rfl⟩
  · rintro ⟨u, hsplits, rfl⟩
    obtain ⟨htokens, hstray⟩ := tokens_iff.2 hsplits
    exact ⟨hstray, u, htokens.symm, rfl⟩

end Phrases

end TypeRef
end TypeGraph
