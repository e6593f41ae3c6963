import TypeGraph.TypeRef.Basic
import TypeGraph.TypeRef.Token

/-!
# The grammar of compact references

The derivations of the grammar

```text
union   := postfix ("|" postfix)*
postfix := atom ("[" "]")*
atom    := NAME "<" union ("," union)? ">" | NAME | "(" union ")"
```

with the tokens that each derives and the references that each denotes.  A derivation denotes a list of
members; that of an atom or a postfix form has one.

**Results.**
* `Derivation.tokens_injective`: the grammar is unambiguous.
-/

namespace TypeGraph
namespace TypeRef

/-- The reference with some members; one member stands for itself. -/
def ofMembers : List TypeRef → TypeRef
  | [member] => member
  | members => .union members

/-- The parts of the grammar; a postfix form is a member of a union. -/
inductive Part where
  | union
  | member
  | atom

/-- A derivation of a part. -/
inductive Derivation : Part → Type
  | member (p : Derivation .member) :
      Derivation .union
  | alternative (u : Derivation .union) (p : Derivation .member) :
      Derivation .union
  | plain (a : Derivation .atom) :
      Derivation .member
  | suffixed (p : Derivation .member) :
      Derivation .member
  | generic (head : String) (u : Derivation .union) :
      Derivation .atom
  | genericPair (head : String) (u v : Derivation .union) :
      Derivation .atom
  | named (name : String) :
      Derivation .atom
  | group (u : Derivation .union) :
      Derivation .atom

namespace Derivation

/-- The tokens that are derived. -/
def tokens : {part : Part} → Derivation part → List Token
  | _, member p => p.tokens
  | _, alternative u p => u.tokens ++ .bar :: p.tokens
  | _, plain a => a.tokens
  | _, suffixed p => p.tokens ++ [.openBracket, .closeBracket]
  | _, generic head u => .name head :: .less :: (u.tokens ++ [.greater])
  | _, genericPair head u v =>
      .name head :: .less :: (u.tokens ++ .comma :: (v.tokens ++ [.greater]))
  | _, named name => [.name name]
  | _, group u => .openParen :: (u.tokens ++ [.closeParen])

/-- The last token that is derived. -/
def lastToken : {part : Part} → Derivation part → Token
  | _, member p => p.lastToken
  | _, alternative _ p => p.lastToken
  | _, plain a => a.lastToken
  | _, suffixed _ => .closeBracket
  | _, generic _ _ => .greater
  | _, genericPair _ _ _ => .greater
  | _, named name => .name name
  | _, group _ => .closeParen

section Unambiguous

variable {part : Part}

theorem getLast?_tokens
    (d : Derivation part) :
    d.tokens.getLast? = some d.lastToken := by
  induction d with
  | member p ih => exact ih
  | alternative u p _ ih => simp [tokens, lastToken, List.getLast?_append, List.getLast?_cons, ih]
  | plain a ih => exact ih
  | suffixed p => simp [tokens, lastToken, List.getLast?_append]
  | generic head u => simp [tokens, lastToken, List.getLast?_append, List.getLast?_cons]
  | genericPair head u v => simp [tokens, lastToken, List.getLast?_append, List.getLast?_cons]
  | named name => rfl
  | group u => simp [tokens, lastToken, List.getLast?_append, List.getLast?_cons]

/-- Derivations that end the same text end with the same token. -/
theorem lastToken_eq
    {part' : Part}
    (d : Derivation part)
    (d' : Derivation part')
    {before before' : List Token}
    (h : before ++ d.tokens = before' ++ d'.tokens) :
    d.lastToken = d'.lastToken := by
  have hlast := congrArg List.getLast? h
  simpa [List.getLast?_append, getLast?_tokens] using hlast

/-- No atom ends as an array suffix does. -/
theorem lastToken_atom_ne
    (a : Derivation .atom) :
    a.lastToken ≠ .closeBracket := by
  cases a <;> simp [lastToken]

theorem not_cut_at_bar
    {before before' : List Token}
    {t t' : Token}
    (h : t ≠ .bar)
    (h' : t' ≠ .bar) :
    (before ++ [t]).getLast? ≠ some .bar ∧ (before' ++ [t']).getLast? ≠ some .bar := by
  simpa using ⟨h, h'⟩

/-- Read from the right, tokens are derived in one way: what ends a text of tokens is the only
derivation there, if a union is not cut at a bar. -/
theorem append_tokens_inj
    (d d' : Derivation part)
    (before before' : List Token)
    (h : before ++ d.tokens = before' ++ d'.tokens)
    (hbar : part = .union → before.getLast? ≠ some .bar ∧ before'.getLast? ≠ some .bar) :
    d = d' ∧ before = before' := by
  have hlast := lastToken_eq d d' h
  induction d generalizing before before' with
  | member p ih =>
      cases d' with
      | member p' =>
          obtain ⟨rfl, rfl⟩ := ih p' _ _ h (by simp) hlast
          exact ⟨rfl, rfl⟩
      | alternative u' p' =>
          obtain ⟨rfl, rfl⟩ := ih p' before (before' ++ u'.tokens ++ [.bar])
            (by simpa [tokens] using h) (by simp) hlast
          exact absurd (by simp) (hbar rfl).1
  | alternative u p ihu ihp =>
      cases d' with
      | member p' =>
          obtain ⟨rfl, rfl⟩ := ihp p' (before ++ u.tokens ++ [.bar]) before'
            (by simpa [tokens] using h) (by simp) hlast
          exact absurd (by simp) (hbar rfl).2
      | alternative u' p' =>
          obtain ⟨rfl, hrest⟩ := ihp p' (before ++ u.tokens ++ [.bar])
            (before' ++ u'.tokens ++ [.bar]) (by simpa [tokens] using h) (by simp) hlast
          have hunion := List.append_cancel_right hrest
          obtain ⟨rfl, rfl⟩ := ihu u' _ _ hunion hbar (lastToken_eq u u' hunion)
          exact ⟨rfl, rfl⟩
  | plain a ih =>
      cases d' with
      | plain a' =>
          obtain ⟨rfl, rfl⟩ := ih a' _ _ h (by simp) hlast
          exact ⟨rfl, rfl⟩
      | suffixed p' => exact absurd hlast (lastToken_atom_ne a)
  | suffixed p ih =>
      cases d' with
      | plain a' => exact absurd hlast.symm (lastToken_atom_ne a')
      | suffixed p' =>
          have hmember : before ++ p.tokens = before' ++ p'.tokens :=
            List.append_cancel_right (by simpa [tokens] using h)
          obtain ⟨rfl, rfl⟩ := ih p' _ _ hmember (by simp) (lastToken_eq p p' hmember)
          exact ⟨rfl, rfl⟩
  | generic head u ih =>
      cases d' with
      | generic head' u' =>
          have hunion := List.append_cancel_right (show
            before ++ [.name head] ++ [.less] ++ u.tokens ++ [.greater] =
              before' ++ [.name head'] ++ [.less] ++ u'.tokens ++ [.greater] by
                simpa [tokens] using h)
          obtain ⟨rfl, hrest⟩ := ih u' _ _ hunion
            (fun _ => not_cut_at_bar (by simp) (by simp)) (lastToken_eq u u' hunion)
          obtain ⟨rfl, he⟩ := List.append_inj' (List.append_cancel_right hrest) rfl
          cases he
          exact ⟨rfl, rfl⟩
      | genericPair head' u' v' =>
          -- the last argument follows a bracket on one side and a comma on the other
          have hunion := List.append_cancel_right (show
            before ++ [.name head] ++ [.less] ++ u.tokens ++ [.greater] =
              before' ++ [.name head'] ++ [.less] ++ u'.tokens ++ [.comma] ++ v'.tokens ++
                [.greater] by simpa [tokens] using h)
          obtain ⟨-, hrest⟩ := ih v' _ _ hunion
            (fun _ => not_cut_at_bar (by simp) (by simp)) (lastToken_eq u v' hunion)
          cases (List.append_inj' hrest rfl).2
      | named name => cases hlast
      | group u' => cases hlast
  | genericPair head u v ihu ihv =>
      cases d' with
      | generic head' u' =>
          have hunion := List.append_cancel_right (show
            before ++ [.name head] ++ [.less] ++ u.tokens ++ [.comma] ++ v.tokens ++ [.greater] =
              before' ++ [.name head'] ++ [.less] ++ u'.tokens ++ [.greater] by
                simpa [tokens] using h)
          obtain ⟨-, hrest⟩ := ihv u' _ _ hunion
            (fun _ => not_cut_at_bar (by simp) (by simp)) (lastToken_eq v u' hunion)
          cases (List.append_inj' hrest rfl).2
      | genericPair head' u' v' =>
          have hsecond := List.append_cancel_right (show
            before ++ [.name head] ++ [.less] ++ u.tokens ++ [.comma] ++ v.tokens ++ [.greater] =
              before' ++ [.name head'] ++ [.less] ++ u'.tokens ++ [.comma] ++ v'.tokens ++
                [.greater] by simpa [tokens] using h)
          obtain ⟨rfl, hclosed⟩ := ihv v' _ _ hsecond
            (fun _ => not_cut_at_bar (by simp) (by simp)) (lastToken_eq v v' hsecond)
          have hfirst := List.append_cancel_right hclosed
          obtain ⟨rfl, hrest⟩ := ihu u' _ _ hfirst
            (fun _ => not_cut_at_bar (by simp) (by simp)) (lastToken_eq u u' hfirst)
          obtain ⟨rfl, he⟩ := List.append_inj' (List.append_cancel_right hrest) rfl
          cases he
          exact ⟨rfl, rfl⟩
      | named name => cases hlast
      | group u' => cases hlast
  | named name =>
      cases d' with
      | named name' =>
          cases hlast
          exact ⟨rfl, List.append_cancel_right h⟩
      | generic head' u' => cases hlast
      | genericPair head' u' v' => cases hlast
      | group u' => cases hlast
  | group u ih =>
      cases d' with
      | group u' =>
          have hunion := List.append_cancel_right (show
            before ++ [.openParen] ++ u.tokens ++ [.closeParen] =
              before' ++ [.openParen] ++ u'.tokens ++ [.closeParen] by simpa [tokens] using h)
          obtain ⟨rfl, hrest⟩ := ih u' _ _ hunion (by simp) (lastToken_eq u u' hunion)
          exact ⟨rfl, List.append_cancel_right hrest⟩
      | generic head' u' => cases hlast
      | genericPair head' u' v' => cases hlast
      | named name => cases hlast

/-- The grammar is unambiguous: tokens are derived in one way. -/
theorem tokens_injective
    {d d' : Derivation part}
    (h : d.tokens = d'.tokens) :
    d = d' :=
  (append_tokens_inj d d' [] [] h (by simp)).1

end Unambiguous

section Meaning

/-- The references of the members that a derivation denotes.  A name is a primitive or, with a dot in
it, a named type; suffixes make arrays; `Array` takes one argument and `Map` an element, or the
primitive `string` and an element. -/
inductive DenotesMembers : {part : Part} → Derivation part → List TypeRef → Prop
  | primitive (p : Primitive) :
      DenotesMembers (.named p.name) [.primitive p]
  | named {name : String} :
      (∀ p : Primitive, p.name ≠ name) →
      '.' ∈ name.toList →
      DenotesMembers (.named name) [.named name]
  | group {u : Derivation .union} {refs : List TypeRef} :
      DenotesMembers u refs →
      DenotesMembers (.group u) [ofMembers refs]
  | array {u : Derivation .union} {refs : List TypeRef} :
      DenotesMembers u refs →
      DenotesMembers (.generic "Array" u) [.array (ofMembers refs)]
  | map {u : Derivation .union} {refs : List TypeRef} :
      DenotesMembers u refs →
      DenotesMembers (.generic "Map" u) [.map (ofMembers refs)]
  | mapPair {k u : Derivation .union} {refs : List TypeRef} :
      DenotesMembers k [.primitive .string] →
      DenotesMembers u refs →
      DenotesMembers (.genericPair "Map" k u) [.map (ofMembers refs)]
  | plain {a : Derivation .atom} {refs : List TypeRef} :
      DenotesMembers a refs →
      DenotesMembers (.plain a) refs
  | suffixed {p : Derivation .member} {ref : TypeRef} :
      DenotesMembers p [ref] →
      DenotesMembers (.suffixed p) [.array ref]
  | member {p : Derivation .member} {refs : List TypeRef} :
      DenotesMembers p refs →
      DenotesMembers (.member p) refs
  | alternative {u : Derivation .union} {p : Derivation .member} {refs : List TypeRef}
      {ref : TypeRef} :
      DenotesMembers u refs →
      DenotesMembers p [ref] →
      DenotesMembers (.alternative u p) (refs ++ [ref])

/-- A derivation denotes the union of its members; one member stands for itself. -/
def Denotes {part : Part} (d : Derivation part) (r : TypeRef) : Prop :=
  ∃ refs, d.DenotesMembers refs ∧ r = ofMembers refs

end Meaning

end Derivation
end TypeRef
end TypeGraph
