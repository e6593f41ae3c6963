import TypeGraph.Proofs.TypeRef.Parsing

/-!
# The type names in a compact reference

Among the tokens of a reference a name with a dot names a type.  A name without one is a primitive, or
stands before an angle bracket as the head of a generic.  The keys of maps, parentheses and unions of
one member leave no trace in the reference that is read, but every name of a type does, as often as it is
written and in the order of the text.

**Results.**
* `Derivation.DenotesMembers.mentionedIn_eq`: what is denoted mentions the type names that are derived.
* `Derivation.DenotesMembers.namesInUse`: each name that is derived is of use where it stands.
* `mentioned_of_parse`: a text and the types that its reference mentions.
-/

namespace TypeGraph
namespace TypeRef

/-- The name of a type: a name with a dot. -/
def Token.typeName? : Token → Option String
  | .name text => if '.' ∈ text.toList then some text else none
  | _ => none

/-- The names of types among some tokens, in their order and as often as they are there. -/
def typeNames (ts : List Token) : List String :=
  ts.filterMap Token.typeName?

/-- What a name is of use for before the next token: as a head before an angle bracket, and as a
primitive or the name of a type elsewhere. -/
inductive NameUse (name : String) (next : Option Token) : Prop
  | head :
      next = some .less →
      name = "Array" ∨ name = "Map" →
      NameUse name next
  | primitive (p : Primitive) :
      next ≠ some .less →
      p.name = name →
      NameUse name next
  | type :
      next ≠ some .less →
      '.' ∈ name.toList →
      NameUse name next

/-- Each name among some tokens is of use where it stands. -/
def NamesInUse (ts : List Token) : Prop :=
  ∀ before name after, ts = before ++ .name name :: after → NameUse name after.head?

section Tokens

variable {t : Token} {ts us : List Token}

@[simp] theorem typeNames_nil : typeNames [] = [] := rfl

@[simp] theorem typeNames_cons :
    typeNames (t :: ts) = t.typeName?.toList ++ typeNames ts := by
  rw [typeNames, typeNames, List.filterMap_cons]
  cases t.typeName? <;> rfl

@[simp] theorem typeNames_append :
    typeNames (ts ++ us) = typeNames ts ++ typeNames us :=
  List.filterMap_append

theorem namesInUse_nil : NamesInUse [] := by
  intro before name after h
  simp at h

theorem namesInUse_cons
    (ht : ∀ name, t = .name name → NameUse name ts.head?)
    (hts : NamesInUse ts) :
    NamesInUse (t :: ts) := by
  intro before name after h
  cases before with
  | nil =>
      obtain ⟨htoken, rfl⟩ := List.cons.inj h
      exact ht name htoken
  | cons u before => exact hts before name after (List.cons.inj h).2

theorem namesInUse_name
    {name : String}
    (huse : NameUse name ts.head?)
    (hts : NamesInUse ts) :
    NamesInUse (.name name :: ts) := by
  refine namesInUse_cons (fun name' hname => ?_) hts
  cases hname
  exact huse

theorem namesInUse_mark
    (ht : ∀ name, t ≠ .name name)
    (hts : NamesInUse ts) :
    NamesInUse (t :: ts) :=
  namesInUse_cons (fun name hname => absurd hname (ht name)) hts

/-- A name at the end stays of use before anything but an angle bracket. -/
theorem NameUse.of_none
    {name : String}
    {next : Option Token}
    (h : NameUse name none)
    (hnext : next ≠ some .less) :
    NameUse name next := by
  cases h with
  | head hless => cases hless
  | primitive p _ hp => exact .primitive p hnext hp
  | type _ hdot => exact .type hnext hdot

/-- Names stay of use before tokens that do not start with an angle bracket. -/
theorem NamesInUse.append
    (hts : NamesInUse ts)
    (hus : NamesInUse us)
    (hless : us.head? ≠ some .less) :
    NamesInUse (ts ++ us) := by
  intro before name after h
  rcases List.append_eq_append_iff.1 h with ⟨between, rfl, hright⟩ | ⟨between, rfl, hleft⟩
  · exact hus between name after hright
  · cases between with
    | nil => exact hus [] name after hleft.symm
    | cons u between =>
        obtain ⟨rfl, rfl⟩ := List.cons.inj hleft
        have huse := hts before name between rfl
        cases between with
        | nil => exact huse.of_none hless
        | cons v between => exact huse

end Tokens

section Derivations

variable {part : Part} {d : Derivation part} {refs : List TypeRef}

/-- The name of a primitive has no dot. -/
theorem not_mem_dot_name (p : Primitive) : '.' ∉ p.name.toList := by
  cases p <;> decide

@[simp] theorem mentioned_ofMembers
    (refs : List TypeRef) :
    (ofMembers refs).mentioned = mentionedIn refs := by
  match refs with
  | [] => rfl
  | [r] => simp [ofMembers, mentionedIn]
  | r :: s :: rest => rfl

/-- What is denoted mentions the names of types that are derived, in their order. -/
theorem Derivation.DenotesMembers.mentionedIn_eq
    (h : d.DenotesMembers refs) :
    mentionedIn refs = typeNames d.tokens := by
  induction h with
  | primitive p =>
      simp [tokens, mentionedIn, mentioned, Token.typeName?, not_mem_dot_name p]
  | named _ hdot => simp [tokens, mentionedIn, mentioned, Token.typeName?, hdot]
  | group _ ih => simp [tokens, mentionedIn, Token.typeName?, ih]
  | array _ ih => simp [tokens, mentionedIn, mentioned, Token.typeName?, ih]
  | map _ ih => simp [tokens, mentionedIn, mentioned, Token.typeName?, ih]
  | mapPair _ _ ihk ihu =>
      -- the key is the primitive of texts, so its tokens have no name of a type
      have hkey : typeNames _ = [] := ihk.symm.trans rfl
      simp [tokens, mentionedIn, mentioned, Token.typeName?, hkey, ihu]
  | plain _ ih => exact ih
  | suffixed _ ih => simpa [tokens, mentionedIn, mentioned, Token.typeName?] using ih
  | member _ ih => exact ih
  | alternative _ _ ihu ihp =>
      simp [tokens, mentionedIn_eq_flatMap, Token.typeName?, ← ihu, ← ihp]

/-- A generic is a head before an angle bracket, with its arguments between brackets. -/
theorem namesInUse_generic
    {head : String}
    {ts : List Token}
    (hhead : head = "Array" ∨ head = "Map")
    (hts : NamesInUse ts) :
    NamesInUse (.name head :: .less :: (ts ++ [.greater])) := by
  have hclosed : NamesInUse (ts ++ [.greater]) :=
    hts.append (namesInUse_mark (by simp) namesInUse_nil) (by simp)
  exact namesInUse_name (.head rfl hhead) (namesInUse_mark (by simp) hclosed)

/-- Each name that is derived is of use where it stands. -/
theorem Derivation.DenotesMembers.namesInUse
    (h : d.DenotesMembers refs) :
    NamesInUse d.tokens := by
  induction h with
  | primitive p => exact namesInUse_name (.primitive p (by simp) rfl) namesInUse_nil
  | named _ hdot => exact namesInUse_name (.type (by simp) hdot) namesInUse_nil
  | group _ ih =>
      have hclosed := ih.append (namesInUse_mark (t := .closeParen) (by simp) namesInUse_nil) (by simp)
      exact namesInUse_mark (by simp) hclosed
  | array _ ih => exact namesInUse_generic (Or.inl rfl) ih
  | map _ ih => exact namesInUse_generic (Or.inr rfl) ih
  | mapPair _ _ ihk ihu =>
      have harguments := ihk.append (namesInUse_mark (t := .comma) (by simp) ihu) (by simp)
      simpa [tokens] using namesInUse_generic (Or.inr (rfl : "Map" = "Map")) harguments
  | plain _ ih => exact ih
  | suffixed _ ih =>
      have hsuffix : NamesInUse [.openBracket, .closeBracket] :=
        namesInUse_mark (by simp) (namesInUse_mark (by simp) namesInUse_nil)
      exact ih.append hsuffix (by simp)
  | member _ ih => exact ih
  | alternative _ _ ihu ihp => exact ihu.append (namesInUse_mark (by simp) ihp) (by simp)

end Derivations

/-- A text that is read as a reference splits into tokens in one way.  The reference mentions the names
of types among them, the names with a dot, in the order of the text and as often as they are there; and
every other name is a primitive, or `Array` or `Map` before an angle bracket. -/
theorem mentioned_of_parse
    {text : String}
    {r : TypeRef}
    (h : parse text = .ok r) :
    ∃ ts : List Token,
      (∀ ts', Splits text.toList ts' [] ↔ ts' = ts) ∧
      r.mentioned = typeNames ts ∧
      NamesInUse ts := by
  obtain ⟨u, hsplits, refs, hrefs, rfl⟩ := parse_eq_ok_iff.1 h
  refine ⟨u.tokens, fun ts' => ⟨fun h' => h'.unique hsplits, fun he => he ▸ hsplits⟩, ?_,
    hrefs.namesInUse⟩
  rw [mentioned_ofMembers, hrefs.mentionedIn_eq]

/-- A map whose key is in parentheses, and a union of arrays that mentions a type twice. -/
theorem mentioned_of_parse_nested :
    parse "Map<(string), a.B | c.D[]> | (a.B)" =
        .ok (.union [.map (.union [.named "a.B", .array (.named "c.D")]), .named "a.B"]) ∧
      ∃ ts, Splits "Map<(string), a.B | c.D[]> | (a.B)".toList ts [] ∧
        typeNames ts = ["a.B", "c.D", "a.B"] := by
  have hparse : parse "Map<(string), a.B | c.D[]> | (a.B)" =
      .ok (.union [.map (.union [.named "a.B", .array (.named "c.D")]), .named "a.B"]) := by
    rfl
  obtain ⟨ts, hsplits, hmentioned, -⟩ := mentioned_of_parse hparse
  exact ⟨hparse, ts, (hsplits ts).2 rfl, hmentioned.symm.trans rfl⟩

end TypeRef
end TypeGraph
