import TypeGraph.Failure
import TypeGraph.Proofs.Result
import TypeGraph.Proofs.TypeRef.Machine
import TypeGraph.TypeRef.Compact

/-!
# What compact references denote

The second pass of the reader gives a derivation the references that the grammar says it denotes, so
the two passes together accept exactly the texts that split into a derivation with a meaning.

**Results.**
* `denoteAll_said_iff`: what is said by a derivation denotes what the derivation denotes.
* `parse_eq_ok_iff`: the reader accepts a text as a reference exactly when the grammar does.
* `parse_exact`: acceptance, the way in which a text is read, and the refusal of every other text.
-/

namespace TypeGraph
namespace TypeRef

section Denoting

variable {p : Phrase} {ps qs : List Phrase} {refs : List TypeRef} {r : TypeRef} {name head : String}

theorem denoteAll_eq_mapM :
    denoteAll ps = ps.mapM denote := by
  induction ps with
  | nil => rfl
  | cons p ps ih => rw [denoteAll, ih, List.mapM_cons]

/-- Phrases denote reference by reference. -/
theorem denoteAll_eq_ok_iff :
    denoteAll ps = .ok refs ↔ List.Forall₂ (fun p r => denote p = .ok r) ps refs := by
  rw [denoteAll_eq_mapM, mapM_eq_ok_iff]

theorem denoteAll_append_eq_ok_iff :
    denoteAll (ps ++ qs) = .ok refs ↔
      ∃ rs ss, denoteAll ps = .ok rs ∧ denoteAll qs = .ok ss ∧ refs = rs ++ ss := by
  simp only [denoteAll_eq_mapM, List.mapM_append, bind_eq_ok_iff, pure, Except.pure,
    Except.ok.injEq]
  constructor
  · rintro ⟨rs, hrs, ss, hss, rfl⟩
    exact ⟨rs, ss, hrs, hss, rfl⟩
  · rintro ⟨rs, ss, hrs, hss, rfl⟩
    exact ⟨rs, hrs, ss, hss, rfl⟩

theorem denoteAll_cons_eq_ok_iff :
    denoteAll (p :: ps) = .ok refs ↔
      ∃ r rs, denote p = .ok r ∧ denoteAll ps = .ok rs ∧ refs = r :: rs := by
  simp only [denoteAll_eq_ok_iff, List.forall₂_cons_left_iff]

theorem denoteAll_singleton_eq_ok_iff :
    denoteAll [p] = .ok refs ↔ ∃ r, denote p = .ok r ∧ refs = [r] := by
  simp [denoteAll_eq_ok_iff, List.forall₂_cons_left_iff]

theorem denote_array_eq_ok_iff :
    denote (.array p) = .ok r ↔ ∃ element, denote p = .ok element ∧ r = .array element := by
  rw [denote, bind_eq_ok_iff]
  simp only [pure, Except.pure, Except.ok.injEq]
  exact exists_congr fun _ => and_congr_right fun _ => eq_comm

theorem denote_union_eq_ok_iff :
    denote (.union ps) = .ok r ↔ ∃ refs, denoteAll ps = .ok refs ∧ r = .union refs := by
  rw [denote, bind_eq_ok_iff]
  simp only [pure, Except.pure, Except.ok.injEq]
  exact exists_congr fun _ => and_congr_right fun _ => eq_comm

theorem denote_generic_eq_ok_iff :
    denote (.generic head ps) = .ok r ↔
      ∃ args, denoteAll ps = .ok args ∧ ofGeneric head args = .ok r := by
  rw [denote, bind_eq_ok_iff]

/-- The phrase of some members denotes the reference with the members that they denote. -/
theorem denote_ofMembers_eq_ok_iff :
    denote (.ofMembers ps) = .ok r ↔ ∃ refs, denoteAll ps = .ok refs ∧ r = ofMembers refs := by
  match ps with
  | [p] => simp [denoteAll_singleton_eq_ok_iff, ofMembers]
  | [] =>
      refine denote_union_eq_ok_iff.trans (exists_congr fun refs => and_congr_right fun hrefs => ?_)
      cases denoteAll_eq_ok_iff.1 hrefs
      rfl
  | p :: q :: rest =>
      refine denote_union_eq_ok_iff.trans (exists_congr fun refs => and_congr_right fun hrefs => ?_)
      obtain _ | ⟨_, _ | ⟨_, _⟩⟩ := denoteAll_eq_ok_iff.1 hrefs
      rfl

/-- An argument denotes the reference with the members that it denotes. -/
theorem denoteAll_argument
    (h : denoteAll ps = .ok refs) :
    denoteAll [.ofMembers ps] = .ok [ofMembers refs] :=
  denoteAll_singleton_eq_ok_iff.2 ⟨_, denote_ofMembers_eq_ok_iff.2 ⟨refs, h, rfl⟩, rfl⟩

theorem denoteAll_generic
    {args : List TypeRef}
    (hargs : denoteAll ps = .ok args)
    (h : ofGeneric head args = .ok r) :
    denoteAll [.generic head ps] = .ok [r] :=
  denoteAll_singleton_eq_ok_iff.2 ⟨r, denote_generic_eq_ok_iff.2 ⟨args, hargs, h⟩, rfl⟩

theorem ofName_eq_ok_iff :
    ofName name = .ok r ↔ (∃ p : Primitive, p.name = name ∧ r = .primitive p) ∨
      ((∀ p : Primitive, p.name ≠ name) ∧ '.' ∈ name.toList ∧ r = .named name) := by
  unfold ofName
  cases hp : Primitive.ofName? name with
  | some p =>
      have hname := Primitive.ofName?_eq_some_iff.1 hp
      constructor
      · intro h
        cases h
        exact Or.inl ⟨p, hname, rfl⟩
      · rintro (⟨q, hq, rfl⟩ | ⟨hne, -⟩)
        · rw [Primitive.ofName?_eq_some_iff.2 hq] at hp
          cases hp
          rfl
        · exact absurd hname (hne p)
  | none =>
      have hne : ∀ p : Primitive, p.name ≠ name := by
        intro p hname
        rw [Primitive.ofName?_eq_some_iff.2 hname] at hp
        cases hp
      simp only [hne, false_and, exists_false, false_or, List.contains_iff_mem]
      split
      · rename_i hdot
        simpa [hne, hdot] using eq_comm
      · rename_i hdot
        simp [hdot]

/-- One argument makes an array or a map. -/
theorem ofGeneric_singleton_eq_ok_iff
    {element : TypeRef} :
    ofGeneric head [element] = .ok r ↔
      (head = "Array" ∧ r = .array element) ∨ (head = "Map" ∧ r = .map element) := by
  unfold ofGeneric
  by_cases ha : head = "Array"
  · subst ha
    simp [eq_comm]
  · by_cases hm : head = "Map"
    · subst hm
      simp [eq_comm]
    · simp [ha, hm]

/-- Two arguments make a map, when the first is the primitive of texts. -/
theorem ofGeneric_pair_eq_ok_iff
    {key element : TypeRef} :
    ofGeneric head [key, element] = .ok r ↔
      head = "Map" ∧ key = .primitive .string ∧ r = .map element := by
  unfold ofGeneric
  by_cases ha : head = "Array"
  · subst ha
    simp
  · by_cases hm : head = "Map"
    · subst hm
      simp only [ha, if_false, if_true, true_and]
      split
      · rename_i heq
        cases heq
      · rename_i heq
        cases heq
        simp [eq_comm]
      · rename_i hne
        have hkey : key ≠ .primitive .string := by
          rintro rfl
          exact hne _ rfl
        simp [hkey]
    · simp [ha, hm]

theorem ofMembers_eq_primitive_iff
    {p : Primitive} :
    ofMembers refs = .primitive p ↔ refs = [.primitive p] := by
  match refs with
  | [] => simp [ofMembers]
  | [r] => simp [ofMembers]
  | r :: s :: rest => simp [ofMembers]

end Denoting

section Derivations

variable {part : Part} {refs : List TypeRef} {r : TypeRef}

/-- The references that are read from what a derivation says are those of its members. -/
theorem Derivation.denotesMembers_of_said
    (d : Derivation part)
    (h : denoteAll d.said = .ok refs) :
    d.DenotesMembers refs := by
  induction d generalizing refs with
  | member p ih => exact .member (ih h)
  | alternative u p ihu ihp =>
      obtain ⟨rs, ss, hrs, hss, rfl⟩ := denoteAll_append_eq_ok_iff.1 h
      obtain ⟨phrase, hphrase⟩ := p.exists_said (by simp)
      obtain ⟨r, -, rfl⟩ := denoteAll_singleton_eq_ok_iff.1 (hphrase ▸ hss)
      exact .alternative (ihu hrs) (ihp hss)
  | plain a ih => exact .plain (ih h)
  | suffixed p ih =>
      obtain ⟨r, hr, rfl⟩ := denoteAll_singleton_eq_ok_iff.1 h
      obtain ⟨element, helement, rfl⟩ := denote_array_eq_ok_iff.1 hr
      obtain ⟨refs, hrefs, rfl⟩ := denote_ofMembers_eq_ok_iff.1 helement
      obtain ⟨phrase, hphrase⟩ := p.exists_said (by simp)
      obtain ⟨r, -, rfl⟩ := denoteAll_singleton_eq_ok_iff.1 (hphrase ▸ hrefs)
      exact .suffixed (ih hrefs)
  | generic head u ih =>
      obtain ⟨r, hr, rfl⟩ := denoteAll_singleton_eq_ok_iff.1 h
      obtain ⟨args, hargs, hgeneric⟩ := denote_generic_eq_ok_iff.1 hr
      obtain ⟨element, helement, rfl⟩ := denoteAll_singleton_eq_ok_iff.1 hargs
      obtain ⟨refs, hrefs, rfl⟩ := denote_ofMembers_eq_ok_iff.1 helement
      rcases ofGeneric_singleton_eq_ok_iff.1 hgeneric with ⟨rfl, rfl⟩ | ⟨rfl, rfl⟩
      · exact .array (ih hrefs)
      · exact .map (ih hrefs)
  | genericPair head u v ihu ihv =>
      obtain ⟨r, hr, rfl⟩ := denoteAll_singleton_eq_ok_iff.1 h
      obtain ⟨args, hargs, hgeneric⟩ := denote_generic_eq_ok_iff.1 hr
      obtain ⟨key, elements, hkey, helements, rfl⟩ := denoteAll_cons_eq_ok_iff.1 hargs
      obtain ⟨element, helement, rfl⟩ := denoteAll_singleton_eq_ok_iff.1 helements
      obtain ⟨rfl, rfl, rfl⟩ := ofGeneric_pair_eq_ok_iff.1 hgeneric
      obtain ⟨refs, hrefs, rfl⟩ := denote_ofMembers_eq_ok_iff.1 helement
      obtain ⟨krefs, hkrefs, hk⟩ := denote_ofMembers_eq_ok_iff.1 hkey
      rw [ofMembers_eq_primitive_iff.1 hk.symm] at hkrefs
      exact .mapPair (ihu hkrefs) (ihv hrefs)
  | named name =>
      obtain ⟨r, hr, rfl⟩ := denoteAll_singleton_eq_ok_iff.1 h
      rw [denote, ofName_eq_ok_iff] at hr
      rcases hr with ⟨p, rfl, rfl⟩ | ⟨hne, hdot, rfl⟩
      · exact .primitive p
      · exact .named hne hdot
  | group u ih =>
      obtain ⟨r, hr, rfl⟩ := denoteAll_singleton_eq_ok_iff.1 h
      obtain ⟨refs, hrefs, rfl⟩ := denote_ofMembers_eq_ok_iff.1 hr
      exact .group (ih hrefs)

/-- The references of the members of a derivation are read from what it says. -/
theorem Derivation.DenotesMembers.denoteAll_said
    {d : Derivation part}
    (h : d.DenotesMembers refs) :
    denoteAll d.said = .ok refs := by
  induction h with
  | primitive p =>
      exact denoteAll_singleton_eq_ok_iff.2
        ⟨_, by rw [denote, ofName_eq_ok_iff]; exact Or.inl ⟨p, rfl, rfl⟩, rfl⟩
  | named hne hdot =>
      exact denoteAll_singleton_eq_ok_iff.2
        ⟨_, by rw [denote, ofName_eq_ok_iff]; exact Or.inr ⟨hne, hdot, rfl⟩, rfl⟩
  | group _ ih => exact denoteAll_argument ih
  | array _ ih =>
      exact denoteAll_generic (denoteAll_argument ih)
        (ofGeneric_singleton_eq_ok_iff.2 (Or.inl ⟨rfl, rfl⟩))
  | map _ ih =>
      exact denoteAll_generic (denoteAll_argument ih)
        (ofGeneric_singleton_eq_ok_iff.2 (Or.inr ⟨rfl, rfl⟩))
  | mapPair _ _ ihk ihu =>
      have hkey := denote_ofMembers_eq_ok_iff.2 ⟨_, ihk, rfl⟩
      have hargs := denoteAll_cons_eq_ok_iff.2 ⟨_, _, hkey, denoteAll_argument ihu, rfl⟩
      exact denoteAll_generic hargs (ofGeneric_pair_eq_ok_iff.2 ⟨rfl, rfl, rfl⟩)
  | plain _ ih => exact ih
  | suffixed _ ih =>
      have helement := denote_ofMembers_eq_ok_iff.2 ⟨_, ih, rfl⟩
      exact denoteAll_singleton_eq_ok_iff.2
        ⟨_, denote_array_eq_ok_iff.2 ⟨_, helement, rfl⟩, rfl⟩
  | member _ ih => exact ih
  | alternative _ _ ihu ihp => exact denoteAll_append_eq_ok_iff.2 ⟨_, _, ihu, ihp, rfl⟩

/-- What is said by a derivation denotes what the derivation denotes. -/
theorem denoteAll_said_iff
    (d : Derivation part) :
    denoteAll d.said = .ok refs ↔ d.DenotesMembers refs :=
  ⟨d.denotesMembers_of_said, Derivation.DenotesMembers.denoteAll_said⟩

/-- The phrase of a derivation denotes what the derivation denotes. -/
theorem denote_ofMembers_said_iff
    (d : Derivation part) :
    denote (.ofMembers d.said) = .ok r ↔ d.Denotes r := by
  rw [denote_ofMembers_eq_ok_iff]
  simp only [denoteAll_said_iff, Derivation.Denotes]

/-- A derivation denotes one reference at most. -/
theorem Derivation.Denotes.unique
    {d : Derivation part}
    {r' : TypeRef}
    (h : d.Denotes r)
    (h' : d.Denotes r') :
    r = r' := by
  rw [← denote_ofMembers_said_iff] at h h'
  rw [h] at h'
  exact Except.ok.inj h'

end Derivations

section Parsing

variable {text : String} {r : TypeRef}

/-- A text is read in one way. -/
theorem Splits.derivation_unique
    {u u' : Derivation .union}
    (h : Splits text.toList u.tokens [])
    (h' : Splits text.toList u'.tokens []) :
    u = u' :=
  Derivation.tokens_injective (h.unique h')

theorem parse_eq_ok_iff_denote :
    parse text = .ok r ↔ ∃ p, phrase text = .ok p ∧ denote p = .ok r := by
  unfold parse
  cases hp : phrase text with
  | error place => simp
  | ok p => cases hr : denote p <;> simp [hr]

/-- The reader accepts a text as a reference exactly when the grammar does. -/
theorem parse_eq_ok_iff :
    parse text = .ok r ↔
      ∃ u : Derivation .union, Splits text.toList u.tokens [] ∧ u.Denotes r := by
  simp only [parse_eq_ok_iff_denote, phrase_eq_ok_iff]
  constructor
  · rintro ⟨_, ⟨u, hsplits, rfl⟩, hr⟩
    exact ⟨u, hsplits, (denote_ofMembers_said_iff u).1 hr⟩
  · rintro ⟨u, hsplits, hr⟩
    exact ⟨_, ⟨u, hsplits, rfl⟩, (denote_ofMembers_said_iff u).2 hr⟩

/-- A text that does not split into a derivation has a place where it goes wrong. -/
theorem parse_eq_misplaced_iff :
    (∃ place, parse text = .error (.misplaced text place)) ↔
      ¬ ∃ u : Derivation .union, Splits text.toList u.tokens [] := by
  have hphrase : (∃ u : Derivation .union, Splits text.toList u.tokens []) ↔
      ∃ p, phrase text = .ok p := by
    simp only [phrase_eq_ok_iff]
    exact ⟨fun ⟨u, hu⟩ => ⟨_, u, hu, rfl⟩, fun ⟨_, u, hu, _⟩ => ⟨u, hu⟩⟩
  rw [hphrase, parse]
  cases hp : phrase text with
  | error place => simp
  | ok p => cases hr : denote p <;> simp [hr]

/-- A text that splits into a derivation without a meaning has a fault of meaning. -/
theorem parse_eq_meaningless_iff :
    (∃ fault, parse text = .error (.meaningless text fault)) ↔
      ∃ u : Derivation .union, Splits text.toList u.tokens [] ∧ ¬ ∃ r, u.Denotes r := by
  have hmeaning : (∃ fault, parse text = .error (.meaningless text fault)) ↔
      ∃ p, phrase text = .ok p ∧ ¬ ∃ r, denote p = .ok r := by
    rw [parse]
    cases hp : phrase text with
    | error place => simp
    | ok p => cases hr : denote p <;> simp [hr]
  simp only [hmeaning, phrase_eq_ok_iff]
  constructor
  · rintro ⟨_, ⟨u, hsplits, rfl⟩, hnone⟩
    exact ⟨u, hsplits, fun ⟨r, hr⟩ => hnone ⟨r, (denote_ofMembers_said_iff u).2 hr⟩⟩
  · rintro ⟨u, hsplits, hnone⟩
    exact ⟨_, ⟨u, hsplits, rfl⟩, fun ⟨r, hr⟩ => hnone ⟨r, (denote_ofMembers_said_iff u).1 hr⟩⟩

/-- The reader accepts exactly the compact references.  A text splits into the tokens of one derivation
at most, and a derivation denotes one reference at most.  The text is read as `r` exactly when it splits
into a derivation that denotes `r`; it is refused as misplaced exactly when it splits into none, as
meaningless exactly when its derivation denotes nothing, and either way as malformed. -/
theorem parse_exact
    (text : String) :
    (∀ u u' : Derivation .union,
        Splits text.toList u.tokens [] → Splits text.toList u'.tokens [] → u = u') ∧
      (∀ (u : Derivation .union) (r r' : TypeRef), u.Denotes r → u.Denotes r' → r = r') ∧
      (∀ r, parse text = .ok r ↔
        ∃ u : Derivation .union, Splits text.toList u.tokens [] ∧ u.Denotes r) ∧
      ((¬ ∃ u : Derivation .union, Splits text.toList u.tokens []) ↔
        ∃ place, parse text = .error (.misplaced text place)) ∧
      ((∃ u : Derivation .union, Splits text.toList u.tokens [] ∧ ¬ ∃ r, u.Denotes r) ↔
        ∃ fault, parse text = .error (.meaningless text fault)) ∧
      ((¬ ∃ (r : TypeRef) (u : Derivation .union),
          Splits text.toList u.tokens [] ∧ u.Denotes r) →
        ∃ fault, parse text = .error fault ∧ fault.report.failureClass = .malformed) := by
  refine ⟨fun u u' => Splits.derivation_unique, fun u r r' => Derivation.Denotes.unique,
    fun r => parse_eq_ok_iff, parse_eq_misplaced_iff.symm, parse_eq_meaningless_iff.symm, ?_⟩
  intro hnone
  cases hr : parse text with
  | ok r =>
      obtain ⟨u, hu⟩ := parse_eq_ok_iff.1 hr
      exact absurd ⟨r, u, hu⟩ hnone
  | error fault => exact ⟨fault, rfl, rfl⟩

end Parsing

end TypeRef
end TypeGraph
