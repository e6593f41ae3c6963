import TypeGraph.Proofs.Manifest.Documents
import TypeGraph.Proofs.Manifest.Relation
import TypeGraph.Resolver.Basic

/-!
# Decoded manifests

Every type of a manifest that was read from a source was read from an entry for the assembly of that
manifest.  So it names this assembly, and its full name starts with the name of the assembly and a dot.

**Results.**
* `Manifest.fromEntries_of_decode`: the types of a decoded manifest are read from entries.
* `Manifest.owns_of_decode`, `Manifest.scoped_of_decode`: what this tells of their names.
* `Resolver.owns_of_settle`: so it is with a manifest that a resolver has found.
-/

namespace TypeGraph

namespace TypeDef

variable {assembly fqn : String} {entry : Json} {t : TypeDef}

/-- An entry is decoded as a type of the assembly it is read for. -/
theorem assembly_of_decode
    (h : decode assembly fqn entry = .ok t) :
    t.assembly = assembly :=
  (decode_eq_ok_iff.1 h).1

/-- The full name of a type that is read from an entry starts with the name of its assembly and a
dot. -/
theorem ReadFrom.exists_rest
    {fields : Json.Fields}
    (h : ReadFrom fields t) :
    ∃ rest, t.fqn = t.assembly ++ "." ++ rest := by
  obtain ⟨localPart, hfqn, -⟩ := decodeNames_eq_ok h.names
  exact ⟨String.ofList localPart, String.toList_inj.1 (by simp [hfqn])⟩

/-- It is decoded under its full name, which starts with the name of the assembly and a dot. -/
theorem fqn_of_decode
    (h : decode assembly fqn entry = .ok t) :
    t.fqn = fqn ∧ ∃ rest, fqn = assembly ++ "." ++ rest := by
  obtain ⟨rfl, rfl, fields, -, hread⟩ := decode_eq_ok_iff.1 h
  exact ⟨rfl, hread.exists_rest⟩

end TypeDef

namespace Manifest

/-- Each type of a manifest is read from an entry for its assembly. -/
def FromEntries (m : Manifest) : Prop :=
  ∀ t ∈ m.types, ∃ fqn entry, TypeDef.decode m.name fqn entry = .ok t

/-- The full name of each type starts with the name of the assembly and a dot. -/
def Scoped (m : Manifest) : Prop :=
  ∀ t ∈ m.types, ∃ rest, t.fqn = m.name ++ "." ++ rest

variable {m : Manifest}

theorem FromEntries.owns
    (h : m.FromEntries) :
    m.Owns := by
  intro t ht
  obtain ⟨fqn, entry, hentry⟩ := h t ht
  exact TypeDef.assembly_of_decode hentry

theorem FromEntries.scoped
    (h : m.FromEntries) :
    m.Scoped := by
  intro t ht
  obtain ⟨fqn, entry, hentry⟩ := h t ht
  obtain ⟨rfl, hrest⟩ := TypeDef.fqn_of_decode hentry
  exact hrest

/-- Each type that is read is read from the fields of an entry for the assembly. -/
theorem TypesRead.readFrom
    {assembly : String}
    {value : Json}
    {ts : List TypeDef}
    (h : TypesRead assembly value ts) :
    ∀ t ∈ ts, t.assembly = assembly ∧ ∃ fields, TypeDef.ReadFrom fields t := by
  intro t ht
  cases h with
  | absent => simp at ht
  | object hfields =>
      obtain ⟨field, -, fields, -, hread⟩ := exists_of_mem_forall₂ hfields ht
      exact ⟨hread.assembly, fields, hread.entry⟩
  | list hitems =>
      obtain ⟨item, -, fields, -, hread⟩ := exists_of_mem_forall₂ hitems ht
      exact ⟨hread.assembly, fields, hread.entry⟩

theorem ReadFrom.fromEntries
    {fields : Json.Fields}
    (h : ReadFrom fields m) :
    m.FromEntries := by
  intro t ht
  obtain ⟨hassembly, entry, hread⟩ := h.types.readFrom t ht
  exact ⟨t.fqn, .object entry, TypeDef.decode_object_eq_ok_iff.2 ⟨hassembly, rfl, hread⟩⟩

/-- Each type of a decoded manifest is read from an entry for its assembly. -/
theorem fromEntries_of_decode
    {source : Source}
    (h : decode source = .ok m) :
    m.FromEntries := by
  obtain ⟨_, -, fields, -, hread⟩ := decode_eq_ok_iff.1 h
  exact hread.fromEntries

/-- The types of a decoded manifest name its assembly. -/
theorem owns_of_decode
    {source : Source}
    (h : decode source = .ok m) :
    m.Owns :=
  (fromEntries_of_decode h).owns

/-- Their full names start with the name of the assembly and a dot. -/
theorem scoped_of_decode
    {source : Source}
    (h : decode source = .ok m) :
    m.Scoped :=
  (fromEntries_of_decode h).scoped

end Manifest

/-- The types of a manifest that a resolver finds name its assembly. -/
theorem Resolver.owns_of_settle
    {r : Resolver}
    {limit : Option Number}
    {identifier : String}
    {m : Manifest}
    (h : r.settle limit identifier = .ok m) :
    m.Owns := by
  obtain ⟨source, -, hd⟩ := Resolver.answer_of_settle h
  exact Manifest.owns_of_decode hd

end TypeGraph
