import TypeGraph.Proofs.Manifest.Documents
import TypeGraph.Proofs.TypeRef.Structured

/-!
# The places of a manifest

A manifest document has places of a few sorts, and each sort has a reader.  At a record the reader asks
for the fields that it knows, its slots, and what stands in a slot is a place again.  Two values are
alike at a place when the second is accepted wherever the first is, with the same reading.

**Results.**
* `Place.alike_refl`: every value is like itself.
* `Place.Alike.listsAll`: lists whose items are alike are read alike.
-/

namespace TypeGraph

open Json (Holds Lists ListsAll)

/-- The sorts of places in a manifest document.  A `scalar` is taken as it stands, `version` is the
value of a dependency, `element` is a reference inside another one, `collection` and `choice` are the
objects that spell collections and unions. -/
inductive Place where
  | scalar
  | manifest
  | dependencies
  | version
  | types
  | entry
  | docs
  | enumMember
  | method
  | returns
  | parameter
  | property
  | interface
  | base
  | initializer
  | reference
  | element
  | collection
  | choice
  | list (item : Place)

/-- A field that the reader of a record knows, with the place that its value is.  Of some fields it is
told whether they are there; the others read as null where they are not. -/
structure Slot where
  name : String
  place : Place
  told : Bool

/-- A field that reads as null where it is absent. -/
def Slot.plain (name : String) (place : Place) : Slot :=
  ⟨name, place, false⟩

/-- A field whose absence is told from null. -/
def Slot.telling (name : String) (place : Place) : Slot :=
  ⟨name, place, true⟩

namespace Place

/-- The slots of a structured reference that tell its form and its parts. -/
def elementSlots : List Slot :=
  [.telling "primitive" .scalar, .telling "fqn" .scalar, .telling "collection" .collection,
    .telling "union" .choice]

/-- The slots of a structured reference with the older mark for optional values. -/
def referenceSlots : List Slot :=
  .plain "optional" .scalar :: elementSlots

/-- The slots of a type entry apart from its full name. -/
def entrySlots : List Slot :=
  [.plain "kind" .scalar, .plain "name" .scalar, .plain "namespace" .scalar, .plain "docs" .docs,
    .plain "members" (.list .enumMember), .plain "methods" (.list .method),
    .plain "properties" (.list .property), .plain "interfaces" (.list .interface),
    .plain "base" .base, .plain "initializer" .initializer, .plain "abstract" .scalar]

/-- The slots of a manifest. -/
def manifestSlots : List Slot :=
  [.plain "name" .scalar, .plain "version" .scalar, .plain "dependencies" .dependencies,
    .plain "types" .types, .plain "description" .scalar, .plain "homepage" .scalar,
    .plain "license" .scalar, .plain "schema" .scalar]

/-- The slots of the object of a dependency. -/
def versionSlots : List Slot :=
  [.plain "version" .scalar]

/-- The slots of documentation. -/
def docsSlots : List Slot :=
  [.plain "summary" .scalar, .plain "remarks" .scalar, .plain "deprecated" .scalar,
    .plain "stability" .scalar]

/-- The slots of a member of an enum. -/
def enumMemberSlots : List Slot :=
  [.plain "name" .scalar, .plain "docs" .docs]

/-- The slots of a method. -/
def methodSlots : List Slot :=
  [.plain "name" .scalar, .plain "returns" .returns, .plain "parameters" (.list .parameter),
    .plain "static" .scalar, .plain "abstract" .scalar, .plain "async" .scalar,
    .plain "protected" .scalar, .plain "docs" .docs]

/-- The slots of what a method returns: a wrapper where the field `type` is there, and a reference
otherwise. -/
def returnsSlots (fields : Json.Fields) : List Slot :=
  if fields.has "type" then [.telling "type" .reference, .plain "optional" .scalar]
  else .telling "type" .scalar :: referenceSlots

/-- The slots of a parameter. -/
def parameterSlots : List Slot :=
  [.plain "name" .scalar, .telling "type" .reference, .plain "optional" .scalar,
    .plain "variadic" .scalar]

/-- The slots of a property. -/
def propertySlots : List Slot :=
  [.plain "name" .scalar, .telling "type" .reference, .plain "optional" .scalar,
    .plain "immutable" .scalar, .plain "static" .scalar, .plain "abstract" .scalar,
    .plain "protected" .scalar, .plain "docs" .docs]

/-- The slots of an initializer. -/
def initializerSlots : List Slot :=
  [.plain "parameters" (.list .parameter), .plain "protected" .scalar, .plain "docs" .docs]

/-- The slots of the object that spells a collection. -/
def collectionSlots : List Slot :=
  [.plain "kind" .scalar, .telling "elementtype" .element]

/-- The slots of the object that spells a union. -/
def choiceSlots : List Slot :=
  [.plain "types" (.list .element)]

/-- The slots of the records at a place. -/
def slots : Place → Json.Fields → List Slot
  | .manifest, _ => manifestSlots
  | .version, _ => versionSlots
  | .entry, _ => .plain "fqn" .scalar :: entrySlots
  | .docs, _ => docsSlots
  | .enumMember, _ => enumMemberSlots
  | .method, _ => methodSlots
  | .returns, fields => returnsSlots fields
  | .parameter, _ => parameterSlots
  | .property, _ => propertySlots
  | .interface, _ => [.plain "fqn" .scalar]
  | .base, _ => [.telling "fqn" .scalar]
  | .initializer, _ => initializerSlots
  | .reference, _ => referenceSlots
  | .element, _ => elementSlots
  | .collection, _ => collectionSlots
  | .choice, _ => choiceSlots
  | _, _ => []

/-- An object at this place is a record; elsewhere it maps names to values or is not accepted. -/
def isRecord : Place → Bool
  | .scalar | .dependencies | .types | .list _ => false
  | _ => true

end Place

/-- What is read from one value is read from another. -/
def Json.Keeps {α : Type} (read : Json → α → Prop) (v w : Json) : Prop :=
  ∀ x, read v x → read w x

/-- Two values are alike at a place: the second is accepted wherever the first is, with the same
reading. -/
def Place.Alike : Place → Json → Json → Prop
  | .scalar, v, w => w = v
  | .manifest, v, w => Json.Keeps (Holds Manifest.ReadFrom) v w
  | .dependencies, v, w => Json.Keeps Dependency.ListRead v w
  | .version, v, w => Json.Keeps Dependency.VersionRead v w
  | .types, v, w => ∀ assembly, Json.Keeps (Manifest.TypesRead assembly) v w
  | .entry, v, w => Json.Keeps (Holds fun fields (x : Json × TypeDef) =>
      fields.get "fqn" = x.1 ∧ TypeDef.ReadFrom fields x.2) v w
  | .docs, v, w => Json.Keeps Docs.Read v w
  | .enumMember, v, w => Json.Keeps EnumMember.Read v w
  | .method, v, w => Json.Keeps (Holds Method.ReadFrom) v w
  | .returns, v, w => Json.Keeps (fun value (x : Option TypeRef × Bool) =>
      Method.Returns value x.1 x.2) v w
  | .parameter, v, w => Json.Keeps (Holds Parameter.ReadFrom) v w
  | .property, v, w => Json.Keeps (Holds Property.ReadFrom) v w
  | .interface, v, w => Json.Keeps (fun item fqn => TypeDef.entryFqn? item = some fqn) v w
  | .base, v, w => Json.Keeps TypeDef.BaseRead v w
  | .initializer, v, w => Json.Keeps Initializer.Read v w
  | .reference, v, w => Json.Keeps (fun value (x : TypeRef × Bool) =>
      TypeRef.decode value = .ok x.1 ∧ value.marksOptional = x.2) v w
  | .element, v, w => Json.Keeps (fun value r => TypeRef.decode value = .ok r) v w
  | .collection, v, w => Json.Keeps (Holds TypeRef.CollectionRead) v w
  | .choice, v, w => Json.Keeps (Holds TypeRef.ChoiceRead) v w
  | .list item, v, w => ∀ items, Lists v items →
      ∃ items', Lists w items' ∧ List.Forall₂ item.Alike items items'

/-- The values of two records in a slot are alike, and the slot is told to be in both or in neither. -/
def Slot.Agrees (slot : Slot) (fields fields' : Json.Fields) : Prop :=
  slot.place.Alike (fields.get slot.name) (fields'.get slot.name) ∧
    (slot.told = true → fields'.has slot.name = fields.has slot.name)

namespace Place

/-- Two records agree on slots. -/
def AgreeOn (slots : List Slot) (fields fields' : Json.Fields) : Prop :=
  ∀ slot ∈ slots, slot.Agrees fields fields'

section Agreement

variable {fields fields' : Json.Fields} {name : String} {place : Place}

@[simp] theorem alike_scalar_iff
    {v w : Json} :
    Alike .scalar v w ↔ w = v :=
  Iff.rfl

@[simp] theorem agrees_plain_iff :
    (Slot.plain name place).Agrees fields fields' ↔
      place.Alike (fields.get name) (fields'.get name) := by
  simp [Slot.plain, Slot.Agrees]

@[simp] theorem agrees_telling_iff :
    (Slot.telling name place).Agrees fields fields' ↔
      place.Alike (fields.get name) (fields'.get name) ∧ fields'.has name = fields.has name := by
  simp [Slot.telling, Slot.Agrees]

@[simp] theorem agreeOn_nil :
    AgreeOn [] fields fields' := by
  simp [AgreeOn]

@[simp] theorem agreeOn_cons_iff
    {slot : Slot}
    {slots : List Slot} :
    AgreeOn (slot :: slots) fields fields' ↔
      slot.Agrees fields fields' ∧ AgreeOn slots fields fields' :=
  List.forall_mem_cons

/-- Every value is like itself. -/
theorem alike_refl
    (p : Place)
    (v : Json) :
    p.Alike v v := by
  induction p generalizing v with
  | scalar => rfl
  | types => exact fun _ _ h => h
  | list item ih => exact fun items h => ⟨items, h, List.forall₂_same.2 fun a _ => ih a⟩
  | _ => exact fun _ h => h

/-- What is read item by item from a list is read from one with items that are alike. -/
theorem Alike.listsAll
    {α : Type}
    {item : Place}
    {read : Json → α → Prop}
    {v w : Json}
    {xs : List α}
    (h : Alike (.list item) v w)
    (hitem : ∀ a b, item.Alike a b → Json.Keeps read a b)
    (hv : ListsAll read v xs) :
    ListsAll read w xs := by
  obtain ⟨items, hitems, hxs⟩ := hv
  obtain ⟨items', hitems', halike⟩ := h items hitems
  refine ⟨items', hitems', ?_⟩
  refine (forall₂_comp_iff.1 ⟨items, halike.flip, hxs⟩).imp fun b x => ?_
  rintro ⟨a, hab, hax⟩
  exact hitem a b hab x hax

end Agreement

end Place

end TypeGraph
