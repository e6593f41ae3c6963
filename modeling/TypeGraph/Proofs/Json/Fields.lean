import Mathlib.Data.List.Nodup
import TypeGraph.Json.Basic
import TypeGraph.Proofs.Result

/-!
# What the fields of an object hold

A field is found by its name.  Where no two fields share one, the order of the fields does not matter.
What a reader reads is a relation between a value and a result, and the readers of objects and lists
are put together from those of their fields and items.

**Results.**
* `Fields.lookup_eq_some_iff_mem`: what is found is what is there.
* `Fields.lookup_perm`: fields in another order are found alike.
-/

namespace TypeGraph
namespace Json

/-- A value that names something is a text that is not empty. -/
theorem name?_eq_some_iff
    {value : Json}
    {name : String} :
    value.name? = some name ↔ value = .string name ∧ name ≠ "" := by
  cases value with
  | string text =>
      simp only [name?, Option.ite_none_left_eq_some, String.isEmpty_iff, Option.some.injEq,
        string.injEq]
      constructor
      · rintro ⟨hne, rfl⟩
        exact ⟨rfl, hne⟩
      · rintro ⟨rfl, hne⟩
        exact ⟨hne, rfl⟩
  | _ => simp [name?]

namespace Fields

/-- No two fields share a name. -/
def Distinct (fields : Fields) : Prop :=
  (fields.map Prod.fst).Nodup

variable {fields fields' : Fields} {name : String} {value : Json}

theorem has_eq_false_iff :
    fields.has name = false ↔ fields.lookup name = none := by
  simp [has]

theorem has_of_lookup
    (h : fields.lookup name = some value) :
    fields.has name = true := by
  rw [has, h, Option.isSome_some]

theorem get_of_lookup
    (h : fields.lookup name = some value) :
    fields.get name = value := by
  rw [get, h, Option.getD_some]

theorem lookup_of_has
    (h : fields.has name = true) :
    fields.lookup name = some (fields.get name) := by
  obtain ⟨value, hvalue⟩ := Option.isSome_iff_exists.1 h
  rw [get_of_lookup hvalue, hvalue]

/-- A field that does not read as null is there. -/
theorem lookup_of_get
    (h : fields.get name = value)
    (hne : value ≠ .null) :
    fields.lookup name = some value := by
  cases hl : fields.lookup name with
  | none =>
      rw [get, hl, Option.getD_none] at h
      exact absurd h.symm hne
  | some held => rw [← h, get_of_lookup hl]

/-- Among fields that differ in name, what is found is what is there. -/
theorem lookup_eq_some_iff_mem
    (hn : fields.Distinct) :
    fields.lookup name = some value ↔ (name, value) ∈ fields := by
  rw [List.lookup_eq_some_iff]
  constructor
  · rintro ⟨before, after, rfl, -⟩
    simp
  · intro hmem
    obtain ⟨before, after, rfl⟩ := List.append_of_mem hmem
    refine ⟨before, after, rfl, fun field hfield => ?_⟩
    have hne : field.1 ≠ name := by
      rintro rfl
      simp only [Distinct, List.map_append, List.map_cons] at hn
      exact List.disjoint_of_nodup_append hn (List.mem_map_of_mem hfield) (by simp)
    simpa using hne.symm

/-- Fields that differ in name are found alike in every order. -/
theorem lookup_perm
    (hn : fields.Distinct)
    (hp : fields.Perm fields')
    (name : String) :
    fields'.lookup name = fields.lookup name := by
  have hn' : fields'.Distinct := (hp.map Prod.fst).nodup_iff.1 hn
  refine Option.ext fun value => ?_
  rw [lookup_eq_some_iff_mem hn, lookup_eq_some_iff_mem hn', hp.mem_iff]

theorem distinct_put
    (hn : fields.Distinct)
    (name : String)
    (value : Json) :
    (fields.put name value).Distinct := by
  rw [Distinct, names_put]
  split
  · exact hn
  · rename_i hmem
    exact List.nodup_append.2 ⟨hn, by simp, by
      rintro known hknown _ hname rfl
      exact hmem (List.mem_singleton.1 hname ▸ hknown)⟩

end Fields

section Readings

variable {α : Type}

/-- A value is an object, and `x` is read from its fields. -/
def Holds (read : Fields → α → Prop) (value : Json) (x : α) : Prop :=
  ∃ fields, value = .object fields ∧ read fields x

@[simp] theorem holds_object
    {read : Fields → α → Prop}
    {fields : Fields}
    {x : α} :
    Holds read (.object fields) x ↔ read fields x := by
  simp [Holds]

/-- What is read from a value that is an object may be weakened. -/
theorem Holds.imp
    {read read' : Fields → α → Prop}
    {value : Json}
    {x : α}
    (h : Holds read value x)
    (himp : ∀ fields, read fields x → read' fields x) :
    Holds read' value x := by
  obtain ⟨fields, rfl, hread⟩ := h
  exact ⟨fields, rfl, himp fields hread⟩

/-- The items of a list; an absent list has none. -/
inductive Lists : Json → List Json → Prop
  | absent :
      Lists .null []
  | given
      (items : List Json) :
      Lists (.array items) items

/-- A list with items is there. -/
theorem lists_eq_array
    {value : Json}
    {items : List Json}
    (h : Lists value items)
    (hne : items ≠ []) :
    value = .array items := by
  cases h with
  | absent => exact absurd rfl hne
  | given items => rfl

/-- Each item of a list is read, and their readings are `xs`. -/
def ListsAll (read : Json → α → Prop) (value : Json) (xs : List α) : Prop :=
  ∃ items, Lists value items ∧ List.Forall₂ read items xs

/-- What is read from each item of a list may be weakened. -/
theorem ListsAll.imp
    {read read' : Json → α → Prop}
    {value : Json}
    {xs : List α}
    (h : ListsAll read value xs)
    (himp : ∀ item x, read item x → read' item x) :
    ListsAll read' value xs := by
  obtain ⟨items, hlist, hitems⟩ := h
  exact ⟨items, hlist, hitems.imp himp⟩

/-- What is read from a list is read from its items. -/
theorem ListsAll.exists_read
    {read : Json → α → Prop}
    {value : Json}
    {xs : List α}
    (h : ListsAll read value xs)
    {x : α}
    (hx : x ∈ xs) :
    ∃ item, read item x := by
  obtain ⟨items, -, hitems⟩ := h
  obtain ⟨item, -, hread⟩ := exists_of_mem_forall₂ hitems hx
  exact ⟨item, hread⟩

end Readings

end Json
end TypeGraph
