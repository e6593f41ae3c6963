import Mathlib.Logic.Relation
import TypeGraph.Proofs.Manifest.Records

/-!
# Rewriting inside a manifest

A rule says how a value at a place of a given sort may be spelled in another way.  It may be applied
anywhere inside a document where a value of that sort stands.  When a rule leads only to values that
are alike, so does every application of it, since records, objects and lists with parts that are alike
are alike; and no number of applications changes what is read from the document.

**Results.**
* `Within.alike`: a rule that leads to values that are alike may be applied inside a document.
* `Manifest.decode_of_within`: no number of applications changes the manifest.
-/

namespace TypeGraph

open Json (Holds Lists)

namespace Place

/-- The sort of the values of an object that maps names to values. -/
def values? : Place → Option Place
  | .types => some .entry
  | .dependencies => some .version
  | _ => none

/-- The sort of the items of a list. -/
def items? : Place → Option Place
  | .types => some .entry
  | .list item => some item
  | _ => none

end Place

/-- A rule is applied at one place inside a value: at the value itself, or inside what a slot of a
record holds, inside a value of an object or inside an item of a list. -/
inductive Within (rule : Place → Json → Json → Prop) : Place → Json → Json → Prop
  | here
      {p : Place}
      {v w : Json}
      (h : rule p v w) :
      Within rule p v w
  | field
      {p : Place}
      {fields : Json.Fields}
      {slot : Slot}
      {v w : Json}
      (hslot : slot ∈ p.slots fields)
      (hv : fields.lookup slot.name = some v)
      (h : Within rule slot.place v w) :
      Within rule p (.object fields) (.object (fields.put slot.name w))
  | value
      {p q : Place}
      {before after : Json.Fields}
      {key : String}
      {v w : Json}
      (hq : p.values? = some q)
      (h : Within rule q v w) :
      Within rule p (.object (before ++ (key, v) :: after)) (.object (before ++ (key, w) :: after))
  | item
      {p q : Place}
      {before after : List Json}
      {v w : Json}
      (hq : p.items? = some q)
      (h : Within rule q v w) :
      Within rule p (.array (before ++ v :: after)) (.array (before ++ w :: after))

section Slots

variable {fields fields' : Json.Fields} {slot : Slot} {slots : List Slot} {name : String}

/-- Records agree on a slot where the same is found in both. -/
theorem Slot.agrees_of_lookup
    (h : fields'.lookup slot.name = fields.lookup slot.name) :
    slot.Agrees fields fields' := by
  have hget : fields'.get slot.name = fields.get slot.name := by rw [Json.Fields.get, h]; rfl
  refine ⟨hget ▸ Place.alike_refl _ _, fun _ => ?_⟩
  rw [Json.Fields.has, h]
  rfl

/-- Writing a field does not matter to the slots of other names. -/
theorem Slot.agrees_put_of_ne
    (h : slot.name ≠ name)
    (value : Json) :
    slot.Agrees fields (fields.put name value) :=
  agrees_of_lookup (Json.Fields.lookup_put_of_ne fields value h)

/-- Writing a value into a slot that holds one that it is like. -/
theorem Place.agreeOn_put
    {v w : Json}
    (hdistinct : (slots.map Slot.name).Nodup)
    (hslot : slot ∈ slots)
    (hv : fields.lookup slot.name = some v)
    (h : slot.place.Alike v w) :
    Place.AgreeOn slots fields (fields.put slot.name w) := by
  intro other hother
  by_cases hname : other.name = slot.name
  · obtain rfl := List.inj_on_of_nodup_map hdistinct hother hslot hname
    refine ⟨?_, fun _ => ?_⟩
    · rw [Json.Fields.get_put_self, Json.Fields.get_of_lookup hv]
      exact h
    · rw [Json.Fields.has_of_lookup hv, Json.Fields.has_of_lookup (Json.Fields.lookup_put_self ..)]
  · exact Slot.agrees_put_of_ne hname w

/-- The slots of a place differ in name. -/
theorem Place.slots_distinct
    (p : Place)
    (fields : Json.Fields) :
    ((p.slots fields).map Slot.name).Nodup := by
  cases p with
  | returns =>
      simp only [Place.slots, Place.returnsSlots]
      split <;> simp [Place.referenceSlots, Place.elementSlots, Slot.plain, Slot.telling]
  | scalar | dependencies | types | list _ => exact List.nodup_nil
  | _ =>
      simp only [Place.slots]
      decide

/-- Only records have slots. -/
theorem Place.isRecord_of_mem_slots
    {p : Place}
    (h : slot ∈ p.slots fields) :
    p.isRecord = true := by
  cases p with
  | scalar | dependencies | types | list _ => simp [Place.slots] at h
  | _ => rfl

end Slots

section Entries

variable {v w : Json} {t : TypeDef} {assembly key : String}

/-- An entry that is like another one may stand under its key. -/
theorem Place.Alike.readUnder
    (h : Place.entry.Alike v w)
    (hv : Holds (TypeDef.ReadUnder assembly key) v t) :
    Holds (TypeDef.ReadUnder assembly key) w t := by
  obtain ⟨fields, rfl, hheld, hfqn, hassembly, hread⟩ := hv
  obtain ⟨fields', rfl, hget, hread'⟩ := h (Json.Fields.get fields "fqn", t)
    ⟨fields, rfl, rfl, hread⟩
  exact ⟨fields', rfl, hget ▸ hheld, hfqn, hassembly, hread'⟩

/-- An entry that is like another one may stand in its place in a list. -/
theorem Place.Alike.readListed
    (h : Place.entry.Alike v w)
    (hv : Holds (TypeDef.ReadListed assembly) v t) :
    Holds (TypeDef.ReadListed assembly) w t := by
  obtain ⟨fields, rfl, hheld, hassembly, hread⟩ := hv
  obtain ⟨fields', rfl, hget, hread'⟩ := h (Json.Fields.get fields "fqn", t)
    ⟨fields, rfl, rfl, hread⟩
  exact ⟨fields', rfl, hget ▸ hheld, hassembly, hread'⟩

end Entries

section Rules

variable {rule : Place → Json → Json → Prop} {p q : Place} {v w : Json}

/-- Objects whose values are alike are alike. -/
theorem Place.alike_of_value
    {before after : Json.Fields}
    {key : String}
    (hq : p.values? = some q)
    (h : q.Alike v w) :
    p.Alike (.object (before ++ (key, v) :: after)) (.object (before ++ (key, w) :: after)) := by
  cases p with
  | types =>
      cases hq
      intro assembly ts hread
      cases hread with
      | object hfields => exact .object (forall₂_replace (fun t => h.readUnder) hfields)
  | dependencies =>
      cases hq
      intro ds hread
      cases hread with
      | object hfields =>
          refine .object (forall₂_replace (fun d hd => ?_) hfields)
          obtain ⟨hname, hne, hversion⟩ := hd
          exact ⟨hname, hne, h _ hversion⟩
  | _ => cases hq

/-- Lists whose items are alike are alike. -/
theorem Place.alike_of_item
    {before after : List Json}
    (hq : p.items? = some q)
    (h : q.Alike v w) :
    p.Alike (.array (before ++ v :: after)) (.array (before ++ w :: after)) := by
  cases p with
  | types =>
      cases hq
      intro assembly ts hread
      cases hread with
      | list hitems => exact .list (forall₂_replace (fun t => h.readListed) hitems)
  | list item =>
      cases hq
      intro items hlist
      cases hlist with
      | given =>
          have hsame : ∀ items : List Json, List.Forall₂ q.Alike items items :=
            fun items => List.forall₂_same.2 fun a _ => q.alike_refl a
          exact ⟨_, .given _, List.rel_append (hsame before) (.cons h (hsame after))⟩
  | _ => cases hq

/-- A rule that leads to values that are alike may be applied inside a document. -/
theorem Within.alike
    (hrule : ∀ p v w, rule p v w → p.Alike v w)
    (h : Within rule p v w) :
    p.Alike v w := by
  induction h with
  | here h => exact hrule _ _ _ h
  | @field p fields slot v w hslot hv _ ih =>
      exact Place.alike_of_agreeOn (Place.isRecord_of_mem_slots hslot)
        (Place.agreeOn_put (p.slots_distinct fields) hslot hv ih)
  | value hq _ ih => exact Place.alike_of_value hq ih
  | item hq _ ih => exact Place.alike_of_item hq ih

/-- No number of applications of such a rule changes the manifest that is read from a document. -/
theorem Manifest.decode_of_within
    {source source' : Source}
    {m : Manifest}
    (hrule : ∀ p v w, rule p v w → p.Alike v w)
    (hv : source.document = .ok v)
    (hw : source'.document = .ok w)
    (hsteps : Relation.ReflTransGen (Within rule .manifest) v w)
    (h : decode source = .ok m) :
    decode source' = .ok m := by
  obtain ⟨_, hdocument, hread⟩ := decode_eq_ok_iff.1 h
  obtain rfl := Except.ok.inj (hv.symm.trans hdocument)
  refine decode_eq_ok_iff.2 ⟨w, hw, ?_⟩
  clear hw
  induction hsteps with
  | refl => exact hread
  | tail _ hstep ih => exact (hstep.alike hrule) m ih

end Rules

end TypeGraph
