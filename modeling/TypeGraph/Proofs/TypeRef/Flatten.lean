import TypeGraph.Proofs.TypeRef.Grammar
import TypeGraph.Proofs.TypeRef.Name

/-!
# Unions inside unions

The compact spelling of a reference has no parentheses, so a union that is a member of another union
shows as its own members do.  `flatten` puts them in its place, everywhere in a reference.

**Results.**
* `flatten_of_flat`, `flat_flatten`: a reference is flat exactly where nothing is left to put in place.
* `Proper.text_flatten`, `mentioned_flatten`: the spelling and the mentioned types stay.
-/

namespace TypeGraph
namespace TypeRef

/-- The members that a reference puts into a union around it. -/
def spread : TypeRef → List TypeRef
  | .union members => members
  | r => [r]

mutual

/-- Every union that is a member of another union is replaced by its members. -/
def flatten : TypeRef → TypeRef
  | .primitive p => .primitive p
  | .named fqn => .named fqn
  | .array element => .array (flatten element)
  | .map element => .map (flatten element)
  | .union members => .union (flattenMembers members)

/-- The members of a union, each in the place of the union that it is a member of. -/
def flattenMembers : List TypeRef → List TypeRef
  | [] => []
  | member :: rest => (flatten member).spread ++ flattenMembers rest

end

/-- No union is a member of a union. -/
inductive Flat : TypeRef → Prop
  | primitive (p : Primitive) :
      Flat (.primitive p)
  | named (fqn : String) :
      Flat (.named fqn)
  | array {element : TypeRef} :
      Flat element →
      Flat (.array element)
  | map {element : TypeRef} :
      Flat element →
      Flat (.map element)
  | union {members : List TypeRef} :
      (∀ member ∈ members, Flat member) →
      (∀ member ∈ members, ∀ inner, member ≠ .union inner) →
      Flat (.union members)

/-- The names in a reference are names of the compact spelling with a dot, and its unions have two
members at least. -/
inductive Proper : TypeRef → Prop
  | primitive (p : Primitive) :
      Proper (.primitive p)
  | named {fqn : String} :
      fqn.toList ∈ Name →
      '.' ∈ fqn.toList →
      Proper (.named fqn)
  | array {element : TypeRef} :
      Proper element →
      Proper (.array element)
  | map {element : TypeRef} :
      Proper element →
      Proper (.map element)
  | union {members : List TypeRef} :
      2 ≤ members.length →
      (∀ member ∈ members, Proper member) →
      Proper (.union members)

section Flatten

theorem flattenMembers_eq_flatMap
    (members : List TypeRef) :
    flattenMembers members = members.flatMap fun member => member.flatten.spread := by
  induction members with
  | nil => rfl
  | cons member rest ih => rw [flattenMembers, ih, List.flatMap_cons]

theorem spread_of_ne_union
    {r : TypeRef}
    (h : ∀ members, r ≠ .union members) :
    r.spread = [r] := by
  cases r with
  | union members => exact absurd rfl (h members)
  | _ => rfl

/-- A flat reference stays as it is. -/
theorem flatten_of_flat
    {r : TypeRef}
    (h : r.Flat) :
    r.flatten = r := by
  induction h with
  | primitive p => rfl
  | named fqn => rfl
  | array _ ih => rw [flatten, ih]
  | map _ ih => rw [flatten, ih]
  | @union members _ hinner ih =>
      have hspread : ∀ member ∈ members, member.flatten.spread = [member] := by
        intro member hm
        rw [ih member hm, spread_of_ne_union (hinner member hm)]
      rw [flatten, flattenMembers_eq_flatMap, List.flatMap_congr hspread]
      simp

/-- What a flat reference puts into a union is flat, and no union. -/
theorem Flat.spread
    {r member : TypeRef}
    (h : r.Flat)
    (hm : member ∈ r.spread) :
    member.Flat ∧ ∀ inner, member ≠ .union inner := by
  cases h with
  | union hflat hinner => exact ⟨hflat member hm, hinner member hm⟩
  | primitive p =>
      cases List.mem_singleton.1 hm
      exact ⟨.primitive p, by simp⟩
  | named fqn =>
      cases List.mem_singleton.1 hm
      exact ⟨.named fqn, by simp⟩
  | array he =>
      cases List.mem_singleton.1 hm
      exact ⟨.array he, by simp⟩
  | map he =>
      cases List.mem_singleton.1 hm
      exact ⟨.map he, by simp⟩

mutual

/-- No union is left inside a union. -/
theorem flat_flatten : ∀ r : TypeRef, r.flatten.Flat
  | .primitive p => .primitive p
  | .named fqn => .named fqn
  | .array element => .array (flat_flatten element)
  | .map element => .map (flat_flatten element)
  | .union members =>
      .union (fun member hm => (flat_flattenMembers members member hm).1)
        fun member hm => (flat_flattenMembers members member hm).2

theorem flat_flattenMembers : ∀ members : List TypeRef, ∀ member ∈ flattenMembers members,
    member.Flat ∧ ∀ inner, member ≠ .union inner
  | [], member, hm => absurd hm (List.not_mem_nil)
  | first :: rest, member, hm => by
      rcases List.mem_append.1 hm with hm | hm
      · exact (flat_flatten first).spread hm
      · exact flat_flattenMembers rest member hm

end

theorem mentionedIn_spread
    (r : TypeRef) :
    mentionedIn r.spread = r.mentioned := by
  cases r <;> simp [spread, mentionedIn, mentioned]

mutual

/-- The mentioned types stay, in their order. -/
theorem mentioned_flatten : ∀ r : TypeRef, r.flatten.mentioned = r.mentioned
  | .primitive _ => rfl
  | .named _ => rfl
  | .array element => mentioned_flatten element
  | .map element => mentioned_flatten element
  | .union members => mentionedIn_flattenMembers members

theorem mentionedIn_flattenMembers : ∀ members : List TypeRef,
    mentionedIn (flattenMembers members) = mentionedIn members
  | [] => rfl
  | first :: rest => by
      rw [flattenMembers, mentionedIn_eq_flatMap, List.flatMap_append, ← mentionedIn_eq_flatMap,
        ← mentionedIn_eq_flatMap, mentionedIn_spread, mentioned_flatten first,
        mentionedIn_flattenMembers rest, mentionedIn]

end

end Flatten

section Proper

variable {r : TypeRef} {members : List TypeRef}

theorem length_le_length_flattenMembers
    (h : ∀ member ∈ members, member.flatten.spread ≠ []) :
    members.length ≤ (flattenMembers members).length := by
  induction members with
  | nil => simp
  | cons member rest ih =>
      have hfirst := List.length_pos_iff.2 (h member (by simp))
      have hrest := ih fun m hm => h m (List.mem_cons_of_mem _ hm)
      rw [flattenMembers, List.length_append, List.length_cons]
      omega

theorem Proper.spread
    (h : r.Proper) :
    r.spread ≠ [] ∧ ∀ member ∈ r.spread, member.Proper := by
  cases h with
  | primitive p => exact ⟨by simp [TypeRef.spread], by simpa [TypeRef.spread] using .primitive p⟩
  | named hn hd => exact ⟨by simp [TypeRef.spread], by simpa [TypeRef.spread] using .named hn hd⟩
  | array he => exact ⟨by simp [TypeRef.spread], by simpa [TypeRef.spread] using .array he⟩
  | map he => exact ⟨by simp [TypeRef.spread], by simpa [TypeRef.spread] using .map he⟩
  | union hlength hm =>
      refine ⟨?_, hm⟩
      rintro rfl
      simp at hlength

/-- Unions put in place leave unions with two members at least. -/
theorem Proper.flatten
    (h : r.Proper) :
    r.flatten.Proper := by
  induction h with
  | primitive p => exact .primitive p
  | named hn hd => exact .named hn hd
  | array _ ih => exact .array ih
  | map _ ih => exact .map ih
  | union hlength _ ih =>
      refine .union ?_ ?_
      · exact hlength.trans (length_le_length_flattenMembers fun m hm => (ih m hm).spread.1)
      · intro member hm
        rw [flattenMembers_eq_flatMap] at hm
        obtain ⟨m, hmem, hm⟩ := List.mem_flatMap.1 hm
        exact (ih m hmem).spread.2 member hm

/-- A reference is the union of what it puts into a union. -/
theorem Proper.ofMembers_spread
    (h : r.Proper) :
    ofMembers r.spread = r := by
  cases h with
  | @union members hlength _ =>
      match members, hlength with
      | first :: second :: rest, _ => rfl
  | _ => rfl

theorem intercalate_texts_spread
    (r : TypeRef) :
    " | ".intercalate (texts r.spread) = r.text := by
  cases r <;> simp [spread, texts, text]

/-- Members show alike with the unions among them put in place. -/
theorem intercalate_texts_flattenMembers
    (h : ∀ member ∈ members, member.flatten.spread ≠ [] ∧ member.flatten.text = member.text) :
    " | ".intercalate (texts (flattenMembers members)) = " | ".intercalate (texts members) := by
  induction members with
  | nil => rfl
  | cons member rest ih =>
      obtain ⟨hne, htext⟩ := h member (by simp)
      have hrest := ih fun m hm => h m (List.mem_cons_of_mem _ hm)
      have hfirst : " | ".intercalate (texts member.flatten.spread) = member.text := by
        rw [intercalate_texts_spread, htext]
      cases rest with
      | nil => simpa [flattenMembers, texts] using hfirst
      | cons next rest =>
          have hnext := length_le_length_flattenMembers
            fun m hm => (h m (List.mem_cons_of_mem member hm)).1
          rw [flattenMembers, texts_eq_map, List.map_append, String.intercalate_append_of_ne_nil,
            ← texts_eq_map, ← texts_eq_map, hfirst, hrest]
          · simp only [texts, String.intercalate_cons_cons]
          · simpa using hne
          · intro hnil
            simp [List.map_eq_nil_iff.1 hnil] at hnext

/-- The spelling stays. -/
theorem Proper.text_flatten
    (h : r.Proper) :
    r.flatten.text = r.text := by
  induction h with
  | primitive p => rfl
  | named hn hd => rfl
  | array _ ih => rw [TypeRef.flatten, text, text, ih]
  | map _ ih => rw [TypeRef.flatten, text, text, ih]
  | union _ hm ih =>
      exact intercalate_texts_flattenMembers fun m hmem => ⟨(hm m hmem).flatten.spread.1, ih m hmem⟩

end Proper

end TypeRef
end TypeGraph
