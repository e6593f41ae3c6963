import Mathlib
import TypeGraph.Proofs.Manifest.Reading

/-!
# Lists of parameters

Where each entry of a list can be read as a parameter on its own, the list is accepted exactly when the
names differ and the parameters are in order, and its parameters are then those of the entries.  A list
whose names differ is otherwise refused for the first parameter that is out of place: one that takes any
number of arguments and is not the last, or one that is required after one that is not.

**Results.**
* `Parameter.checkOrder_cons`: one parameter either is out of place or lets the check go on.
* `Parameter.exists_of_checkOrder_error`: a list is refused for the first parameter out of place.
* `Parameter.decodeList_exact`: which lists are accepted, and how the others are refused.
-/

namespace TypeGraph
namespace Parameter

/-- A parameter is optional when its entry says so in the field `optional` or, in the older spelling, in
the field `optional` of the object that its type is; it takes any number of arguments when the entry says
so in the field `variadic`. -/
structure Marked (fields : Json.Fields) (p : Parameter) : Prop where
  optional : p.isOptional = true ↔ fields.get "optional" = .bool true ∨
    ∃ type : Json.Fields, fields.get "type" = .object type ∧ type.get "optional" = .bool true
  variadic : p.isVariadic = true ↔ fields.get "variadic" = .bool true

/-- The parameter need not be given an argument. -/
def isLoose (p : Parameter) : Bool :=
  p.isOptional || p.isVariadic

/-- A parameter that takes any number of arguments is not the last, or a required one comes after one
that is not. -/
def OutOfPlace (before : List Parameter) (p : Parameter) (after : List Parameter) : Prop :=
  (p.isVariadic = true ∧ after ≠ []) ∨ (p.isLoose = false ∧ ∃ q ∈ before, q.isLoose = true)

/-- The first parameter out of place, with what comes before it and after it. -/
structure FirstOutOfPlace (ps before : List Parameter) (p : Parameter) (after : List Parameter) :
    Prop where
  parts : ps = before ++ p :: after
  outOfPlace : OutOfPlace before p after
  first : ∀ earlier q later, before = earlier ++ q :: later →
    ¬ OutOfPlace earlier q (later ++ p :: after)

/-- The defect of a parameter out of place. -/
def misplaced (owner : ParameterOwner) (p : Parameter) : Defect :=
  if p.isVariadic then .variadicNotLast owner p.name else .requiredAfterOptional owner p.name

section Marks

variable {fields : Json.Fields} {field : String} {p : Parameter}

/-- A flag that is read is up when its field holds true. -/
theorem eq_true_iff_of_flag
    {flagged : Bool}
    (h : fields.flag field = .ok flagged) :
    flagged = true ↔ fields.get field = .bool true := by
  unfold Json.Fields.flag at h
  split at h <;> cases h <;> rename_i hvalue <;> simp [hvalue]

/-- The older mark is an object with a field `optional` that holds true. -/
theorem marksOptional_iff
    {value : Json} :
    value.marksOptional = true ↔
      ∃ type : Json.Fields, value = .object type ∧ type.get "optional" = .bool true := by
  cases value with
  | object type =>
      simp only [Json.marksOptional, Json.object.injEq, exists_eq_left']
      split <;> simp_all
  | _ => simp [Json.marksOptional]

/-- What is read from an entry has its marks. -/
theorem ReadFrom.marked
    (h : ReadFrom fields p) :
    Marked fields p := by
  obtain ⟨flagged, hflagged, hoptional⟩ := h.type.optional
  refine ⟨?_, eq_true_iff_of_flag h.isVariadic⟩
  rw [hoptional, Bool.or_eq_true, eq_true_iff_of_flag hflagged, marksOptional_iff]

end Marks

section Order

variable {owner : ParameterOwner} {p : Parameter} {before ps : List Parameter}

/-- One parameter either is out of place, and the list is refused for it, or lets the check go on. -/
theorem checkOrder_cons
    (owner : ParameterOwner)
    (before : List Parameter)
    (p : Parameter)
    (after : List Parameter) :
    (OutOfPlace before p after ∧
      checkOrder owner (before.any isLoose) (p :: after) = .error (p.misplaced owner)) ∨
    (¬ OutOfPlace before p after ∧
      checkOrder owner (before.any isLoose) (p :: after) =
        checkOrder owner ((before ++ [p]).any isLoose) after) := by
  have hbefore : before.any isLoose = true ↔ ∃ q ∈ before, q.isLoose = true := List.any_eq_true
  rw [OutOfPlace, ← hbefore, checkOrder, misplaced, List.any_append]
  cases hv : p.isVariadic with
  | true => cases after <;> simp [isLoose, hv]
  | false =>
      cases ho : p.isOptional with
      | true => simp [isLoose, hv, ho]
      | false => cases before.any isLoose <;> simp [isLoose, hv, ho]

/-- A whole list passes the check when it is a run of required parameters, then one of optional ones, then
at most one that takes any number of arguments. -/
theorem checkOrder_start_iff :
    checkOrder owner false ps = .ok () ↔
      ∃ required optional last, Layout required optional last ps := by
  rw [checkOrder_eq_ok_iff]
  constructor
  · rintro ⟨required, optional, last, hlayout, -⟩
    exact ⟨required, optional, last, hlayout⟩
  · rintro ⟨required, optional, last, hlayout⟩
    exact ⟨required, optional, last, hlayout, by simp⟩

/-- A list that is refused for its order is refused for the first parameter out of place, where some
parameters have come before it. -/
theorem exists_of_checkOrder_error
    {defect : Defect}
    (h : checkOrder owner (before.any isLoose) ps = .error defect) :
    ∃ passed p after, ps = passed ++ p :: after ∧ OutOfPlace (before ++ passed) p after ∧
      (∀ earlier q later, passed = earlier ++ q :: later →
        ¬ OutOfPlace (before ++ earlier) q (later ++ p :: after)) ∧
      defect = p.misplaced owner := by
  induction ps generalizing before with
  | nil => cases h
  | cons q rest ih =>
      rcases checkOrder_cons owner before q rest with ⟨hout, herror⟩ | ⟨hin, hnext⟩
      · obtain rfl := Except.error.inj (herror.symm.trans h)
        exact ⟨[], q, rest, rfl, by simpa using hout, by simp, rfl⟩
      · obtain ⟨passed, p, after, rfl, hout, hfirst, rfl⟩ := ih (hnext ▸ h)
        refine ⟨q :: passed, p, after, rfl, by simpa using hout, ?_, rfl⟩
        intro earlier r later hparts
        -- the one that comes earlier is the head, or stands among those that passed after it
        cases earlier with
        | nil =>
            obtain ⟨rfl, rfl⟩ := List.cons.inj hparts
            simpa using hin
        | cons _ earlier =>
            obtain ⟨rfl, rfl⟩ := List.cons.inj hparts
            simpa using hfirst earlier r later rfl

end Order

section Lists

variable {owner : ParameterOwner} {items : List Json} {ps : List Parameter}

/-- An entry is read on its own as it is read in a list. -/
theorem decodeList_singleton_iff
    {item : Json}
    {p : Parameter} :
    decodeList owner (.array [item]) = .ok [p] ↔ decode owner item = .ok p := by
  rw [decodeList_eq_ok_iff, decode_eq_ok_iff]
  constructor
  · rintro ⟨⟨items, hlist, hitems⟩, -, -⟩
    cases hlist
    exact (List.forall₂_cons.1 hitems).1
  · intro h
    have hordered : checkOrder owner false [p] = .ok () := by
      cases hv : p.isVariadic <;> cases ho : p.isOptional <;> simp [checkOrder, hv, ho]
    exact ⟨⟨[item], .given _, .cons h .nil⟩, List.nodup_singleton _, checkOrder_start_iff.1 hordered⟩

/-- A list whose entries can be read is checked for names that repeat, and then for its order. -/
theorem decodeList_eq
    (h : List.Forall₂ (fun item p => decode owner item = .ok p) items ps) :
    decodeList owner (.array items) =
      if (ps.map name).Nodup then (checkOrder owner false ps).map fun _ => ps
      else .error (.parameterRepeats owner) := by
  rw [decodeList, bind_of_ok (mapM_eq_ok_iff.2 h)]
  split_ifs with hrepeats hnodup hnodup
  · rw [(firstRepeat?_eq_none_iff _).2 hnodup] at hrepeats
    cases hrepeats
  · rfl
  · cases checkOrder owner false ps <;> rfl
  · exact absurd ((firstRepeat?_eq_none_iff _).1 (by simpa using hrepeats)) hnodup

/-- A list whose entries can be read is accepted when the names differ and it passes the check, and then
gives the parameters of its entries. -/
theorem decodeList_array_eq_ok_iff
    (h : List.Forall₂ (fun item p => decode owner item = .ok p) items ps)
    {found : List Parameter} :
    decodeList owner (.array items) = .ok found ↔
      found = ps ∧ (ps.map name).Nodup ∧ checkOrder owner false ps = .ok () := by
  rw [decodeList_eq h]
  split_ifs with hdistinct
  · cases checkOrder owner false ps with
    | error defect => simp [Except.map]
    | ok _ => simp [Except.map, hdistinct, eq_comm]
  · simp [hdistinct]

/-- A list whose entries can be read and whose names differ is refused for the first parameter out of place
when it does not pass the check. -/
theorem exists_firstOutOfPlace
    (h : List.Forall₂ (fun item p => decode owner item = .ok p) items ps)
    (hdistinct : (ps.map name).Nodup)
    (hcheck : checkOrder owner false ps ≠ .ok ()) :
    ∃ before p after, FirstOutOfPlace ps before p after ∧
      decodeList owner (.array items) = .error (p.misplaced owner) := by
  cases hordered : checkOrder owner false ps with
  | ok _ => exact absurd hordered hcheck
  | error defect =>
      have hstart : checkOrder owner (([] : List Parameter).any isLoose) ps = .error defect :=
        hordered
      obtain ⟨before, p, after, hparts, hout, hfirst, rfl⟩ := exists_of_checkOrder_error hstart
      refine ⟨before, p, after, ⟨hparts, hout, hfirst⟩, ?_⟩
      rw [decodeList_eq h, if_pos hdistinct, hordered]
      rfl

/-- Where each entry of a list can be read as a parameter on its own, with the marks that it has, the list
is accepted exactly when the names differ and the parameters are a run of required ones, then one of
optional ones, then at most one that takes any number of arguments; what is read are the parameters of the
entries in order.  Names that repeat are refused as such, and a list whose names differ is otherwise
refused for the first parameter that is out of place. -/
theorem decodeList_exact
    (h : List.Forall₂ (fun item p => decodeList owner (.array [item]) = .ok [p]) items ps) :
    List.Forall₂ (Json.Holds Marked) items ps ∧
    (∀ found, decodeList owner (.array items) = .ok found ↔
      found = ps ∧ (ps.map name).Nodup ∧ ∃ required optional last, Layout required optional last ps) ∧
    (¬ (ps.map name).Nodup → decodeList owner (.array items) = .error (.parameterRepeats owner)) ∧
    ((ps.map name).Nodup → (¬ ∃ required optional last, Layout required optional last ps) →
      ∃ before p after, FirstOutOfPlace ps before p after ∧
        decodeList owner (.array items) = .error (p.misplaced owner)) := by
  have hitems : List.Forall₂ (fun item p => decode owner item = .ok p) items ps :=
    h.imp fun _ _ => decodeList_singleton_iff.1
  have hread : List.Forall₂ (Json.Holds ReadFrom) items ps :=
    hitems.imp fun _ _ => decode_eq_ok_iff.1
  refine ⟨hread.imp fun _ _ hitem => hitem.imp fun _ hfields => hfields.marked, ?_, ?_, ?_⟩
  · intro found
    rw [decodeList_array_eq_ok_iff hitems, checkOrder_start_iff]
  · intro hrepeats
    rw [decodeList_eq hitems, if_neg hrepeats]
  · intro hdistinct hshape
    exact exists_firstOutOfPlace hitems hdistinct (mt checkOrder_start_iff.1 hshape)

end Lists

/-- Entries of a required parameter, of one whose type has the older mark, and of one that takes any number
of arguments. -/
def olderEntries : List Json :=
  [.object [("name", .string "a"), ("type", .string "string")],
   .object [("name", .string "b"),
     ("type", .object [("primitive", .string "string"), ("optional", .bool true)])],
   .object [("name", .string "c"), ("type", .string "a.D"), ("variadic", .bool true)]]

/-- What is read from them. -/
def olderParameters : List Parameter :=
  [⟨"a", .primitive .string, false, false⟩, ⟨"b", .primitive .string, true, false⟩,
   ⟨"c", .named "a.D", false, true⟩]

/-- Each of these entries can be read on its own.  They are accepted in their order; in the opposite order
they are refused for the parameter that takes any number of arguments, which is then the first. -/
theorem decodeList_exact_of_olderEntries :
    let owner : ParameterOwner := .method "m"
    List.Forall₂ (fun item p => decodeList owner (.array [item]) = .ok [p])
      olderEntries olderParameters ∧
    decodeList owner (.array olderEntries) = .ok olderParameters ∧
    decodeList owner (.array olderEntries.reverse) = .error (.variadicNotLast owner "c") := by
  intro owner
  have ha : decodeList owner (.array [olderEntries[0]]) = .ok [olderParameters[0]] := by cbv
  have hb : decodeList owner (.array [olderEntries[1]]) = .ok [olderParameters[1]] := by cbv
  have hc : decodeList owner (.array [olderEntries[2]]) = .ok [olderParameters[2]] := by cbv
  have hitems : List.Forall₂ (fun item p => decodeList owner (.array [item]) = .ok [p])
      olderEntries olderParameters :=
    .cons ha (.cons hb (.cons hc .nil))
  have hback : List.Forall₂ (fun item p => decodeList owner (.array [item]) = .ok [p])
      olderEntries.reverse olderParameters.reverse :=
    .cons hc (.cons hb (.cons ha .nil))
  refine ⟨hitems, ?_, ?_⟩
  · have hlayout : Layout [olderParameters[0]] [olderParameters[1]] (some olderParameters[2])
        olderParameters :=
      ⟨rfl, by simp [olderParameters], by simp [olderParameters], by simp [olderParameters]⟩
    obtain ⟨-, haccepted, -, -⟩ := decodeList_exact hitems
    exact (haccepted _).2 ⟨rfl, by decide, _, _, _, hlayout⟩
  · obtain ⟨-, -, -, hrefused⟩ := decodeList_exact hback
    have hhead : OutOfPlace [] olderParameters[2] [olderParameters[1], olderParameters[0]] :=
      Or.inl ⟨rfl, by simp⟩
    have hshape : ¬ ∃ required optional last, Layout required optional last
        olderParameters.reverse := by
      intro hlayout
      have hchecked := (@checkOrder_start_iff owner _).2 hlayout
      simp [olderParameters, checkOrder] at hchecked
    obtain ⟨before, p, after, ⟨hparts, -, hfirst⟩, herror⟩ := hrefused (by decide) hshape
    cases before with
    | nil =>
        obtain ⟨rfl, rfl⟩ := List.cons.inj hparts
        exact herror
    | cons q rest =>
        obtain ⟨rfl, hrest⟩ := List.cons.inj hparts
        refine absurd ?_ (hfirst [] _ rest rfl)
        rw [← List.append_eq, ← hrest]
        exact hhead

end Parameter
end TypeGraph
