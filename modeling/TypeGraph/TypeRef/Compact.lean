import TypeGraph.TypeRef.Basic
import TypeGraph.TypeRef.Fault

/-!
# Compact type references

A compact reference is read in two passes.  Its tokens form a phrase, and the phrase denotes a
reference: a name is a primitive or, with a dot in it, a named type; `Array` takes one argument;
`Map` takes its element, or the primitive `string` and its element.  The arguments of a generic are
denoted from left to right before its head is considered.
-/

namespace TypeGraph
namespace TypeRef

/-- The reference of a name. -/
def ofName (text : String) : Except MeaningFault TypeRef :=
  match Primitive.ofName? text with
  | some p => .ok (.primitive p)
  | none => if text.toList.contains '.' then .ok (.named text) else .error (.unknownName text)

/-- The reference of a generic whose arguments are known. -/
def ofGeneric (head : String) (arguments : List TypeRef) : Except MeaningFault TypeRef :=
  if head = "Array" then
    match arguments with
    | [element] => .ok (.array element)
    | _ => .error .arrayArguments
  else if head = "Map" then
    match arguments with
    | [element] => .ok (.map element)
    | [.primitive .string, element] => .ok (.map element)
    | _ => .error .mapKey
  else .error (.unknownGeneric head)

mutual

/-- The reference that a phrase denotes. -/
def denote : Phrase → Except MeaningFault TypeRef
  | .name text => ofName text
  | .array element => return .array (← denote element)
  | .union members => return .union (← denoteAll members)
  | .generic head arguments => do
      let args ← denoteAll arguments
      ofGeneric head args

/-- The references of several phrases, from left to right. -/
def denoteAll : List Phrase → Except MeaningFault (List TypeRef)
  | [] => return []
  | p :: rest => do
      let first ← denote p
      return first :: (← denoteAll rest)

end

/-- Read the compact spelling of a reference. -/
def parse (text : String) : Except RefFault TypeRef :=
  match phrase text with
  | .error place => .error (.misplaced text place)
  | .ok p =>
      match denote p with
      | .error fault => .error (.meaningless text fault)
      | .ok ref => .ok ref

end TypeRef
end TypeGraph
