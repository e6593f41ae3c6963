import TypeGraph.Json.Display
import TypeGraph.TypeRef.Phrase

/-!
# Faults of a type reference

A reference is refused for one of the reasons below; `RefFault.message` is the wording of each.
-/

namespace TypeGraph

/-- Why a phrase denotes no reference. -/
inductive MeaningFault where
  | unknownName (name : String)
  | arrayArguments
  | mapKey
  | unknownGeneric (head : String)
  deriving DecidableEq, Repr

/-- The wording of a fault in the meaning of a phrase. -/
def MeaningFault.message : MeaningFault → String
  | .unknownName name => s!"'{name}' is neither a primitive nor a fully-qualified type name"
  | .arrayArguments => "Array<...> takes exactly one element type"
  | .mapKey => "Map keys must be 'string'"
  | .unknownGeneric head => s!"unknown generic type '{head}'"

/-- Why a value is not a type reference. -/
inductive RefFault where
  | misplaced (text : String) (place : TypeRef.Misplaced)
  | meaningless (text : String) (fault : MeaningFault)
  | notReference
  | unknownPrimitive (given : Json)
  | emptyFqn
  | collectionShape
  | unknownCollection (given : Json)
  | missingElement
  | unionShape
  | noForm

/-- The wording of a place where the tokens stop being a reference. -/
def TypeRef.Misplaced.message : TypeRef.Misplaced → String
  | .token column => s!"UnexpectedToken at column {column}"
  | .character column => s!"UnexpectedCharacters at column {column}"

/-- The wording of a fault of a type reference. -/
def RefFault.message : RefFault → String
  | .misplaced text place => s!"invalid type reference '{text}': {place.message}"
  | .meaningless text fault => s!"invalid type reference '{text}': {fault.message}"
  | .notReference => "type reference must be a string or an object"
  | .unknownPrimitive given => s!"unknown primitive type '{given.display}'"
  | .emptyFqn => "type reference fqn must be a non-empty string"
  | .collectionShape => "type reference collection must be an object"
  | .unknownCollection given => s!"unknown collection kind '{given.display}'"
  | .missingElement => "collection type reference missing elementtype"
  | .unionShape => "union type reference needs at least two member types"
  | .noForm => "type reference must have one of: primitive, fqn, collection, union"

/-- The value that the wording of a fault shows. -/
def RefFault.shown? : RefFault → Option Json
  | .unknownPrimitive given | .unknownCollection given => some given
  | _ => none

end TypeGraph
