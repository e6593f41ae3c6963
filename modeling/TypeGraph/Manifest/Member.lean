import TypeGraph.Manifest.Field
import TypeGraph.TypeRef.Structured

/-!
# Members of a manifest

Parameters, methods, properties and initializers as a manifest spells them.  The parameters of one
owner have distinct names, and their list is a run of required ones, then optional ones, then at most
one that takes any number of arguments.
-/

namespace TypeGraph

/-- A type reference at a place of a type entry. -/
def TypeRef.decodeAt (place : RefPlace) (value : Json) : Except Defect TypeRef :=
  (TypeRef.decode value).mapError (.reference place)

namespace Parameter

/-- One parameter. -/
def decode (owner : ParameterOwner) : Json → Except Defect Parameter
  | .object fields => do
      let some name := (Json.Fields.get fields "name").name?
        | throw (.parameterName owner)
      if !Json.Fields.has fields "type" then throw (.parameterType owner name)
      let given := Json.Fields.get fields "type"
      let type ← TypeRef.decodeAt (.parameter owner name) given
      let flagged ← Json.Fields.flag fields "optional"
      let isVariadic ← Json.Fields.flag fields "variadic"
      return ⟨name, type, flagged || given.marksOptional, isVariadic⟩
  | _ => .error (.parameterShape owner)

/-- Required parameters come first, then optional ones, then at most one that takes any number of
arguments; `optionalSeen` holds after a parameter that is not required. -/
def checkOrder (owner : ParameterOwner) (optionalSeen : Bool) :
    List Parameter → Except Defect Unit
  | [] => .ok ()
  | p :: rest =>
      if p.isVariadic && !rest.isEmpty then .error (.variadicNotLast owner p.name)
      else if p.isOptional || p.isVariadic then checkOrder owner true rest
      else if optionalSeen then .error (.requiredAfterOptional owner p.name)
      else checkOrder owner false rest

/-- The parameters of an owner; an absent list is empty. -/
def decodeList (owner : ParameterOwner) : Json → Except Defect (List Parameter)
  | .null => .ok []
  | .array items => do
      let parameters ← items.mapM (decode owner)
      if (firstRepeat? (parameters.map name)).isSome then throw (.parameterRepeats owner)
      checkOrder owner false parameters
      return parameters
  | _ => .error (.parametersShape owner)

end Parameter

/-- What a method returns, and whether that is optional.  Nothing is returned where the field is
absent, null or `void`; a wrapper object holds the reference in its `type` field. -/
def Method.decodeReturns (method : String) : Json → Except Defect (Option TypeRef × Bool)
  | .null => .ok (none, false)
  | .string "void" => .ok (none, false)
  | .object fields =>
      match fields.lookup "type" with
      | some given => do
          let type ← TypeRef.decodeAt (.returns method) given
          let flagged ← Json.Fields.flag fields "optional"
          return (some type, flagged || given.marksOptional)
      | none => do
          let type ← TypeRef.decodeAt (.returns method) (.object fields)
          return (some type, (Json.object fields).marksOptional)
  | other => do
      let type ← TypeRef.decodeAt (.returns method) other
      return (some type, false)

/-- One method. -/
def Method.decode : Json → Except Defect Method
  | .object fields => do
      let some name := (Json.Fields.get fields "name").name? | throw .methodName
      let (returns, returnsOptional) ← decodeReturns name (Json.Fields.get fields "returns")
      let parameters ← Parameter.decodeList (.method name) (Json.Fields.get fields "parameters")
      let isStatic ← Json.Fields.flag fields "static"
      let isAbstract ← Json.Fields.flag fields "abstract"
      let isAsync ← Json.Fields.flag fields "async"
      let isProtected ← Json.Fields.flag fields "protected"
      let docs ← Json.Fields.docs fields
      return {
        name, parameters, returns, returnsOptional, isStatic, isAbstract, isAsync, isProtected,
        docs }
  | _ => .error .methodShape

/-- One property. -/
def Property.decode : Json → Except Defect Property
  | .object fields => do
      let some name := (Json.Fields.get fields "name").name? | throw .propertyName
      if !Json.Fields.has fields "type" then throw (.propertyType name)
      let given := Json.Fields.get fields "type"
      let type ← TypeRef.decodeAt (.property name) given
      let flagged ← Json.Fields.flag fields "optional"
      let isImmutable ← Json.Fields.flag fields "immutable"
      let isStatic ← Json.Fields.flag fields "static"
      let isAbstract ← Json.Fields.flag fields "abstract"
      let isProtected ← Json.Fields.flag fields "protected"
      let docs ← Json.Fields.docs fields
      return {
        name, type, isOptional := flagged || given.marksOptional, isImmutable, isStatic,
        isAbstract, isProtected, docs }
  | _ => .error .propertyShape

/-- The initializer of a class; an absent one is none. -/
def Initializer.decode : Json → Except Defect (Option Initializer)
  | .null => .ok none
  | .object fields => do
      let parameters ← Parameter.decodeList .initializer (Json.Fields.get fields "parameters")
      let isProtected ← Json.Fields.flag fields "protected"
      let docs ← Json.Fields.docs fields
      return some ⟨parameters, isProtected, docs⟩
  | _ => .error .initializerShape

/-- One member of an enum: a name, or an object with a name. -/
def EnumMember.decode : Json → Except Defect EnumMember
  | .string "" => .error .enumMemberShape
  | .string name => .ok ⟨name, .empty⟩
  | .object fields => do
      let some name := (Json.Fields.get fields "name").name? | throw .enumMemberShape
      let docs ← Json.Fields.docs fields
      return ⟨name, docs⟩
  | _ => .error .enumMemberShape

/-- The names of the members of a type differ. -/
def checkNames (kind : MemberKind) (names : List String) : Except Defect Unit :=
  match firstRepeat? names with
  | some name => .error (.memberRepeats kind name)
  | none => .ok ()

end TypeGraph
