import TypeGraph.Manifest.Member

/-!
# Type entries of a manifest

A type entry is read under its full name, which starts with the name of the assembly and a dot.  Its
own name is what follows the last dot and its namespace what stands before that, unless the entry
says otherwise.
-/

namespace TypeGraph

/-- A text split at its last dot: what stands before it, if there is one, and what follows. -/
def splitLastDot (text : List Char) : Option (List Char) × List Char :=
  let last := (text.reverse.takeWhile (· != '.')).reverse
  if last.length = text.length then (none, text)
  else (some (text.take (text.length - last.length - 1)), last)

/-- The part of a full name after the assembly's name and the dot. -/
def localName? (assembly fqn : String) : Option (List Char) :=
  let head := assembly.toList ++ ['.']
  if head.isPrefixOf fqn.toList then some (fqn.toList.drop head.length) else none

namespace TypeDef

/-- The name and the namespace of a type. -/
def decodeNames (assembly fqn : String) (fields : Json.Fields) :
    Except Defect (String × Option String) := do
  let some localPart := localName? assembly fqn | throw (.outsideAssembly assembly)
  let (before, last) := splitLastDot localPart
  let name ←
    match Json.Fields.get fields "name" with
    | .null => pure (String.ofList last)
    | .string "" => throw .emptyTypeName
    | .string name => pure name
    | _ => throw .emptyTypeName
  let scope ← Json.Fields.optionalString fields "namespace"
  return (name, scope <|> before.map String.ofList)

/-- The full name in an entry of a list of types: a text, or an object that holds one. -/
def entryFqn? : Json → Option String
  | .object fields => (Json.Fields.get fields "fqn").name?
  | other => other.name?

/-- The full names of a list of types, which must differ; `seen` holds those before. -/
def decodeFqns (field : String) (seen : List String) : List Json → Except Defect (List String)
  | [] => .ok []
  | item :: rest =>
      match entryFqn? item with
      | none => .error (.entryShape field)
      | some fqn =>
          if seen.contains fqn then .error (.entryRepeats field fqn)
          else return fqn :: (← decodeFqns field (fqn :: seen) rest)

/-- The members of a class or an interface. -/
def decodeMembers (fields : Json.Fields) : Except Defect Members := do
  let methods ← (← Json.Fields.list fields "methods").mapM Method.decode
  let properties ← (← Json.Fields.list fields "properties").mapM Property.decode
  checkNames .method (methods.map Method.name)
  checkNames .property (properties.map Property.name)
  let interfaces ← decodeFqns "interfaces" [] (← Json.Fields.list fields "interfaces")
  return ⟨interfaces, methods, properties⟩

/-- The base of a class: absent, a full name, or an object that must hold one. -/
def decodeBase : Json → Except Defect (Option String)
  | .null => .ok none
  | .object fields =>
      match fields.lookup "fqn" with
      | some .null => .ok none
      | given =>
          match (given.getD .null).name? with
          | some fqn => .ok (some fqn)
          | none => .error .baseShape
  | other =>
      match other.name? with
      | some fqn => .ok (some fqn)
      | none => .error .baseShape

/-- The body of a type of the given kind. -/
def decodeBody (kind : TypeKind) (fields : Json.Fields) : Except Defect TypeBody :=
  match kind with
  | .enumKind => do
      let members ← (← Json.Fields.list fields "members").mapM EnumMember.decode
      checkNames .enumMember (members.map EnumMember.name)
      return .ofEnum members
  | .interfaceKind => return .ofInterface (← decodeMembers fields)
  | .classKind => do
      let members ← decodeMembers fields
      let base ← decodeBase (Json.Fields.get fields "base")
      let initializer ← Initializer.decode (Json.Fields.get fields "initializer")
      let isAbstract ← Json.Fields.flag fields "abstract"
      return .ofClass base members isAbstract initializer

/-- One type entry under its full name. -/
def decode (assembly fqn : String) : Json → Except Defect TypeDef
  | .object fields => do
      let given := Json.Fields.get fields "kind"
      let some kind := given.string?.bind TypeKind.ofName? | throw (.unknownKind given)
      let (name, scope) ← decodeNames assembly fqn fields
      let docs ← Json.Fields.docs fields
      let body ← decodeBody kind fields
      return ⟨fqn, assembly, name, scope, docs, body⟩
  | _ => .error .typeShape

end TypeDef
end TypeGraph
