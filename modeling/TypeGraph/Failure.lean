import TypeGraph.Manifest.Defect
import TypeGraph.Manifest.Site
import TypeGraph.Report

/-!
# Failures

A failure is the cause of a load or a look-up that did not succeed.  `Failure.report` gives each its
class, its wording and its attribution.  Some of them are not meant to be reported: a conversion of a
number breaks off where nothing is prepared for it, or a load has no end.

**Results.**
* `Failure.report_malformed`: a defect of a manifest is reported as malformed, with its attribution.
-/

namespace TypeGraph

/-- Why a load or a look-up did not succeed. -/
inductive Failure where
  | reported (report : Report)
  | notRegistered (identifier : String)
  | notLocated (identifier : String) (searched : List String)
  | unreadable (identifier reason : String)
  | timedOut (identifier : String) (limit : Option Number)
  | unanswered (identifier : String)
  | malformed (manifest : Malformed)
  | tooManyDigits (fault : Json.DigitFault)
  | limitTooLarge
  | nameMismatch (dependency declared : String)
  | dependencyCycle (path : List String)
  | duplicateFqn (fqn other assembly : String)
  | unresolvedReference (assembly fqn : String) (site : Site)
  | baseNotClass (assembly fqn : String) (kind : TypeKind)
  | entryNotInterface (assembly fqn : String) (kind : TypeKind) (entry : String)
  | classCycle (assembly fqn : String) (path : List String)
  | interfaceCycle (assembly fqn : String) (path : List String)
  | endlessDependencies
  | typeNotLoaded (key : Json)
  | assemblyNotLoaded (key : Json)
  | otherKind (fqn : String) (found wanted : TypeKind)
  | notDeclared (assembly : String) (key : Json)

namespace Failure

/-- The wording of a limit in seconds. -/
def limitText : Option Number → String
  | some limit => limit.text
  | none => "None"

/-- A kind with its article, as the look-ups of one kind name it. -/
def wantedText : TypeKind → String
  | .classKind => "a class"
  | .interfaceKind => "an interface"
  | .enumKind => "an enum"

/-- The wording of a failure. -/
def message : Failure → String
  | .reported report => report.message
  | .notRegistered identifier => s!"no manifest registered for '{identifier}'"
  | .notLocated identifier searched =>
      let places := if searched.isEmpty then "<no search roots>" else ", ".intercalate searched
      s!"no manifest found for '{identifier}' (searched: {places})"
  | .unreadable identifier reason => s!"cannot read manifest for '{identifier}': {reason}"
  | .timedOut identifier limit => s!"timed out after {limitText limit}s resolving '{identifier}'"
  | .unanswered identifier => s!"no answer for '{identifier}'"
  | .malformed manifest => manifest.defect.message
  | .tooManyDigits fault => fault.message
  | .limitTooLarge => "int too large to convert to float"
  | .nameMismatch dependency declared =>
      s!"dependency '{dependency}' resolved to a manifest declaring assembly '{declared}'"
  | .dependencyCycle path => s!"dependency cycle detected: " ++ " -> ".intercalate path
  | .duplicateFqn fqn other assembly =>
      s!"type '{fqn}' is declared by both '{other}' and '{assembly}'"
  | .unresolvedReference _ fqn site =>
      s!"type '{fqn}' references unknown type '{site.target}' ({site.place.label})"
  | .baseNotClass _ fqn kind => s!"base of class '{fqn}' is a {kind.name}, not a class"
  | .entryNotInterface _ fqn kind entry => s!"'{fqn}' lists {kind.name} '{entry}' as an interface"
  | .classCycle _ fqn _ => s!"class '{fqn}' inherits from itself"
  | .interfaceCycle _ fqn _ => s!"interface '{fqn}' extends itself"
  | .endlessDependencies => "dependencies never end"
  | .typeNotLoaded key => s!"type '{key.display}' is not loaded"
  | .assemblyNotLoaded key => s!"assembly '{key.display}' is not loaded"
  | .otherKind fqn found wanted => s!"type '{fqn}' is a {found.name}, not {wantedText wanted}"
  | .notDeclared assembly key => s!"type '{key.display}' is not declared by assembly '{assembly}'"

/-- A name that may be missing, as a value. -/
def nameJson : Option String → Json
  | some name => .string name
  | none => .null

/-- The report of a failure. -/
def report (f : Failure) : Report :=
  let blame (failureClass : FailureClass) (assembly fqn reference : Json)
      (path : Option (List String)) : Report :=
    ⟨failureClass, f.message, assembly, fqn, reference, path⟩
  match f with
  | .reported report => report
  | .notRegistered identifier | .notLocated identifier _ | .unreadable identifier _
  | .timedOut identifier _ => blame .resolution (.string identifier) .null .null none
  | .malformed m => blame .malformed (nameJson m.assembly) (nameJson m.fqn) .null none
  | .nameMismatch dependency _ => blame .malformed (.string dependency) .null .null none
  | .dependencyCycle path =>
      blame .dependencyCycle (nameJson path.head?) .null .null (some path)
  | .duplicateFqn fqn _ assembly =>
      blame .duplicateFqn (.string assembly) (.string fqn) .null none
  | .unresolvedReference assembly fqn site =>
      blame .unresolvedReference (.string assembly) (.string fqn) (.string site.target) none
  | .baseNotClass assembly fqn _ | .entryNotInterface assembly fqn _ _ =>
      blame .malformed (.string assembly) (.string fqn) .null none
  | .classCycle assembly fqn path | .interfaceCycle assembly fqn path =>
      blame .inheritanceCycle (.string assembly) (.string fqn) .null (some path)
  | .endlessDependencies | .unanswered _ | .tooManyDigits _ | .limitTooLarge =>
      blame .general .null .null .null none
  | .typeNotLoaded key => blame .notFound .null key .null none
  | .assemblyNotLoaded key => blame .notFound key .null .null none
  | .otherKind fqn _ _ => blame .notFound .null (.string fqn) .null none
  | .notDeclared assembly key => blame .notFound (.string assembly) key .null none

/-- A manifest that is refused; its defect is told, unless an integer has too many digits for it. -/
def ofMalformed (m : Malformed) : Failure :=
  match m.defect.digitFault? with
  | some fault => .tooManyDigits fault
  | none => .malformed m

/-- A defect of a manifest is reported as malformed, with its attribution. -/
theorem report_malformed (m : Malformed) :
    (report (.malformed m)).failureClass = .malformed ∧
      (report (.malformed m)).assembly = nameJson m.assembly ∧
      (report (.malformed m)).fqn = nameJson m.fqn :=
  ⟨rfl, rfl, rfl⟩

end Failure

/-- The report of a fault of a reference that is read by itself. -/
def RefFault.report (f : RefFault) : Report :=
  ⟨.malformed, f.message, .null, .null, .null, none⟩

end TypeGraph
