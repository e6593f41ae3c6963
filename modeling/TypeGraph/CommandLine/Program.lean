import TypeGraph.CommandLine.Listing
import TypeGraph.Resolver.SearchRoots
import TypeGraph.System

/-!
# The program

A command line is read, the options are put together from it and a sources file, the modules are
loaded and the listing of the command is printed.  Faults of usage and of a sources file end with the
exit code 2, failures of a load or a look-up with 1.

A run that ends in no such way has a crash: a limit in a sources file that is too large for a real, a
load that meets an integer with too many digits, or a listing for a reader that cannot be encoded.  What
is written as an object is escaped, and reports go where they are escaped too.

**Results.**
* `exit_le_two`: the exit code is 0, 1 or 2.
-/

namespace TypeGraph

/-- A failure that comes from the conversion of a number and is not meant to be reported. -/
def Failure.isCrash : Failure → Bool
  | .tooManyDigits _ | .limitTooLarge => true
  | _ => false

namespace CommandLine

/-- How a run of the program ends. -/
structure Outcome where
  exit : Nat
  stdout : String
  stderr : String
  deriving DecidableEq, Repr

/-- Why a run has no outcome. -/
inductive Crash where
  | sources (fault : SourcesFault)
  | load (failure : Failure)
  | unencodable

/-- The wording of a crash. -/
def Crash.message : Crash → String
  | .sources fault => fault.message
  | .load failure => failure.message
  | .unencodable => "surrogates not allowed"

/-- A run that ends with a fault of usage. -/
def usageOutcome (command : Option CommandName) (fault : UsageFault) : Outcome :=
  ⟨2, "", fault.line command ++ "\n"⟩

/-- The summary of the usage that help shows. -/
def helpText (command : Option CommandName) : String :=
  let commands := " | ".intercalate (CommandName.all.map CommandName.text)
  let switches := (command.map CommandName.switches).getD frontSwitches
  let shown := " ".intercalate (switches.map fun s => "[" ++ s.label ++ "]")
  match command with
  | none => s!"usage: {programName none} {shown} ({commands}) ...\n"
  | some _ => s!"usage: {programName command} {shown} modules ...\n"

/-- A run that does not get as far as a request. -/
def Refusal.outcome : Refusal → Outcome
  | .help command => ⟨0, helpText command, ""⟩
  | .usage command fault => usageOutcome command fault

/-- Why there are no options for a request. -/
inductive OptionsFault where
  | sources (fault : SourcesFault)
  | limitNotPositive

namespace OptionsFault

/-- The wording of a fault. -/
def message : OptionsFault → String
  | .sources fault => fault.message
  | .limitNotPositive => Switch.timeout.label ++ " must be positive"

end OptionsFault

namespace Request

/-- The sources file of a request: the one it names, or the usual one if it is there. -/
def sourcesFile (request : Request) (disk : Disk) : Except SourcesFault (Option Path) :=
  match request.sources with
  | some path => .ok (some path)
  | none =>
      match disk.isFile Sources.defaultPath with
      | .ok true => .ok (some Sources.defaultPath)
      | .ok false => .ok none
      | .error error => .error (.disk error)

/-- The options of the sources file. -/
def fileOptions (request : Request) (disk : Disk) : Except SourcesFault LoadOptions := do
  match ← request.sourcesFile disk with
  | some path => Sources.load disk path
  | none => return .default

/-- The options of a request. -/
def options (request : Request) (disk : Disk) : Except OptionsFault LoadOptions := do
  let found ← (request.fileOptions disk).mapError .sources
  let merged := found.withRoots request.roots
  match request.limit with
  | none => return merged
  | some limit =>
      if limit.isNonpositive then throw .limitNotPositive
      else return { merged with limit := some (.real limit) }

end Request

/-- The report of a successful load to a reader who wants to hear of it. -/
def loadReport (c : Catalog) : String :=
  let names := ", ".intercalate (c.assemblies.map Manifest.name)
  s!"INFO asmreflect.typesys.loader: loaded {c.assemblies.length} assemblies: {names}\n"

/-- A run that ends with a failure; `heard` has been reported before. -/
def failureOutcome (asJson : Bool) (heard : String) (failure : Failure) : Outcome :=
  let report := failure.report
  if asJson then
    let object := Json.object [("ok", .bool false), ("error", report.toJson)]
    ⟨1, Listing.objectLine object, heard⟩
  else ⟨1, "", heard ++ report.line ++ "\n"⟩

/-- A run that ends with a listing; `heard` has been reported before. -/
def listingOutcome (asJson : Bool) (heard : String) (listing : Listing) : Except Crash Outcome :=
  let shown := listing.output asJson
  if Text.holdsHalf shown then .error .unencodable else .ok ⟨0, shown, heard⟩

/-- The run of a request whose options are known. -/
def runLoaded (disk : Disk) (request : Request) (options : LoadOptions) : Except Crash Outcome :=
  let (system, loaded) :=
    TypeSystem.empty.loadRoots (SearchRoots.resolver disk options) options.limit request.modules
  match loaded.result with
  | .error failure =>
      if failure.isCrash then .error (.load failure)
      else .ok (failureOutcome request.asJson "" failure)
  | .ok _ =>
      let heard := if request.isVerbose then loadReport system.catalog else ""
      match (system.ask (Listing.ofCommand request.command)).2 with
      | .error failure => .ok (failureOutcome request.asJson heard failure)
      | .ok listing => listingOutcome request.asJson heard listing

/-- The run of a request. -/
def runRequest (disk : Disk) (request : Request) : Except Crash Outcome :=
  match request.options disk with
  | .error (.sources .limitTooLarge) => .error (.sources .limitTooLarge)
  | .error fault => .ok (usageOutcome none (.refused fault.message))
  | .ok options => runLoaded disk request options

/-- A run of the program. -/
def run (disk : Disk) (arguments : List String) : Except Crash Outcome :=
  match Request.ofArguments arguments with
  | .error refusal => .ok refusal.outcome
  | .ok request => runRequest disk request

/-- The paths that a request looks at, as far as `disk` leads. -/
def requestPaths (disk : Disk) (request : Request) : List Path :=
  Sources.defaultPath :: request.sources.toList ++
    match request.options disk with
    | .error _ => []
    | .ok options =>
        let loaded :=
          (TypeSystem.empty.loadRoots (SearchRoots.resolver disk options) options.limit
            request.modules).2
        loaded.requests.flatMap (SearchRoots.places options)

/-- The paths that a run looks at, as far as `disk` leads. -/
def pathsOf (disk : Disk) (arguments : List String) : List Path :=
  match Request.ofArguments arguments with
  | .error _ => []
  | .ok request => requestPaths disk request

theorem exit_failureOutcome
    (asJson : Bool)
    (heard : String)
    (failure : Failure) :
    (failureOutcome asJson heard failure).exit = 1 := by
  cases asJson <;> rfl

theorem exit_runLoaded_le
    {disk : Disk}
    {request : Request}
    {options : LoadOptions}
    {outcome : Outcome}
    (h : runLoaded disk request options = .ok outcome) :
    outcome.exit ≤ 1 := by
  simp only [runLoaded] at h
  split at h
  · split at h
    · cases h
    · cases h
      simp [exit_failureOutcome]
  · split at h
    · cases h
      simp [exit_failureOutcome]
    · simp only [listingOutcome] at h
      split at h
      · cases h
      · cases h
        simp

/-- The exit code is 0, 1 or 2. -/
theorem exit_le_two
    {disk : Disk}
    {arguments : List String}
    {outcome : Outcome}
    (h : run disk arguments = .ok outcome) :
    outcome.exit ≤ 2 := by
  unfold run at h
  split at h
  · cases h
    rename_i refusal _
    cases refusal <;> simp [Refusal.outcome, usageOutcome]
  · unfold runRequest at h
    split at h
    · cases h
    · cases h
      simp [usageOutcome]
    · exact Nat.le_succ_of_le (exit_runLoaded_le h)

end CommandLine
end TypeGraph
