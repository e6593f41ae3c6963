import Mathlib
import TypeGraph.Disk.Tree
import TypeGraph.Proofs.CommandLine.Crash
import TypeGraph.Proofs.CommandLine.Listing
import TypeGraph.Proofs.Loading.Loadable
import TypeGraph.Proofs.System.Consulted

/-!
# How the program ends

Whatever the command line is and whatever stands on the disk, the program ends with one of three exit
codes: two for a fault of usage, of the sources file or of the limit, one for modules that cannot be
loaded and for what is not found among them, and zero otherwise.  There are three exceptions, in which the
program has no outcome.  The sources file can have a limit that is an integer without a nearest real, a
manifest can hold an integer with too many digits, and a line for a reader can hold half of a pair.

**Results.**
* `Request.ends_runLoaded`, `ends_run`: the ways in which the run of a request and a run can end.
* `run_ends`: how every run ends.
-/

namespace TypeGraph
namespace TypeSystem

variable {s : TypeSystem} {resolver : Resolver} {limit : Option Number} {identifiers : List String}

/-- After a load of some roots the assemblies are those that were at hand for it. -/
theorem AtRest.has_loadRoots
    (h : s.AtRest)
    {found : List Manifest}
    (hok : (s.loadRoots resolver limit identifiers).2.result = .ok found) :
    (s.loadRoots resolver limit identifiers).1.catalog.Has =
      AtHand (resolver.settle limit) s.catalog identifiers := by
  have halone := loadRoots_alone h.coherent resolver limit identifiers
  rw [hok] at halone
  obtain ⟨batch, hbatch, -, -, hpub, -, -⟩ := halone.published h.coherent
  refine property_ext fun m => ?_
  rw [catalog, hpub.has_iff, hbatch]
  rfl

/-- A load of some roots fails as it is documented, or with an answer that breaks off. -/
theorem AtRest.documented_of_loadRoots
    (h : s.AtRest)
    (hr : resolver.OnlyMisses)
    {failure : Failure}
    (hf : (s.loadRoots resolver limit identifiers).2.result = .error failure) :
    failure.Documented ∨ ∃ identifier, resolver.BreaksOff limit identifier failure := by
  refine h.documented_of_loadTogether limit hr [identifiers] ?_
  rw [h.loadTogether_singleton, hf]
  exact List.mem_singleton.2 rfl

end TypeSystem

namespace CommandLine

namespace Request

variable (request : Request) (disk : Disk) (options : LoadOptions)

/-- The modules of a request can be loaded. -/
def Loads : Prop :=
  Loadable ((SearchRoots.resolver disk options).settle options.limit) .empty request.modules

/-- What a request asks about is declared by an assembly that its modules require. -/
def Finds : Prop :=
  request.command.Declared
    (Required ((SearchRoots.resolver disk options).settle options.limit) .empty request.modules)

/-- The load of the modules of a request. -/
abbrev loading : TypeSystem × Loaded (Except Failure (List Manifest)) :=
  TypeSystem.empty.loadRoots (SearchRoots.resolver disk options) options.limit request.modules

/-- The load of the modules meets an integer with too many digits in a manifest. -/
def LoadsLong (fault : Json.DigitFault) : Prop :=
  (request.loading disk options).2.result = .error (.tooManyDigits fault) ∧
    ∃ identifier, SearchRoots.HoldsLong disk options identifier fault

/-- What the request asks about is listed for a reader, and a line of the listing holds half of a
pair. -/
def ShowsHalf : Prop :=
  request.asJson = false ∧ ∃ listing,
    ((request.loading disk options).1.ask (Listing.ofCommand request.command)).2 = .ok listing ∧
      ∃ line ∈ listing.lines, Text.holdsHalf line = true

end Request

section Runs

variable (disk : Disk) (arguments : List String)

/-- The command line asks for a request, and these are its options. -/
def Asks (request : Request) (options : LoadOptions) : Prop :=
  Request.ofArguments arguments = .ok request ∧ request.options disk = .ok options

/-- The command line asks for help. -/
def AsksHelp : Prop :=
  ∃ command, Request.ofArguments arguments = .error (.help command)

/-- The command line is at fault, or there are no options for its request. -/
def Misused : Prop :=
  (∃ command fault, Request.ofArguments arguments = .error (.usage command fault)) ∨
    ∃ request fault, Request.ofArguments arguments = .ok request ∧
      request.options disk = .error fault

/-- The sources file of the request would be accepted without its limit, which is an integer without a
nearest real. -/
def Overlarge : Prop :=
  ∃ request path, Request.ofArguments arguments = .ok request ∧
    request.sourcesFile disk = .ok (some path) ∧ Sources.HoldsOverlarge disk path

/-- The modules of the request cannot be loaded: their load meets an integer with too many digits. -/
def MeetsLong (fault : Json.DigitFault) : Prop :=
  ∃ request options, Asks disk arguments request options ∧ ¬ request.Loads disk options ∧
    request.LoadsLong disk options fault

/-- The modules of the request can be loaded and what it asks about is found, but is listed for a reader
with half of a pair. -/
def MeetsHalf : Prop :=
  ∃ request options, Asks disk arguments request options ∧ request.Loads disk options ∧
    request.Finds disk options ∧ request.ShowsHalf disk options

/-- An outcome reports a failure of a certain sort. -/
def Outcome.Reports (outcome : Outcome) (asJson : Bool) (P : Failure → Prop) : Prop :=
  ∃ heard failure, P failure ∧ outcome = failureOutcome asJson heard failure

/-- The modules of the request cannot be loaded, and the outcome reports a failure that loads are
documented to end with; or what the request asks about is not found among what they require, and the
outcome reports that. -/
def Outcome.ReportsFailure (outcome : Outcome) : Prop :=
  ∃ request options, Asks disk arguments request options ∧
    (¬ request.Loads disk options ∧ outcome.Reports request.asJson Failure.Documented ∨
      request.Loads disk options ∧ ¬ request.Finds disk options ∧
        outcome.Reports request.asJson Failure.SaysNotFound)

/-- The command line asks for help, or for modules that can be loaded and something that is found among
what they require. -/
def Fulfilled : Prop :=
  AsksHelp arguments ∨ ∃ request options, Asks disk arguments request options ∧
    request.Loads disk options ∧ request.Finds disk options

end Runs

/-- The ways in which the run of a request with its options ends. -/
inductive Request.Ends (request : Request) (disk : Disk) (options : LoadOptions) :
    Except Crash Outcome → Prop
  | meetsLong {fault : Json.DigitFault} :
      ¬ request.Loads disk options →
      request.LoadsLong disk options fault →
      Ends request disk options (.error (.load (.tooManyDigits fault)))
  | failsToLoad {outcome : Outcome} :
      ¬ request.Loads disk options →
      (∀ fault, ¬ request.LoadsLong disk options fault) →
      outcome.Reports request.asJson Failure.Documented →
      Ends request disk options (.ok outcome)
  | failsToFind {outcome : Outcome} :
      request.Loads disk options →
      ¬ request.Finds disk options →
      outcome.Reports request.asJson Failure.SaysNotFound →
      Ends request disk options (.ok outcome)
  | meetsHalf :
      request.Loads disk options →
      request.Finds disk options →
      request.ShowsHalf disk options →
      Ends request disk options (.error .unencodable)
  | lists {outcome : Outcome} :
      request.Loads disk options →
      request.Finds disk options →
      ¬ request.ShowsHalf disk options →
      outcome.exit = 0 →
      Ends request disk options (.ok outcome)

/-- The ways in which a run ends. -/
inductive Ends (disk : Disk) (arguments : List String) : Except Crash Outcome → Prop
  | helped {outcome : Outcome} :
      AsksHelp arguments →
      outcome.exit = 0 →
      Ends disk arguments (.ok outcome)
  | refused {outcome : Outcome} :
      Misused disk arguments →
      ¬ Overlarge disk arguments →
      outcome.exit = 2 →
      Ends disk arguments (.ok outcome)
  | overlarge :
      Overlarge disk arguments →
      Ends disk arguments (.error (.sources .limitTooLarge))
  | asked {request : Request} {options : LoadOptions} {result : Except Crash Outcome} :
      Asks disk arguments request options →
      request.Ends disk options result →
      Ends disk arguments result

section Loading

variable (request : Request) (disk : Disk) (options : LoadOptions)

/-- The modules of a request are loaded when they can be. -/
theorem Request.loading_ok_iff :
    (∃ found, (request.loading disk options).2.result = .ok found) ↔
      request.Loads disk options := by
  have hc : TypeSystem.empty.catalog.Coherent := TypeSystem.atRest_empty.coherent
  exact (TypeSystem.loadRoots_alone hc _ _ _).ok_iff hc

/-- When the modules are loaded, what the request asks about is found when they require it. -/
theorem Request.ask_loading
    {found : List Manifest}
    (hok : (request.loading disk options).2.result = .ok found) :
    let asked := ((request.loading disk options).1.ask (Listing.ofCommand request.command)).2
    (request.Finds disk options ∧ ∃ listing, asked = .ok listing) ∨
      (¬ request.Finds disk options ∧ ∃ failure, asked = .error failure ∧ failure.SaysNotFound) := by
  have horderly : (request.loading disk options).1.moment.Orderly :=
    (TypeSystem.reached_after [.loadRoots (SearchRoots.resolver disk options) options.limit
      request.modules]).orderly
  have hhas : (request.loading disk options).1.catalog.Has =
      Required ((SearchRoots.resolver disk options).settle options.limit) .empty
        request.modules := by
    rw [TypeSystem.atRest_empty.has_loadRoots hok]
    exact property_ext fun m => or_iff_right (List.not_mem_nil)
  have hasked := Listing.answersWhen_ofCommand horderly.coherent request.command
  change (Listing.ofCommand request.command).AnswersWhen (request.loading disk options).1.catalog
    (request.command.Declared (request.loading disk options).1.catalog.Has) at hasked
  rw [hhas] at hasked
  exact hasked.ask horderly.sincere

/-- The run of a request with its options ends in one of its ways. -/
theorem Request.ends_runLoaded
    (hl : Resolver.limitFault? options.limit = none) :
    request.Ends disk options (runLoaded disk request options) := by
  have hloads := request.loading_ok_iff disk options
  cases hresult : (request.loading disk options).2.result with
  | error failure =>
      have hnot : ¬ request.Loads disk options := by
        intro hload
        obtain ⟨found, hok⟩ := hloads.2 hload
        rw [hresult] at hok
        cases hok
      have hmisses := SearchRoots.onlyMisses_resolver disk options
      rcases TypeSystem.atRest_empty.documented_of_loadRoots hmisses hresult with
        hdocumented | ⟨identifier, hbreaks⟩
      · have hrun : runLoaded disk request options = .ok (failureOutcome request.asJson "" failure) := by
          simp [runLoaded, hresult, hdocumented.not_isCrash]
        rw [hrun]
        refine .failsToLoad hnot ?_ ⟨"", failure, hdocumented, rfl⟩
        rintro fault ⟨hlong, -⟩
        cases hresult.symm.trans hlong
        simp at hdocumented
      · obtain ⟨fault, rfl, hholds⟩ := SearchRoots.holdsLong_of_breaksOff hl hbreaks
        have hrun : runLoaded disk request options = .error (.load (.tooManyDigits fault)) := by
          simp [runLoaded, hresult, Failure.isCrash]
        rw [hrun]
        exact .meetsLong hnot ⟨hresult, identifier, hholds⟩
  | ok found =>
      have hload := hloads.1 ⟨found, hresult⟩
      rcases request.ask_loading disk options hresult with
        ⟨hfinds, listing, ha⟩ | ⟨hnot, failure, ha, hsays⟩
      · have hshows : request.ShowsHalf disk options ↔
            Text.holdsHalf (listing.output request.asJson) = true := by
          simp only [ShowsHalf, ha, Except.ok.injEq, exists_eq_left', Listing.holdsHalf_output_iff]
        simp only [runLoaded, hresult, ha, listingOutcome]
        split
        · exact .meetsHalf hload hfinds (hshows.2 ‹_›)
        · exact .lists hload hfinds (mt hshows.1 ‹_›) rfl
      · simp only [runLoaded, hresult, ha]
        exact .failsToFind hload hnot ⟨_, failure, hsays, rfl⟩

end Loading

section Ends

variable {disk : Disk} {arguments : List String}

/-- A report of a failure ends with the exit code 1. -/
theorem Outcome.Reports.exit_eq
    {outcome : Outcome}
    {asJson : Bool}
    {P : Failure → Prop}
    (h : outcome.Reports asJson P) :
    outcome.exit = 1 := by
  obtain ⟨heard, failure, -, rfl⟩ := h
  exact exit_failureOutcome asJson heard failure

/-- A limit that is too large is a fault of the sources file. -/
theorem Overlarge.misused
    (h : Overlarge disk arguments) :
    Misused disk arguments := by
  obtain ⟨request, path, hrequest, hpath, hover⟩ := h
  exact Or.inr ⟨request, _, hrequest, Request.options_tooLarge_iff.2 ⟨path, hpath, hover⟩⟩

/-- A command line asks for one request with one choice of options. -/
theorem Asks.unique
    {request request' : Request}
    {options options' : LoadOptions}
    (h : Asks disk arguments request options)
    (h' : Asks disk arguments request' options') :
    request = request' ∧ options = options' := by
  obtain ⟨hrequest, hoptions⟩ := h
  obtain ⟨hrequest', hoptions'⟩ := h'
  cases hrequest.symm.trans hrequest'
  cases hoptions.symm.trans hoptions'
  exact ⟨rfl, rfl⟩

/-- A command line that asks for something is not at fault. -/
theorem Asks.not_misused
    {request : Request}
    {options : LoadOptions}
    (h : Asks disk arguments request options) :
    ¬ Misused disk arguments := by
  obtain ⟨hrequest, hoptions⟩ := h
  rintro (⟨command, fault, hrefused⟩ | ⟨request', fault, hrequest', hfault⟩)
  · cases hrequest.symm.trans hrefused
  · cases hrequest.symm.trans hrequest'
    cases hoptions.symm.trans hfault

/-- A command line that asks for help asks for nothing else, and is not at fault. -/
theorem AsksHelp.not_asks
    {request : Request}
    {options : LoadOptions}
    (h : AsksHelp arguments) :
    ¬ Asks disk arguments request options := by
  rintro ⟨hrequest, -⟩
  obtain ⟨command, hhelp⟩ := h
  cases hrequest.symm.trans hhelp

theorem AsksHelp.not_misused
    (h : AsksHelp arguments) :
    ¬ Misused disk arguments := by
  obtain ⟨command, hhelp⟩ := h
  rintro (⟨command', fault, hrefused⟩ | ⟨request, fault, hrequest, -⟩)
  · cases hhelp.symm.trans hrefused
  · cases hhelp.symm.trans hrequest

/-- A limit that is too large is told by the options. -/
theorem overlarge_iff
    {request : Request}
    (h : Request.ofArguments arguments = .ok request) :
    Overlarge disk arguments ↔ request.options disk = .error (.sources .limitTooLarge) := by
  simp only [Overlarge, h, Except.ok.injEq, exists_and_left, exists_eq_left',
    Request.options_tooLarge_iff]

/-- A run ends in one of its ways. -/
theorem ends_run
    (disk : Disk)
    (arguments : List String) :
    Ends disk arguments (run disk arguments) := by
  unfold run
  split
  · rename_i refusal hrefused
    cases refusal with
    | help command => exact .helped ⟨command, hrefused⟩ rfl
    | usage command fault =>
        refine .refused (Or.inl ⟨command, fault, hrefused⟩) ?_ rfl
        rintro ⟨request, path, hrequest, -⟩
        cases hrefused.symm.trans hrequest
  · rename_i request hrequest
    unfold runRequest
    split
    · rename_i hoptions
      exact .overlarge ((overlarge_iff hrequest).2 hoptions)
    · rename_i fault hother hoptions
      refine .refused (Or.inr ⟨request, fault, hrequest, hoptions⟩) ?_ rfl
      rw [overlarge_iff hrequest, hoptions]
      exact fun he => hother (Except.error.inj he)
    · rename_i options hoptions
      exact .asked ⟨hrequest, hoptions⟩
        (request.ends_runLoaded disk options (Request.limitFault?_options hoptions))

/-- A run that reports a failure is neither at fault nor fulfilled. -/
theorem Outcome.ReportsFailure.not_misused
    {outcome : Outcome}
    (h : outcome.ReportsFailure disk arguments) :
    ¬ Misused disk arguments := by
  obtain ⟨request, options, hasks, -⟩ := h
  exact hasks.not_misused

theorem Outcome.ReportsFailure.not_fulfilled
    {outcome : Outcome}
    (h : outcome.ReportsFailure disk arguments) :
    ¬ Fulfilled disk arguments := by
  obtain ⟨request, options, hasks, hfails⟩ := h
  rintro (hhelp | ⟨request', options', hasks', hload, hfinds⟩)
  · exact hhelp.not_asks hasks
  · obtain ⟨rfl, rfl⟩ := hasks.unique hasks'
    rcases hfails with ⟨hnot, -⟩ | ⟨-, hnot, -⟩
    · exact hnot hload
    · exact hnot hfinds

/-- A run that is fulfilled is not at fault. -/
theorem Fulfilled.not_misused
    (h : Fulfilled disk arguments) :
    ¬ Misused disk arguments := by
  rcases h with hhelp | ⟨request, options, hasks, -⟩
  · exact hhelp.not_misused
  · exact hasks.not_misused

/-- A run whose load meets an integer with too many digits is not fulfilled, and neither at fault. -/
theorem MeetsLong.not_fulfilled
    {fault : Json.DigitFault}
    (h : MeetsLong disk arguments fault) :
    ¬ Fulfilled disk arguments := by
  obtain ⟨request, options, hasks, hnot, -⟩ := h
  rintro (hhelp | ⟨request', options', hasks', hload, -⟩)
  · exact hhelp.not_asks hasks
  · obtain ⟨rfl, rfl⟩ := hasks.unique hasks'
    exact hnot hload

theorem MeetsLong.not_misused
    {fault : Json.DigitFault}
    (h : MeetsLong disk arguments fault) :
    ¬ Misused disk arguments := by
  obtain ⟨request, options, hasks, -⟩ := h
  exact hasks.not_misused

/-- A run that meets half of a pair would be fulfilled. -/
theorem MeetsHalf.fulfilled
    (h : MeetsHalf disk arguments) :
    Fulfilled disk arguments := by
  obtain ⟨request, options, hasks, hload, hfinds, -⟩ := h
  exact Or.inr ⟨request, options, hasks, hload, hfinds⟩

/-- A run has no outcome in three cases only. -/
theorem Ends.crash_cases
    {crash : Crash}
    (h : Ends disk arguments (.error crash)) :
    (Overlarge disk arguments ∧ crash = .sources .limitTooLarge) ∨
      (∃ fault, MeetsLong disk arguments fault ∧ crash = .load (.tooManyDigits fault)) ∨
      (MeetsHalf disk arguments ∧ crash = .unencodable) := by
  cases h with
  | overlarge hover => exact Or.inl ⟨hover, rfl⟩
  | @asked request options _ hasks hends =>
      cases hends with
      | @meetsLong fault hnot hlong =>
          exact Or.inr (Or.inl ⟨fault, ⟨request, options, hasks, hnot, hlong⟩, rfl⟩)
      | meetsHalf hload hfinds hshows =>
          exact Or.inr (Or.inr ⟨⟨request, options, hasks, hload, hfinds, hshows⟩, rfl⟩)

/-- A run with an outcome is none of these cases. -/
theorem Ends.not_crash
    {outcome : Outcome}
    (h : Ends disk arguments (.ok outcome)) :
    ¬ Overlarge disk arguments ∧ (∀ fault, ¬ MeetsLong disk arguments fault) ∧
      ¬ MeetsHalf disk arguments := by
  cases h with
  | helped hhelp _ =>
      exact ⟨fun hover => hhelp.not_misused hover.misused,
        fun fault ⟨_, _, hasks, _⟩ => hhelp.not_asks hasks,
        fun ⟨_, _, hasks, _⟩ => hhelp.not_asks hasks⟩
  | refused hmisused hover _ =>
      exact ⟨hover, fun fault hmeets => hmeets.not_misused hmisused,
        fun hmeets => hmeets.fulfilled.not_misused hmisused⟩
  | asked hasks hends =>
      refine ⟨fun hover => hasks.not_misused hover.misused, ?_, ?_⟩
      · rintro fault ⟨request, options, hasks', hnot, hlong⟩
        obtain ⟨rfl, rfl⟩ := hasks.unique hasks'
        cases hends with
        | failsToLoad _ hnever _ => exact hnever fault hlong
        | failsToFind hload _ _ => exact hnot hload
        | lists hload _ _ _ => exact hnot hload
      · rintro ⟨request, options, hasks', hload, hfinds, hshows⟩
        obtain ⟨rfl, rfl⟩ := hasks.unique hasks'
        cases hends with
        | failsToLoad hnot _ _ => exact hnot hload
        | failsToFind _ hnot _ => exact hnot hfinds
        | lists _ _ hnever _ => exact hnever hshows

/-- What a run with an outcome was, by its exit code. -/
theorem Ends.exit_cases
    {outcome : Outcome}
    (h : Ends disk arguments (.ok outcome)) :
    (outcome.exit = 2 ∧ Misused disk arguments) ∨
      (outcome.exit = 1 ∧ outcome.ReportsFailure disk arguments) ∨
      (outcome.exit = 0 ∧ Fulfilled disk arguments) := by
  cases h with
  | helped hhelp hexit => exact Or.inr (Or.inr ⟨hexit, Or.inl hhelp⟩)
  | refused hmisused _ hexit => exact Or.inl ⟨hexit, hmisused⟩
  | @asked request options _ hasks hends =>
      cases hends with
      | failsToLoad hnot _ hreports =>
          exact Or.inr (Or.inl ⟨hreports.exit_eq, request, options, hasks, Or.inl ⟨hnot, hreports⟩⟩)
      | failsToFind hload hnot hreports =>
          exact Or.inr (Or.inl ⟨hreports.exit_eq, request, options, hasks,
            Or.inr ⟨hload, hnot, hreports⟩⟩)
      | lists hload hfinds _ hexit =>
          exact Or.inr (Or.inr ⟨hexit, Or.inr ⟨request, options, hasks, hload, hfinds⟩⟩)

/-- For every disk and every command line, the run ends in one of four ways.  The first three have no
outcome: the sources file has a limit that is too large, and would be accepted without it; or the load of
the modules meets an integer with too many digits, in a manifest that is located on the disk; or the
request is fulfilled, but what it lists for a reader has a line with half of a pair.

In all other cases the run has an outcome, and its exit code is 2 when the command line or its options are
at fault, 1 when the modules cannot be loaded or what the request asks about is not found among what they
require, and 0 when help is asked for or the request is fulfilled.  With the exit code 1 the run reports a
failure that loads are documented to end with, or that something is not found. -/
theorem run_ends
    (disk : Disk)
    (arguments : List String) :
    (Overlarge disk arguments ∧ Misused disk arguments ∧
      run disk arguments = .error (.sources .limitTooLarge)) ∨
    (∃ fault, MeetsLong disk arguments fault ∧
      run disk arguments = .error (.load (.tooManyDigits fault))) ∨
    (MeetsHalf disk arguments ∧ Fulfilled disk arguments ∧
      run disk arguments = .error .unencodable) ∨
    (¬ Overlarge disk arguments ∧ (∀ fault, ¬ MeetsLong disk arguments fault) ∧
      ¬ MeetsHalf disk arguments ∧ ∃ outcome, run disk arguments = .ok outcome ∧
        outcome.exit ∈ [0, 1, 2] ∧
        (outcome.exit = 2 ↔ Misused disk arguments) ∧
        (outcome.exit = 1 ↔ outcome.ReportsFailure disk arguments) ∧
        (outcome.exit = 0 ↔ Fulfilled disk arguments)) := by
  have hends := ends_run disk arguments
  cases hrun : run disk arguments with
  | error crash =>
      rw [hrun] at hends
      rcases hends.crash_cases with ⟨hover, rfl⟩ | ⟨fault, hlong, rfl⟩ | ⟨hhalf, rfl⟩
      · exact Or.inl ⟨hover, hover.misused, rfl⟩
      · exact Or.inr (Or.inl ⟨fault, hlong, rfl⟩)
      · exact Or.inr (Or.inr (Or.inl ⟨hhalf, hhalf.fulfilled, rfl⟩))
  | ok outcome =>
      rw [hrun] at hends
      obtain ⟨hover, hlong, hhalf⟩ := hends.not_crash
      refine Or.inr (Or.inr (Or.inr ⟨hover, hlong, hhalf, outcome, rfl, ?_⟩))
      rcases hends.exit_cases with ⟨hexit, hmisused⟩ | ⟨hexit, hfails⟩ | ⟨hexit, hfulfilled⟩
      · have hfails : ¬ outcome.ReportsFailure disk arguments := fun h => h.not_misused hmisused
        have hfulfilled : ¬ Fulfilled disk arguments := fun h => h.not_misused hmisused
        simp [hexit, hmisused, hfails, hfulfilled]
      · simp [hexit, hfails, hfails.not_misused, hfails.not_fulfilled]
      · have hfails : ¬ outcome.ReportsFailure disk arguments := fun h => h.not_fulfilled hfulfilled
        simp [hexit, hfulfilled, hfails, hfulfilled.not_misused]

end Ends

/-- A working directory with the manifest of a library and nothing else; `written` is how the manifest
spells the version. -/
def libraryAlone (written : String) : FileTree :=
  FileTree.empty.write (.ofText "lib.json")
    (Text.asciiBytes ("\x7b\"name\":\"lib\",\"version\":\"" ++ written ++ "\"\x7d").toList)

/-- The same manifest in a table. -/
def libraryTabled (version : String) : AnswerTable :=
  [("lib.json", .source (.value (.object [("name", .string "lib"), ("version", .string version)])))]

/-- The request for the assemblies of the library. -/
def listLibrary : Request :=
  ⟨false, ["lib.json"], [], none, none, false, .assemblies⟩

/-- A version that is half of a pair. -/
def halfVersion : String :=
  String.ofList [Text.halfChar 0xD800]

/-- The load of the library from the table. -/
abbrev tabledLoad (version : String) : TypeSystem × Loaded (Except Failure (List Manifest)) :=
  TypeSystem.empty.loadRoots (AnswerTable.resolver (libraryTabled version)) none ["lib.json"]

/-- The lines of the assemblies that are loaded. -/
def linesOf (s : TypeSystem) : Except Failure (List String) :=
  (s.ask (Listing.ofCommand .assemblies)).2.map Listing.lines

/-- If the working directory answers as the table does, the library is loaded and listed as from the
table. -/
theorem listLibrary_listed
    {disk : Disk}
    {version : String}
    {lines : List String}
    (halike : (AnswerTable.resolver (libraryTabled version)).AnswersAlike
      (SearchRoots.resolver disk .default) none "lib.json")
    (htabled : ((tabledLoad version).2.requests, (tabledLoad version).2.result.isOk,
      linesOf (tabledLoad version).1) = (["lib.json"], true, .ok lines)) :
    listLibrary.Loads disk .default ∧ linesOf (listLibrary.loading disk .default).1 = .ok lines := by
  obtain ⟨hrequests, hok, hlines⟩ := by simpa only [Prod.mk.injEq] using htabled
  have hsame : listLibrary.loading disk .default = tabledLoad version := by
    refine TypeSystem.atRest_empty.loadRoots_congr fun identifier hi => ?_
    change identifier ∈ (tabledLoad version).2.requests at hi
    rw [hrequests] at hi
    obtain rfl := List.mem_singleton.1 hi
    exact halike
  refine ⟨(listLibrary.loading_ok_iff disk .default).1 ?_, by rw [hsame, hlines]⟩
  rw [hsame]
  cases hresult : (tabledLoad version).2.result with
  | error failure =>
      rw [hresult] at hok
      cases hok
  | ok found => exact ⟨found, rfl⟩

/-- A line of what is listed holds half of a pair. -/
theorem listLibrary_showsHalf_iff
    {disk : Disk}
    {lines : List String}
    (h : linesOf (listLibrary.loading disk .default).1 = .ok lines) :
    listLibrary.ShowsHalf disk .default ↔ ∃ line ∈ lines, Text.holdsHalf line = true := by
  unfold linesOf at h
  cases hasked : ((listLibrary.loading disk .default).1.ask (Listing.ofCommand .assemblies)).2 with
  | error failure =>
      rw [hasked] at h
      cases h
  | ok listing =>
      rw [hasked] at h
      cases h
      constructor
      · rintro ⟨-, listing', hlisting', hhalf⟩
        cases hasked.symm.trans hlisting'
        exact hhalf
      · exact fun hhalf => ⟨rfl, listing, hasked, hhalf⟩

/-- The command line for that request asks for it. -/
theorem asks_listLibrary
    (written : String) :
    Asks (libraryAlone written).disk ["assemblies", "lib.json"] listLibrary .default :=
  ⟨by rfl, by rfl⟩

/-- The library is loaded, so the run that lists it ends with the exit code 0.  The run that asks for
another module ends with 1 and the run that asks for none with 2: the one reports a failure, and the
other is at fault.  If the version of the library is half of a pair, the run that lists it has no
outcome. -/
theorem run_ends_of_libraryAlone :
    let disk := (libraryAlone "1").disk
    (∃ outcome, run disk ["assemblies", "lib.json"] = .ok outcome ∧ outcome.exit = 0) ∧
    (∃ outcome, run disk ["assemblies", "a"] = .ok outcome ∧
      outcome.ReportsFailure disk ["assemblies", "a"]) ∧
    Misused disk ["assemblies"] ∧
    run (libraryAlone "\\ud800").disk ["assemblies", "lib.json"] = .error .unencodable := by
  intro disk
  have hloaded : listLibrary.Loads disk .default ∧
      linesOf (listLibrary.loading disk .default).1 = .ok ["* lib@1"] :=
    @listLibrary_listed disk "1" _ ⟨by rfl, by rfl⟩ (by cbv)
  have hhalf : listLibrary.Loads (libraryAlone "\\ud800").disk .default ∧
      linesOf (listLibrary.loading (libraryAlone "\\ud800").disk .default).1 =
        .ok ["* lib@" ++ halfVersion] :=
    @listLibrary_listed _ halfVersion _ ⟨by rfl, by rfl⟩ (by cbv)
  refine ⟨?_, ?_, ?_, ?_⟩
  · have hfulfilled : Fulfilled disk ["assemblies", "lib.json"] :=
      Or.inr ⟨listLibrary, .default, asks_listLibrary "1", hloaded.1, trivial⟩
    rcases run_ends disk ["assemblies", "lib.json"] with
      ⟨-, hmisused, -⟩ | ⟨fault, hlong, -⟩ | ⟨hmeets, -⟩ | ⟨-, -, -, outcome, hrun, -, -, -, hzero⟩
    · exact absurd hmisused hfulfilled.not_misused
    · exact absurd hfulfilled hlong.not_fulfilled
    · obtain ⟨request, options, hasks, -, -, hshows⟩ := hmeets
      obtain ⟨rfl, rfl⟩ := (asks_listLibrary "1").unique hasks
      obtain ⟨line, hline, hholds⟩ := (listLibrary_showsHalf_iff hloaded.2).1 hshows
      rw [List.mem_singleton.1 hline] at hholds
      exact absurd hholds (by decide)
    · exact ⟨outcome, hrun, hzero.2 hfulfilled⟩
  · have hexit : (run disk ["assemblies", "a"]).toOption.map Outcome.exit = some 1 := by
      decide +kernel
    rcases run_ends disk ["assemblies", "a"] with
      ⟨-, -, hrun⟩ | ⟨fault, -, hrun⟩ | ⟨-, -, hrun⟩ | ⟨-, -, -, outcome, hrun, -, -, hone, -⟩
    case inr.inr.inr =>
      rw [hrun] at hexit
      exact ⟨outcome, hrun, hone.1 (by simpa [Except.toOption] using hexit)⟩
    all_goals
      rw [hrun] at hexit
      cases hexit
  · have hexit : (run disk ["assemblies"]).toOption.map Outcome.exit = some 2 := by
      decide +kernel
    rcases run_ends disk ["assemblies"] with
      ⟨-, -, hrun⟩ | ⟨fault, -, hrun⟩ | ⟨-, -, hrun⟩ | ⟨-, -, -, outcome, hrun, -, htwo, -, -⟩
    case inr.inr.inr =>
      rw [hrun] at hexit
      exact htwo.1 (by simpa [Except.toOption] using hexit)
    all_goals
      rw [hrun] at hexit
      cases hexit
  · have hshows : listLibrary.ShowsHalf (libraryAlone "\\ud800").disk .default :=
      (listLibrary_showsHalf_iff hhalf.2).2 ⟨_, List.mem_singleton.2 rfl, by decide +kernel⟩
    have hmeets : MeetsHalf (libraryAlone "\\ud800").disk ["assemblies", "lib.json"] :=
      ⟨listLibrary, .default, asks_listLibrary _, hhalf.1, trivial, hshows⟩
    rcases run_ends (libraryAlone "\\ud800").disk ["assemblies", "lib.json"] with
      ⟨-, hmisused, -⟩ | ⟨fault, hlong, -⟩ | ⟨-, -, hrun⟩ | ⟨-, -, hnot, -⟩
    · exact absurd hmisused hmeets.fulfilled.not_misused
    · exact absurd hmeets.fulfilled hlong.not_fulfilled
    · exact hrun
    · exact absurd hmeets hnot

/-- A sources file that allows `2 · 10 ^ 308` seconds for each manifest. -/
def patientSources : List Char :=
  "\x7b\"format\": \"asmreflect-sources\", \"version\": 0, \"resolve_timeout\": 2".toList ++
    List.replicate 308 '0' ++ ['\x7d']

/-- A working directory with a sources file. -/
def withSources (chars : List Char) : FileTree :=
  FileTree.empty.write Sources.defaultPath (Text.asciiBytes chars)

/-- With that sources file, the run that lists the assembly of a module is at fault and has no outcome. -/
theorem no_outcome_of_patientSources :
    let disk := (withSources patientSources).disk
    Misused disk ["assemblies", "a"] ∧
      ¬ ∃ outcome, run disk ["assemblies", "a"] = .ok outcome ∧ outcome.exit ∈ [0, 1, 2] := by
  intro disk
  have hascii : Text.Ascii patientSources := by decide +kernel
  have hholds : Sources.HoldsOverlarge disk Sources.defaultPath :=
    Sources.holdsOverlarge_of_ascii rfl hascii (by decide +kernel)
  have hover : Overlarge disk ["assemblies", "a"] :=
    ⟨⟨false, ["a"], [], none, none, false, .assemblies⟩, Sources.defaultPath, by rfl, by rfl, hholds⟩
  refine ⟨hover.misused, ?_⟩
  rintro ⟨outcome, hrun, -⟩
  have hends := ends_run disk ["assemblies", "a"]
  rw [hrun] at hends
  exact hends.not_crash.1 hover

end CommandLine
end TypeGraph
