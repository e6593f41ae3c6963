import TypeGraph.CommandLine.Program
import TypeGraph.Proofs.CommandLine.Sources
import TypeGraph.Proofs.Json.Written
import TypeGraph.Proofs.System.Documented

/-!
# Runs without an outcome

A run has no outcome when something breaks off that it is not prepared for.  This can be the limit of its
sources file, an integer with too many digits in a manifest that its load reads, or a line with half of a
pair that it prints.  Nothing else breaks off: the limit of a request can be waited for, a disk always
answers, and what is printed as an object is in ASCII.

**Results.**
* `Request.options_tooLarge_iff`: when a request has no options because of a limit that is too large.
* `Request.limitFault?_options`: the limit of a request can be waited for.
* `SearchRoots.holdsLong_of_breaksOff`: how the answer of a disk breaks off.
* `Listing.holdsHalf_output_iff`: what is printed of a listing that cannot be encoded.
-/

namespace TypeGraph

/-- A documented failure is no crash. -/
theorem Failure.Documented.not_isCrash
    {failure : Failure}
    (h : failure.Documented) :
    failure.isCrash = false := by
  cases failure <;> first | rfl | simp at h

namespace SearchRoots

variable {disk : Disk} {options : LoadOptions} {identifier : String}

/-- The manifest that is located for an identifier is refused for an integer with too many digits. -/
def HoldsLong (disk : Disk) (options : LoadOptions) (identifier : String)
    (fault : Json.DigitFault) : Prop :=
  ∃ path bytes m, locate disk options identifier = .ok path ∧ disk.read path = .ok bytes ∧
    Manifest.decode (.bytes bytes) = .error m ∧ m.defect.digitFault? = some fault

/-- What a disk answers with is read from the file that is located. -/
theorem exists_of_answer
    {source : Source}
    (h : answer disk options identifier = .source source) :
    ∃ path bytes, locate disk options identifier = .ok path ∧ disk.read path = .ok bytes ∧
      source = .bytes bytes := by
  unfold answer at h
  split at h
  · cases h
  · cases h
  · rename_i path hpath
    split at h
    · cases h
    · rename_i bytes hbytes
      cases h
      exact ⟨path, bytes, hpath, hbytes, rfl⟩

/-- A disk always answers. -/
theorem answer_ne_never :
    answer disk options identifier ≠ .never := by
  unfold answer
  split
  · simp
  · simp
  · split <;> simp

/-- The answer of a disk, within a limit that can be waited for, breaks off only at an integer with too
many digits. -/
theorem holdsLong_of_breaksOff
    {limit : Option Number}
    {failure : Failure}
    (hl : Resolver.limitFault? limit = none)
    (h : (resolver disk options).BreaksOff limit identifier failure) :
    ∃ fault, failure = .tooManyDigits fault ∧ HoldsLong disk options identifier fault := by
  cases h with
  | limit hf =>
      rw [hl] at hf
      cases hf
  | @digits source m fault _ _ ha hd hfault =>
      obtain ⟨path, bytes, hpath, hbytes, rfl⟩ := exists_of_answer ha
      exact ⟨fault, rfl, path, bytes, m, hpath, hbytes, hd, hfault⟩
  | endless _ _ ha => exact absurd ha answer_ne_never

end SearchRoots

namespace Sources

/-- A limit that is read is a real, which can be waited for. -/
theorem limitFault?_limit
    {fields : Json.Fields}
    {given : Option Number}
    (h : limit fields = .ok given) :
    Resolver.limitFault? given = none := by
  unfold limit at h
  split at h
  · cases h
    rfl
  · split_ifs at h
    split at h
    · cases h
      rfl
    · split at h <;> cases h
      rfl
  · cases h

/-- So is the limit of a sources file. -/
theorem limitFault?_load
    {disk : Disk}
    {path : Path}
    {options : LoadOptions}
    (h : load disk path = .ok options) :
    Resolver.limitFault? options.limit = none := by
  obtain ⟨bytes, -, htext⟩ := bind_eq_ok_iff.1 h
  obtain ⟨text, -, hvalue⟩ := bind_eq_ok_iff.1 htext
  obtain ⟨value, -, hread⟩ := bind_eq_ok_iff.1 hvalue
  simp only [ofJson, bind_eq_ok_iff] at hread
  obtain ⟨fields, -, roots, -, name, -, given, hlimit, hoptions⟩ := hread
  cases hoptions
  exact limitFault?_limit hlimit

end Sources

namespace CommandLine

/-- What is printed of a listing cannot be encoded when it is meant for a reader and a line of it holds
half of a pair. -/
theorem Listing.holdsHalf_output_iff
    {listing : Listing}
    {asJson : Bool} :
    Text.holdsHalf (listing.output asJson) = true ↔
      asJson = false ∧ ∃ line ∈ listing.lines, Text.holdsHalf line = true := by
  cases asJson with
  | true =>
      have hascii : Text.Ascii (objectLine listing.object).toList := by
        rw [objectLine, String.toList_append]
        exact Text.ascii_append.2 ⟨Json.ascii_write _, by decide⟩
      have hwhole : Text.holdsHalf (listing.output true) = false := Text.holdsHalf_of_ascii hascii
      simp [hwhole]
  | false =>
      have hnewline : (Text.half? '\n').isSome = false := by decide
      simp [output, Text.holdsHalf, String.toList_join, List.any_flatMap, hnewline]

namespace Request

variable {request : Request} {disk : Disk} {options : LoadOptions}

/-- Looking for the usual sources file fails only because of the disk. -/
theorem sourcesFile_ne_tooLarge
    (request : Request)
    (disk : Disk) :
    request.sourcesFile disk ≠ .error .limitTooLarge := by
  unfold sourcesFile
  split
  · simp
  · split <;> simp

/-- The sources file of a request has a limit that is too large. -/
theorem fileOptions_tooLarge_iff :
    request.fileOptions disk = .error .limitTooLarge ↔
      ∃ path, request.sourcesFile disk = .ok (some path) ∧ Sources.HoldsOverlarge disk path := by
  rw [fileOptions, bind_eq_error_iff]
  constructor
  · rintro (h | ⟨_ | path, hpath, h⟩)
    · exact absurd h (sourcesFile_ne_tooLarge request disk)
    · cases h
    · exact ⟨path, hpath, Sources.load_tooLarge_iff.1 h⟩
  · rintro ⟨path, hpath, h⟩
    exact Or.inr ⟨some path, hpath, Sources.load_tooLarge_iff.2 h⟩

/-- There are no options because the limit of the sources file is too large. -/
theorem options_tooLarge_iff :
    request.options disk = .error (.sources .limitTooLarge) ↔
      ∃ path, request.sourcesFile disk = .ok (some path) ∧ Sources.HoldsOverlarge disk path := by
  rw [← fileOptions_tooLarge_iff, options, bind_eq_error_iff, mapError_eq_error_iff]
  constructor
  · rintro (⟨fault, hfile, he⟩ | ⟨found, -, h⟩)
    · cases he
      exact hfile
    · -- the limit of the command line is a real already
      split at h
      · cases h
      · split_ifs at h <;> cases h
  · exact fun hfile => Or.inl ⟨_, hfile, rfl⟩

/-- The limit of a request can be waited for. -/
theorem limitFault?_options
    (h : request.options disk = .ok options) :
    Resolver.limitFault? options.limit = none := by
  obtain ⟨found, hfile, hmerged⟩ := bind_eq_ok_iff.1 h
  have hfound : Resolver.limitFault? found.limit = none := by
    rw [mapError_eq_ok_iff, fileOptions, bind_eq_ok_iff] at hfile
    obtain ⟨_ | path, -, hload⟩ := hfile
    · cases hload
      rfl
    · exact Sources.limitFault?_load hload
  simp only at hmerged
  split at hmerged
  · cases hmerged
    exact hfound
  · split_ifs at hmerged
    cases hmerged
    rfl

end Request
end CommandLine
end TypeGraph
