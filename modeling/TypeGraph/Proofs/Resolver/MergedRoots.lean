import TypeGraph.Proofs.Distinct
import TypeGraph.Proofs.Result
import TypeGraph.Resolver.SearchRoots

/-!
# Merged search roots

Search roots are merged by putting the new ones in front and keeping each where it comes first.  The
places below a root that was searched before are looked at in vain the second time, so that a search
below the merged roots ends as a search below all of them one after the other.

**Results.**
* `SearchRoots.firstFile_eraseDups`: repeated roots do not change the first place where a file stands.
* `SearchRoots.SearchAlike.answer_source_iff`: where searches end alike the same manifests are found.
* `LoadOptions.withRoots_union`: merging search roots is a union that keeps their order, and it does not
  change what is found.
-/

namespace TypeGraph

/-- The options with other directories. -/
def LoadOptions.searching (options : LoadOptions) (roots : List Path) : LoadOptions :=
  { options with searchRoots := roots }

namespace SearchRoots

/-- The fault of the disk that ended a search; there is none when the search came to its end. -/
def LocateFault.disk? : LocateFault → Option DiskError
  | .disk error => some error
  | .nowhere _ _ => none

/-- Searches with either options find the same place, or fail both: at the same fault of the disk, or
because there is no place.  The places that were looked at may differ. -/
def SearchAlike (disk : Disk) (options others : LoadOptions) : Prop :=
  ∀ identifier, (locate disk options identifier).mapError LocateFault.disk? =
    (locate disk others identifier).mapError LocateFault.disk?

section FirstFile

variable {disk : Disk}

/-- How a search ends at a place, if it ends there. -/
def verdict (disk : Disk) (path : Path) : Option (Except DiskError (Option Path)) :=
  match disk.isFile path with
  | .error error => some (.error error)
  | .ok true => some (.ok (some path))
  | .ok false => none

/-- A search ends at the first place where it can end. -/
theorem firstFile_eq_findSome?
    (places : List Path) :
    firstFile disk places = (places.findSome? (verdict disk)).getD (.ok none) := by
  induction places with
  | nil => rfl
  | cons place rest ih =>
      rw [firstFile, List.findSome?_cons, verdict]
      cases disk.isFile place with
      | error error => rfl
      | ok found =>
          cases found with
          | true => rfl
          | false => exact ih

/-- Repeated roots do not change the first place where a file stands. -/
theorem firstFile_eraseDups
    (first : List Path)
    (below : Path → List Path)
    (roots : List Path) :
    firstFile disk (first ++ roots.eraseDups.flatMap below) =
      firstFile disk (first ++ roots.flatMap below) := by
  simp only [firstFile_eq_findSome?, List.findSome?_append, findSome?_flatMap, findSome?_eraseDups]

end FirstFile

section Search

variable {disk : Disk} {options others : LoadOptions}

/-- Roots can be searched once each. -/
theorem searchAlike_eraseDups
    (options : LoadOptions)
    (roots : List Path) :
    SearchAlike disk (options.searching roots.eraseDups) (options.searching roots) := by
  intro identifier
  simp only [locate_eq, candidates, LoadOptions.searching]
  cases direct disk options.manifestFile identifier with
  | error error => rfl
  | ok first =>
      simp only [bind, Except.bind, pure, Except.pure, firstFile_eraseDups]
      cases firstFile disk (first ++ roots.flatMap (below options.manifestFile identifier)) with
      | error error => rfl
      | ok found => cases found <;> rfl

/-- Where searches end alike, one finds a place when the other finds it. -/
theorem SearchAlike.locate_ok_iff
    (h : SearchAlike disk options others)
    (identifier : String)
    (path : Path) :
    locate disk options identifier = .ok path ↔ locate disk others identifier = .ok path := by
  rw [← mapError_eq_ok_iff (f := LocateFault.disk?), h identifier, mapError_eq_ok_iff]

/-- A manifest is found when its place is, and can be read. -/
theorem answer_source_iff
    {identifier : String}
    {source : Source} :
    answer disk options identifier = .source source ↔
      ∃ path bytes, locate disk options identifier = .ok path ∧ disk.read path = .ok bytes ∧
        Source.bytes bytes = source := by
  unfold answer
  cases locate disk options identifier with
  | error fault => cases fault <;> simp
  | ok path => cases hread : disk.read path <;> simp [hread]

/-- Where searches end alike the same manifests are found. -/
theorem SearchAlike.answer_source_iff
    (h : SearchAlike disk options others)
    (identifier : String)
    (source : Source) :
    answer disk options identifier = .source source ↔
      answer disk others identifier = .source source := by
  simp only [SearchRoots.answer_source_iff, h.locate_ok_iff]

end Search

end SearchRoots

namespace LoadOptions

/-- Merging removes the repetitions from the new roots followed by the old ones. -/
theorem withRoots_eq
    (options : LoadOptions)
    (roots : List Path) :
    options.withRoots roots = options.searching (roots ++ options.searchRoots).eraseDups :=
  rfl

/-- Roots that are merged one after the other are merged together, the last ones in front. -/
theorem withRoots_withRoots
    (options : LoadOptions)
    (a b : List Path) :
    (options.withRoots a).withRoots b = options.withRoots (b ++ a) := by
  simp only [withRoots, eraseDups_append_eraseDups, List.append_assoc]

/-- Roots that are merged already change nothing. -/
theorem withRoots_self
    (options : LoadOptions)
    (a : List Path) :
    (options.withRoots a).withRoots a = options.withRoots a := by
  simp only [withRoots, eraseDups_append_eraseDups, eraseDups_append_self]

/-- Merging search roots is a union that keeps their order: roots merged in two steps are merged in
one, roots merged twice are merged once, and the roots are those of both lists, once each, in the order
in which they come first.  The other options stay.  On every disk a search below roots ends as without
their repetitions, so that after merging the same manifests are found as below all roots one after the
other. -/
theorem withRoots_union
    (options : LoadOptions)
    (a b : List Path) :
    (options.withRoots a).withRoots b = options.withRoots (b ++ a) ∧
    (options.withRoots a).withRoots a = options.withRoots a ∧
    ListsOnce (options.withRoots a).searchRoots (a ++ options.searchRoots) ∧
    (options.withRoots a).manifestFile = options.manifestFile ∧
    (options.withRoots a).limit = options.limit ∧
    ∀ disk : Disk,
      (∀ roots, SearchRoots.SearchAlike disk
        ((options.searching []).withRoots roots) (options.searching roots)) ∧
      SearchRoots.SearchAlike disk
        (options.withRoots a) (options.searching (a ++ options.searchRoots)) ∧
      ∀ identifier source,
        SearchRoots.answer disk (options.withRoots a) identifier = .source source ↔
          SearchRoots.answer disk (options.searching (a ++ options.searchRoots)) identifier =
            .source source := by
  refine ⟨withRoots_withRoots options a b, withRoots_self options a, listsOnce_iff.2 rfl, rfl, rfl,
    fun disk => ⟨fun roots => ?_, ?_, ?_⟩⟩
  · rw [withRoots_eq]
    simp only [searching, List.append_nil]
    exact SearchRoots.searchAlike_eraseDups options roots
  · exact SearchRoots.searchAlike_eraseDups options _
  · exact (SearchRoots.searchAlike_eraseDups options _).answer_source_iff

end LoadOptions
end TypeGraph
