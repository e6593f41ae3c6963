import TypeGraph.Proofs.Manifest.Decoded
import TypeGraph.Resolver.SearchRoots

/-!
# Further search roots

The first place where a file stands is the place of a manifest.  So what has been found below some search
roots is found below these and further ones that come after them.

**Results.**
* `SearchRoots.locate_searchingAlso`: what is located stays where it is.
* `SearchRoots.answer_searchingAlso`: a manifest that is found is found with further roots too.
-/

namespace TypeGraph

/-- The options with further directories after the others. -/
def LoadOptions.searchingAlso (options : LoadOptions) (more : List Path) : LoadOptions :=
  { options with searchRoots := options.searchRoots ++ more }

namespace SearchRoots

variable {disk : Disk} {options : LoadOptions} {identifier : String} {path : Path}

/-- Places after the first file are not looked at. -/
theorem firstFile_append
    {places : List Path}
    (h : firstFile disk places = .ok (some path))
    (more : List Path) :
    firstFile disk (places ++ more) = .ok (some path) := by
  induction places with
  | nil => cases h
  | cons place rest ih =>
      simp only [firstFile, bind_eq_ok_iff] at h
      obtain ⟨found, hf, h⟩ := h
      rw [List.cons_append, firstFile, bind_of_ok hf]
      cases found with
      | true => exact h
      | false => exact ih h

/-- The candidates for further roots come after the others. -/
theorem candidates_searchingAlso
    {places : List Path}
    (h : candidates disk options identifier = .ok places)
    (more : List Path) :
    candidates disk (options.searchingAlso more) identifier =
      .ok (places ++ more.flatMap (below options.manifestFile identifier)) := by
  simp only [candidates, bind_eq_ok_iff] at h ⊢
  obtain ⟨direct, hd, h⟩ := h
  refine ⟨direct, hd, ?_⟩
  cases h
  simp [LoadOptions.searchingAlso, pure, Except.pure]

/-- What is located stays where it is when further roots are searched. -/
theorem locate_searchingAlso
    (h : locate disk options identifier = .ok path)
    (more : List Path) :
    locate disk (options.searchingAlso more) identifier = .ok path := by
  rw [locate_eq] at h ⊢
  split at h
  · cases h
  · rename_i places hc
    split at h
    · cases h
    · rename_i hfirst
      cases h
      simp only [candidates_searchingAlso hc, firstFile_append hfirst]
    · cases h

/-- A manifest that is found is found with further roots too, in the same file. -/
theorem answer_searchingAlso
    {source : Source}
    (h : answer disk options identifier = .source source)
    (more : List Path) :
    answer disk (options.searchingAlso more) identifier = .source source := by
  unfold answer at h ⊢
  cases hl : locate disk options identifier with
  | error fault => cases fault <;> simp [hl] at h
  | ok path => simpa only [locate_searchingAlso hl, hl] using h

end SearchRoots
end TypeGraph
