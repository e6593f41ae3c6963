import TypeGraph.Disk.Tree
import TypeGraph.Proofs.CommandLine.Sources
import TypeGraph.Proofs.Json.Fields
import TypeGraph.Proofs.Number.Positive

/-!
# What sources files yield

A sources file is refused, as a wrong value or for a fault of the system, or it yields valid options: the
name of a manifest file, directories that are those listed one by one, and no limit or one above zero.
There are two exceptions, and both are limits.  An integer without a nearest real ends in a fault of
arithmetic, and a limit that is not a number passes the check because it is not at zero or below.

**Results.**
* `Sources.load_eq_ok_iff`: what a file yields is read from the fields of the object it holds.
* `Sources.roots_eq_ok_iff`, `Sources.manifestFile_ne_empty`, `Sources.limit_eq_ok_iff`: what is read
  from each field.
* `Sources.load_unordered_iff`: when a file yields options with a limit that is not a number.
* `Sources.load_valid`: what every sources file yields.
-/

namespace TypeGraph

/-- The sorts of faults. -/
inductive FaultSort where
  | value
  | system
  | arithmetic
  deriving DecidableEq

namespace SourcesFault

/-- The sort of a fault.  A path with a null character is a wrong value, for which the system is not
asked. -/
def sort : SourcesFault → FaultSort
  | .disk error => if error.fault.system?.isSome then .system else .value
  | .notUtf8 _ | .notJson _ _ | .tooManyDigits _ => .value
  | .notObject | .unsupported | .unknownFields _ => .value
  | .rootsShape | .manifestFileShape | .limitShape => .value
  | .limitTooLarge => .arithmetic

/-- Only a limit that is too large is a fault of arithmetic. -/
theorem value_or_system
    {fault : SourcesFault}
    (h : fault ≠ .limitTooLarge) :
    fault.sort = .value ∨ fault.sort = .system := by
  cases fault with
  | disk error =>
      simp only [sort]
      split_ifs
      · exact Or.inr rfl
      · exact Or.inl rfl
  | limitTooLarge => exact absurd rfl h
  | _ => exact Or.inl rfl

end SourcesFault

namespace Sources

/-- The file at a path holds an object with these fields. -/
def HoldsFields (disk : Disk) (path : Path) (fields : Json.Fields) : Prop :=
  ∃ bytes text, disk.read path = .ok bytes ∧ Text.ofUtf8 bytes = .ok text ∧
    Json.read text = .ok (.object fields)

/-- The names under which the fields list directories; without a list there are none. -/
inductive ListsRoots (fields : Json.Fields) : List String → Prop
  | absent
      (h : fields.lookup "roots" = none) :
      ListsRoots fields []
  | given
      (names : List String)
      (h : fields.lookup "roots" = some (.array (names.map .string)))
      (hne : "" ∉ names) :
      ListsRoots fields names

/-- The limit that the fields give: none, a real that is not at zero or below, or the nearest real of an
integer above zero. -/
inductive ReadsLimit (fields : Json.Fields) : Option Number → Prop
  | absent
      (h : fields.get limitField = .null) :
      ReadsLimit fields none
  | real
      (x : Binary64)
      (h : fields.get limitField = .number (.real x))
      (hx : x.isNonpositive = false) :
      ReadsLimit fields (some (.real x))
  | int
      (n : Int)
      (x : Binary64)
      (h : fields.get limitField = .number (.int n))
      (hn : 0 < n)
      (hx : Binary64.ofInt? n = some x) :
      ReadsLimit fields (some (.real x))

/-- The directory that a sources file in `base` lists under a name: an absolute one as it is, and any
other one seen from `base`. -/
def listedRoot (base : Path) (name : String) : Path :=
  if (Path.ofText name).isAbsolute then Path.ofText name else base.child name

/-- The options say where to look as a sources file in `base` with these fields does: in the directories
that it lists, in order and one for one, and for a manifest file with a name. -/
structure ValidPlaces (base : Path) (fields : Json.Fields) (options : LoadOptions) : Prop where
  manifestFile : options.manifestFile ≠ ""
  searchRoots : ∃ names, ListsRoots fields names ∧
    options.searchRoots = names.map (listedRoot base)

/-- There is no limit, or it is above zero. -/
def ValidLimit (options : LoadOptions) : Prop :=
  ∀ limit ∈ options.limit, limit.isPositive = true

/-- The sources file at a path is refused, as a wrong value or for a fault of the system, or it yields
valid options. -/
def YieldsValid (disk : Disk) (path : Path) : Prop :=
  (∃ fault, load disk path = .error fault ∧ (fault.sort = .value ∨ fault.sort = .system)) ∨
    ∃ fields options, HoldsFields disk path fields ∧ load disk path = .ok options ∧
      ValidPlaces path.parent fields options ∧ ValidLimit options

/-- The file at the path would be accepted without its limit, which is not a number. -/
def HoldsUnordered (disk : Disk) (path : Path) : Prop :=
  ∃ fields, HoldsFields disk path fields ∧ fields.get limitField = .number (.real .nan) ∧
    ∃ options, ofJson path.parent (.object (fields.put limitField .null)) = .ok options

section Fields

variable {base : Path} {fields : Json.Fields} {options : LoadOptions}

/-- The options of an object are those of its fields. -/
theorem ofJson_object_eq_ok_iff :
    ofJson base (.object fields) = .ok options ↔
      checkFields (.object fields) = .ok fields ∧ roots base fields = .ok options.searchRoots ∧
        manifestFile fields = .ok options.manifestFile ∧ limit fields = .ok options.limit := by
  simp only [ofJson, bind_eq_ok_iff, pure_eq_ok_iff]
  constructor
  · rintro ⟨found, hcheck, paths, hroots, name, hfile, given, hlimit, rfl⟩
    cases eq_of_checkFields hcheck
    exact ⟨hcheck, hroots, hfile, hlimit⟩
  · rintro ⟨hcheck, hroots, hfile, hlimit⟩
    exact ⟨fields, hcheck, _, hroots, _, hfile, _, hlimit, rfl⟩

/-- The items of a list are names when they are texts that are not empty. -/
theorem mapM_name?_eq_some_iff
    {items : List Json}
    {names : List String} :
    items.mapM Json.name? = some names ↔ items = names.map .string ∧ "" ∉ names := by
  rw [mapM_eq_some_iff]
  constructor
  · intro h
    induction h with
    | nil => simp
    | cons hname _ ih =>
        obtain ⟨rfl, hne⟩ := Json.name?_eq_some_iff.1 hname
        simp [ih.1, ih.2, hne.symm]
  · rintro ⟨rfl, hne⟩
    rw [List.forall₂_map_left_iff, List.forall₂_same]
    exact fun name hname => Json.name?_eq_some_iff.2 ⟨rfl, fun h => hne (h ▸ hname)⟩

/-- An absolute path is not moved by the directory it is listed in. -/
theorem child_eq_listedRoot
    (base : Path)
    (name : String) :
    base.child name = listedRoot base name := by
  unfold listedRoot
  split_ifs with habsolute
  · exact Path.join_absolute base habsolute
  · rfl

/-- The directories are the listed ones, in order and one for one. -/
theorem roots_eq_ok_iff
    {paths : List Path} :
    roots base fields = .ok paths ↔
      ∃ names, ListsRoots fields names ∧ paths = names.map (listedRoot base) := by
  have hchild : base.child = listedRoot base := funext (child_eq_listedRoot base)
  constructor
  · intro h
    unfold roots at h
    split at h
    · rename_i habsent
      cases h
      exact ⟨[], .absent habsent, rfl⟩
    · rename_i items hitems
      split at h
      · cases h
      · rename_i names hnames
        obtain ⟨rfl, hne⟩ := mapM_name?_eq_some_iff.1 hnames
        cases h
        exact ⟨names, .given names hitems hne, by rw [hchild]⟩
    · cases h
  · rintro ⟨names, hlists, rfl⟩
    cases hlists with
    | absent habsent => simp [roots, habsent]
    | given _ hitems hne =>
        simp only [roots, hitems, mapM_name?_eq_some_iff.2 ⟨rfl, hne⟩, hchild]

/-- The name of a manifest file is not empty. -/
theorem manifestFile_ne_empty
    {name : String}
    (h : manifestFile fields = .ok name) :
    name ≠ "" := by
  unfold manifestFile at h
  split at h
  · cases h
    decide
  · split at h
    · rename_i given _ found hname
      cases h
      exact (Json.name?_eq_some_iff.1 hname).2
    · cases h

/-- A limit is read from nothing or null, from a real that is not at zero or below, or from an integer
above zero with a nearest real. -/
theorem limit_eq_ok_iff
    {given : Option Number} :
    limit fields = .ok given ↔ ReadsLimit fields given := by
  constructor
  · intro h
    unfold limit at h
    cases hget : Json.Fields.get fields "resolve_timeout" with
    | null =>
        rw [hget] at h
        cases h
        exact .absent hget
    | number n =>
        simp only [hget] at h
        split_ifs at h with hpositive
        cases n with
        | real x =>
            cases h
            exact .real x hget (by simpa [Number.isNonpositive] using hpositive)
        | int n =>
            have hn : 0 < n := by simpa [Number.isNonpositive] using hpositive
            cases hx : Binary64.ofInt? n with
            | none => simp [hx] at h
            | some x =>
                simp only [hx] at h
                cases h
                exact .int n x hget hn hx
    | _ => simp [hget] at h
  · intro h
    cases h with
    | absent hget =>
        unfold limitField at hget
        simp [limit, hget]
    | real x hget hx =>
        unfold limitField at hget
        simp [limit, hget, Number.isNonpositive, hx]
    | int n x hget hn hx =>
        unfold limitField at hget
        simp [limit, hget, Number.isNonpositive, hn, hx]

/-- A limit is above zero when it is a number. -/
theorem ReadsLimit.isPositive
    {given : Number}
    (h : ReadsLimit fields (some given))
    (hnumber : given ≠ .real .nan) :
    given.isPositive = true := by
  cases h with
  | real x _ hx =>
      exact Binary64.isPositive_iff.2 ⟨hx, fun hnan => hnumber (congrArg Number.real hnan)⟩
  | int n x _ hn hx => exact Binary64.isPositive_of_ofInt? hn hx

/-- A limit that is not a number is read from a field that holds no number. -/
theorem readsLimit_nan_iff :
    ReadsLimit fields (some (.real .nan)) ↔
      fields.get limitField = .number (.real .nan) := by
  constructor
  · intro h
    cases h with
    | real x hget _ => exact hget
    | int n x _ hn hx =>
        -- the nearest real of an integer is a number
        have hpositive := Binary64.isPositive_of_ofInt? hn hx
        cases hpositive
  · exact fun hget => .real .nan hget Binary64.isNonpositive_nan

/-- What the fields of an object yield says where to look as they do. -/
theorem validPlaces_of_ofJson
    (h : ofJson base (.object fields) = .ok options) :
    ValidPlaces base fields options := by
  obtain ⟨-, hroots, hfile, -⟩ := ofJson_object_eq_ok_iff.1 h
  exact ⟨manifestFile_ne_empty hfile, roots_eq_ok_iff.1 hroots⟩

/-- The limit that the fields of an object yield is valid when it is a number. -/
theorem validLimit_of_ofJson
    (h : ofJson base (.object fields) = .ok options)
    (hnumber : options.limit ≠ some (.real .nan)) :
    ValidLimit options := by
  obtain ⟨-, -, -, hlimit⟩ := ofJson_object_eq_ok_iff.1 h
  intro given hgiven
  have hgiven : options.limit = some given := hgiven
  rw [hgiven] at hlimit hnumber
  exact (limit_eq_ok_iff.1 hlimit).isPositive fun hnan => hnumber (congrArg some hnan)

end Fields

section Files

variable {disk : Disk} {path : Path} {options : LoadOptions}

/-- What a file yields is read from the fields of the object it holds. -/
theorem load_eq_ok_iff :
    load disk path = .ok options ↔
      ∃ fields, HoldsFields disk path fields ∧
        ofJson path.parent (.object fields) = .ok options := by
  simp only [load, bind_eq_ok_iff, mapError_eq_ok_iff]
  constructor
  · rintro ⟨bytes, hbytes, text, htext, value, hvalue, hoptions⟩
    have hobject : ∃ fields, value = .object fields := by
      obtain ⟨fields, hcheck, -⟩ := bind_eq_ok_iff.1 hoptions
      exact ⟨fields, eq_of_checkFields hcheck⟩
    obtain ⟨fields, rfl⟩ := hobject
    exact ⟨fields, ⟨bytes, text, hbytes, htext, hvalue⟩, hoptions⟩
  · rintro ⟨fields, ⟨bytes, text, hbytes, htext, hvalue⟩, hoptions⟩
    exact ⟨bytes, hbytes, text, htext, _, hvalue, hoptions⟩

/-- A file yields a limit that is not a number when it would be accepted without it. -/
theorem load_unordered_iff :
    (∃ options, load disk path = .ok options ∧ options.limit = some (.real .nan)) ↔
      HoldsUnordered disk path := by
  constructor
  · rintro ⟨options, hload, hnan⟩
    obtain ⟨fields, hholds, hoptions⟩ := load_eq_ok_iff.1 hload
    obtain ⟨hcheck, hroots, hfile, hlimit⟩ := ofJson_object_eq_ok_iff.1 hoptions
    rw [hnan, limit_eq_ok_iff, readsLimit_nan_iff] at hlimit
    exact ⟨fields, hholds, hlimit,
      (ofJson_put_limit fields).2 ⟨hcheck, ⟨_, hroots⟩, _, hfile⟩⟩
  · rintro ⟨fields, hholds, hget, haccepted⟩
    obtain ⟨hcheck, ⟨paths, hroots⟩, name, hfile⟩ := (ofJson_put_limit fields).1 haccepted
    have hlimit := limit_eq_ok_iff.2 (readsLimit_nan_iff.2 hget)
    have hoptions : ofJson path.parent (.object fields) = .ok ⟨paths, name, some (.real .nan)⟩ :=
      ofJson_object_eq_ok_iff.2 ⟨hcheck, hroots, hfile, hlimit⟩
    exact ⟨_, load_eq_ok_iff.2 ⟨fields, hholds, hoptions⟩, rfl⟩

/-- What a sources file at a path yields, for every disk and every path.  If the file would be accepted
without its limit, which is an integer without a nearest real, it ends in a fault of arithmetic.  If it
would be accepted without its limit, which is not a number, it yields options with that limit, and the
rest of them is valid.  Otherwise it is refused, as a wrong value or for a fault of the system, or it
yields valid options: the name of a manifest file, the directories that it lists, in order and one for
one, and no limit or one above zero. -/
theorem load_valid
    (disk : Disk)
    (path : Path) :
    (HoldsOverlarge disk path ∧ load disk path = .error .limitTooLarge) ∨
    (HoldsUnordered disk path ∧ ∃ fields options, HoldsFields disk path fields ∧
      load disk path = .ok options ∧ ValidPlaces path.parent fields options ∧
      options.limit = some (.real .nan)) ∨
    (¬ HoldsOverlarge disk path ∧ ¬ HoldsUnordered disk path ∧ YieldsValid disk path) := by
  rw [← load_tooLarge_iff, ← load_unordered_iff]
  cases hload : load disk path with
  | error fault =>
      by_cases hlarge : fault = .limitTooLarge
      · exact Or.inl ⟨congrArg _ hlarge, congrArg _ hlarge⟩
      · have hvalid : YieldsValid disk path :=
          Or.inl ⟨fault, hload, SourcesFault.value_or_system hlarge⟩
        refine Or.inr (Or.inr ⟨fun h => hlarge (Except.error.inj h), ?_, hvalid⟩)
        rintro ⟨_, h, -⟩
        cases h
  | ok options =>
      obtain ⟨fields, hholds, hoptions⟩ := load_eq_ok_iff.1 hload
      have hplaces := validPlaces_of_ofJson hoptions
      by_cases hnan : options.limit = some (.real .nan)
      · exact Or.inr (Or.inl ⟨⟨options, rfl, hnan⟩, fields, options, hholds, rfl, hplaces, hnan⟩)
      · have hvalid : YieldsValid disk path :=
          Or.inr ⟨fields, options, hholds, hload, hplaces, validLimit_of_ofJson hoptions hnan⟩
        refine Or.inr (Or.inr ⟨by simp, ?_, hvalid⟩)
        rintro ⟨_, h, hnan'⟩
        cases h
        exact hnan hnan'

end Files

/-- A working directory with a sources file. -/
def withFile (chars : List Char) : FileTree :=
  FileTree.empty.write (.ofText "d/sources.json") (Text.asciiBytes chars)

/-- A sources file that lists two directories and allows five seconds for each manifest. -/
def ampleSources : List Char :=
  ("\x7b\"format\":\"asmreflect-sources\",\"version\":0,\"roots\":[\"a\",\"/b\"]," ++
    "\"resolve_timeout\":5\x7d").toList

/-- A sources file with a limit that is not a number. -/
def endlessSources : List Char :=
  "\x7b\"format\":\"asmreflect-sources\",\"version\":0,\"resolve_timeout\":NaN\x7d".toList

theorem load_ampleSources :
    load (withFile ampleSources).disk (.ofText "d/sources.json") =
      .ok ⟨[.ofText "d/a", .ofText "/b"], "assembly.json",
        some (.real (.finite false (5 * Nat.pow 2 50) (-50)))⟩ :=
  eq_ok_of_toOption (by decide +kernel)

theorem load_endlessSources :
    load (withFile endlessSources).disk (.ofText "d/sources.json") =
      .ok ⟨[], "assembly.json", some (.real .nan)⟩ :=
  eq_ok_of_toOption (by decide +kernel)

/-- The file with two directories yields valid options.  The other one is a file that would be accepted
without its limit. -/
theorem load_valid_of_ampleSources :
    YieldsValid (withFile ampleSources).disk (.ofText "d/sources.json") ∧
      HoldsUnordered (withFile endlessSources).disk (.ofText "d/sources.json") := by
  constructor
  · rcases load_valid (withFile ampleSources).disk (.ofText "d/sources.json") with
      ⟨-, hload⟩ | ⟨-, _, options, -, hload, -, hnan⟩ | ⟨-, -, hvalid⟩
    · rw [load_ampleSources] at hload
      cases hload
    · rw [load_ampleSources] at hload
      cases hload
      cases hnan
    · exact hvalid
  · rcases load_valid (withFile endlessSources).disk (.ofText "d/sources.json") with
      ⟨-, hload⟩ | ⟨hholds, -⟩ | ⟨-, hnot, -⟩
    · rw [load_endlessSources] at hload
      cases hload
    · exact hholds
    · exact absurd (load_unordered_iff.1 ⟨_, load_endlessSources, rfl⟩) hnot

/-- That file is not refused, and the options that it yields are not valid. -/
theorem not_yieldsValid_of_endlessSources :
    ¬ YieldsValid (withFile endlessSources).disk (.ofText "d/sources.json") := by
  rintro (⟨fault, hload, -⟩ | ⟨fields, options, -, hload, -, hlimit⟩)
  · rw [load_endlessSources] at hload
    cases hload
  · rw [load_endlessSources] at hload
    cases hload
    have hpositive := hlimit _ rfl
    cases hpositive

end Sources
end TypeGraph
