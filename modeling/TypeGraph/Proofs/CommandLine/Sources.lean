import TypeGraph.Proofs.Number.Overflow
import TypeGraph.Proofs.Result
import TypeGraph.Proofs.Text.Ascii
import TypeGraph.Sources

/-!
# Sources files with a limit that is too large

A sources file is refused for what it holds, with a wording for each fault, with one exception: an
integer that has no nearest real passes the checks of the limit, and only then fails to become a real.
A file does so when it would be accepted with its limit taken away, and its limit is such an integer.

**Results.**
* `Sources.limit_tooLarge_iff`: when a limit is too large.
* `Sources.ofJson_tooLarge_iff`, `Sources.load_tooLarge_iff`: when a document and a file are refused for
  such a limit.
-/

namespace TypeGraph

namespace SourcesFault

/-- The fault is a limit that is too large. -/
def isTooLarge : SourcesFault → Bool
  | .limitTooLarge => true
  | _ => false

theorem isTooLarge_iff
    {fault : SourcesFault} :
    fault.isTooLarge = true ↔ fault = .limitTooLarge := by
  cases fault <;> simp [isTooLarge]

end SourcesFault

namespace Sources

/-- The field of the limit. -/
def limitField : String := "resolve_timeout"

/-- The document would be accepted without its limit, which is an integer without a nearest real. -/
def Overlarge (base : Path) (value : Json) : Prop :=
  ∃ (fields : Json.Fields) (n : Int), value = .object fields ∧
    fields.get limitField = .number (.int n) ∧ Binary64.overflow ≤ n ∧
    ∃ options, ofJson base (.object (fields.put limitField .null)) = .ok options

/-- The file at the path would be accepted without its limit, which is an integer without a nearest
real. -/
def HoldsOverlarge (disk : Disk) (path : Path) : Prop :=
  ∃ bytes text value, disk.read path = .ok bytes ∧ Text.ofUtf8 bytes = .ok text ∧
    Json.read text = .ok value ∧ Overlarge path.parent value

section Fields

variable {fields : Json.Fields} {base : Path}

/-- A limit is too large when it is a positive integer without a nearest real. -/
theorem limit_tooLarge_iff :
    limit fields = .error .limitTooLarge ↔
      ∃ n : Int, fields.get limitField = .number (.int n) ∧ Binary64.overflow ≤ n := by
  have hpos := Binary64.overflow_pos
  have hnone := @Binary64.ofInt?_eq_none_iff
  unfold limit limitField
  generalize Binary64.overflow = bound at hpos hnone ⊢
  cases Json.Fields.get fields "resolve_timeout" with
  | number n =>
      cases n with
      | real x => cases hx : (Number.real x).isNonpositive <;> simp [hx]
      | int n =>
          by_cases hn : n ≤ 0
          · simp [Number.isNonpositive, hn]
            omega
          · cases hx : Binary64.ofInt? n with
            | none =>
                have hover := hnone.1 hx
                simp [Number.isNonpositive, hn, hx]
                omega
            | some x =>
                have hover : ¬ bound ≤ n.natAbs := mt hnone.2 (by simp [hx])
                simp [Number.isNonpositive, hn, hx]
                omega
  | _ => simp

/-- The fields of a document are those it has. -/
theorem eq_of_checkFields
    {value : Json}
    (h : checkFields value = .ok fields) :
    value = .object fields := by
  unfold checkFields at h
  split at h
  · simp only at h
    split_ifs at h
    cases h
    rfl
  · cases h

/-- Taking the limit away changes nothing for the check of the fields. -/
theorem checkFields_put_limit
    (fields : Json.Fields) :
    checkFields (.object (fields.put limitField .null)) =
      (checkFields (.object fields)).map fun _ => fields.put limitField .null := by
  have hformat : (fields.put limitField .null).get "format" = fields.get "format" :=
    Json.Fields.get_put_of_ne fields _ (by decide)
  have hversion : (fields.put limitField .null).get "version" = fields.get "version" :=
    Json.Fields.get_put_of_ne fields _ (by decide)
  have hunknown : ((fields.put limitField .null).map Prod.fst).filter
        (fun name => !knownFields.contains name) =
      (fields.map Prod.fst).filter fun name => !knownFields.contains name := by
    rw [Json.Fields.names_put]
    split_ifs
    · rfl
    · have hknown : limitField ∈ knownFields := by decide
      simp [List.filter_append, hknown]
  simp only [checkFields, hformat, hversion, hunknown]
  split_ifs <;> rfl

/-- Nor for the directories and the name of a manifest file, and then there is no limit. -/
theorem ofJson_put_limit
    (fields : Json.Fields) :
    (∃ options, ofJson base (.object (fields.put limitField .null)) = .ok options) ↔
      checkFields (.object fields) = .ok fields ∧ (∃ paths, roots base fields = .ok paths) ∧
        ∃ name, manifestFile fields = .ok name := by
  have hroots : roots base (fields.put limitField .null) = roots base fields := by
    unfold roots
    rw [Json.Fields.lookup_put_of_ne fields _ (by decide)]
  have hfile : manifestFile (fields.put limitField .null) = manifestFile fields := by
    unfold manifestFile
    rw [Json.Fields.lookup_put_of_ne fields _ (by decide)]
  have hlimit : limit (fields.put limitField .null) = .ok none := by
    have hget := Json.Fields.get_put_self fields limitField .null
    unfold limitField at hget ⊢
    rw [limit, hget]
  cases hc : checkFields (.object fields) with
  | error fault =>
      simp [ofJson, checkFields_put_limit, hc, Except.map, bind, Except.bind]
  | ok found =>
      cases eq_of_checkFields hc
      simp only [ofJson, checkFields_put_limit, hc, Except.map, bind_of_ok rfl, bind_eq_ok_iff, hroots,
        hfile, hlimit, true_and]
      simp

/-- No other part of a document is refused for its limit. -/
theorem checkFields_ne_tooLarge
    (value : Json) :
    checkFields value ≠ .error .limitTooLarge := by
  unfold checkFields
  split
  · simp only
    split_ifs <;> simp
  · simp

theorem roots_ne_tooLarge
    (base : Path)
    (fields : Json.Fields) :
    roots base fields ≠ .error .limitTooLarge := by
  unfold roots
  split
  · simp
  · split <;> simp
  · simp

theorem manifestFile_ne_tooLarge
    (fields : Json.Fields) :
    manifestFile fields ≠ .error .limitTooLarge := by
  unfold manifestFile
  split
  · simp
  · split <;> simp

/-- A document is refused for a limit that is too large when it would be accepted without it. -/
theorem ofJson_tooLarge_iff
    {value : Json} :
    ofJson base value = .error .limitTooLarge ↔ Overlarge base value := by
  simp only [ofJson, bind_eq_error_iff, checkFields_ne_tooLarge, roots_ne_tooLarge,
    manifestFile_ne_tooLarge, false_or, limit_tooLarge_iff]
  constructor
  · rintro ⟨fields, hcheck, paths, hroots, name, hfile, ⟨n, hget, hover⟩ | ⟨found, -, hpure⟩⟩
    · have hvalue := eq_of_checkFields hcheck
      exact ⟨fields, n, hvalue, hget, hover,
        (ofJson_put_limit fields).2 ⟨hvalue ▸ hcheck, ⟨paths, hroots⟩, name, hfile⟩⟩
    · cases hpure
  · rintro ⟨fields, n, rfl, hget, hover, haccepted⟩
    obtain ⟨hcheck, ⟨paths, hroots⟩, name, hfile⟩ := (ofJson_put_limit fields).1 haccepted
    exact ⟨fields, hcheck, paths, hroots, name, hfile, Or.inl ⟨n, hget, hover⟩⟩

end Fields

theorem ofRead_ne_tooLarge
    (path : Path)
    (kind : Json.FaultKind) :
    SourcesFault.ofRead path kind ≠ .limitTooLarge := by
  cases kind <;> simp [SourcesFault.ofRead]

/-- A file is refused for a limit that is too large when it would be accepted without it. -/
theorem load_tooLarge_iff
    {disk : Disk}
    {path : Path} :
    load disk path = .error .limitTooLarge ↔ HoldsOverlarge disk path := by
  simp only [load, bind_eq_error_iff, mapError_eq_error_iff, mapError_eq_ok_iff, reduceCtorEq,
    ofRead_ne_tooLarge, and_false, exists_false, false_or, ofJson_tooLarge_iff]
  constructor
  · rintro ⟨bytes, hbytes, text, htext, value, hvalue, hover⟩
    exact ⟨bytes, text, value, hbytes, htext, hvalue, hover⟩
  · rintro ⟨bytes, text, value, hbytes, htext, hvalue, hover⟩
    exact ⟨bytes, hbytes, text, htext, value, hvalue, hover⟩

/-- Whether a document has a limit that is too large can be computed. -/
instance decidableOverlarge
    (base : Path)
    (value : Json) :
    Decidable (Overlarge base value) :=
  match h : ofJson base value with
  | .ok _ => isFalse fun ho => by simp [ofJson_tooLarge_iff.2 ho] at h
  | .error fault =>
      decidable_of_iff (fault.isTooLarge = true) <| by
        rw [SourcesFault.isTooLarge_iff, ← ofJson_tooLarge_iff, h, Except.error.injEq]

/-- A file of one-byte characters that hold a document with a limit that is too large. -/
theorem holdsOverlarge_of_ascii
    {disk : Disk}
    {path : Path}
    {chars : List Char}
    (hread : disk.read path = .ok (Text.asciiBytes chars))
    (hascii : Text.Ascii chars)
    (hvalue : (Json.ofLexemes .value [] (Json.lexemes [] 0 chars)).toOption.any
      (fun value => decide (Overlarge path.parent value)) = true) :
    HoldsOverlarge disk path := by
  have hmark : chars.head? ≠ some '\uFEFF' := by
    intro h
    have hlt := hascii _ (List.mem_of_head? h)
    simp at hlt
  cases hlexemes : Json.ofLexemes .value [] (Json.lexemes [] 0 chars) with
  | error fault =>
      rw [hlexemes] at hvalue
      cases hvalue
  | ok value =>
      rw [hlexemes] at hvalue
      have hover : Overlarge path.parent value := by simpa [Except.toOption] using hvalue
      refine ⟨_, _, value, hread, Text.ofUtf8_ascii hascii, ?_, hover⟩
      simp only [Json.read, String.toList_ofList, if_neg hmark, hlexemes]

end Sources
end TypeGraph
