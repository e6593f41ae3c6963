import TypeGraph.Json.Reader
import TypeGraph.Proofs.Json.Fields

/-!
# Regular documents

A document that was read from a text has no object in which two fields share a name: a name that comes
again overwrites the field that it named.

**Results.**
* `regular_of_read`: the objects of a document that was read from a text.
-/

namespace TypeGraph
namespace Json

/-- No two fields of an object share a name, at any depth. -/
inductive Regular : Json → Prop
  | null :
      Regular .null
  | bool
      (value : Bool) :
      Regular (.bool value)
  | number
      (value : Number) :
      Regular (.number value)
  | string
      (value : String) :
      Regular (.string value)
  | array
      {items : List Json}
      (hitems : ∀ item ∈ items, Regular item) :
      Regular (.array items)
  | object
      {fields : Fields}
      (hnames : fields.Distinct)
      (hvalues : ∀ field ∈ fields, Regular field.2) :
      Regular (.object fields)

namespace Fields

variable {fields : Fields} {name : String} {value : Json}

/-- A list of fields is that of a regular object. -/
def Regular (fields : Fields) : Prop :=
  fields.Distinct ∧ ∀ field ∈ fields, field.2.Regular

theorem regular_nil :
    Fields.Regular [] :=
  ⟨List.nodup_nil, by simp⟩

theorem value_of_mem_put
    {field : String × Json}
    (h : field ∈ fields.put name value) :
    field ∈ fields ∨ field.2 = value := by
  induction fields with
  | nil =>
      rw [put, List.mem_singleton] at h
      exact Or.inr (by rw [h])
  | cons first rest ih =>
      obtain ⟨known, old⟩ := first
      rw [put] at h
      split at h
      · rcases List.mem_cons.1 h with rfl | hrest
        · exact Or.inr rfl
        · exact Or.inl (List.mem_cons_of_mem _ hrest)
      · rcases List.mem_cons.1 h with rfl | hrest
        · exact Or.inl (by simp)
        · exact (ih hrest).imp_left (List.mem_cons_of_mem _)

/-- An object stays regular when a field is written. -/
theorem Regular.put
    (h : fields.Regular)
    (name : String)
    (hv : value.Regular) :
    Fields.Regular (fields.put name value) := by
  refine ⟨distinct_put h.1 name value, fun field hfield => ?_⟩
  rcases value_of_mem_put hfield with hold | rfl
  · exact h.2 field hold
  · exact hv

end Fields

section Reading

variable {goal goal' : Goal} {opened opened' : List Opened} {placed : Placed} {value : Json}

/-- An atomic value is regular. -/
def Placed.Regular (placed : Placed) : Prop :=
  ∀ value, placed.lexeme = .scalar value → value.Regular

/-- What has been read of the document at the point where it is being read is regular. -/
def Goal.Regular : Goal → Prop
  | .value => True
  | .firstItem => True
  | .firstName => True
  | .name fields => fields.Regular
  | .colon fields _ => fields.Regular
  | .after value => value.Regular

/-- What has been read of an array or object that is not closed yet is regular. -/
def Opened.Regular : Opened → Prop
  | .array items => ∀ item ∈ items, item.Regular
  | .object fields _ => fields.Regular

theorem regular_of_scanLiteral
    {text : List Char}
    {length : Nat}
    (h : scanLiteral text = some (value, length)) :
    value.Regular := by
  obtain ⟨⟨word, known⟩, hmem, hword⟩ := List.exists_of_findSome?_eq_some h
  have hvalue : known = value := by
    dsimp only at hword
    split at hword <;> cases hword
    rfl
  subst hvalue
  simp only [literals, List.mem_cons, Prod.mk.injEq, List.not_mem_nil, or_false] at hmem
  rcases hmem with ⟨-, rfl⟩ | ⟨-, rfl⟩ | ⟨-, rfl⟩ | ⟨-, rfl⟩ | ⟨-, rfl⟩ | ⟨-, rfl⟩
  · exact .null
  · exact .bool true
  · exact .bool false
  all_goals exact .number _

theorem regular_of_numberLexeme
    {c : Char}
    {length : Nat}
    {n : Number}
    (h : numberLexeme c length n = .scalar value) :
    value.Regular := by
  cases n with
  | int n =>
      simp only [numberLexeme] at h
      split at h <;> split at h <;> cases h
      all_goals exact .number _
  | real x =>
      cases h
      exact .number _

theorem regular_of_lexemeAt
    {c : Char}
    {rest : List Char}
    {length : Nat}
    (h : lexemeAt c rest = (.scalar value, length)) :
    value.Regular := by
  unfold lexemeAt at h
  split at h
  · cases h
  · split at h
    · split at h <;> cases h
    · split at h
      · rename_i hliteral
        cases h
        exact regular_of_scanLiteral hliteral
      · split at h
        · exact regular_of_numberLexeme (Prod.mk.inj h).1
        · cases h

/-- Every atomic value that is cut out of a text is regular. -/
theorem regular_of_mem_lexemes
    {found : List Placed}
    {skip : Nat}
    {text : List Char}
    (hfound : ∀ placed ∈ found, placed.Regular)
    (hmem : placed ∈ lexemes found skip text) :
    placed.Regular := by
  fun_induction lexemes found skip text with
  | case1 found skip => exact hfound placed (List.mem_reverse.1 hmem)
  | case2 found skip c rest ih => exact ih hfound hmem
  | case3 found c rest hblank ih => exact ih hfound hmem
  | case4 found c rest hblank length hlexeme =>
      rcases List.mem_cons.1 (List.mem_reverse.1 hmem) with rfl | hold
      · intro value hvalue
        cases hvalue
      · exact hfound placed hold
  | case5 found c rest hblank fault length hlexeme =>
      rcases List.mem_cons.1 (List.mem_reverse.1 hmem) with rfl | hold
      · intro value hvalue
        cases hvalue
      · exact hfound placed hold
  | case6 found c rest hblank lexeme length hstray hbroken hlexeme ih =>
      refine ih (fun other hother => ?_) hmem
      rcases List.mem_cons.1 hother with rfl | hold
      · intro value hvalue
        cases hvalue
        exact regular_of_lexemeAt hlexeme
      · exact hfound other hold

theorem Goal.Regular.of_startValue
    (hp : placed.Regular)
    (h : startValue placed = .ok goal) :
    goal.Regular := by
  unfold startValue at h
  split at h
  · cases h
    exact .string _
  · rename_i hlexeme
    cases h
    exact hp _ hlexeme
  · cases h
  · cases h
  · split at h
    · cases h
      trivial
    · split at h <;> cases h
      trivial
  · cases h

theorem Goal.Regular.of_startField
    {fields : Fields}
    (hf : fields.Regular)
    (h : startField fields placed = .ok goal) :
    goal.Regular := by
  unfold startField at h
  split at h <;> cases h
  exact hf

theorem Regular.ofItems
    {items : List Json}
    (hitems : ∀ item ∈ items, item.Regular)
    (hv : value.Regular) :
    ∀ item ∈ value :: items, item.Regular := by
  intro item hitem
  rcases List.mem_cons.1 hitem with rfl | hold
  · exact hv
  · exact hitems item hold

/-- After a complete value what has been read is still regular. -/
theorem regular_of_continueAfter
    (hv : value.Regular)
    (ho : ∀ o ∈ opened, o.Regular)
    (h : continueAfter value placed opened = .ok (goal', opened')) :
    goal'.Regular ∧ ∀ o ∈ opened', o.Regular := by
  cases opened with
  | nil => cases h
  | cons first outer =>
      obtain ⟨hfirst, houter⟩ := List.forall_mem_cons.1 ho
      cases first with
      | array items =>
          have hitems := Regular.ofItems hfirst hv
          simp only [continueAfter] at h
          split at h
          · cases h
            exact ⟨.array fun item hitem => hitems item (List.mem_reverse.1 hitem), houter⟩
          · split at h <;> cases h
            exact ⟨trivial, List.forall_mem_cons.2 ⟨hitems, houter⟩⟩
      | object fields name =>
          have hfields := Fields.Regular.put hfirst name hv
          simp only [continueAfter] at h
          split at h
          · cases h
            exact ⟨.object hfields.1 hfields.2, houter⟩
          · split at h <;> cases h
            exact ⟨hfields, houter⟩

theorem map_pair_eq_ok_iff
    {x : Except PlacedFault Goal} :
    x.map (·, opened) = .ok (goal', opened') ↔ x = .ok goal' ∧ opened' = opened := by
  cases x with
  | error fault => simp [Except.map]
  | ok goal => simp [Except.map, eq_comm]

/-- What has been read is still regular after one more lexeme. -/
theorem regular_of_advance
    (hg : goal.Regular)
    (ho : ∀ o ∈ opened, o.Regular)
    (hp : placed.Regular)
    (h : advance goal opened placed = .ok (goal', opened')) :
    goal'.Regular ∧ ∀ o ∈ opened', o.Regular := by
  cases goal with
  | value =>
      obtain ⟨hstart, rfl⟩ := map_pair_eq_ok_iff.1 h
      exact ⟨.of_startValue hp hstart, ho⟩
  | firstItem =>
      simp only [advance] at h
      split at h
      · cases h
        exact ⟨.array (by simp), ho⟩
      · obtain ⟨hstart, rfl⟩ := map_pair_eq_ok_iff.1 h
        exact ⟨.of_startValue hp hstart, List.forall_mem_cons.2 ⟨by simp [Opened.Regular], ho⟩⟩
  | firstName =>
      simp only [advance] at h
      split at h
      · cases h
        exact ⟨.object Fields.regular_nil.1 Fields.regular_nil.2, ho⟩
      · obtain ⟨hstart, rfl⟩ := map_pair_eq_ok_iff.1 h
        exact ⟨.of_startField Fields.regular_nil hstart, ho⟩
  | name fields =>
      obtain ⟨hstart, rfl⟩ := map_pair_eq_ok_iff.1 h
      exact ⟨.of_startField hg hstart, ho⟩
  | colon fields name =>
      simp only [advance] at h
      split at h <;> cases h
      exact ⟨trivial, List.forall_mem_cons.2 ⟨hg, ho⟩⟩
  | after value => exact regular_of_continueAfter hg ho h

/-- A document that is put together from regular pieces is regular. -/
theorem regular_of_ofLexemes
    {pieces : List Placed}
    (hg : goal.Regular)
    (ho : ∀ o ∈ opened, o.Regular)
    (hpieces : ∀ placed ∈ pieces, placed.Regular)
    (h : ofLexemes goal opened pieces = .ok value) :
    value.Regular := by
  induction pieces generalizing goal opened with
  | nil =>
      cases goal with
      | after last =>
          cases opened with
          | nil =>
              cases h
              exact hg
          | cons first outer => cases h
      | _ => cases h
  | cons placed rest ih =>
      obtain ⟨hplaced, hrest⟩ := List.forall_mem_cons.1 hpieces
      simp only [ofLexemes] at h
      split at h
      · cases h
      · rename_i hadvance
        obtain ⟨hg', ho'⟩ := regular_of_advance hg ho hplaced hadvance
        exact ih hg' ho' hrest h

/-- No two fields of an object share a name in a document that was read from a text. -/
theorem regular_of_read
    {text : String}
    (h : read text = .ok value) :
    value.Regular := by
  simp only [read] at h
  split at h
  · cases h
  · split at h <;> cases h
    rename_i hread
    have hstart : Goal.Regular .value := trivial
    exact regular_of_ofLexemes hstart (by simp)
      (fun placed hmem => regular_of_mem_lexemes (by simp) hmem) hread

end Reading

end Json
end TypeGraph
