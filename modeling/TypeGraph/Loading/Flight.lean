import TypeGraph.Failure

/-!
# Flights

A loader asks its resolver for an identifier by starting a resolution, which has its answer later.
While a resolution is in flight it is shared: who asks for the same identifier waits for it too, and no
other one is started.

A resolution that has failed is forgotten, so that the identifier can be asked for again.  One that was
answered with a manifest is shared until a load that asked for the identifier ends.  One that has no
answer by then stays in flight, whoever started it.
-/

namespace TypeGraph

/-- One question to a resolver, with its answer when it is there. -/
structure Resolution where
  identifier : String
  answer : Option (Except Failure Manifest)

/-- The resolutions that were started, in order, and the number of the one that is shared, for each
identifier that has one. -/
structure Flight where
  resolutions : List Resolution
  shared : List (String × Nat)

namespace Flight

/-- Nothing was asked for. -/
def empty : Flight :=
  ⟨[], []⟩

/-- The identifiers of the resolutions, in the order in which they were started. -/
def requests (f : Flight) : List String :=
  f.resolutions.map Resolution.identifier

/-- The answer to a resolution, when it is there. -/
def answerOf (f : Flight) (number : Nat) : Option (Except Failure Manifest) :=
  f.resolutions[number]?.bind Resolution.answer

/-- The manifest that a resolution was answered with. -/
def manifestOf (f : Flight) (number : Nat) : Option Manifest :=
  match f.answerOf number with
  | some (.ok m) => some m
  | _ => none

/-- The failure that a resolution was answered with. -/
def failureOf (f : Flight) (number : Nat) : Option Failure :=
  match f.answerOf number with
  | some (.error failure) => some failure
  | _ => none

/-- The numbers of the resolutions that have no answer. -/
def pending (f : Flight) : List Nat :=
  (List.range f.resolutions.length).filter fun number => (f.answerOf number).isNone

/-- Ask for an identifier: the resolution that is shared, or a new one. -/
def fetch (f : Flight) (identifier : String) : Flight × Nat :=
  match f.shared.lookup identifier with
  | some number => (f, number)
  | none =>
      (⟨f.resolutions ++ [⟨identifier, none⟩], (identifier, f.resolutions.length) :: f.shared⟩,
        f.resolutions.length)

/-- Ask for some identifiers, in order. -/
def fetchAll (f : Flight) : List String → Flight × List Nat
  | [] => (f, [])
  | identifier :: rest =>
      let (f, number) := f.fetch identifier
      let (f, numbers) := f.fetchAll rest
      (f, number :: numbers)

/-- A resolution has its answer. -/
def answer? (f : Flight) (answer : String → Except Failure Manifest) (number : Nat) :
    Option Flight :=
  match f.resolutions[number]? with
  | some ⟨identifier, none⟩ =>
      some { f with
        resolutions := f.resolutions.set number ⟨identifier, some (answer identifier)⟩ }
  | _ => none

/-- A resolution that has failed is not shared any more. -/
def forget? (f : Flight) (number : Nat) : Option Flight :=
  match f.failureOf number with
  | some _ => some { f with shared := f.shared.filter fun entry => entry.2 != number }
  | none => none

/-- The answers to some identifiers are not shared any more. -/
def prune (f : Flight) (identifiers : List String) : Flight :=
  { f with
    shared := f.shared.filter fun entry =>
      !(identifiers.contains entry.1 && (f.answerOf entry.2).isSome) }

end Flight
end TypeGraph
