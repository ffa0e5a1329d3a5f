/-! Settings of a run. -/
namespace TypedHole

/-- Additions to the language that allow more commands. -/
inductive Extension
  | lambdaCase
  deriving DecidableEq

namespace Extension

def all : List Extension := [lambdaCase]

def name : Extension → String
  | lambdaCase => "LambdaCase"

def ofName? (name : String) : Option Extension := all.find? (·.name == name)

def unknownMessage (name : String) : String := s!"unknown extension: {name}"

end Extension

structure Extensions where
  has : Extension → Bool

namespace Extensions

def none : Extensions := ⟨fun _ => false⟩

def enable (s : Extensions) (e : Extension) : Extensions := ⟨fun x => x == e || s.has x⟩

def union (s t : Extensions) : Extensions := ⟨fun x => s.has x || t.has x⟩

def toList (s : Extensions) : List Extension := Extension.all.filter s.has

end Extensions

structure Config where
  extensions : Extensions := .none
  /-- The time that a run may take, in milliseconds. -/
  timeout : Nat := 200
  /-- The number of derivations after which a run stops. -/
  maxSolutions : Nat := 8

end TypedHole
