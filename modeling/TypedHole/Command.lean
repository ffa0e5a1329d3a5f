import TypedHole.Tactic.Auto

/-! The commands that run a tactic at a hole. -/
namespace TypedHole

inductive Command
  | auto | intros | destruct | homomorphism | destructLambdaCase | homomorphismLambdaCase
  deriving DecidableEq

namespace Command

def all : List Command :=
  [auto,intros,destruct,homomorphism,destructLambdaCase,homomorphismLambdaCase]

def name : Command → String
  | auto => "Auto"
  | intros => "Intros"
  | destruct => "Destruct"
  | homomorphism => "Homomorphism"
  | destructLambdaCase => "DestructLambdaCase"
  | homomorphismLambdaCase => "HomomorphismLambdaCase"

/-- The identifier under which an editor invokes the command. -/
def id (c : Command) : String := s!"tactics{c.name}Command"

def dashed (name : String) : String :=
  String.ofList (name.toList.mapIdx fun i ch =>
    if 0 < i ∧ ch.isUpper then ['-',ch.toLower] else [ch.toLower]).flatten

/-- The command for a text that is its name, its identifier or its dashed name. -/
def ofText? (text : String) : Option Command :=
  all.find? fun c => text == c.name || text == c.id || text == dashed c.name

def unknownMessage (text : String) : String := s!"unknown tactic: {text}"

def takesBinding : Command → Bool
  | destruct | homomorphism => true
  | _ => false

def title (c : Command) (binding : Option Name) : String :=
  let x := binding.getD "_"
  match c with
  | auto => "Attempt to fill hole"
  | intros => "Introduce lambda"
  | destruct => s!"Case split on {x}"
  | homomorphism => s!"Homomorphic case split on {x}"
  | destructLambdaCase => "Lambda case split"
  | homomorphismLambdaCase => "Homomorphic lambda case split"

def tactic {κ : Type} (c : Command) (binding : Option Name) : Except TacticError (Tactic (Tactic.Label κ)) :=
  match c, binding with
  | auto, _ => .ok .auto
  | intros, _ => .ok .intros
  | destruct, some x => .ok (.destruct x)
  | homomorphism, some x => .ok (.homomorphism x)
  | destruct, none | homomorphism, none => .error (.missingBinding c.name)
  | destructLambdaCase, _ => .ok .destructLambdaCase
  | homomorphismLambdaCase, _ => .ok .homomorphismLambdaCase

end Command
end TypedHole
