import TypedHole.Command
import TypedHole.Config
import TypedHole.Source

/-! The actions that are offered at a hole. -/
namespace TypedHole

/-- A command to run at a place, on a binding if it needs one. -/
structure Action where
  command : Command
  binding : Option Name
  location : Span
  deriving DecidableEq

namespace Action

def title (a : Action) : String := a.command.title a.binding

def bindingText (a : Action) : String := a.binding.getD ""

end Action

def allowsDestruct (types : TypeTable) (ty : Ty) : Bool := types.isAlgebraic ty

def allowsHomomorphism (types : TypeTable) (goal ty : Ty) : Bool :=
  types.isAlgebraic goal && types.isAlgebraic ty && goal == ty

/-- For a function out of an algebraic type, whether its argument and its result have one type, as a
homomorphic split needs; a result of another algebraic type would not do. -/
def lambdaCase? (types : TypeTable) (goal : Ty) : Option Bool := do
  let (dom,cod) ← goal.arrow?
  if types.isAlgebraic dom then some (dom == cod) else none

/-- The bindings that a command is offered on; `none` stands for the command without a binding. -/
def Command.targets (c : Command) (extensions : Extensions) (types : TypeTable) (j : Judgement) :
    List (Option Name) :=
  let offered (b : Bool) : List (Option Name) := if b then [none] else []
  let among (p : Ty → Bool) : List (Option Name) :=
    (j.locals.filter fun e => p e.ty).map fun e => some e.name
  match c with
  | auto => [none]
  | intros => offered j.goal.isArrow
  | destruct => among (allowsDestruct types)
  | homomorphism => among (allowsHomomorphism types j.goal)
  | destructLambdaCase => offered (extensions.has .lambdaCase && (lambdaCase? types j.goal).isSome)
  | homomorphismLambdaCase =>
    offered (extensions.has .lambdaCase && lambdaCase? types j.goal == some true)

def actions (cfg : Config) (ctx : Context) (j : Judgement) (location : Span) : List Action :=
  Command.all.flatMap fun c =>
    (c.targets cfg.extensions ctx.types j).map fun b => ⟨c,b,location⟩

end TypedHole
