import TypedHole.Tactic.CaseSplit

/-! The automatic tactic: any rule that fits, over and over again. -/
namespace TypedHole
namespace Tactic

variable {ι : Type}

def splittable (j : Judgement) : List Entry := j.locals.filter fun e => !j.isDestructed e.name

def destructAny : Tactic ι := withGoal fun j =>
  choice (((splittable j).filter fun e => !e.ty.isArrow).map fun e => destruct e.name)

def homomorphismAny : Tactic ι := withGoal fun j =>
  choice (((splittable j).filter fun e => e.ty == j.goal).map fun e => homomorphism e.name)

/-- One step of the automatic tactic, and `again` on all that is left. -/
def autoStep (again : Tactic ι) : Tactic ι :=
  choice [assumption,
    andThen intros again,
    andThen split again,
    andThen homomorphismAny again,
    andThen destructAny again,
    andThen apply again]

inductive Label (κ : Type)
  | auto
  | own (label : κ)
  deriving DecidableEq

def bodies {κ : Type} (own : κ → Tactic (Label κ)) : Label κ → Tactic (Label κ)
  | .auto => autoStep (call .auto)
  | .own l => own l

/-- Tries all rules on a goal and on whatever they leave, without end. -/
def auto {κ : Type} : Tactic (Label κ) := call .auto

end Tactic
end TypedHole
