import TypedHole.Source
import TypedHole.Ty

/-! Why a tactic does not apply. -/
namespace TypedHole

/-- Why nothing can be said about a hole. -/
inductive Unresolved
  | noHole (index count : Nat)
  | unknownFacts (place : Position)
  | other (reason : String)
  deriving DecidableEq

def Unresolved.message : Unresolved → String
  | noHole i n => s!"there is no hole #{i}, the file has {n}"
  | unknownFacts p => s!"the goal or the bindings of the hole at {p.line}:{p.column} are unknown"
  | other reason => reason

inductive TacticError
  | notInScope (name : Name)
  | noApplicableRule (rule : String) (goal : Ty)
  | missingBinding (command : String)
  | timeout (milliseconds : Nat)
  | unresolved (why : Unresolved)
  | noProgress
  deriving DecidableEq

def TacticError.message : TacticError → String
  | notInScope x => s!"variable not in scope: {x}"
  | noApplicableRule r t => s!"{r} does not apply to goal {t.text}"
  | missingBinding c => s!"{c} needs a binding"
  | timeout ms => s!"timed out after {ms}ms"
  | unresolved why => s!"hole cannot be resolved: {why.message}"
  | noProgress => "tactic makes no progress"

end TypedHole
