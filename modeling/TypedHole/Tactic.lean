import TypedHole.Judgement
import TypedHole.TacticError
import TypedHole.Term

/-! Tactics.
A tactic describes how to refine a goal. Tactics that refer to themselves do so through labels: a
table gives the body of each label. -/
namespace TypedHole

/-- A goal that a refinement leaves. Its own tactic, if it has one, runs before the rest of the
enclosing tactic. -/
structure Subgoal (τ : Type) where
  judgement : Judgement
  tactic : Option τ := none

/-- A partial term for a goal. Hole `i` of the extract stands for subgoal `i`, counted from zero; a
hole numbered past the subgoals is left in the term for good. -/
structure Refinement (τ : Type) where
  extract : Term
  subgoals : List (Subgoal τ) := []

inductive Tactic (ι : Type) : Type
  | rule (name : String)
      (refine : Context → Judgement → Except TacticError (List (Refinement (Tactic ι))))
  /-- Runs the second tactic on every subgoal that the first one leaves. -/
  | andThen (first second : Tactic ι)
  /-- Runs the second tactic when the first one fails or offers nothing. -/
  | orElse (first fallback : Tactic ι)
  | choice (tactics : List (Tactic ι))
  | idle
  | fail (e : TacticError)
  | call (label : ι)
  | withGoal (choose : Judgement → Tactic ι)

namespace Tactic

mutual

def text {ι : Type} : Tactic ι → String
  | rule name _ => name
  | andThen a b => "then(" ++ a.text ++ ", " ++ b.text ++ ")"
  | orElse a b => "or(" ++ a.text ++ ", " ++ b.text ++ ")"
  | choice ts => "[" ++ textList ts ++ "]"
  | idle => "idle"
  | fail e => "fail(" ++ e.message ++ ")"
  | call _ => "lazy"
  | withGoal _ => "with_goal"

def textList {ι : Type} : List (Tactic ι) → String
  | [] => ""
  | [t] => t.text
  | t :: ts => t.text ++ ", " ++ textList ts

end

end Tactic

def Term.holeBound (t : Term) : Nat := t.holes.foldr (fun i n => max (i + 1) n) 0

namespace Refinement

variable {τ : Type}

def closed (extract : Term) : Refinement τ := ⟨extract,[]⟩

def width (r : Refinement τ) : Nat := max r.subgoals.length r.extract.holeBound

def application (head : Name) (subgoals : List (Subgoal τ)) : Refinement τ where
  extract := (Term.var head).apply ((List.range subgoals.length).map Term.hole)
  subgoals := subgoals

end Refinement
end TypedHole
