import TypedHole.Hypothesis
import TypedHole.TypeTable

/-! Judgements, the goals that tactics refine, and the facts about a hole that all of them share. -/
namespace TypedHole

structure Judgement where
  goal : Ty
  hypothesis : Hypothesis
  /-- The hole is the whole right-hand side of a top-level equation. -/
  isTop : Bool := false
  /-- The names already split on along the way to this goal. -/
  destructed : NameSet := .empty

namespace Judgement

def subgoal (j : Judgement) (goal : Ty) : Judgement := { j with goal, isTop := false }

def withEntries (j : Judgement) (es : List Entry) : Judgement :=
  { j with hypothesis := j.hypothesis.extend es }

def withDestructed (j : Judgement) (name : Name) : Judgement :=
  { j with destructed := j.destructed.insert name }

def isDestructed (j : Judgement) (name : Name) : Bool := j.destructed.contains name

def locals (j : Judgement) : List Entry := j.hypothesis.entries.filter (·.provenance.isLocal)

/-- A judgement for one argument of an application. Locals in scope are settled there: a case split
on them belongs above the application, where every argument shares it. -/
def argument (j : Judgement) (goal : Ty) : Judgement :=
  j.locals.foldl (fun arg e => arg.withDestructed e.name) (j.subgoal goal)

def text (j : Judgement) : String :=
  String.join (j.hypothesis.entries.map fun e => e.text ++ "\n") ++ "⊢ " ++ j.goal.text

end Judgement

structure Context where
  bindings : List (Name × Ty) := []
  methods : Hypothesis := .empty
  types : TypeTable

end TypedHole
