import TypedHole.FreshName
import TypedHole.Tactic

/-! Rules that look at the goal: use an entry, introduce a lambda, apply a constructor or a function. -/
namespace TypedHole
namespace Tactic

variable {ι : Type}

def refusal (rule : String) (j : Judgement) : TacticError := .noApplicableRule rule j.goal

def lookup (j : Judgement) (name : Name) : Except TacticError Entry :=
  match j.hypothesis.find? name with
  | some e => .ok e
  | none => .error (.notInScope name)

def someOf (refused : TacticError) (rs : List (Refinement (Tactic ι))) :
    Except TacticError (List (Refinement (Tactic ι))) :=
  if rs.isEmpty then .error refused else .ok rs

/-- Uses any entry of exactly the goal's type, except the definition being written. -/
def assumption : Tactic ι := rule "assumption" fun _ j =>
  someOf (refusal "assumption" j) <|
    (j.hypothesis.entries.filter fun e => e.ty == j.goal && e.provenance != .recursive).map
      fun e => .closed (.var e.name)

def assume (name : Name) : Tactic ι := rule "assume" fun _ j => do
  let e ← lookup j name
  if e.ty = j.goal then pure [.closed (.var name)] else throw (refusal "assume" j)

/-- Introduces all arguments of the goal under new names. -/
def intros : Tactic ι := rule "intros" fun _ j =>
  match j.goal.domains with
  | [] => .error (refusal "intros" j)
  | doms =>
    let names := ((NameSupply.ofHypothesis j.hypothesis).freshList doms).1
    let entries := (names.zip doms).map fun (x,t) => ⟨x,t,.user⟩
    .ok [⟨.lam names (.hole 0),[⟨(j.subgoal j.goal.result).withEntries entries,none⟩]⟩]

def argumentsOf (j : Judgement) (head : Name) (types : List Ty) : Refinement (Tactic ι) :=
  .application head (types.map fun t => ⟨j.argument t,none⟩)

def split : Tactic ι := rule "split" fun ctx j =>
  match ctx.types.constructors? j.goal with
  | none => .error (refusal "split" j)
  | some cs => .ok (cs.map fun c => argumentsOf j c.name c.fields)

def apply : Tactic ι := rule "apply" fun _ j =>
  someOf (refusal "apply" j) <|
    (j.hypothesis.entries.filter fun e =>
      e.provenance != .recursive && e.ty.isArrow && e.ty.result == j.goal).map
      fun e => argumentsOf j e.name e.ty.domains

end Tactic
end TypedHole
