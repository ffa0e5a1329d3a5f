import TypedHole.Judgement
import TypedHole.Program
import TypedHole.TacticError

/-! From a hole of a program to the judgement that a search starts from. -/
namespace TypedHole

structure HoleFacts where
  span : Span
  goal : Option Ty
  bindings : Option (List Entry)
  module : Option Module
  methods : Option Hypothesis
  types : Option TypeTable

/-- Leaves out what is listed again under the same name later on. -/
def lastOfEach {α : Type} : List (Name × α) → List (Name × α)
  | [] => []
  | (x,a) :: rest => if rest.any (·.1 == x) then lastOfEach rest else (x,a) :: lastOfEach rest

/-- The variables that the equation whose whole right-hand side is the hole takes as its arguments,
with their positions. Of two patterns with one variable the later counts. -/
def Module.argumentsAt (m : Module) (hole : Span) : List (Name × Provenance) :=
  match m.topHoleEquation? hole with
  | none => []
  | some e => lastOfEach ((e.pats.mapIdx fun i p => match p with
      | .var x _ => some (x,Provenance.argument e.name i)
      | _ => none).filterMap id)

/-- The judgement at a hole when all facts are known. Local bindings hide methods of the same name. -/
def HoleFacts.judgement? (f : HoleFacts) : Option (Judgement × Context) := do
  let goal ← f.goal
  let bindings ← f.bindings
  let module ← f.module
  let methods ← f.methods
  let types ← f.types
  let known := (Hypothesis.ofList bindings).withProvenance (module.argumentsAt f.span)
  let j : Judgement :=
    ⟨goal,methods.union known,(module.topHoleEquation? f.span).isSome,.empty⟩
  pure (j,⟨bindings.map fun e => (e.name,e.ty),methods,types⟩)

/-- The binders of the lambdas at the head of an expression whose bodies contain a span, outermost
first, and the innermost of these bodies. -/
def Expr.lambdasAround (s : Span) : Expr → List Name × Expr
  | e@(.lam xs b _) =>
    if b.span.contains s then
      let (ys,inner) := b.lambdasAround s
      (xs ++ ys,inner)
    else ([],e)
  | e => ([],e)

namespace Program

def methods (p : Program) : Hypothesis :=
  .ofList (p.instances.flatMap fun i => match p.class? i.cls with
    | some c => c.methods.map fun (m,t) => ⟨m,t.subst [(c.param,i.ty)],.method c.name i.ty⟩
    | none => [])

def patternEntries (p : Program) (pats : List Pat) (doms : List Ty) : Except Misfit (List Entry) := do
  let es ← (pats.zip doms).mapM fun (q,t) => q.entries p.types t .user
  pure es.flatten

def bindings? (p : Program) (e : Equation) (place : Span) : Option (List Entry) :=
  let others := (p.signatures.filter fun (x,_) => x != e.name).map fun (x,t) => ⟨x,t,.global⟩
  match p.signature? e.name with
  | none => some others
  | some t =>
    match p.patternEntries e.pats t.domains with
    | .error _ => none
    | .ok es =>
      let binders := (e.rhs.lambdasAround place).1.zip (t.domains.drop e.pats.length)
      some (others ++ [⟨e.name,t,.recursive⟩] ++ es ++ binders.map fun (x,t) => ⟨x,t,.user⟩)

def resultAfter (t : Ty) (n : Nat) : Ty := .arrows (t.domains.drop n) t.result

/-- The type of a hole: the type written next to it, or what its equation has to return when the hole
is the whole right-hand side, possibly under lambdas. -/
def goal? (p : Program) (h : HoleSite) : Option Ty :=
  match h.given, p.module.topHoleEquation? h.span, p.module.enclosingEquation? h.span with
  | some t, _, _ => some t
  | none, some e, _ => (p.signature? e.name).map (resultAfter · e.pats.length)
  | none, none, some e =>
    let (binders,body) := e.rhs.lambdasAround h.span
    match body, p.signature? e.name with
    | .hole _ s, some t =>
      let bound := e.pats.length + binders.length
      if s = h.span ∧ binders ≠ [] ∧ bound ≤ t.domains.length then some (resultAfter t bound)
      else none
    | _, _ => none
  | none, none, none => none

def holeFacts (p : Program) (h : HoleSite) : HoleFacts where
  span := h.span
  goal := p.goal? h
  bindings := (p.module.enclosingEquation? h.span).bind fun e => p.bindings? e h.span
  module := some p.module
  methods := some p.methods
  types := some p.types

def holeFacts? (p : Program) (index : Nat) : Option HoleFacts := p.holes[index]?.map p.holeFacts

end Program

structure Resolved where
  span : Span
  judgement : Judgement
  context : Context

/-- Resolves a hole of a program by its number. The source is only needed to say where a hole is that
cannot be resolved. -/
def Program.resolve (p : Program) (s : Source) (index : Nat) : Except TacticError Resolved :=
  match p.holeFacts? index with
  | none => .error (.unresolved (.noHole index p.holes.length))
  | some f =>
    match f.judgement? with
    | none => .error (.unresolved (.unknownFacts (s.position f.span.start)))
    | some (j,c) => .ok ⟨f.span,j,c⟩

end TypedHole
