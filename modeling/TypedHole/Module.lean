import TypedHole.Source
import TypedHole.TypeTable

/-! Modules as they are written: declarations, patterns and expressions, each with its span.
An expression may have holes; they are the places to complete. -/
namespace TypedHole

inductive Pat
  | var (name : Name) (span : Span)
  | wildcard (span : Span)
  | ctor (name : Name) (args : List Pat) (span : Span)

inductive Expr
  | var (name : Name) (span : Span)
  | hole (name : Name) (span : Span)
  | number (text : String) (span : Span)
  | app (fn arg : Expr) (span : Span)
  | binary (op : Name) (lhs rhs : Expr) (span : Span)
  | lam (binders : List Name) (body : Expr) (span : Span)
  | ann (expr : Expr) (ty : Ty) (span : Span)

/-- A name that marks a hole, or a pattern that binds nothing. -/
def isHoleName (x : Name) : Bool := x.toList.head? == some '_'

structure Equation where
  name : Name
  pats : List Pat
  rhs : Expr
  span : Span

structure ClassDecl where
  name : Name
  param : Name
  methods : List (Name × Ty)

structure InstanceDecl where
  cls : Name
  ty : Ty

inductive Decl
  | datatype (d : Datatype)
  | primitive (name : Name)
  | cls (d : ClassDecl)
  | inst (d : InstanceDecl)
  | extension (name : Name) (span : Span)
  | signature (name : Name) (ty : Ty)
  | equation (e : Equation)

structure Module where
  decls : List Decl

def Pat.span : Pat → Span
  | var _ s | wildcard s | ctor _ _ s => s

def Expr.span : Expr → Span
  | var _ s | hole _ s | number _ s | app _ _ s | binary _ _ _ s | lam _ _ s | ann _ _ s => s

inductive Node
  | equation (e : Equation)
  | pat (p : Pat)
  | expr (e : Expr)

def Node.span : Node → Span
  | equation e => e.span
  | pat p => p.span
  | expr e => e.span

mutual

def Pat.nodes : Pat → List Node
  | p@(.ctor _ args _) => .pat p :: Pat.nodesOfList args
  | p => [.pat p]

def Pat.nodesOfList : List Pat → List Node
  | [] => []
  | p :: ps => p.nodes ++ Pat.nodesOfList ps

end

def Expr.nodes : Expr → List Node
  | e@(.var ..) | e@(.hole ..) | e@(.number ..) => [.expr e]
  | e@(.app f a _) => .expr e :: (f.nodes ++ a.nodes)
  | e@(.binary _ l r _) => .expr e :: (l.nodes ++ r.nodes)
  | e@(.lam _ b _) => .expr e :: b.nodes
  | e@(.ann a _ _) => .expr e :: a.nodes

def Equation.nodes (e : Equation) : List Node :=
  .equation e :: (e.pats.flatMap Pat.nodes ++ e.rhs.nodes)

/-- A hole with the type written next to it, if there is one. -/
structure HoleSite where
  span : Span
  given : Option Ty
  deriving DecidableEq

def Node.holeSite? : Node → Option HoleSite
  | .expr (.hole _ s) => some ⟨s,none⟩
  | .expr (.ann (.hole _ s) t _) => some ⟨s,some t⟩
  | _ => none

def HoleSite.mergeAfter (last : Span) : List HoleSite → List HoleSite
  | [] => []
  | a :: rest => if a.span = last then mergeAfter last rest else a :: mergeAfter a.span rest

/-- Keeps the first of neighbouring sites with one span. -/
def HoleSite.merge : List HoleSite → List HoleSite
  | [] => []
  | a :: rest => a :: mergeAfter a.span rest

namespace Module

def equations (m : Module) : List Equation :=
  m.decls.filterMap fun
    | .equation e => some e
    | _ => none

def nodes (m : Module) : List Node := m.equations.flatMap Equation.nodes

/-- All holes in reading order. An annotated hole is met twice, first with its annotation. -/
def holes (m : Module) : List HoleSite := HoleSite.merge (m.nodes.filterMap Node.holeSite?)

def enclosingEquation? (m : Module) (s : Span) : Option Equation :=
  m.equations.find? (·.span.contains s)

/-- The first equation whose whole right-hand side is the hole at a span. -/
def topHoleEquation? (m : Module) (s : Span) : Option Equation :=
  m.equations.find? fun e => e.span.contains s && match e.rhs with
    | .hole x p => isHoleName x && p == s
    | _ => false

end Module
end TypedHole
