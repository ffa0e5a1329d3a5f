import TypedHole.Config
import TypedHole.Hypothesis
import TypedHole.Module

/-! Programs: modules whose declarations fit together.
All types are declared before any is used, whatever the order of the declarations; everything else
has to be declared before its use. -/
namespace TypedHole

inductive Misfit
  | clash (c : Clash)
  | illFormed (e : IllFormed)
  | unboundVariable (name : Name)
  | classExists (name : Name)
  | unknownClass (name : Name)
  | unknownExtension (name : Name)
  | signatureExists (name : Name)
  | surplusPatterns (function : Name) (given allowed : Nat)
  /-- A constructor pattern for a type that has no constructors. -/
  | unmatchable (ctor : Name) (ty : Ty)
  | foreignConstructor (ctor : Name) (ty : Ty)
  | wrongFieldCount (ctor : Name) (expected given : Nat)
  deriving DecidableEq

def Misfit.message : Misfit → String
  | clash c => c.message
  | illFormed e => e.message
  | unboundVariable x => s!"unbound type variable: {x}"
  | classExists c => s!"class already defined: {c}"
  | unknownClass c => s!"unknown class: {c}"
  | unknownExtension x => Extension.unknownMessage x
  | signatureExists x => s!"signature already given: {x}"
  | surplusPatterns f n m => s!"{f} has {n} arguments but its type has {m}"
  | unmatchable c t => s!"constructor {c} cannot match a value of type {t.text}"
  | foreignConstructor c t => s!"constructor {c} does not belong to type {t.text}"
  | wrongFieldCount c n m => s!"constructor {c} expects {n} arguments, but got {m}"

inductive Part
  | constructor (name : Name)
  | method (name : Name)
  | signature (name : Name)
  | stretch (span : Span)
  | given (hole : Span)
  deriving DecidableEq

def Part.message (s : Source) : Part → String
  | constructor c => s!"in constructor {c}"
  | method m => s!"in method {m}"
  | signature x => s!"in the signature of {x}"
  | stretch p => s!"at {s.excerpt p}"
  | given p => s!"in the annotation at {s.excerpt p}"

structure ProgramError where
  part : Option Part
  misfit : Misfit
  deriving DecidableEq

def ProgramError.messages (s : Source) (e : ProgramError) : List String :=
  e.part.toList.map (·.message s) ++ [e.misfit.message]

def blame {α : Type} (part : Part) : Except Misfit α → Except ProgramError α
  | .ok a => .ok a
  | .error e => .error ⟨some part,e⟩

def blameNone {α : Type} : Except Misfit α → Except ProgramError α
  | .ok a => .ok a
  | .error e => .error ⟨none,e⟩

def TypeTable.checked (types : TypeTable) (t : Ty) : Except Misfit Unit :=
  match types.check t with
  | .ok _ => .ok ()
  | .error e => .error (.illFormed e)

def Ty.checkVariables (params : List Name) : Ty → Except Misfit Unit
  | .const _ => .ok ()
  | .var x => if params.contains x then .ok () else .error (.unboundVariable x)
  | .arrow d c => do d.checkVariables params; c.checkVariables params
  | .app f a => do f.checkVariables params; a.checkVariables params

mutual

/-- The entries for the variables of a pattern that is matched against a value of a type. -/
def Pat.entries (types : TypeTable) : Pat → Ty → Provenance → Except Misfit (List Entry)
  | .var x _, t, p => .ok [⟨x,t,p⟩]
  | .wildcard _, _, _ => .ok []
  | .ctor c args _, t, _ =>
    match types.constructors? t with
    | none => .error (.unmatchable c t)
    | some cs =>
      match cs.find? (·.name == c) with
      | none => .error (.foreignConstructor c t)
      | some con =>
        if args.length = con.fields.length then Pat.entriesOfFields types c args con.fields 0
        else .error (.wrongFieldCount c con.fields.length args.length)

def Pat.entriesOfFields (types : TypeTable) (c : Name) :
    List Pat → List Ty → Nat → Except Misfit (List Entry)
  | p :: ps, t :: ts, i => do
    let es ← p.entries types t (.field none c i)
    let rest ← Pat.entriesOfFields types c ps ts (i + 1)
    pure (es ++ rest)
  | _, _, _ => .ok []

end

structure Program where
  module : Module
  types : TypeTable := {}
  signatures : List (Name × Ty) := []
  classes : List ClassDecl := []
  instances : List InstanceDecl := []
  extensions : Extensions := .none

namespace Program

def class? (p : Program) (name : Name) : Option ClassDecl := p.classes.find? (·.name == name)

def signature? (p : Program) (name : Name) : Option Ty := p.signatures.lookup name

def declareType (types : TypeTable) : Decl → Except Clash TypeTable
  | .primitive x => types.addPrimitive x
  | .datatype d => types.addDatatype d
  | _ => .ok types

def checkDatatype (types : TypeTable) (d : Datatype) : Except ProgramError Unit :=
  d.ctors.forM fun c => c.fields.forM fun t => blame (.constructor c.name) do
    types.checked t
    t.checkVariables d.params

def checkEquation (types : TypeTable) (e : Equation) (ty : Ty) : Except ProgramError Unit := do
  if ty.domains.length < e.pats.length then
    throw ⟨none,.surplusPatterns e.name e.pats.length ty.domains.length⟩
  (e.pats.zip ty.domains).forM fun (p,t) => do
    let _ ← blame (.stretch p.span) (p.entries types t .user)

/-- Takes a declaration into a program whose types are all declared. -/
def add (p : Program) : Decl → Except ProgramError Program
  | .primitive _ => .ok p
  | .datatype d => do
    checkDatatype p.types d
    pure p
  | .cls d => do
    if (p.class? d.name).isSome then throw ⟨none,.classExists d.name⟩
    d.methods.forM fun (m,t) => blame (.method m) (p.types.checked t)
    pure { p with classes := p.classes ++ [d] }
  | .inst d => do
    if (p.class? d.cls).isNone then throw ⟨none,.unknownClass d.cls⟩
    blameNone (p.types.checked d.ty)
    pure { p with instances := p.instances ++ [d] }
  | .extension x span =>
    match Extension.ofName? x with
    | some e => .ok { p with extensions := p.extensions.enable e }
    | none => .error ⟨some (.stretch span),.unknownExtension x⟩
  | .signature x t => do
    if (p.signature? x).isSome then throw ⟨none,.signatureExists x⟩
    blame (.signature x) (p.types.checked t)
    pure { p with signatures := p.signatures ++ [(x,t)] }
  | .equation e => do
    match p.signature? e.name with
    | some t => checkEquation p.types e t
    | none => pure ()
    pure p

def checkGiven (types : TypeTable) (h : HoleSite) : Except ProgramError Unit :=
  match h.given with
  | some t => blame (.given h.span) (types.checked t)
  | none => .ok ()

def ofModule (m : Module) : Except ProgramError Program := do
  let types ← blameNone ((m.decls.foldlM declareType {}).mapError .clash)
  let p ← m.decls.foldlM add { module := m, types }
  m.holes.forM (checkGiven types)
  pure p

def holes (p : Program) : List HoleSite := p.module.holes

def configure (p : Program) (base : Config) : Config :=
  { base with extensions := base.extensions.union p.extensions }

end Program
end TypedHole
