import TypedHole.Ty

/-! Declared types.
A data type lists its constructors; a primitive type has none that could be written down. A type is
algebraic when a data type heads it with as many arguments as it has parameters. -/
namespace TypedHole

structure Constructor where
  name : Name
  fields : List Ty
  deriving DecidableEq

structure Datatype where
  name : Name
  params : List Name
  ctors : List Constructor
  deriving DecidableEq

structure TypeTable where
  primitives : List Name := []
  datatypes : List Datatype := []

inductive Clash
  | typeExists (name : Name)
  | repeatedParameter
  | repeatedConstructor (name : Name)
  deriving DecidableEq

def Clash.message : Clash → String
  | typeExists x => s!"type already defined: {x}"
  | repeatedParameter => "duplicate type variables"
  | repeatedConstructor c => s!"duplicate constructor: {c}"

inductive IllFormed
  | variableApplied (t : Ty)
  | unknownType (name : Name)
  | wrongArity (name : Name) (expected given : Nat)
  deriving DecidableEq

def IllFormed.message : IllFormed → String
  | variableApplied t => s!"type variables cannot be applied: {t.text}"
  | unknownType x => s!"unknown type: {x}"
  | wrongArity x n m => s!"type {x} expects {n} arguments, but got {m}"

namespace TypeTable

def datatype? (table : TypeTable) (name : Name) : Option Datatype :=
  table.datatypes.find? (·.name == name)

def hasType (table : TypeTable) (name : Name) : Bool :=
  (table.datatype? name).isSome || table.primitives.contains name

def owner? (table : TypeTable) (ctor : Name) : Option Datatype :=
  table.datatypes.find? fun d => d.ctors.any (·.name == ctor)

def arity? (table : TypeTable) (name : Name) : Option Nat :=
  match table.datatype? name with
  | some d => some d.params.length
  | none => if table.primitives.contains name then some 0 else none

def addPrimitive (table : TypeTable) (name : Name) : Except Clash TypeTable :=
  if table.hasType name then .error (.typeExists name)
  else .ok { table with primitives := table.primitives ++ [name] }

/-- Adds a data type whose name, parameters and constructors clash with nothing. -/
def addDatatype (table : TypeTable) (d : Datatype) : Except Clash TypeTable :=
  if table.hasType d.name then .error (.typeExists d.name)
  else if ¬ d.params.Nodup then .error .repeatedParameter
  else
    let names := d.ctors.map (·.name)
    match names.find? fun c => (table.owner? c).isSome || names.count c > 1 with
    | some c => .error (.repeatedConstructor c)
    | none => .ok { table with datatypes := table.datatypes ++ [d] }

/-- The constructors of an algebraic type, with their fields at the type's arguments. -/
def constructors? (table : TypeTable) (t : Ty) : Option (List Constructor) := do
  let (head,args) ← t.unapply?
  let d ← table.datatype? head
  if d.params.length = args.length then
    some (d.ctors.map fun c => ⟨c.name,c.fields.map (·.subst (d.params.zip args))⟩)
  else none

def isAlgebraic (table : TypeTable) (t : Ty) : Bool := (table.constructors? t).isSome

theorem name_of_datatype? {table : TypeTable} {name : Name} {d : Datatype} (h : table.datatype? name = some d) :
    d.name = name := by
  rw [datatype?] at h
  simpa using List.find?_some h

/-- An algebraic type is a data type at as many arguments as that has parameters. -/
theorem constructors?_eq_some_iff {table : TypeTable} {t : Ty} {cs : List Constructor} :
    table.constructors? t = some cs ↔ ∃ d args, t.unapply? = some (d.name,args) ∧ table.datatype? d.name = some d ∧
      d.params.length = args.length ∧
      cs = d.ctors.map fun c => ⟨c.name,c.fields.map (·.subst (d.params.zip args))⟩ := by
  constructor
  · intro h
    obtain ⟨⟨head,args⟩,hhead,hdata⟩ := Option.bind_eq_some_iff.1 h
    obtain ⟨d,hd,hctors⟩ := Option.bind_eq_some_iff.1 hdata
    have hname := name_of_datatype? hd
    split at hctors
    next hl =>
      cases hctors
      exact ⟨d,args,hname ▸ hhead,hname ▸ hd,hl,rfl⟩
    next => cases hctors
  · rintro ⟨d,args,hhead,hd,hl,rfl⟩
    simp only [constructors?,hhead,hd,Option.bind_eq_bind,Option.bind_some,if_pos hl]

def checkHead (table : TypeTable) (t : Ty) : Except IllFormed Unit :=
  match t.unapply? with
  | none => .error (.variableApplied t)
  | some (head,args) =>
    match table.arity? head with
    | none => .error (.unknownType head)
    | some n => if n = args.length then .ok () else .error (.wrongArity head n args.length)

mutual

/-- Checks that every constant names a known type and has all its arguments. -/
def check (table : TypeTable) : Ty → Except IllFormed Unit
  | .var _ => .ok ()
  | .const c => table.checkHead (.const c)
  | .arrow d c => do table.check d; table.check c
  | .app f a => do table.checkHead (.app f a); table.checkArgs f; table.check a

def checkArgs (table : TypeTable) : Ty → Except IllFormed Unit
  | .app f a => do table.checkArgs f; table.check a
  | _ => .ok ()

end

end TypeTable
end TypedHole
