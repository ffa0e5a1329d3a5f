import TypedHole.Tactic.Direct

/-! Rules that split on a value: plain case splits, and homomorphic ones, which rebuild the constructor
that was matched. -/
namespace TypedHole
namespace Tactic

variable {ι : Type}

structure Branch where
  ctor : Constructor
  binders : List Name
  judgement : Judgement

def fieldEntries (scrutinee : Option Name) (ctor : Constructor) (binders : List Name) : List Entry :=
  (binders.zip ctor.fields).mapIdx fun i (x,t) => ⟨x,t,.field scrutinee ctor.name i⟩

/-- The branch for a constructor. A named scrutinee counts as split from there on. -/
def branch (j : Judgement) (scrutinee : Option Name) (goal : Ty) (ctor : Constructor) : Branch :=
  let binders := ((NameSupply.ofHypothesis j.hypothesis).freshList ctor.fields).1
  let inner := (j.subgoal goal).withEntries (fieldEntries scrutinee ctor binders)
  ⟨ctor,binders,match scrutinee with
    | some x => inner.withDestructed x
    | none => inner⟩

/-- Puts the refinements of alternatives side by side; the holes of each alternative are numbered
after those of the alternatives before it. -/
def joinAlts : Nat → List (Alt (Refinement (Tactic ι))) → List (Alt Term) × List (Subgoal (Tactic ι))
  | _, [] => ([],[])
  | next, ⟨c,xs,r⟩ :: as =>
    let (alts,goals) := joinAlts (next + r.subgoals.length) as
    (⟨c,xs,r.extract.shift next⟩ :: alts,r.subgoals ++ goals)

def splitOn (wrap : List (Alt Term) → Term) (j : Judgement) (scrutinee : Option Name) (goal : Ty)
    (ctors : List Constructor) (body : Branch → Refinement (Tactic ι)) : Refinement (Tactic ι) :=
  let alts := ctors.map fun c => let b := branch j scrutinee goal c; ⟨c.name,b.binders,body b⟩
  let (alts,goals) := joinAlts 0 alts
  ⟨wrap alts,goals⟩

def openBranch (b : Branch) : Refinement (Tactic ι) := ⟨.hole 0,[⟨b.judgement,none⟩]⟩

/-- The position at which a call of the definition being written takes a field: the position of the
scrutinee when that is an argument of the definition, or else the only one. -/
def recursionPosition? (j : Judgement) (r : Entry) (scrutinee : Option Name) : Option Nat :=
  let alone := if r.ty.domains.length = 1 then some 0 else none
  match scrutinee.bind j.hypothesis.find? with
  | some ⟨_,_,.argument f i⟩ => if f = r.name then some i else alone
  | _ => alone

def passedOn? (j : Judgement) (r : Entry) (index : Nat) (ty : Ty) : Option Term :=
  match j.hypothesis.findProvenance? (· == .argument r.name index) with
  | some e => if e.ty = ty then some (.var e.name) else none
  | none => none

/-- A call of the definition being written on a field, with all other arguments as they are. -/
def recursiveCall? (j : Judgement) (scrutinee : Option Name) (field : Name) (ty : Ty) :
    Option Term := do
  let r ← j.hypothesis.findProvenance? (· == .recursive)
  let position ← recursionPosition? j r scrutinee
  if r.ty.result = ty ∧ r.ty.domains[position]? = some ty then
    let args ← (r.ty.domains.mapIdx fun i t =>
      if i = position then some (.var field) else passedOn? j r i t).mapM id
    some ((Term.var r.name).apply args)
  else none

inductive Part (ι : Type)
  | term (t : Term)
  | goal (g : Subgoal (Tactic ι))

namespace Part

def terms (next : Nat) : List (Part ι) → List Term
  | [] => []
  | term t :: ps => t :: terms next ps
  | goal _ :: ps => .hole next :: terms (next + 1) ps

def subgoals : List (Part ι) → List (Subgoal (Tactic ι))
  | [] => []
  | term _ :: ps => subgoals ps
  | goal g :: ps => g :: subgoals ps

end Part

/-- What becomes of a field. Where the goal's type recurs it is the result of a recursive call, if
one can be formed; any other field is kept unless something else fits better. -/
def rebuildField (scrutinee : Option Name) (j : Judgement) (field : Name) (ty : Ty) : Part ι :=
  match if ty = j.goal then recursiveCall? j scrutinee field ty else none with
  | some t => .term t
  | none => .goal ⟨j.subgoal ty,some (orElse (assume field) idle)⟩

def rebuild (scrutinee : Option Name) (b : Branch) : Refinement (Tactic ι) :=
  let parts := (b.binders.zip b.ctor.fields).map fun (x,t) => rebuildField scrutinee b.judgement x t
  ⟨(Term.var b.ctor.name).apply (Part.terms 0 parts),Part.subgoals parts⟩

def constructorsFor (rule : String) (ctx : Context) (j : Judgement) (t : Ty) :
    Except TacticError (List Constructor) :=
  match ctx.types.constructors? t with
  | some cs => .ok cs
  | none => .error (refusal rule j)

def destruct (name : Name) : Tactic ι := rule "destruct" fun ctx j => do
  let e ← lookup j name
  let cs ← constructorsFor "destruct" ctx j e.ty
  pure [splitOn (.case (.var name)) j (some name) j.goal cs openBranch]

/-- Structural recursion over the entry under a name, whose type has to be the goal. -/
def homomorphism (name : Name) : Tactic ι := rule "homomorphism" fun ctx j => do
  let e ← lookup j name
  if e.ty ≠ j.goal then throw (refusal "homomorphism" j)
  let cs ← constructorsFor "homomorphism" ctx j e.ty
  pure [splitOn (.case (.var name)) j (some name) j.goal cs (rebuild (some name))]

def functionGoal (rule : String) (j : Judgement) : Except TacticError (Ty × Ty) :=
  match j.goal.arrow? with
  | some p => .ok p
  | none => .error (refusal rule j)

def destructLambdaCase : Tactic ι := rule "destruct_lambda_case" fun ctx j => do
  let (dom,cod) ← functionGoal "destruct_lambda_case" j
  let cs ← constructorsFor "destruct_lambda_case" ctx j dom
  pure [splitOn .lamCase j none cod cs openBranch]

def homomorphismLambdaCase : Tactic ι := rule "homomorphism_lambda_case" fun ctx j => do
  let (dom,cod) ← functionGoal "homomorphism_lambda_case" j
  if dom ≠ cod then throw (refusal "homomorphism_lambda_case" j)
  let cs ← constructorsFor "homomorphism_lambda_case" ctx j dom
  pure [splitOn .lamCase j none cod cs (rebuild none)]

end Tactic
end TypedHole
