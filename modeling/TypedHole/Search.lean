import TypedHole.Config
import TypedHole.Tactic

/-! Search for derivations.
A run keeps a frontier of partial derivations and explores it depth first, earlier alternatives
first, up to a bound on the number of rules along a branch. When a bound yields nothing but cut a
branch off, the next larger bound is tried. All work is counted against a budget of steps, one for
each partial derivation that is looked at. -/
namespace TypedHole

variable {ι : Type}

/-- One way to go on with a goal: a refinement of it or the goal as it is, and the tactics that are
to run on what is left, nearest first. -/
structure Alternative (ι : Type) where
  refinement : Option (Refinement (Tactic ι))
  rest : List (Tactic ι)

structure Expansion (ι : Type) where
  outcome : Except TacticError (List (Alternative ι))
  cut : Bool := false

namespace Expansion

def all (es : List (Expansion ι)) : Expansion ι where
  outcome :=
    let found := es.filterMap fun e => e.outcome.toOption
    let errors := es.filterMap fun e => match e.outcome with
      | .error err => some err
      | .ok _ => none
    match found, errors with
    | [], err :: _ => .error err
    | _, _ => .ok found.flatten
  cut := es.any (·.cut)

/-- The first expansion if it offers something or was cut, and the second one otherwise. -/
def orElse (first : Expansion ι) (second : Unit → Expansion ι) : Expansion ι :=
  match first.outcome, first.cut with
  | .ok (_ :: _), _ => first
  | .ok [], true => first
  | _, cut => let e := second (); { e with cut := cut || e.cut }

end Expansion

namespace Tactic

def maxNesting : Nat := 512

/-- Opens up a tactic at a judgement until a rule, or nothing more, is to be done. A `spent` goal has
used up the depth bound: no rule runs on it. Opening up ends at a nesting of `fuel`. -/
def expand (procs : ι → Tactic ι) (ctx : Context) (j : Judgement) (spent : Bool) :
    Nat → Tactic ι → List (Tactic ι) → Expansion ι
  | 0, _, _ => ⟨.error .noProgress,false⟩
  | fuel + 1, t, rest =>
    match t with
    | idle => ⟨.ok [⟨none,rest⟩],false⟩
    | fail e => ⟨.error e,false⟩
    | andThen a b => expand procs ctx j spent fuel a (b :: rest)
    | orElse a b =>
      (expand procs ctx j spent fuel a rest).orElse fun _ => expand procs ctx j spent fuel b rest
    | choice ts => .all (ts.map fun t => expand procs ctx j spent fuel t rest)
    | call l => expand procs ctx j spent fuel (procs l) rest
    | withGoal f => expand procs ctx j spent fuel (f j) rest
    | rule _ refine =>
      if spent then ⟨.ok [],true⟩
      else ⟨(refine ctx j).map fun rs => rs.map fun r => ⟨some r,rest⟩,false⟩

end Tactic

structure Goal (ι : Type) where
  hole : Nat
  judgement : Judgement
  tactic : Tactic ι
  rest : List (Tactic ι)
  depth : Nat

/-- A complete expansion of the first goal; the judgements belong to the holes left in the term. -/
structure Derivation where
  term : Term
  unsolved : List Judgement

structure Draft (ι : Type) where
  agenda : List (Goal ι)
  fills : Term.Solution
  unsolved : List Judgement

namespace Draft

/-- Hands a hole to its own tactic or else to the next one that waits. Without either it is left
open. -/
def schedule (hole : Nat) (g : Subgoal (Tactic ι)) (rest : List (Tactic ι)) (depth : Nat) :
    Goal ι ⊕ Judgement :=
  match g.tactic, rest with
  | some t, _ => .inl ⟨hole,g.judgement,t,rest,depth⟩
  | none, t :: rest => .inl ⟨hole,g.judgement,t,rest,depth⟩
  | none, [] => .inr g.judgement

def enter (d : Draft ι) (scheduled : List (Goal ι ⊕ Judgement)) : Draft ι where
  agenda := scheduled.filterMap Sum.getLeft? ++ d.agenda
  fills := d.fills
  unsolved := d.unsolved ++ scheduled.filterMap Sum.getRight?

def choose (d : Draft ι) (g : Goal ι) (a : Alternative ι) (next : Nat) : Draft ι :=
  match a.refinement with
  | none => d.enter [schedule g.hole ⟨g.judgement,none⟩ a.rest g.depth]
  | some r =>
    { d with fills := (g.hole,r.extract.shift next) :: d.fills }.enter
      (r.subgoals.mapIdx fun i s => schedule (next + i) s a.rest (g.depth + 1))

def chooseAll (d : Draft ι) (g : Goal ι) : List (Alternative ι) → Nat → List (Draft ι) × Nat
  | [], next => ([],next)
  | a :: as, next =>
    let (ds,last) := chooseAll d g as (next + (a.refinement.map (·.width)).getD 0)
    (d.choose g a next :: ds,last)

def finish (d : Draft ι) (root : Nat) : Derivation := ⟨(Term.hole root).instantiate d.fills,d.unsolved⟩

end Draft

structure Frontier (ι : Type) where
  drafts : List (Draft ι)
  next : Nat
  cut : Bool := false
  failure : Option TacticError := none
  found : List Derivation := []

namespace Frontier

def start (j : Judgement) (t : Tactic ι) : Frontier ι where
  drafts := [⟨[⟨0,j,t,[],0⟩],[],[]⟩]
  next := 1

def record (f : Frontier ι) (d : Derivation) : Frontier ι :=
  if f.found.any (·.term == d.term) then f else { f with found := f.found ++ [d] }

def visit (procs : ι → Tactic ι) (ctx : Context) (bound : Nat) (f : Frontier ι) (d : Draft ι) :
    Frontier ι :=
  match d.agenda with
  | [] => f.record (d.finish 0)
  | g :: agenda =>
    let e := g.tactic.expand procs ctx g.judgement (bound ≤ g.depth) (Tactic.maxNesting + 1) g.rest
    match e.outcome with
    | .error err => { f with cut := f.cut || e.cut, failure := f.failure <|> some err }
    | .ok as =>
      let (ds,next) := { d with agenda }.chooseAll g as f.next
      { f with drafts := ds ++ f.drafts, next, cut := f.cut || e.cut }

/-- Explores a frontier until it is empty or holds enough derivations. The result comes with the
budget that is left; there is none when the budget runs out first. -/
def explore (procs : ι → Tactic ι) (ctx : Context) (bound limit : Nat) :
    Nat → Frontier ι → Option (Nat × Frontier ι)
  | budget, f =>
    match f.drafts, budget with
    | [], _ => some (budget,f)
    | _ :: _, 0 => none
    | d :: drafts, budget + 1 =>
      let f' := visit procs ctx bound { f with drafts } d
      if limit ≤ f'.found.length then some (budget,f')
      else explore procs ctx bound limit budget f'

end Frontier

abbrev SearchResult : Type := Except TacticError (List Derivation)

/-- What an explored frontier says: its derivations if there are any, or why there can be none. It
says nothing when a larger depth bound may find some. -/
def Frontier.verdict (f : Frontier ι) (goal : Ty) : Option SearchResult :=
  if f.found.isEmpty then
    if f.cut then none
    else some (.error (f.failure.getD (.noApplicableRule "search" goal)))
  else some (.ok f.found)

def deepen (procs : ι → Tactic ι) (ctx : Context) (limit : Nat) (j : Judgement) (t : Tactic ι) :
    (rounds budget bound : Nat) → Option SearchResult
  | 0, _, _ => none
  | rounds + 1, budget, bound =>
    match (Frontier.start j t).explore procs ctx bound limit budget with
    | none => none
    | some (left,f) =>
      match f.verdict j.goal with
      | some result => some result
      | none => deepen procs ctx limit j t rounds left (bound + 1)

def stepsPerMillisecond : Nat := 1000

/-- Runs a tactic on a judgement. The result has the derivations within the least depth bound that
has any, in the order in which they are found. Each bound takes at least one step, so there are never
more bounds to try than there are steps. -/
def search (procs : ι → Tactic ι) (cfg : Config) (ctx : Context) (j : Judgement) (t : Tactic ι) :
    SearchResult :=
  let budget := cfg.timeout * stepsPerMillisecond
  (deepen procs ctx (max 1 cfg.maxSolutions) j t budget budget 1).getD (.error (.timeout cfg.timeout))

end TypedHole
