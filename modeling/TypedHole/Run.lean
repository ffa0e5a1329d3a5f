import TypedHole.Command
import TypedHole.Search

/-! Running a tactic: the best derivation that a search finds, and complete ones beside it. -/
namespace TypedHole

structure RunResult where
  extract : Term
  others : List Term
  deriving DecidableEq

def Derivation.ranksBefore (a b : Derivation) : Bool :=
  a.unsolved.length < b.unsolved.length ||
    a.unsolved.length == b.unsolved.length && a.term.size ≤ b.term.size

/-- Best derivations first; equally good ones stay in the order of the search. -/
def rank (ds : List Derivation) : List Derivation := ds.mergeSort Derivation.ranksBefore

/-- The best of some derivations, with the complete ones among the others. -/
def RunResult.ofDerivations (goal : Ty) (ds : List Derivation) : Except TacticError RunResult :=
  match rank ds with
  | [] => .error (.noApplicableRule "search" goal)
  | best :: rest => .ok ⟨best.term,(rest.filter (·.unsolved.isEmpty)).map (·.term)⟩

def runTactic {ι : Type} (procs : ι → Tactic ι) (cfg : Config) (ctx : Context) (j : Judgement)
    (t : Tactic ι) : Except TacticError RunResult := do
  RunResult.ofDerivations j.goal (← search procs cfg ctx j t)

def Command.invoke (c : Command) (cfg : Config) (ctx : Context) (j : Judgement)
    (binding : Option Name) : Except TacticError RunResult := do
  runTactic (Tactic.bodies Empty.elim) cfg ctx j (← c.tactic binding)

theorem Command.invoke_of_search_singleton {c : Command} {cfg : Config} {ctx : Context} {j : Judgement}
    {binding : Option Name} {t : Tactic (Tactic.Label Empty)} {term : Term} {unsolved : List Judgement}
    (ht : c.tactic binding = .ok t) (h : search (Tactic.bodies Empty.elim) cfg ctx j t = .ok [⟨term,unsolved⟩]) :
    c.invoke cfg ctx j binding = .ok ⟨term,[]⟩ := by
  have hrank : rank [⟨term,unsolved⟩] = [⟨term,unsolved⟩] := List.mergeSort_singleton _
  simp [invoke,ht,runTactic,h,RunResult.ofDerivations,hrank,bind,Except.bind]

end TypedHole
