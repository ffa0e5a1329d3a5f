import Mathlib.Data.List.Forall2
import TypedHole.Proofs.Numbering

/-! The meaning of tactics.
The solutions of a goal are put together from those of its subgoals, each of which is solved on its own.
There is nothing here of drafts, of a frontier, or of numbers for holes: all holes that are left look
alike. A clock bounds how often goals are refined one within the other; once it suffices, all later
clocks give the same solutions (`solve_of_le`). -/
namespace TypedHole

variable {ι : Type}

def Alternative.extract (a : Alternative ι) : Term :=
  match a.refinement with
  | none => .hole 0
  | some r => r.extract

def Derivation.plug (e : Term) (parts : List Derivation) : Derivation where
  term := e.bind fun i => (parts[i]?.map (·.term)).getD (.hole 0)
  unsolved := parts.flatMap (·.unsolved)

/-- One element from each list in all ways, the first list varying slowest. Lists after an empty one
do not count. -/
def product {α : Type} : List (Option (List α)) → Option (List (List α))
  | [] => some [[]]
  | x :: xs => do
    let as ← x
    if as.isEmpty then some []
    else
      let rests ← product xs
      some (as.flatMap fun a => rests.map (a :: ·))

/-- A way to solve judgements by a tactic and those that wait behind it, at some depth. -/
abbrev Solver (ι : Type) :=
  Judgement → Tactic ι → List (Tactic ι) → Nat → Option (List Derivation)

/-- The solutions of a subgoal: by its own tactic and then the waiting ones, or else by the next of
those. It stays open when there is none. -/
def solveOne (S : Solver ι) (rest : List (Tactic ι)) (depth : Nat) (s : Subgoal (Tactic ι)) :
    Option (List Derivation) :=
  match s.tactic, rest with
  | some t, _ => S s.judgement t rest depth
  | none, t :: rest => S s.judgement t rest depth
  | none, [] => some [⟨.hole 0,[s.judgement]⟩]

/-- The solutions by any of the alternatives, in their order; each is solved by the solutions of its
subgoals together. -/
def solveAny (S : Solver ι) (j : Judgement) (depth : Nat) : List (Alternative ι) → Option (List Derivation)
  | [] => some []
  | a :: as => do
    let parts ← product ((a.subgoals j).map (solveOne S a.rest (a.depth depth)))
    let others ← solveAny S j depth as
    some (parts.map (Derivation.plug a.extract) ++ others)

def solve (procs : ι → Tactic ι) (ctx : Context) (bound : Nat) : Nat → Solver ι
  | 0, _, _, _, _ => none
  | clock + 1, j, t, rest, depth =>
    match (t.expand procs ctx j (bound ≤ depth) (Tactic.maxNesting + 1) rest).outcome with
    | .error _ => some []
    | .ok as => solveAny (solve procs ctx bound clock) j depth as

theorem product_mono {α : Type} {xs ys : List (Option (List α))} {ps : List (List α)}
    (h : List.Forall₂ (fun x y => ∀ as, x = some as → y = some as) xs ys) (hp : product xs = some ps) :
    product ys = some ps := by
  induction h generalizing ps with
  | nil => exact hp
  | cons hx _ ih =>
    obtain ⟨as,has,hp⟩ := Option.bind_eq_some_iff.1 hp
    rw [product,hx as has]
    dsimp only [Option.bind_eq_bind,Option.bind_some]
    split at hp
    next he => rw [if_pos he,hp]
    next he =>
      obtain ⟨rests,hrests,hp⟩ := Option.bind_eq_some_iff.1 hp
      rw [if_neg he,ih hrests]
      exact hp

theorem agree_map {α β : Type} {f g : α → Option β} (h : ∀ x y, f x = some y → g x = some y) (xs : List α) :
    List.Forall₂ (fun x y => ∀ a, x = some a → y = some a) (xs.map f) (xs.map g) := by
  rw [List.forall₂_map_left_iff,List.forall₂_map_right_iff]
  exact List.forall₂_same.2 fun x _ => h x

def Solver.Within (S S' : Solver ι) : Prop :=
  ∀ j t rest depth ds, S j t rest depth = some ds → S' j t rest depth = some ds

section

variable {S S' : Solver ι}

theorem solveOne_mono (h : S.Within S') {rest : List (Tactic ι)} {depth : Nat} (s : Subgoal (Tactic ι))
    (ds : List Derivation) (hs : solveOne S rest depth s = some ds) :
    solveOne S' rest depth s = some ds := by
  obtain ⟨j,t⟩ := s
  cases t with
  | some t => exact h _ _ _ _ _ hs
  | none =>
    cases rest with
    | nil => exact hs
    | cons t rest => exact h _ _ _ _ _ hs

theorem solveAny_mono (h : S.Within S') {j : Judgement} {depth : Nat} {as : List (Alternative ι)}
    {ds : List Derivation} (hs : solveAny S j depth as = some ds) : solveAny S' j depth as = some ds := by
  induction as generalizing ds with
  | nil => exact hs
  | cons a as ih =>
    obtain ⟨parts,hparts,hs⟩ := Option.bind_eq_some_iff.1 hs
    obtain ⟨others,hothers,hs⟩ := Option.bind_eq_some_iff.1 hs
    rw [solveAny,product_mono (agree_map (solveOne_mono h) _) hparts,ih hothers]
    exact hs

end

theorem solve_succ (procs : ι → Tactic ι) (ctx : Context) (bound clock : Nat) :
    (solve procs ctx bound clock).Within (solve procs ctx bound (clock + 1)) := by
  induction clock with
  | zero =>
    intro j t rest depth ds hs
    cases hs
  | succ clock ih =>
    intro j t rest depth ds hs
    rw [solve] at hs ⊢
    split at hs
    next => exact hs
    next => exact solveAny_mono ih hs

theorem solve_of_le {procs : ι → Tactic ι} {ctx : Context} {bound clock clock' : Nat}
    (h : clock ≤ clock') : (solve procs ctx bound clock).Within (solve procs ctx bound clock') := by
  induction h with
  | refl => exact fun _ _ _ _ _ => id
  | step _ ih => exact fun _ _ _ _ _ hs => solve_succ procs ctx bound _ _ _ _ _ _ (ih _ _ _ _ _ hs)

def firstOfEach : List Derivation → List Derivation
  | [] => []
  | d :: ds => d :: (firstOfEach ds).filter (·.term ≠ d.term)

theorem firstOfEach_sublist (ds : List Derivation) : (firstOfEach ds).Sublist ds := by
  induction ds with
  | nil => exact .slnil
  | cons d ds ih => exact (List.filter_sublist.trans ih).cons_cons d

def addNew (found : List Derivation) (d : Derivation) : List Derivation :=
  if found.any (·.term == d.term) then found else found ++ [d]

/-- Which derivations are the first of their term may be asked after a choice of terms as well as before. -/
theorem filter_firstOfEach (p : Term → Bool) (ds : List Derivation) :
    (firstOfEach ds).filter (fun d => p d.term) = firstOfEach (ds.filter fun d => p d.term) := by
  induction ds with
  | nil => rfl
  | cons d ds ih =>
    rw [firstOfEach,List.filter_cons,List.filter_cons,List.filter_filter]
    split
    next hd =>
      rw [firstOfEach,← ih,List.filter_filter]
      simp [Bool.and_comm]
    next hd =>
      rw [← ih]
      refine List.filter_congr fun e _ => ?_
      by_cases he : e.term = d.term
      · simp [he,hd]
      · simp [he]

theorem foldl_addNew (ds found : List Derivation) :
    ds.foldl addNew found = found ++ firstOfEach (ds.filter fun d => !found.any (·.term == d.term)) := by
  induction ds generalizing found with
  | nil => simp [firstOfEach]
  | cons d ds ih =>
    rw [List.foldl_cons,ih,addNew,List.filter_cons]
    cases h : found.any (·.term == d.term) with
    | true => rfl
    | false =>
      have hfilter : (ds.filter fun e => !(found ++ [d]).any (·.term == e.term)) =
          (ds.filter fun e => !found.any (·.term == e.term)).filter (·.term ≠ d.term) := by
        rw [List.filter_filter]
        refine List.filter_congr fun e _ => ?_
        by_cases he : e.term = d.term <;> simp [he,Ne.symm]
      simp only [Bool.false_eq_true,if_false,Bool.not_false,if_true]
      rw [hfilter,firstOfEach,← filter_firstOfEach (fun t => t ≠ d.term),List.append_assoc]
      rfl

end TypedHole
