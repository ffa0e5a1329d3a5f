import TypedHole.Proofs.Exploration
import TypedHole.Proofs.Semantics

/-! Solutions of several goals.
An agenda is solved by a product of lists of solutions, in which goals that are not scheduled have no
part. Main statement: the subgoals of an alternative are solved by solving the goals that are scheduled
for them (`product_subgoals`). -/
namespace TypedHole

variable {ι : Type}

theorem product_append {α : Type} (xs ys : List (Option (List α))) :
    product (xs ++ ys) = (product xs).bind fun ps =>
      if ps.isEmpty then some []
      else (product ys).map fun qs => ps.flatMap fun p => qs.map (p ++ ·) := by
  induction xs with
  | nil => cases h : product ys <;> simp [product,h]
  | cons x xs ih =>
    rw [List.cons_append,product,ih,product]
    cases x with
    | none => rfl
    | some as =>
      cases as with
      | nil => rfl
      | cons a as =>
        cases hx : product xs with
        | none => rfl
        | some ps =>
          cases ps with
          | nil => simp
          | cons p ps =>
            cases hy : product ys with
            | none => simp
            | some qs => simp [List.flatMap_assoc,List.flatMap_map,List.map_flatMap,Function.comp_def]

theorem product_cons {α : Type} {xs : List (Option (List α))} {ps : List (List α)}
    (h : product xs = some ps) (as : List α) :
    product (some as :: xs) = some (as.flatMap fun a => ps.map (a :: ·)) := by
  cases as with
  | nil => rfl
  | cons a as => simp [product,h]

theorem length_of_product {α : Type} {xs : List (Option (List α))} {ps : List (List α)}
    (h : product xs = some ps) : ∀ p ∈ ps, p.length = xs.length := by
  induction xs generalizing ps with
  | nil =>
    cases h
    simp
  | cons x xs ih =>
    obtain ⟨as,hx,h⟩ := Option.bind_eq_some_iff.1 h
    split at h
    next =>
      cases h
      simp
    next =>
      obtain ⟨rests,hr,h⟩ := Option.bind_eq_some_iff.1 h
      cases h
      intro p hp
      obtain ⟨a,-,hp⟩ := List.mem_flatMap.1 hp
      obtain ⟨r,hr',rfl⟩ := List.mem_map.1 hp
      simp [ih hr r hr']

def Goal.solve (S : Solver ι) (g : Goal ι) : Option (List Derivation) :=
  S g.judgement g.tactic g.rest g.depth

section

variable {procs : ι → Tactic ι} {ctx : Context} {bound : Nat}

theorem Goal.solve_of_error {g : Goal ι} {err : TacticError}
    (h : (g.expansion procs ctx bound).outcome = .error err) (clock : Nat) :
    g.solve (TypedHole.solve procs ctx bound (clock + 1)) = some [] := by
  rw [Goal.expansion] at h
  rw [Goal.solve,TypedHole.solve,h]

theorem Goal.solve_of_ok {g : Goal ι} {as : List (Alternative ι)}
    (h : (g.expansion procs ctx bound).outcome = .ok as) (clock : Nat) :
    g.solve (TypedHole.solve procs ctx bound (clock + 1)) =
      solveAny (TypedHole.solve procs ctx bound clock) g.judgement g.depth as := by
  rw [Goal.expansion] at h
  rw [Goal.solve,TypedHole.solve,h]

end

variable {S : Solver ι}

theorem solveOne_of_scheduled {i : Nat} {s : Subgoal (Tactic ι)} {rest : List (Tactic ι)} {depth : Nat}
    {g : Goal ι} (h : Draft.schedule i s rest depth = .inl g) :
    solveOne S rest depth s = g.solve S := by
  obtain ⟨-,hj,hd,ht | ⟨ht,hr⟩⟩ := Draft.schedule_inl h
  · rw [solveOne.eq_def,ht.1,Goal.solve,hj,hd,ht.2]
  · rw [solveOne.eq_def,ht,hr,Goal.solve,hj,hd]

theorem solveOne_of_staysOpen {s : Subgoal (Tactic ι)} {rest : List (Tactic ι)} {depth : Nat}
    (h : s.staysOpen rest) : solveOne S rest depth s = some [⟨.hole 0,[s.judgement]⟩] := by
  obtain ⟨j,t⟩ := s
  cases t <;> cases rest <;> simp_all [Subgoal.staysOpen,solveOne]

/-- Derivations for all subgoals, given those for the scheduled ones. -/
def merge (rest : List (Tactic ι)) : List (Subgoal (Tactic ι)) → List Derivation → List Derivation
  | [], _ => []
  | s :: ss, ds =>
    if s.staysOpen rest then ⟨.hole 0,[s.judgement]⟩ :: merge rest ss ds
    else match ds with
      | [] => []
      | d :: ds => d :: merge rest ss ds

theorem merge_of_staysOpen {s : Subgoal (Tactic ι)} {rest : List (Tactic ι)} (h : s.staysOpen rest)
    (ss : List (Subgoal (Tactic ι))) (ds : List Derivation) :
    merge rest (s :: ss) ds = ⟨.hole 0,[s.judgement]⟩ :: merge rest ss ds := by
  cases ds <;> simp [merge,h]

theorem merge_of_scheduled {s : Subgoal (Tactic ι)} {rest : List (Tactic ι)} (h : ¬ s.staysOpen rest)
    (ss : List (Subgoal (Tactic ι))) (d : Derivation) (ds : List Derivation) :
    merge rest (s :: ss) (d :: ds) = d :: merge rest ss ds := by
  simp [merge,h]

/-- Subgoals are solved by solving the goals that are scheduled for them. -/
theorem product_subgoals (rest : List (Tactic ι)) (depth : Nat) (ss : List (Subgoal (Tactic ι))) :
    product (ss.map (solveOne S rest depth)) =
      (product ((Draft.scheduled rest depth ss).map (·.solve S))).map
        (List.map (merge rest ss)) := by
  induction ss with
  | nil => rfl
  | cons s ss ih =>
    have hs := Draft.schedule_of_staysOpen s rest 0 depth
    rw [List.map_cons,product,ih]
    split at hs
    next ho =>
      rw [solveOne_of_staysOpen ho,Draft.scheduled_cons_inr hs]
      cases hp : product ((Draft.scheduled rest depth ss).map (·.solve S)) <;>
        simp [merge_of_staysOpen ho]
    next ho =>
      obtain ⟨g,hg,-⟩ := hs
      rw [solveOne_of_scheduled hg,Draft.scheduled_cons_inl hg,List.map_cons,product]
      cases hx : g.solve S with
      | none => rfl
      | some xs =>
        cases xs with
        | nil => rfl
        | cons x xs =>
          cases hp : product ((Draft.scheduled rest depth ss).map (·.solve S)) <;>
            simp [List.map_flatMap,merge_of_scheduled ho,Function.comp_def]

end TypedHole
