import TypedHole.Proofs.Pool

/-! What the automatic tactic can solve.
`Solvable` describes the goals that can be solved within a number of rules from a pool of types. It knows no
names, and recursion over a value of the goal's type does not occur in it: such a goal can be solved by the
value. Main statements: a larger pool and a larger bound solve more (`Solvable.mono`), and something grows
from a goal for the automatic tactic just when the goal is solvable (`Grows.solvable`, `Solvable.grows`). -/
namespace TypedHole

/-- What can be solved within a number of rules. Arguments of applications are solved from the pool that
`inner` makes. -/
inductive Solvable (types : TypeTable) (inner : Pool → Pool) : Nat → Pool → Ty → Prop
  | entry {n : Nat} {P : Pool} {t : Ty} (mem : t ∈ P.usable) : Solvable types inner (n + 1) P t
  | lam {n : Nat} {P : Pool} {t : Ty} (domains : t.domains ≠ [])
      (body : Solvable types inner n (P.add t.domains) t.result) : Solvable types inner (n + 1) P t
  | constructor {n : Nat} {P : Pool} {t : Ty} {cs : List Constructor} {c : Constructor}
      (ctors : types.constructors? t = some cs) (mem : c ∈ cs)
      (args : ∀ u ∈ c.fields, Solvable types inner n (inner P) u) : Solvable types inner (n + 1) P t
  | function {n : Nat} {P : Pool} {s : Ty} (mem : s ∈ P.usable) (arrow : s.isArrow = true)
      (args : ∀ u ∈ s.domains, Solvable types inner n (inner P) u) :
      Solvable types inner (n + 1) P s.result
  | split {n : Nat} {P : Pool} {s t : Ty} {cs : List Constructor} (mem : s ∈ P.splittable)
      (ctors : types.constructors? s = some cs)
      (branches : ∀ c ∈ cs, Solvable types inner n (P.unpack s c.fields) t) :
      Solvable types inner (n + 1) P t

theorem Solvable.mono {types : TypeTable} {inner : Pool → Pool}
    (hinner : ∀ P Q : Pool, P.Within Q → (inner P).Within (inner Q)) {n : Nat} {P : Pool} {t : Ty}
    (h : Solvable types inner n P t) {m : Nat} {Q : Pool} (hm : n ≤ m) (hP : P.Within Q) :
    Solvable types inner m Q t := by
  induction h generalizing m Q with
  | entry mem =>
    obtain ⟨m,rfl⟩ := Nat.exists_eq_add_of_le' hm
    exact .entry (hP.1 mem)
  | lam domains _ ih =>
    obtain ⟨m,rfl⟩ := Nat.exists_eq_add_of_le' (Nat.le_of_add_left_le hm)
    exact .lam domains (ih (Nat.le_of_succ_le_succ hm) (hP.add _))
  | constructor ctors mem _ ih =>
    obtain ⟨m,rfl⟩ := Nat.exists_eq_add_of_le' (Nat.le_of_add_left_le hm)
    exact .constructor ctors mem fun u hu => ih u hu (Nat.le_of_succ_le_succ hm) (hinner _ _ hP)
  | function mem arrow _ ih =>
    obtain ⟨m,rfl⟩ := Nat.exists_eq_add_of_le' (Nat.le_of_add_left_le hm)
    exact .function (hP.1 mem) arrow fun u hu => ih u hu (Nat.le_of_succ_le_succ hm) (hinner _ _ hP)
  | split mem ctors _ ih =>
    obtain ⟨m,rfl⟩ := Nat.exists_eq_add_of_le' (Nat.le_of_add_left_le hm)
    exact .split (Multiset.mem_of_le hP.2 mem) ctors fun c hc =>
      ih c hc (Nat.le_of_succ_le_succ hm) (hP.unpack _ _)

namespace Tactic

variable {κ : Type} {pass : Judgement → Ty → Judgement} {ctx : Context}

theorem mem_openBranches {ι : Type} {j : Judgement} {scrutinee : Option Name} {goal : Ty}
    {cs : List Constructor} {wrap : List (Alt Term) → Term} {s : Subgoal (Tactic ι)} :
    s ∈ (splitOn wrap j scrutinee goal cs openBranch).subgoals ↔
      ∃ c ∈ cs, s = ⟨(branch j scrutinee goal c).judgement,none⟩ := by
  simp [mem_splitOn,openBranch]

theorem mem_argumentsWith {ι : Type} {j : Judgement} {head : Name} {types : List Ty}
    {s : Subgoal (Tactic ι)} :
    s ∈ (argumentsWith pass j head types).subgoals ↔ ∃ u ∈ types, s = ⟨pass j u,none⟩ := by
  simp [argumentsWith,Refinement.application,eq_comm]

end Tactic

open TypedHole.Tactic

def Goal.below {κ : Type} (g : Goal (Label κ)) (j : Judgement) : Goal (Label κ) :=
  ⟨0,j,auto,[],g.depth + 1⟩

section

variable {κ : Type} {pass : Judgement → Ty → Judgement} {inner : Pool → Pool}
  {own : κ → Tactic (Label κ)} {ctx : Context} {bound : Nat} {g : Goal (Label κ)}
  {a : Alternative (Label κ)}

theorem Goal.IsAuto.grows (hg : g.IsAuto) (hd : g.depth < bound) {r : Refinement (Tactic (Label κ))}
    {rest : List (Tactic (Label κ))} (hm : AutoMove pass ctx g.judgement ⟨some r,rest⟩)
    (hparts : ∀ s ∈ r.subgoals, ∃ p,
      Grows (bodiesWith pass own) ctx bound [Draft.schedule 0 s rest (g.depth + 1)] [p]) :
    ∃ p, Grows (bodiesWith pass own) ctx bound [.inl g] [p] := by
  have hoffered : Offering (bodiesWith pass own) ctx g.judgement (maxNesting + 1) auto [] ⟨some r,rest⟩ :=
    hm.offered
  obtain ⟨as,has,ha⟩ := hoffered
  have houtcome : (g.expansion (bodiesWith pass own) ctx bound).outcome = .ok as := by
    rw [Goal.expansion,hg.tactic,hg.rest,decide_eq_false (Nat.not_le.2 hd)]
    exact has
  have hall (ss : List (Subgoal (Tactic (Label κ)))) (hss : ∀ s ∈ ss, ∃ p,
      Grows (bodiesWith pass own) ctx bound [Draft.schedule 0 s rest (g.depth + 1)] [p]) :
      ∃ qs, Grows (bodiesWith pass own) ctx bound
        (ss.map fun s => Draft.schedule 0 s rest (g.depth + 1)) qs := by
    induction ss with
    | nil => exact ⟨[],.nil⟩
    | cons s ss ih =>
      obtain ⟨p,hp⟩ := hss s (by simp)
      obtain ⟨qs,hqs⟩ := ih fun s hs => hss s (by simp [hs])
      exact ⟨[p] ++ qs,hp.append hqs⟩
  obtain ⟨qs,hqs⟩ := hall r.subgoals hparts
  exact ⟨.node ⟨some r,rest⟩ qs,.node houtcome ha hqs .nil⟩

/-- What the automatic tactic derives can be solved from the pool of its judgement. -/
theorem Grows.solvable (hpass : Passing pass inner) {xs : List (Goal (Label κ) ⊕ Judgement)}
    {ps : List Growth} (h : Grows (bodiesWith pass own) ctx bound xs ps) :
    ∀ g, .inl g ∈ xs → g.IsAuto → g.judgement.Scoped →
      Solvable ctx.types inner (bound - g.depth) g.judgement.pool g.judgement.goal := by
  induction h with
  | nil => simp
  | unsolved _ ih => exact fun g hg => ih g (by simpa using hg)
  | @node g as a xs qs ps outcome chosen parts _ ihparts ihothers =>
    intro g' hg' hauto hj
    rcases List.mem_cons.1 hg' with hg' | hg'
    swap
    · exact ihothers g' hg' hauto hj
    cases hg'
    obtain ⟨hd,hmove⟩ := hauto.move outcome chosen
    have hbound : bound - g.depth = bound - (g.depth + 1) + 1 := by omega
    have hbelow {j : Judgement} (hmem : .inl (g.below j) ∈ a.handOut g) (hj : j.Scoped) :
        Solvable ctx.types inner (bound - (g.depth + 1)) j.pool j.goal :=
      ihparts (g.below j) hmem ⟨rfl,rfl⟩ hj
    rw [hbound]
    cases hmove with
    | entry mem ty other => exact ty ▸ .entry (Judgement.mem_usable mem other)
    | lam domains =>
      have hbody := hbelow (List.mem_singleton_self _) (inScope_introduced hj)
      rw [pool_introduced hj] at hbody
      exact .lam domains hbody
    | constructor ctors mem =>
      refine .constructor ctors mem fun u hu => ?_
      have harg := hbelow (j := pass g.judgement u)
        (List.mem_map_of_mem (mem_argumentsWith.2 ⟨u,hu,rfl⟩)) (hpass.inScope _ _ hj)
      rwa [hpass.pool,hpass.goal] at harg
    | function mem other arrow result =>
      rw [← result]
      refine .function (Judgement.mem_usable mem other) arrow fun u hu => ?_
      have harg := hbelow (j := pass g.judgement u)
        (List.mem_map_of_mem (mem_argumentsWith.2 ⟨u,hu,rfl⟩)) (hpass.inScope _ _ hj)
      rwa [hpass.pool,hpass.goal] at harg
    | @destruct e cs mem ctors =>
      refine .split (Judgement.mem_splittable_pool.2 ⟨e,mem,rfl⟩) ctors fun c hc => ?_
      have hbranch := hbelow (List.mem_map_of_mem (mem_openBranches.2 ⟨c,hc,rfl⟩))
        (inScope_branch hj mem g.judgement.goal c)
      rwa [pool_branch hj mem,branch_goal] at hbranch
    | @homomorphism e cs mem ty ctors =>
      exact .entry (Judgement.usable_of_splittable (Judgement.mem_splittable_pool.2 ⟨e,mem,ty⟩))

/-- What can be solved from the pool of a judgement the automatic tactic derives. -/
theorem Solvable.grows (hpass : Passing pass inner) {n : Nat} {P : Pool} {t : Ty}
    (h : Solvable ctx.types inner n P t) (hg : g.IsAuto) (hj : g.judgement.Scoped)
    (hP : g.judgement.pool = P) (ht : g.judgement.goal = t) (hn : g.depth + n ≤ bound) :
    ∃ p, Grows (bodiesWith pass own) ctx bound [.inl g] [p] := by
  induction h generalizing g with
  | entry mem =>
    subst hP ht
    obtain ⟨e,he,hr,hty⟩ := mem
    exact hg.grows (by omega) (.entry he hty hr) fun s hs => by cases hs
  | lam domains _ ih =>
    subst hP ht
    refine hg.grows (by omega) (.lam domains) fun s hs => ?_
    rw [List.mem_singleton.1 hs]
    have hscoped := inScope_introduced hj
    exact ih (g := g.below (introduced g.judgement)) ⟨rfl,rfl⟩ hscoped (pool_introduced hj) rfl
      (by simp only [Goal.below]; omega)
  | constructor ctors mem _ ih =>
    subst hP ht
    refine hg.grows (by omega) (.constructor ctors mem) fun s hs => ?_
    obtain ⟨u,hu,rfl⟩ := mem_argumentsWith.1 hs
    have hscoped := hpass.inScope g.judgement u hj
    exact ih u hu (g := g.below (pass g.judgement u)) ⟨rfl,rfl⟩ hscoped (hpass.pool ..) (hpass.goal ..)
      (by simp only [Goal.below]; omega)
  | function mem arrow _ ih =>
    subst hP
    obtain ⟨e,he,hr,rfl⟩ := mem
    refine hg.grows (by omega) (.function he hr arrow ht.symm) fun s hs => ?_
    obtain ⟨u,hu,rfl⟩ := mem_argumentsWith.1 hs
    have hscoped := hpass.inScope g.judgement u hj
    exact ih u hu (g := g.below (pass g.judgement u)) ⟨rfl,rfl⟩ hscoped (hpass.pool ..) (hpass.goal ..)
      (by simp only [Goal.below]; omega)
  | split mem ctors _ ih =>
    subst hP ht
    obtain ⟨e,he,rfl⟩ := Judgement.mem_splittable_pool.1 mem
    refine hg.grows (by omega) (.destruct he ctors) fun s hs => ?_
    obtain ⟨c,hc,rfl⟩ := mem_openBranches.1 hs
    have hscoped := inScope_branch hj he g.judgement.goal c
    exact ih c hc (g := g.below (branch g.judgement (some e.name) g.judgement.goal c).judgement)
      ⟨rfl,rfl⟩ hscoped (pool_branch hj he _ c)
      (branch_goal g.judgement (some e.name) g.judgement.goal c) (by simp only [Goal.below]; omega)

end

end TypedHole
