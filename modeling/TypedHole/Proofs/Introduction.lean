import TypedHole.Proofs.AutoMoves
import TypedHole.Proofs.HomomorphismShape

/-! Introducing arguments before anything else.
Below an introduced lambda a frontier is the frontier of the body, with all holes moved up by one and all goals one
rule deeper (`Frontier.under`). It stays so with every visit (`Frontier.advance_under`), hence through an exploration
(`Frontier.Watched.under`) and a search (`Searches.introduced`). Main statement: introducing the arguments first
finds what a rule finds at the body, below the lambda (`FindsOne.andThen_intros`). -/
namespace TypedHole

namespace Term

theorem shift_shift (m n : Nat) (t : Term) : (t.shift m).shift n = t.shift (m + n) := by
  simp [shift,bind_bind,bind,Nat.add_comm m n,Nat.add_assoc]

theorem shift_injective (n : Nat) : Function.Injective (shift n) := by
  intro s t h
  have hback (u : Term) : (u.shift n).bind (fun i => hole (i - n)) = u := by simp [shift,bind_bind,bind]
  rw [← hback s,h,hback]

/-- The solutions below a lambda whose body is hole one. -/
def Solution.under (xs : List Name) (s : Solution) : Solution :=
  s.map (fun p => (p.1 + 1,p.2.shift 1)) ++ [(0,.lam xs (.hole 1))]

theorem lookup_under_succ (xs : List Name) (s : Solution) (i : Nat) :
    List.lookup (i + 1) (Solution.under xs s) = (s.lookup i).map (shift 1) := by
  induction s with
  | nil => simp [Solution.under,lookup_cons]
  | cons p s ih =>
    have hrest : List.lookup (i + 1) (Solution.under xs (p :: s)) =
        if i = p.1 then some (p.2.shift 1) else List.lookup (i + 1) (Solution.under xs s) := by
      simp [Solution.under,lookup_cons]
    rw [hrest,ih,lookup_cons]
    split <;> rfl

theorem lookup_under_zero (xs : List Name) (s : Solution) :
    List.lookup 0 (Solution.under xs s) = some (.lam xs (.hole 1)) := by
  induction s with
  | nil => rfl
  | cons p s ih => simpa [Solution.under,lookup_cons] using ih

theorem follow_under (xs : List Name) (s : Solution) (n : Nat) (t : Term) :
    follow (Solution.under xs s) n (t.shift 1) = (follow s n t).shift 1 := by
  induction n generalizing t with
  | zero => rfl
  | succ n ih =>
    simp only [follow,shift,bind_bind]
    refine bind_congr t fun i _ => ?_
    rw [bind,Nat.add_comm,lookup_under_succ]
    cases s.lookup i with
    | none => simp [bind,Nat.add_comm]
    | some u => exact ih u

theorem instantiate_under (xs : List Name) (s : Solution) :
    (hole 0).instantiate (Solution.under xs s) = .lam xs (((hole 0).instantiate s).shift 1) := by
  have hlength : (Solution.under xs s).length = s.length + 1 := by simp [Solution.under]
  have hbody (n : Nat) : follow (Solution.under xs s) n (.lam xs (.hole 1)) =
      .lam xs (follow (Solution.under xs s) n (.hole 1)) := by cases n <;> rfl
  rw [instantiate,hlength,follow,bind,lookup_under_zero]
  exact (hbody _).trans (congrArg _ (follow_under xs s _ (.hole 0)))

end Term

def Derivation.under (xs : List Name) (d : Derivation) : Derivation := ⟨.lam xs (d.term.shift 1),d.unsolved⟩

variable {ι : Type} {procs : ι → Tactic ι} {ctx : Context} {bound limit : Nat}

def Goal.under (g : Goal ι) : Goal ι := { g with hole := g.hole + 1, depth := g.depth + 1 }

theorem Goal.expansion_under (procs : ι → Tactic ι) (ctx : Context) (bound : Nat) (g : Goal ι) :
    g.under.expansion procs ctx (bound + 1) = g.expansion procs ctx bound := by
  simp [Goal.expansion,Goal.under]

namespace Draft

def under (xs : List Name) (d : Draft ι) : Draft ι := ⟨d.agenda.map Goal.under,d.fills.under xs,d.unsolved⟩

variable (xs : List Name) (d : Draft ι)

theorem finish_under : (d.under xs).finish 0 = (d.finish 0).under xs := by
  simp [finish,under,Derivation.under,Term.instantiate_under]

theorem schedule_under (hole : Nat) (s : Subgoal (Tactic ι)) (rest : List (Tactic ι)) (depth : Nat) :
    schedule (hole + 1) s rest (depth + 1) = (schedule hole s rest depth).map Goal.under id := by
  obtain ⟨j,t⟩ := s
  cases t <;> cases rest <;> rfl

theorem enter_under (ys : List (Goal ι ⊕ Judgement)) :
    (d.under xs).enter (ys.map (Sum.map Goal.under id)) = (d.enter ys).under xs := by
  simp [enter,under,List.filterMap_map,List.map_filterMap]

theorem choose_under (g : Goal ι) (a : Alternative ι) (next : Nat) :
    (d.under xs).choose g.under a (next + 1) = (d.choose g a next).under xs := by
  obtain ⟨r,rest⟩ := a
  cases r with
  | none => exact (congrArg _ (congrArg (· :: []) (schedule_under ..))).trans (enter_under xs d [_])
  | some r =>
    simp only [choose]
    rw [← enter_under]
    congr 1
    · simp [under,Term.Solution.under,Goal.under,Term.shift_shift]
    · simp [List.mapIdx_eq_zipIdx_map,← schedule_under,Goal.under,Nat.add_right_comm]

theorem chooseAll_under (g : Goal ι) (as : List (Alternative ι)) (next : Nat) :
    (d.under xs).chooseAll g.under as (next + 1) =
      ((d.chooseAll g as next).1.map (under xs),(d.chooseAll g as next).2 + 1) := by
  induction as generalizing next with
  | nil => rfl
  | cons a as ih =>
    have hnext : next + 1 + a.width = next + a.width + 1 := by omega
    simp [chooseAll_cons,choose_under,hnext,ih]

end Draft

namespace Frontier

def under (xs : List Name) (f : Frontier ι) : Frontier ι :=
  { f with drafts := f.drafts.map (.under xs), next := f.next + 1, found := f.found.map (.under xs) }

variable (xs : List Name)

theorem record_under (f : Frontier ι) (d : Derivation) : (f.under xs).record (d.under xs) = (f.record d).under xs := by
  have hany : (f.found.map (Derivation.under xs)).any (fun y => y.term == (d.under xs).term) =
      f.found.any fun y => y.term == d.term := by
    rw [List.any_map]
    congr 1
    funext y
    rw [Function.comp,Bool.eq_iff_iff,beq_iff_eq,beq_iff_eq]
    simp [Derivation.under,(Term.shift_injective 1).eq_iff]
  simp only [record,under,hany]
  split <;> simp

theorem advance_under (procs : ι → Tactic ι) (ctx : Context) (bound : Nat) (f : Frontier ι) :
    (f.under xs).advance procs ctx (bound + 1) = (f.advance procs ctx bound).under xs := by
  cases hd : f.drafts with
  | nil => simp [advance,under,hd]
  | cons d ds =>
    have hd' : (f.under xs).drafts = d.under xs :: ds.map (.under xs) := by simp [under,hd]
    cases ha : d.agenda with
    | nil =>
      rw [advance_of_nil hd ha,advance_of_nil hd' (by simp [Draft.under,ha]),Draft.finish_under,← record_under]
      rfl
    | cons g gs =>
      have ha' : (d.under xs).agenda = g.under :: gs.map Goal.under := by simp [Draft.under,ha]
      have he := Goal.expansion_under procs ctx bound g
      rcases hexp : g.expansion procs ctx bound with ⟨err | as,cut⟩
      · rw [advance_of_error hd ha hexp,advance_of_error hd' ha' (he.trans hexp)]
        rfl
      · rw [advance_of_ok hd ha hexp,advance_of_ok hd' ha' (he.trans hexp)]
        have hchoose := Draft.chooseAll_under xs { d with agenda := gs } g as f.next
        simp only [Draft.under] at hchoose
        simp [under,Draft.under,hchoose]

/-- An exploration finds below a lambda what it finds at the body. -/
theorem Watched.under {f f' : Frontier ι} {s n n' : Nat} {x : Option (Nat × Frontier ι)}
    (h : f.Watched procs ctx bound limit (.ofBudget s) n x) (hx : x = some (n',f')) {k m : Nat} (hm : s + k ≤ m) :
    (f.under xs).Watched procs ctx (bound + 1) limit (.ofBudget m) (n + k) (some (n' + k,f'.under xs)) := by
  have hdrafts {f : Frontier ι} : (f.under xs).drafts = [] ↔ f.drafts = [] := by simp [Frontier.under]
  have hfound {f : Frontier ι} : ((f.under xs).advance procs ctx (bound + 1)).found.length =
      (f.advance procs ctx bound).found.length := by
    rw [advance_under]
    exact List.length_map _
  have hearly {n : Nat} (early : ¬ Deadline.ofBudget s n) : ¬ Deadline.ofBudget m (n + k) := by
    simp only [Deadline.ofBudget] at early ⊢
    omega
  induction h with
  | exhausted drafts =>
    cases hx
    exact .exhausted (hdrafts.2 drafts)
  | late => cases hx
  | @full n f drafts early enough =>
    cases hx
    rw [Nat.add_right_comm,← advance_under]
    exact .full (mt hdrafts.1 drafts) (hearly early) (by rwa [hfound])
  | @more n f x drafts early few _ ih =>
    have hrest := ih hx
    rw [Nat.add_right_comm,← advance_under] at hrest
    exact .more (mt hdrafts.1 drafts) (hearly early) (by rwa [hfound]) hrest

end Frontier

section

open TypedHole.Tactic

variable {j : Judgement} {t : Tactic ι}

theorem Frontier.advance_intros (procs : ι → Tactic ι) (ctx : Context) (bound : Nat) (hd : j.goal.domains ≠ [])
    (t : Tactic ι) : (start j (.andThen intros t)).advance procs ctx (bound + 1) =
      (start (introduced j) t).under (introducedNames j) := by
  have hexpansion : (Goal.root j (.andThen intros t)).expansion procs ctx (bound + 1) =
      ⟨.ok [⟨some ⟨.lam (introducedNames j) (.hole 0),[⟨introduced j,none⟩]⟩,[t]⟩],false⟩ := by
    obtain ⟨dom,doms,hdoms⟩ := List.exists_cons_of_ne_nil hd
    simp [Goal.expansion,Goal.root,expand,maxNesting,intros,introduced,introducedEntries,introducedNames,hdoms,
      Except.map]
  rw [advance_of_ok rfl rfl hexpansion]
  rfl

theorem Frontier.Watched.early {s n n' : Nat} {f : Frontier ι}
    (h : (start j t).Watched procs ctx bound limit (.ofBudget s) n (some (n',f))) : n < s := by
  refine Nat.lt_of_not_le fun up => ?_
  cases h with
  | exhausted drafts => exact absurd drafts (start_drafts_ne_nil _ _)
  | full _ early | more _ early => exact early up

/-- The exploration of a body takes one step more when its arguments are to be introduced. -/
theorem Frontier.Watched.introduced (hd : j.goal.domains ≠ []) (hl : 1 ≤ limit) {s n n' : Nat} {f : Frontier ι}
    (h : (start (introduced j) t).Watched procs ctx bound limit (.ofBudget s) n (some (n',f))) {k m : Nat}
    (hm : s + k + 1 ≤ m) :
    (start j (.andThen intros t)).Watched procs ctx (bound + 1) limit (.ofBudget m) (n + k)
      (some (n' + (k + 1),f.under (introducedNames j))) := by
  have hn := h.early
  have hfirst := advance_intros procs ctx bound hd t
  refine .more (start_drafts_ne_nil _ _) (by simp only [Deadline.ofBudget]; omega) ?_ ?_
  · rw [hfirst]
    exact hl
  · rw [hfirst]
    exact h.under _ rfl (k := k + 1) (m := m) hm

theorem Searches.introduced (hd : j.goal.domains ≠ []) (hl : 1 ≤ limit) {s n : Nat} {x : Option SearchResult}
    (h : Searches procs ctx limit (introduced j) t (.ofBudget s) n bound x) {ds : List Derivation}
    (hx : x = some (.ok ds)) {k m : Nat} (hm : s + k + (s - n) ≤ m) :
    Searches procs ctx limit j (.andThen intros t) (.ofBudget m) (n + k) (bound + 1)
      (some (.ok (ds.map (Derivation.under (introducedNames j))))) := by
  induction h generalizing k with
  | late => cases hx
  | @answer n n' bound f r run verdict =>
    cases hx
    have hn := run.early
    obtain ⟨rfl,hne⟩ := Frontier.verdict_eq_ok verdict
    exact .answer (run.introduced hd hl (by omega)) (Frontier.verdict_of_found (by simpa [Frontier.under] using hne))
  | @deeper n n' bound f x run verdict _ ih =>
    have hn := run.early
    have hn' := run.lt_of_some (Frontier.start_drafts_ne_nil _ _)
    have hcut : f.cut = true := Frontier.cut_of_verdict verdict
    have hrest := ih hx (k := k + 1) (by omega)
    exact .deeper (run.introduced hd hl (by omega)) (Frontier.verdict_of_cut
      (by simp [Frontier.under,Frontier.verdict_eq_none verdict]) hcut) hrest

/-- Introducing the arguments and then a rule: one derivation of the rule at the body is one below the lambda. -/
theorem FindsOne.andThen_intros {name : String}
    {refine : Context → Judgement → Except TacticError (List (Refinement (Tactic ι)))} {P : Derivation → Prop}
    (h : FindsOne procs ctx (introduced j) (.rule name refine) P) (hd : j.goal.domains ≠ []) :
    FindsOne procs ctx j (.andThen intros (.rule name refine)) fun d =>
      ∃ d', P d' ∧ d = d'.under (introducedNames j) := by
  obtain ⟨steps,-,hsearched⟩ := h.enough
  suffices hanswers : AnswersIn procs ctx j (.andThen intros (.rule name refine))
      (fun ds => ∃ d, ds = [d] ∧ ∃ d', P d' ∧ d = d'.under (introducedNames j)) (steps + 2 + steps) from
    .of_answersIn hanswers
  intro cfg deadline early
  have hl : 1 ≤ max 1 cfg.maxSolutions := Nat.le_max_left ..
  obtain ⟨d,hP,x,hx,hanswer⟩ := hsearched cfg _ (Deadline.early_ofBudget (Nat.le_refl steps))
  have hsome : x = some (.ok [d]) := by
    cases x with
    | none => cases hanswer
    | some r => exact congrArg some hanswer.symm
  -- At the first bound the arguments are introduced, and no rule runs on the body.
  have hcut : (Frontier.start (introduced j) (.rule name refine)).advance procs ctx 0 =
      ⟨[],1,true,none,[]⟩ := by
    have hexpansion : (Goal.root (introduced j) (.rule name refine)).expansion procs ctx 0 = ⟨.ok [],true⟩ := rfl
    rw [Frontier.advance_of_ok rfl rfl hexpansion]
    rfl
  have hspent : (Frontier.start (introduced j) (.rule name refine)).Watched procs ctx 0 (max 1 cfg.maxSolutions)
      (.ofBudget 1) 0 (some (1,⟨[],1,true,none,[]⟩)) := by
    refine .more (Frontier.start_drafts_ne_nil _ _) (by simp [Deadline.ofBudget]) ?_ ?_
    · rw [hcut]
      exact hl
    · rw [hcut]
      exact .exhausted rfl
  have hbody := hx.introduced hd hl hsome (k := 2) (m := steps + 2 + steps) (by omega)
  have hwhole : Searched procs ctx cfg j (.andThen intros (.rule name refine)) (.ofBudget (steps + 2 + steps))
      (.ok [d.under (introducedNames j)]) :=
    ⟨_,.deeper (hspent.introduced hd hl (k := 0) (by omega)) rfl hbody,rfl⟩
  exact ⟨_,⟨_,rfl,d,hP,rfl⟩,(hwhole.later early.later cfg.timeout).resolve_left fun hnone => by cases hnone⟩

end

end TypedHole
