import TypedHole.Proofs.Solvable

/-! Runs of the automatic tactic.
Within a depth bound the automatic tactic comes to an end, as each of its moves spends a rule and a field is
kept in one step. Main statements: where every way to go on with an agenda ends, so does the exploration
(`Ends.exhausted`), all that the automatic tactic derives is closed (`Grows.closed`), and so it finds a
closed derivation just when its goal is solvable (`Solves.solvable`, `Solvable.solves`). -/
namespace TypedHole

variable {ι : Type}

/-- Every way to go on with an agenda, whose goals come without numbers, ends. -/
inductive Ends (procs : ι → Tactic ι) (ctx : Context) (bound : Nat) : List (Goal ι) → Prop
  | nil : Ends procs ctx bound []
  | failed {g : Goal ι} {gs : List (Goal ι)} {err : TacticError}
      (outcome : (g.expansion procs ctx bound).outcome = .error err) : Ends procs ctx bound (g :: gs)
  | opened {g : Goal ι} {gs : List (Goal ι)} {as : List (Alternative ι)}
      (outcome : (g.expansion procs ctx bound).outcome = .ok as)
      (ends : ∀ a ∈ as, Ends procs ctx bound (a.goals g ++ gs)) : Ends procs ctx bound (g :: gs)

namespace Frontier

variable {procs : ι → Tactic ι} {ctx : Context} {bound limit : Nat} {f : Frontier ι}

def Finishes (procs : ι → Tactic ι) (ctx : Context) (bound limit : Nat) (f : Frontier ι) : Prop :=
  ∃ budget left f', f.explore procs ctx bound limit budget = some (left,f')

/-- A frontier is empty after a number of visits, with no limit on what they find. -/
def ExhaustedIn (procs : ι → Tactic ι) (ctx : Context) (bound steps : Nat) (f : Frontier ι) : Prop :=
  ((advance procs ctx bound)^[steps] f).drafts = []

theorem exhausted_of_step (hd : f.drafts ≠ [])
    (h : ∀ f', Step procs ctx bound f f' → ∃ n, f'.ExhaustedIn procs ctx bound n) :
    ∃ n, f.ExhaustedIn procs ctx bound n := by
  obtain ⟨n,hn⟩ := h _ (step_advance procs ctx bound hd)
  exact ⟨n + 1,by rwa [ExhaustedIn,Function.iterate_succ_apply]⟩

/-- The visits that exhaust a frontier are a budget for its exploration, which empties the frontier unless it
finds enough. -/
theorem ExhaustedIn.explore {steps : Nat} (h : f.ExhaustedIn procs ctx bound steps) (limit : Nat) :
    ∃ left f', f.explore procs ctx bound limit steps = some (left,f') ∧
      (f'.found.length < limit → f'.drafts = []) := by
  induction steps generalizing f with
  | zero => exact ⟨0,f,explore_of_empty h,fun _ => h⟩
  | succ steps ih =>
    by_cases hd : f.drafts = []
    · exact ⟨steps + 1,f,explore_of_empty hd,fun _ => hd⟩
    rw [explore_succ hd]
    by_cases hl : limit ≤ (f.advance procs ctx bound).found.length
    · exact ⟨steps,_,if_pos hl,fun few => absurd hl (Nat.not_le.2 few)⟩
    · obtain ⟨left,f',he,hempty⟩ := ih (f := f.advance procs ctx bound) h
      exact ⟨left,f',(if_neg hl).trans he,hempty⟩

theorem ExhaustedIn.finishes {steps : Nat} (h : f.ExhaustedIn procs ctx bound steps) :
    f.Finishes procs ctx bound limit := by
  obtain ⟨left,f',he,-⟩ := h.explore limit
  exact ⟨steps,left,f',he⟩

end Frontier

section

variable {procs : ι → Tactic ι} {ctx : Context} {bound limit : Nat}

theorem Ends.append {gs gs' : List (Goal ι)} (h : Ends procs ctx bound gs) (h' : Ends procs ctx bound gs') :
    Ends procs ctx bound (gs ++ gs') := by
  induction h with
  | nil => exact h'
  | failed outcome => exact .failed outcome
  | opened outcome _ ih => exact .opened outcome fun a ha => List.append_assoc .. ▸ ih a ha

theorem Ends.of_forall (gs : List (Goal ι)) (h : ∀ g ∈ gs, Ends procs ctx bound [g]) :
    Ends procs ctx bound gs := by
  induction gs with
  | nil => exact .nil
  | cons g gs ih => exact (h g (by simp)).append (ih fun g' hg' => h g' (by simp [hg']))

theorem Ends.exhausted {gs : List (Goal ι)} (h : Ends procs ctx bound gs) {d : Draft ι} {ds : List (Draft ι)}
    (hgs : d.agenda.map Goal.unnumbered = gs)
    (hds : ∀ f : Frontier ι, f.drafts = ds → ∃ n, f.ExhaustedIn procs ctx bound n) {f : Frontier ι}
    (hf : f.drafts = d :: ds) : ∃ n, f.ExhaustedIn procs ctx bound n := by
  have hne : f.drafts ≠ [] := by simp [hf]
  induction h generalizing d ds f with
  | nil =>
    have hnil : d.agenda = [] := List.map_eq_nil_iff.1 hgs
    refine Frontier.exhausted_of_step hne fun f' hs => ?_
    cases hs with
    | finished hd ha =>
      cases hf.symm.trans hd
      exact hds _ (by simp)
    | failed hd ha =>
      cases hf.symm.trans hd
      simp [hnil] at ha
    | opened hd ha =>
      cases hf.symm.trans hd
      simp [hnil] at ha
  | @failed g gs err outcome =>
    obtain ⟨g',gs',hagenda,rfl,rfl⟩ := List.map_eq_cons_iff.1 hgs
    refine Frontier.exhausted_of_step hne fun f' hs => ?_
    cases hs with
    | finished hd ha =>
      cases hf.symm.trans hd
      simp [hagenda] at ha
    | failed hd ha =>
      cases hf.symm.trans hd
      exact hds _ rfl
    | opened hd ha ho =>
      cases hf.symm.trans hd
      cases hagenda.symm.trans ha
      have hok : (g'.expansion procs ctx bound).outcome = .error err := outcome
      rw [ho] at hok
      cases hok
  | @opened g gs as outcome _ ih =>
    obtain ⟨g',gs',hagenda,rfl,rfl⟩ := List.map_eq_cons_iff.1 hgs
    refine Frontier.exhausted_of_step hne fun f' hs => ?_
    cases hs with
    | finished hd ha =>
      cases hf.symm.trans hd
      simp [hagenda] at ha
    | failed hd ha ho =>
      cases hf.symm.trans hd
      cases hagenda.symm.trans ha
      have hok : (g'.expansion procs ctx bound).outcome = .ok as := outcome
      rw [ho] at hok
      cases hok
    | opened hd ha ho =>
      cases hf.symm.trans hd
      cases hagenda.symm.trans ha
      have hok : (g'.expansion procs ctx bound).outcome = .ok as := outcome
      rw [ho] at hok
      cases hok
      -- the alternatives come to an end one after the other, the last one before the older drafts
      have hall (es : List (Draft ι))
          (hes : ∀ e ∈ es, ∃ a ∈ as, e.agenda.map Goal.unnumbered = a.goals g' ++ gs'.map Goal.unnumbered) :
          ∀ f : Frontier ι, f.drafts = es ++ ds → ∃ n, f.ExhaustedIn procs ctx bound n := by
        induction es with
        | nil => exact hds
        | cons e es ihes =>
          intro f hf
          obtain ⟨a,hmem,he⟩ := hes e (by simp)
          exact ih a hmem he (ihes fun e he => hes e (by simp [he])) hf (by simp [hf])
      refine hall _ (fun e he => ?_) _ rfl
      obtain ⟨a,hmem,n,-,-,rfl,-⟩ := Draft.mem_chooseAll he
      exact ⟨a,hmem,Draft.unnumbered_choose ..⟩

theorem Ends.exhausted_start {j : Judgement} {t : Tactic ι} (h : Ends procs ctx bound [.root j t]) :
    ∃ n, (Frontier.start j t).ExhaustedIn procs ctx bound n :=
  h.exhausted rfl (fun _ hf => ⟨0,hf⟩) rfl

theorem Alternative.mem_goals {a : Alternative ι} {g g' : Goal ι} (h : g' ∈ a.goals g) :
    .inl g' ∈ a.handOut g := by
  obtain ⟨s,hs,hg⟩ := List.mem_filterMap.1 h
  exact List.mem_map.2 ⟨s,hs,Sum.getLeft?_eq_some_iff.1 hg⟩

end

open TypedHole.Tactic

/-- An agenda ends where each goal on it leaves only smaller ones of its kind. -/
theorem Ends.of_measure {procs : ι → Tactic ι} {ctx : Context} {bound : Nat} {P : Goal ι → Prop}
    (measure : Goal ι → Nat)
    (step : ∀ g, P g → ∀ as, (g.expansion procs ctx bound).outcome = .ok as → ∀ a ∈ as,
      ∀ g', .inl g' ∈ a.handOut g → P g' ∧ measure g' < measure g)
    (gs : List (Goal ι)) (h : ∀ g ∈ gs, P g) : Ends procs ctx bound gs := by
  have hone (n : Nat) : ∀ g, measure g < n → P g → Ends procs ctx bound [g] := by
    induction n with
    | zero => exact fun g hg => absurd hg (Nat.not_lt_zero _)
    | succ n ih =>
      intro g hn hg
      cases ho : (g.expansion procs ctx bound).outcome with
      | error err => exact .failed ho
      | ok as =>
        refine .opened ho fun a ha => ?_
        rw [List.append_nil]
        refine .of_forall _ fun g' hg' => ?_
        obtain ⟨hP,hlt⟩ := step g hg as ho a ha g' (Alternative.mem_goals hg')
        exact ih g' (by omega) hP
  exact .of_forall gs fun g hg => hone _ g (Nat.lt_succ_self _) (h g hg)

def Goal.Automatic {κ : Type} (g : Goal (Label κ)) : Prop :=
  g.IsAuto ∨ ∃ x, g.tactic = .keep x ∧ g.rest = [auto]

/-- Each move of the automatic tactic spends a rule, and a field that is not kept becomes a goal for it. -/
def Goal.measure {κ : Type} (bound : Nat) (g : Goal (Label κ)) : Nat :=
  2 * (bound - g.depth) + g.rest.length

section

variable {κ : Type} {pass : Judgement → Ty → Judgement} {own : κ → Tactic (Label κ)} {ctx : Context}
  {bound limit : Nat} {g : Goal (Label κ)} {a : Alternative (Label κ)}

theorem Tactic.AutoMove.automatic {j : Judgement} (h : AutoMove pass ctx j a) :
    ∃ r, a.refinement = some r ∧ ∀ s ∈ r.subgoals, a.rest = [auto] ∧
      (s.tactic = none ∨ ∃ x, s.tactic = some (.keep x)) := by
  cases h with
  | entry => exact ⟨_,rfl,fun s hs => by cases hs⟩
  | lam => exact ⟨_,rfl,fun s hs => ⟨rfl,.inl (by rw [List.mem_singleton.1 hs])⟩⟩
  | constructor =>
    refine ⟨_,rfl,fun s hs => ⟨rfl,.inl ?_⟩⟩
    obtain ⟨u,-,rfl⟩ := mem_argumentsWith.1 hs
    rfl
  | function =>
    refine ⟨_,rfl,fun s hs => ⟨rfl,.inl ?_⟩⟩
    obtain ⟨u,-,rfl⟩ := mem_argumentsWith.1 hs
    rfl
  | destruct =>
    refine ⟨_,rfl,fun s hs => ⟨rfl,.inl ?_⟩⟩
    obtain ⟨c,-,rfl⟩ := mem_openBranches.1 hs
    rfl
  | homomorphism =>
    refine ⟨_,rfl,fun s hs => ⟨rfl,.inr ?_⟩⟩
    obtain ⟨c,-,hs⟩ := mem_splitOn.1 hs
    obtain ⟨x,t,-,rfl⟩ := subgoal_of_rebuild hs
    exact ⟨x,rfl⟩

theorem Goal.Automatic.handOut (hg : g.Automatic) {as : List (Alternative (Label κ))}
    (outcome : (g.expansion (bodiesWith pass own) ctx bound).outcome = .ok as) (mem : a ∈ as) :
    ∀ x ∈ a.handOut g, ∃ g', x = .inl g' ∧ g'.Automatic ∧ g'.measure bound < g.measure bound := by
  intro x hx
  rcases hg with hg | ⟨y,ht,hr⟩
  · obtain ⟨hd,hmove⟩ := hg.move outcome mem
    obtain ⟨r,hr,hsub⟩ := hmove.automatic
    simp only [Alternative.handOut,Alternative.subgoals,Alternative.depth,hr] at hx
    obtain ⟨s,hs,rfl⟩ := List.mem_map.1 hx
    obtain ⟨hrest,htactic⟩ := hsub s hs
    have hless (rest : List (Tactic (Label κ))) (hrest : rest.length ≤ 1) :
        2 * (bound - (g.depth + 1)) + rest.length < g.measure bound := by
      rw [Goal.measure]
      omega
    rcases htactic with htactic | ⟨y,htactic⟩
    · refine ⟨g.below s.judgement,?_,.inl ⟨rfl,rfl⟩,hless [] (by simp)⟩
      simp [Draft.schedule,htactic,hrest,Goal.below]
    · refine ⟨⟨0,s.judgement,.keep y,[auto],g.depth + 1⟩,?_,.inr ⟨y,rfl,rfl⟩,hless [auto] (by simp)⟩
      simp [Draft.schedule,htactic,hrest]
  · rw [Goal.expansion,ht,hr] at outcome
    have hyields : Yields (bodiesWith pass own) ctx g.judgement (.keep y) [auto] a := ⟨_,_,as,outcome,mem⟩
    rcases hyields.of_keep with rfl | rfl
    · cases hx
    · have hx : x = .inl ⟨0,g.judgement,auto,[],g.depth⟩ := List.mem_singleton.1 hx
      refine ⟨_,hx,.inl ⟨rfl,rfl⟩,?_⟩
      simp [Goal.measure,hr]

theorem Ends.of_automatic (gs : List (Goal (Label κ))) (h : ∀ g ∈ gs, g.Automatic) :
    Ends (bodiesWith pass own) ctx bound gs := by
  refine .of_measure (P := Goal.Automatic) (Goal.measure bound) (fun g hg as outcome a mem g' hg' => ?_) gs h
  obtain ⟨g₁,heq,hauto,hlt⟩ := hg.handOut outcome mem _ hg'
  cases heq
  exact ⟨hauto,hlt⟩

theorem Grows.closed {xs : List (Goal (Label κ) ⊕ Judgement)} {ps : List Growth}
    (h : Grows (bodiesWith pass own) ctx bound xs ps)
    (hx : ∀ x ∈ xs, ∃ g, x = .inl g ∧ g.Automatic) : ∀ p ∈ ps, p.derivation.unsolved = [] := by
  induction h with
  | nil => simp
  | unsolved =>
    obtain ⟨g,heq,-⟩ := hx _ List.mem_cons_self
    cases heq
  | @node g as a xs qs ps outcome mem parts _ ihparts ihothers =>
    obtain ⟨g',heq,hg⟩ := hx _ List.mem_cons_self
    cases heq
    have hqs := ihparts fun x hx => by
      obtain ⟨g',heq,hauto,-⟩ := hg.handOut outcome mem x hx
      exact ⟨g',heq,hauto⟩
    refine List.forall_mem_cons.2 ⟨?_,ihothers fun x hx' => hx x (List.mem_cons_of_mem _ hx')⟩
    refine List.flatMap_eq_nil_iff.2 fun d hd => ?_
    obtain ⟨q,hq,rfl⟩ := List.mem_map.1 hd
    exact hqs q hq

end

def Solves (procs : ι → Tactic ι) (ctx : Context) (bound limit : Nat) (j : Judgement) (t : Tactic ι) : Prop :=
  ∃ budget left f, (Frontier.start j t).explore procs ctx bound limit budget = some (left,f) ∧
    ∃ d ∈ f.found, d.unsolved = []

section

variable {κ : Type} {pass : Judgement → Ty → Judgement} {inner : Pool → Pool}
  {own : κ → Tactic (Label κ)} {ctx : Context} {bound limit : Nat} {j : Judgement}

theorem Solves.solvable (hpass : Passing pass inner) (hj : j.Scoped)
    (h : Solves (bodiesWith pass own) ctx bound limit j auto) :
    Solvable ctx.types inner bound j.pool j.goal := by
  obtain ⟨budget,left,f,he,d,hd,-⟩ := h
  obtain ⟨p,hp,-⟩ := grows_of_explore he hd
  exact hp.solvable hpass (.root j auto) (List.mem_singleton_self _) ⟨rfl,rfl⟩ hj

/-- Where the goal can be solved from its pool the automatic tactic finds a closed derivation, whatever number
of derivations is asked for. -/
theorem Solvable.solves (hpass : Passing pass inner) (hj : j.Scoped) (hl : 0 < limit)
    (h : Solvable ctx.types inner bound j.pool j.goal) :
    Solves (bodiesWith pass own) ctx bound limit j auto := by
  have hroot : (Goal.root j auto : Goal (Label κ)).IsAuto := ⟨rfl,rfl⟩
  obtain ⟨p,hp⟩ : ∃ p, Grows (bodiesWith pass own) ctx bound [.inl (.root j auto)] [p] :=
    h.grows hpass hroot hj rfl rfl (by simp [Goal.root])
  have hends : Ends (bodiesWith pass own) ctx bound [.root j auto] :=
    .of_automatic _ fun g hg => .inl (List.mem_singleton.1 hg ▸ hroot)
  obtain ⟨budget,left,f,he⟩ : (Frontier.start j (auto : Tactic (Label κ))).Finishes
      (bodiesWith pass own) ctx bound limit := hends.exhausted_start.elim fun _ hn => hn.finishes
  have hsome : ∃ d, d ∈ f.found := by
    by_cases few : f.found.length < limit
    · obtain ⟨d,hd,-⟩ := explore_of_grows he few hp
      exact ⟨d,hd⟩
    · exact List.exists_mem_of_length_pos (by omega)
  obtain ⟨d,hd⟩ := hsome
  refine ⟨budget,left,f,he,d,hd,?_⟩
  obtain ⟨p,hp,-,hopen⟩ := grows_of_explore he hd
  have hclosed := hp.closed (fun x hx => ⟨_,List.mem_singleton.1 hx,.inl hroot⟩) p (List.mem_singleton_self p)
  rw [hclosed] at hopen
  exact hopen.eq_nil

end

end TypedHole
