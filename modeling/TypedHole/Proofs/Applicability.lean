import TypedHole.Action
import TypedHole.Proofs.Deadline
import TypedHole.Proofs.Soundness
import TypedHole.Proofs.SplitTerm

/-! Which actions apply.
A rule that offers one refinement whose subgoals stay open or only keep fields is run to its end within the
first two depth bounds and gives one derivation (`search_of_rule`), and a search for a rule finds nothing else
(`refine_of_search`). Main statement: the actions that are offered at a hole are those that can be run
there, and each is offered once, in a fixed order (`actions_run`). -/
namespace TypedHole

variable {ι : Type} {procs : ι → Tactic ι} {ctx : Context} {bound limit : Nat}

/-- A subgoal that takes no search: it stays open, or a field is kept for it. -/
def Subgoal.Settled (s : Subgoal (Tactic ι)) : Prop :=
  s.tactic = none ∨ ∃ x e, s.tactic = some (.keep x) ∧ s.judgement.hypothesis.find? x = some e ∧
    e.ty = s.judgement.goal

def Goal.Keeps (g : Goal ι) : Prop :=
  ∃ x e, g.tactic = .keep x ∧ g.judgement.hypothesis.find? x = some e ∧ e.ty = g.judgement.goal

theorem Goal.Keeps.expansion {g : Goal ι} (h : g.Keeps) (procs : ι → Tactic ι) (ctx : Context)
    (bound : Nat) : ∃ x, g.expansion procs ctx bound =
      if bound ≤ g.depth then ⟨.ok [],true⟩ else ⟨.ok [⟨some (.closed (.var x)),g.rest⟩],false⟩ := by
  obtain ⟨x,e,ht,he,hg⟩ := h
  refine ⟨x,?_⟩
  rw [Goal.expansion,ht,Tactic.expand_keep he hg]
  by_cases hd : bound ≤ g.depth <;> simp [hd]

theorem Draft.keeps_of_settled {d : Draft ι} {g g' : Goal ι} {r : Refinement (Tactic ι)} {n : Nat}
    (hs : ∀ s ∈ r.subgoals, s.Settled) (hd : d.agenda = []) (hg : g' ∈ (d.choose g ⟨some r,[]⟩ n).agenda) :
    g'.Keeps ∧ g'.depth = g.depth + 1 := by
  rw [choose_agenda,hd,List.append_nil] at hg
  obtain ⟨x,hx,hg⟩ := List.mem_filterMap.1 hg
  obtain ⟨p,hp,rfl⟩ := List.mem_map.1 hx
  obtain ⟨-,hj,hdepth,ht | ht⟩ := schedule_inl (Sum.getLeft?_eq_some_iff.1 hg)
  · rcases Alternative.mem_parts hp with ⟨hnone,-⟩ | ⟨r',hr,hm⟩
    · cases hnone
    · cases hr
      rcases hs p.2 hm with hopen | ⟨x,e,hkeep,he,htype⟩
      · rw [ht.1] at hopen
        cases hopen
      · rw [ht.1] at hkeep
        exact ⟨⟨x,e,Option.some.inj hkeep,hj ▸ he,hj ▸ htype⟩,hdepth⟩
  · cases ht.2

theorem Draft.length_agenda_of_settled {d : Draft ι} {g : Goal ι} {r : Refinement (Tactic ι)} {n : Nat}
    (hd : d.agenda = []) : (d.choose g ⟨some r,[]⟩ n).agenda.length ≤ r.subgoals.length := by
  rw [choose_agenda,hd,List.append_nil]
  refine Nat.le_trans (List.length_filterMap_le _ _) ?_
  simp [scheduleAll,Alternative.parts]

namespace Frontier

variable {f : Frontier ι} {d : Draft ι}

theorem explore_done (budget : Nat) (hf : f.drafts = [d]) (hnil : f.found = []) (ha : d.agenda = []) :
    ∃ f', f.explore procs ctx bound limit (budget + 1) = some (budget,f') ∧ f'.found = [d.finish 0] := by
  rw [explore_succ (by simp [hf]),advance_of_nil hf ha]
  refine ⟨{ f with drafts := [] }.record (d.finish 0),?_,by simp [record,hnil]⟩
  dsimp only
  split
  · rfl
  · exact explore_of_empty (record_drafts _ _)

/-- Within the bound a draft with nothing but fields to keep is completed goal by goal. -/
theorem explore_keeps (hl : 1 ≤ limit) {budget : Nat} (hf : f.drafts = [d]) (hnil : f.found = [])
    (hk : ∀ g ∈ d.agenda, g.Keeps ∧ g.depth < bound) (hb : d.agenda.length < budget) :
    ∃ left f' y, f.explore procs ctx bound limit budget = some (left,f') ∧ f'.found = [y] := by
  have hne : f.drafts ≠ [] := by simp [hf]
  obtain ⟨budget,rfl⟩ := Nat.exists_eq_add_of_le' (Nat.zero_lt_of_lt hb)
  induction ha : d.agenda generalizing f d budget with
  | nil =>
    obtain ⟨f',he,hfound⟩ := explore_done budget hf hnil ha
    exact ⟨budget,f',d.finish 0,he,hfound⟩
  | cons g gs ih =>
    obtain ⟨hkeeps,hdepth⟩ := hk g (by simp [ha])
    obtain ⟨x,hx⟩ := hkeeps.expansion procs ctx bound
    rw [if_neg (Nat.not_le.2 hdepth)] at hx
    have hagenda : (({ d with agenda := gs } : Draft ι).choose g ⟨some (.closed (.var x)),g.rest⟩
        f.next).agenda = gs := by
      rw [Draft.choose_agenda]
      rfl
    rw [ha,List.length_cons] at hb
    obtain ⟨budget,rfl⟩ := Nat.exists_eq_add_of_le' (Nat.zero_lt_of_lt (Nat.lt_of_succ_lt_succ hb))
    rw [explore_of_advance hne hl (advance_of_ok hf ha hx) hnil]
    refine ih rfl ?_ (fun g' hg' => hk g' (by simp [ha,hagenda ▸ hg'])) (List.cons_ne_nil _ _) budget
      (hagenda ▸ Nat.lt_of_succ_lt_succ hb) hagenda
    exact hnil

theorem explore_cut (hl : 1 ≤ limit) (budget : Nat) (hf : f.drafts = [d]) (hnil : f.found = [])
    (hk : ∀ g ∈ d.agenda, g.Keeps ∧ bound ≤ g.depth) (hd : d.agenda ≠ []) :
    ∃ f', f.explore procs ctx bound limit (budget + 1) = some (budget,f') ∧ f'.found = [] ∧
      f'.cut = true := by
  have hne : f.drafts ≠ [] := by simp [hf]
  obtain ⟨g,gs,ha⟩ := List.exists_cons_of_ne_nil hd
  obtain ⟨hkeeps,hdepth⟩ := hk g (by simp [ha])
  obtain ⟨x,hx⟩ := hkeeps.expansion procs ctx bound
  rw [if_pos hdepth] at hx
  rw [explore_of_advance hne hl (advance_of_ok hf ha hx) hnil]
  exact ⟨_,explore_of_empty rfl,hnil,Bool.or_true _⟩

theorem verdict_of_found {goal : Ty} (h : f.found ≠ []) : f.verdict goal = some (.ok f.found) := by
  simp [verdict,h]

theorem verdict_of_cut {goal : Ty} (h : f.found = []) (hc : f.cut = true) : f.verdict goal = none := by
  simp [verdict,h,hc]

end Frontier

section

variable {name : String} {refine : Context → Judgement → Except TacticError (List (Refinement (Tactic ι)))}
  {j : Judgement} {r : Refinement (Tactic ι)}

theorem explore_rule (procs : ι → Tactic ι) (name : String) (hr : refine ctx j = .ok [r])
    (hs : ∀ s ∈ r.subgoals, s.Settled) (hb : 0 < bound) (hl : 1 ≤ limit) :
    ∃ (f : Frontier ι) (d : Draft ι),
      (∀ budget, (Frontier.start j (.rule name refine)).explore procs ctx bound limit (budget + 1) =
        f.explore procs ctx bound limit budget) ∧
      f.drafts = [d] ∧ f.found = [] ∧ (∀ g ∈ d.agenda, g.Keeps ∧ g.depth = 1) ∧
        d.agenda.length ≤ r.subgoals.length := by
  have he : (Goal.root j (.rule name refine)).expansion procs ctx bound = ⟨.ok [⟨some r,[]⟩],false⟩ := by
    rw [Goal.expansion,Goal.root,decide_eq_false (Nat.not_le.2 hb)]
    simp [Tactic.expand,hr,Except.map]
  have hstart : (Frontier.start j (.rule name refine)).drafts = [⟨[.root j (.rule name refine)],[],[]⟩] := rfl
  have hadvance := Frontier.advance_of_ok hstart rfl he
  refine ⟨_,_,fun budget => Frontier.explore_of_advance (List.cons_ne_nil _ _) hl hadvance rfl,rfl,rfl,
    fun g hg => ?_,?_⟩
  · exact Draft.keeps_of_settled hs rfl hg
  · exact Draft.length_agenda_of_settled rfl

theorem deepen_of_found {t : Tactic ι} {rounds budget left : Nat} {f : Frontier ι}
    (h : (Frontier.start j t).explore procs ctx bound limit budget = some (left,f)) (hf : f.found ≠ []) :
    deepen procs ctx limit j t (rounds + 1) budget bound = some (.ok f.found) := by
  simp only [deepen,h,Frontier.verdict_of_found hf]

theorem deepen_of_cut {t : Tactic ι} {rounds budget left : Nat} {f : Frontier ι}
    (h : (Frontier.start j t).explore procs ctx bound limit budget = some (left,f)) (hf : f.found = [])
    (hc : f.cut = true) : deepen procs ctx limit j t (rounds + 1) budget bound =
      deepen procs ctx limit j t rounds left (bound + 1) := by
  simp only [deepen,h,Frontier.verdict_of_cut hf hc]

/-- A rule with one refinement that takes no search is run to its end within the first two depth bounds, where it
gives one derivation. -/
theorem search_of_rule (procs : ι → Tactic ι) (name : String) (hr : refine ctx j = .ok [r])
    (hs : ∀ s ∈ r.subgoals, s.Settled) {cfg : Config} (ht : r.subgoals.length + 4 ≤ cfg.timeout) :
    ∃ d, search procs cfg ctx j (.rule name refine) = .ok [d] := by
  have hl : 1 ≤ max 1 cfg.maxSolutions := Nat.le_max_left ..
  suffices h : ∃ d, deepen procs ctx (max 1 cfg.maxSolutions) j (.rule name refine)
      (cfg.timeout * stepsPerMillisecond) (cfg.timeout * stepsPerMillisecond) 1 = some (.ok [d]) by
    obtain ⟨d,hd⟩ := h
    exact ⟨d,by rw [search,hd]; rfl⟩
  obtain ⟨left,hleft,hroom⟩ : ∃ left, cfg.timeout * stepsPerMillisecond = left + 2 ∧
      r.subgoals.length + 2 ≤ left := by
    have : cfg.timeout ≤ cfg.timeout * stepsPerMillisecond := Nat.le_mul_of_pos_right _ (by decide)
    exact ⟨cfg.timeout * stepsPerMillisecond - 2,by omega,by omega⟩
  rw [hleft]
  obtain ⟨f,d,hfirst,hf,hnil,hk,hlen⟩ := explore_rule procs name hr hs Nat.one_pos hl
  by_cases hd : d.agenda = []
  · obtain ⟨left',f',y,he,hfound⟩ : ∃ left' f' y,
        f.explore procs ctx 1 (max 1 cfg.maxSolutions) (left + 1) = some (left',f') ∧ f'.found = [y] :=
      Frontier.explore_keeps hl hf hnil (by simp [hd]) (by simp [hd])
    exact ⟨y,hfound ▸ deepen_of_found ((hfirst (left + 1)).trans he) (by simp [hfound])⟩
  · obtain ⟨f',he,hnil',hcut⟩ := Frontier.explore_cut hl left hf hnil
      (fun g hg => ⟨(hk g hg).1,Nat.le_of_eq (hk g hg).2.symm⟩) hd
    rw [deepen_of_cut ((hfirst (left + 1)).trans he) hnil' hcut]
    obtain ⟨f,d,hsecond,hf,hnil,hk,hlen⟩ := explore_rule procs name hr hs Nat.two_pos hl
    obtain ⟨left,rfl⟩ : ∃ n, left = n + 1 := ⟨left - 1,by omega⟩
    obtain ⟨left',f',y,he,hfound⟩ : ∃ left' f' y,
        f.explore procs ctx 2 (max 1 cfg.maxSolutions) left = some (left',f') ∧ f'.found = [y] :=
      Frontier.explore_keeps hl hf hnil (fun g hg => ⟨(hk g hg).1,by rw [(hk g hg).2]; exact Nat.one_lt_two⟩)
        (by omega)
    exact ⟨y,hfound ▸ deepen_of_found ((hsecond left).trans he) (by simp [hfound])⟩

theorem refine_of_search {cfg : Config} {ds : List Derivation}
    (h : search procs cfg ctx j (.rule name refine) = .ok ds) :
    ∃ rs, refine ctx j = .ok rs ∧ ∃ r, r ∈ rs := by
  obtain ⟨bound,budget,left,f,he,rfl⟩ := found_of_search h
  obtain ⟨d,hd⟩ := List.exists_mem_of_ne_nil _ (ne_nil_of_search h)
  obtain ⟨p,hp,-⟩ := grows_of_explore he hd
  cases hp with
  | node outcome mem =>
    obtain ⟨rs,hrs,r,hr,-⟩ := Tactic.Yields.of_rule ⟨_,_,_,outcome,mem⟩
    exact ⟨rs,hrs,r,hr⟩

end

namespace Tactic

theorem settled_openBranch (b : Branch) : ∀ s ∈ (openBranch (ι := ι) b).subgoals, s.Settled := by
  intro s hs
  rw [List.mem_singleton.1 hs]
  exact .inl rfl

theorem settled_rebuild (j : Judgement) (scrutinee : Option Name) (goal : Ty) (c : Constructor) :
    ∀ s ∈ (rebuild (ι := ι) scrutinee (branch j scrutinee goal c)).subgoals, s.Settled := by
  intro s hs
  obtain ⟨x,ty,hm,rfl⟩ := subgoal_of_rebuild hs
  obtain ⟨e,he,ht⟩ := find?_binder hm
  exact .inr ⟨x,e,rfl,he,ht⟩

theorem settled_splitOn {wrap : List (Alt Term) → Term} {j : Judgement} {scrutinee : Option Name} {goal : Ty}
    {cs : List Constructor} {body : Branch → Refinement (Tactic ι)}
    (hb : ∀ c, ∀ s ∈ (body (branch j scrutinee goal c)).subgoals, s.Settled) :
    ∀ s ∈ (splitOn wrap j scrutinee goal cs body).subgoals, s.Settled := by
  intro s hs
  obtain ⟨c,-,hs⟩ := mem_splitOn.1 hs
  exact hb c s hs

/-- A rule that offers one refinement, which takes no search, under a condition, and nothing otherwise. -/
inductive OneStep (ctx : Context) (j : Judgement) (P : Prop) : Tactic ι → Prop
  | rule {name : String} {refine : Context → Judgement → Except TacticError (List (Refinement (Tactic ι)))}
      (offers : P → ∃ r, refine ctx j = .ok [r] ∧ ∀ s ∈ r.subgoals, s.Settled)
      (only : ∀ rs, refine ctx j = .ok rs → P) : OneStep ctx j P (.rule name refine)

variable {ctx : Context} {j : Judgement}

theorem OneStep.search {P : Prop} {t : Tactic ι} (h : t.OneStep ctx j P) (hP : P) (procs : ι → Tactic ι) :
    ∃ n, ∀ cfg : Config, n ≤ cfg.timeout → ∃ d, TypedHole.search procs cfg ctx j t = .ok [d] := by
  obtain ⟨offers,-⟩ := h
  obtain ⟨r,hr,hs⟩ := offers hP
  exact ⟨_,fun cfg ht => search_of_rule procs _ hr hs ht⟩

theorem OneStep.of_search {P : Prop} {t : Tactic ι} (h : t.OneStep ctx j P) {procs : ι → Tactic ι}
    {cfg : Config} {ds : List Derivation} (hs : TypedHole.search procs cfg ctx j t = .ok ds) : P := by
  obtain ⟨-,only⟩ := h
  obtain ⟨rs,hrs,-⟩ := refine_of_search hs
  exact only rs hrs

theorem intros_oneStep : (intros : Tactic ι).OneStep ctx j (j.goal.isArrow = true) := by
  refine .rule (fun h => ?_) fun rs h => ?_
  · cases hg : j.goal with
    | arrow dom cod =>
      refine ⟨_,rfl,fun s hs => ?_⟩
      rw [List.mem_singleton.1 hs]
      exact .inl rfl
    | _ => simp [hg,Ty.isArrow] at h
  · cases hg : j.goal with
    | arrow dom cod => rfl
    | _ => simp [hg,Ty.domains] at h

theorem lookup_of_find? {x : Name} {e : Entry} (h : j.hypothesis.find? x = some e) : lookup j x = .ok e := by
  rw [lookup,h]

theorem constructorsFor_of_isAlgebraic {t : Ty} (h : ctx.types.isAlgebraic t = true) (rule : String) :
    ∃ cs, constructorsFor rule ctx j t = .ok cs := by
  obtain ⟨cs,hcs⟩ := Option.isSome_iff_exists.1 h
  exact ⟨cs,by rw [constructorsFor,hcs]⟩

theorem isAlgebraic_of_constructorsFor {rule : String} {t : Ty} {cs : List Constructor}
    (h : constructorsFor rule ctx j t = .ok cs) : ctx.types.isAlgebraic t = true :=
  Option.isSome_iff_exists.2 ⟨cs,constructorsFor_eq_ok h⟩

theorem destruct_oneStep (x : Name) : (destruct x : Tactic ι).OneStep ctx j
    (∃ e, j.hypothesis.find? x = some e ∧ ctx.types.isAlgebraic e.ty = true) := by
  refine .rule ?_ fun rs h => ?_
  · rintro ⟨e,he,ha⟩
    obtain ⟨cs,hcs⟩ := constructorsFor_of_isAlgebraic (j := j) ha "destruct"
    refine ⟨splitOn (.case (.var x)) j (some x) j.goal cs openBranch,?_,
      settled_splitOn fun _ => settled_openBranch _⟩
    simp [lookup_of_find? he,hcs,bind,Except.bind,pure,Except.pure]
  · obtain ⟨e,he,h⟩ := bind_eq_ok h
    obtain ⟨cs,hcs,-⟩ := bind_eq_ok h
    exact ⟨e,lookup_eq_ok he,isAlgebraic_of_constructorsFor hcs⟩

theorem homomorphism_oneStep (x : Name) : (homomorphism x : Tactic ι).OneStep ctx j
    (∃ e, j.hypothesis.find? x = some e ∧ e.ty = j.goal ∧ ctx.types.isAlgebraic e.ty = true) := by
  refine .rule ?_ fun rs h => ?_
  · rintro ⟨e,he,ht,ha⟩
    obtain ⟨cs,hcs⟩ := constructorsFor_of_isAlgebraic (j := j) ha "homomorphism"
    refine ⟨splitOn (.case (.var x)) j (some x) j.goal cs (rebuild (some x)),?_,
      settled_splitOn fun c => settled_rebuild j _ _ c⟩
    rw [ht] at hcs
    simp [lookup_of_find? he,ht,hcs,bind,Except.bind,pure,Except.pure]
  · obtain ⟨e,he,h⟩ := bind_eq_ok h
    split at h
    next => cases h
    next ht =>
      obtain ⟨cs,hcs,-⟩ := bind_eq_ok h
      exact ⟨e,lookup_eq_ok he,Decidable.not_not.1 ht,isAlgebraic_of_constructorsFor hcs⟩

theorem functionGoal_of_arrow {dom cod : Ty} (h : j.goal = .arrow dom cod) (rule : String) :
    functionGoal rule j = .ok (dom,cod) := by
  rw [functionGoal,h]
  rfl

theorem destructLambdaCase_oneStep : (destructLambdaCase : Tactic ι).OneStep ctx j
    (∃ dom cod, j.goal = .arrow dom cod ∧ ctx.types.isAlgebraic dom = true) := by
  refine .rule ?_ fun rs h => ?_
  · rintro ⟨dom,cod,hg,ha⟩
    obtain ⟨cs,hcs⟩ := constructorsFor_of_isAlgebraic (j := j) ha "destruct_lambda_case"
    refine ⟨splitOn .lamCase j none cod cs openBranch,?_,settled_splitOn fun _ => settled_openBranch _⟩
    simp [functionGoal_of_arrow hg,hcs,bind,Except.bind,pure,Except.pure]
  · obtain ⟨⟨dom,cod⟩,hg,h⟩ := bind_eq_ok h
    obtain ⟨cs,hcs,-⟩ := bind_eq_ok h
    exact ⟨dom,cod,functionGoal_eq_ok hg,isAlgebraic_of_constructorsFor hcs⟩

theorem homomorphismLambdaCase_oneStep : (homomorphismLambdaCase : Tactic ι).OneStep ctx j
    (∃ dom, j.goal = .arrow dom dom ∧ ctx.types.isAlgebraic dom = true) := by
  refine .rule ?_ fun rs h => ?_
  · rintro ⟨dom,hg,ha⟩
    obtain ⟨cs,hcs⟩ := constructorsFor_of_isAlgebraic (j := j) ha "homomorphism_lambda_case"
    refine ⟨splitOn .lamCase j none dom cs (rebuild none),?_,
      settled_splitOn fun c => settled_rebuild j _ _ c⟩
    simp [functionGoal_of_arrow hg,hcs,bind,Except.bind,pure,Except.pure]
  · obtain ⟨⟨dom,cod⟩,hg,h⟩ := bind_eq_ok h
    dsimp only at h
    split at h
    next => cases h
    next ht =>
      obtain ⟨cs,hcs,-⟩ := bind_eq_ok h
      have hsame : dom = cod := Decidable.not_not.1 ht
      subst hsame
      exact ⟨dom,functionGoal_eq_ok hg,isAlgebraic_of_constructorsFor hcs⟩

end Tactic

namespace Command

/-- When a command other than the automatic one can be run on a binding. -/
def Applies (c : Command) (types : TypeTable) (j : Judgement) (binding : Option Name) : Prop :=
  match c, binding with
  | intros, _ => j.goal.isArrow = true
  | destruct, some x => ∃ e, j.hypothesis.find? x = some e ∧ types.isAlgebraic e.ty = true
  | homomorphism, some x =>
    ∃ e, j.hypothesis.find? x = some e ∧ e.ty = j.goal ∧ types.isAlgebraic e.ty = true
  | destructLambdaCase, _ => ∃ dom cod, j.goal = .arrow dom cod ∧ types.isAlgebraic dom = true
  | homomorphismLambdaCase, _ => ∃ dom, j.goal = .arrow dom dom ∧ types.isAlgebraic dom = true
  | _, _ => False

variable {c : Command} {j : Judgement} {binding : Option Name}

/-- Every command but the automatic one runs a single rule, unless its binding is missing. -/
theorem tactic_cases {κ : Type} (hc : c ≠ auto) (ctx : Context) (j : Judgement) (binding : Option Name) :
    (∃ t : Tactic (Tactic.Label κ), c.tactic binding = .ok t ∧
      t.OneStep ctx j (c.Applies ctx.types j binding)) ∨
      (∃ err, c.tactic (κ := κ) binding = .error err) ∧ ¬ c.Applies ctx.types j binding := by
  cases c with
  | auto => exact absurd rfl hc
  | intros => exact .inl ⟨_,rfl,Tactic.intros_oneStep⟩
  | destruct =>
    cases binding with
    | none => exact .inr ⟨⟨_,rfl⟩,fun h => h⟩
    | some x => exact .inl ⟨_,rfl,Tactic.destruct_oneStep x⟩
  | homomorphism =>
    cases binding with
    | none => exact .inr ⟨⟨_,rfl⟩,fun h => h⟩
    | some x => exact .inl ⟨_,rfl,Tactic.homomorphism_oneStep x⟩
  | destructLambdaCase => exact .inl ⟨_,rfl,Tactic.destructLambdaCase_oneStep⟩
  | homomorphismLambdaCase => exact .inl ⟨_,rfl,Tactic.homomorphismLambdaCase_oneStep⟩

end Command

namespace Command

variable {c : Command} {ctx : Context} {j : Judgement} {binding : Option Name}

theorem invoke_of_applies (hc : c ≠ auto) (h : c.Applies ctx.types j binding) :
    ∃ n, ∀ cfg : Config, n ≤ cfg.timeout → ∃ res, c.invoke cfg ctx j binding = .ok res := by
  rcases tactic_cases hc ctx j binding with ⟨t,ht,hstep⟩ | ⟨-,hnot⟩
  · obtain ⟨n,hn⟩ := hstep.search h (Tactic.bodies Empty.elim)
    refine ⟨n,fun cfg hcfg => ?_⟩
    obtain ⟨d,hd⟩ := hn cfg hcfg
    obtain ⟨res,hres⟩ := runTactic_ok_iff.2 ⟨[d],hd⟩
    exact ⟨res,by rw [invoke,ht]; exact hres⟩
  · exact absurd h hnot

theorem invoke_of_timeout_le {cfg : Config} {timeout : Nat} (ht : cfg.timeout ≤ timeout)
    (hne : c.invoke cfg ctx j binding ≠ .error (.timeout cfg.timeout)) :
    c.invoke { cfg with timeout } ctx j binding = c.invoke cfg ctx j binding := by
  rw [invoke] at hne
  rw [invoke,invoke]
  cases htactic : c.tactic (κ := Empty) binding with
  | error => simp only [bind,Except.bind]
  | ok t =>
    rw [htactic] at hne
    exact runTactic_of_timeout_le ht hne

theorem applies_of_invoke (hc : c ≠ auto) {cfg : Config} {res : RunResult}
    (h : c.invoke cfg ctx j binding = .ok res) : c.Applies ctx.types j binding := by
  obtain ⟨t,ht,h⟩ := Tactic.bind_eq_ok h
  rcases tactic_cases (κ := Empty) hc ctx j binding with ⟨t',ht',hstep⟩ | ⟨⟨err,herr⟩,-⟩
  · rw [ht] at ht'
    cases ht'
    obtain ⟨ds,hds⟩ := runTactic_ok_iff.1 ⟨res,h⟩
    exact hstep.of_search hds
  · rw [ht] at herr
    cases herr

section

variable {extensions : Extensions}

theorem mem_among {p : Ty → Bool} : binding ∈ ((j.locals.filter fun e => p e.ty).map fun e => some e.name) ↔
    ∃ e ∈ j.locals, p e.ty = true ∧ binding = some e.name := by
  constructor
  · intro h
    obtain ⟨e,he,rfl⟩ := List.mem_map.1 h
    obtain ⟨he,hp⟩ := List.mem_filter.1 he
    exact ⟨e,he,hp,rfl⟩
  · rintro ⟨e,he,hp,rfl⟩
    exact List.mem_map_of_mem (List.mem_filter.2 ⟨he,hp⟩)

theorem mem_offered {b : Bool} : binding ∈ (if b then [none] else [] : List (Option Name)) ↔
    b = true ∧ binding = none := by
  cases b <;> simp

theorem find?_of_local {e : Entry} (h : e ∈ j.locals) : j.hypothesis.find? e.name = some e :=
  Hypothesis.find?_of_mem (List.mem_filter.1 h).1

theorem allowsHomomorphism_iff {types : TypeTable} {goal ty : Ty} :
    allowsHomomorphism types goal ty = true ↔ ty = goal ∧ types.isAlgebraic ty = true := by
  simp only [allowsHomomorphism,Bool.and_eq_true,beq_iff_eq]
  constructor
  · rintro ⟨⟨-,ha⟩,rfl⟩
    exact ⟨rfl,ha⟩
  · rintro ⟨rfl,ha⟩
    exact ⟨⟨ha,ha⟩,rfl⟩

theorem lambdaCase?_eq_some {types : TypeTable} {goal : Ty} {same : Bool} :
    lambdaCase? types goal = some same ↔
      ∃ dom cod, goal = .arrow dom cod ∧ types.isAlgebraic dom = true ∧ same = (dom == cod) := by
  cases goal with
  | arrow dom cod =>
    have harrow : lambdaCase? types (.arrow dom cod) =
        if types.isAlgebraic dom then some (dom == cod) else none := rfl
    rw [harrow]
    constructor
    · intro h
      split at h
      next ha =>
        cases h
        exact ⟨dom,cod,rfl,ha,rfl⟩
      next => cases h
    · rintro ⟨dom',cod',hg,ha,rfl⟩
      cases hg
      rw [if_pos ha]
  | _ => simp [lambdaCase?,Ty.arrow?]

theorem applies_of_target (hc : c ≠ auto) (h : binding ∈ c.targets extensions ctx.types j) :
    c.Applies ctx.types j binding := by
  cases c with
  | auto => exact absurd rfl hc
  | intros => exact (mem_offered.1 h).1
  | destruct =>
    obtain ⟨e,he,ha,rfl⟩ := mem_among.1 h
    exact ⟨e,find?_of_local he,ha⟩
  | homomorphism =>
    obtain ⟨e,he,ha,rfl⟩ := mem_among.1 h
    obtain ⟨ht,ha⟩ := allowsHomomorphism_iff.1 ha
    exact ⟨e,find?_of_local he,ht,ha⟩
  | destructLambdaCase =>
    obtain ⟨-,hl⟩ := Bool.and_eq_true_iff.1 (mem_offered.1 h).1
    obtain ⟨same,hsame⟩ := Option.isSome_iff_exists.1 hl
    obtain ⟨dom,cod,hg,ha,-⟩ := lambdaCase?_eq_some.1 hsame
    exact ⟨dom,cod,hg,ha⟩
  | homomorphismLambdaCase =>
    obtain ⟨-,hl⟩ := Bool.and_eq_true_iff.1 (mem_offered.1 h).1
    obtain ⟨dom,cod,hg,ha,hsame⟩ := lambdaCase?_eq_some.1 (beq_iff_eq.1 hl)
    have : dom = cod := by simpa using hsame.symm
    subst this
    exact ⟨dom,hg,ha⟩

theorem target_of_intros (h : intros.Applies ctx.types j binding) :
    none ∈ intros.targets extensions ctx.types j := mem_offered.2 ⟨h,rfl⟩

theorem target_of_local {e : Entry} (he : e ∈ j.locals) (hc : c = destruct ∨ c = homomorphism)
    (h : c.Applies ctx.types j (some e.name)) : some e.name ∈ c.targets extensions ctx.types j := by
  rcases hc with rfl | rfl
  · obtain ⟨e',he',ha⟩ := h
    rw [find?_of_local he] at he'
    cases he'
    exact mem_among.2 ⟨e,he,ha,rfl⟩
  · obtain ⟨e',he',ht,ha⟩ := h
    rw [find?_of_local he] at he'
    cases he'
    exact mem_among.2 ⟨e,he,allowsHomomorphism_iff.2 ⟨ht,ha⟩,rfl⟩

theorem target_of_lambdaCase (hx : extensions.has .lambdaCase = true)
    (hc : c = destructLambdaCase ∨ c = homomorphismLambdaCase) (h : c.Applies ctx.types j binding) :
    none ∈ c.targets extensions ctx.types j := by
  rcases hc with rfl | rfl
  · obtain ⟨dom,cod,hg,ha⟩ := h
    have hl := lambdaCase?_eq_some.2 ⟨dom,cod,hg,ha,rfl⟩
    exact mem_offered.2 ⟨by rw [hx,hl]; rfl,rfl⟩
  · obtain ⟨dom,hg,ha⟩ := h
    have hl := lambdaCase?_eq_some.2 ⟨dom,dom,hg,ha,rfl⟩
    exact mem_offered.2 ⟨by rw [hx,hl]; simp,rfl⟩

end

end Command

theorem mem_actions {cfg : Config} {ctx : Context} {j : Judgement} {location : Span} {a : Action} :
    a ∈ actions cfg ctx j location ↔
      a.binding ∈ a.command.targets cfg.extensions ctx.types j ∧ a.location = location := by
  constructor
  · intro h
    obtain ⟨c,-,h⟩ := List.mem_flatMap.1 h
    obtain ⟨b,hb,rfl⟩ := List.mem_map.1 h
    exact ⟨hb,rfl⟩
  · rintro ⟨hb,rfl⟩
    refine List.mem_flatMap.2 ⟨a.command,?_,List.mem_map.2 ⟨a.binding,hb,rfl⟩⟩
    cases a.command <;> decide

/-- One action comes before another: by its command, or else by the name of its binding. -/
def Action.Before (a b : Action) : Prop :=
  Command.all.idxOf a.command < Command.all.idxOf b.command ∨
    a.command = b.command ∧ ∃ x y, a.binding = some x ∧ b.binding = some y ∧ x < y

theorem Command.targets_ordered (c : Command) (extensions : Extensions) (types : TypeTable) (j : Judgement) :
    (c.targets extensions types j).Pairwise fun a b => ∃ x y, a = some x ∧ b = some y ∧ x < y := by
  have hoffered (b : Bool) : (if b then [none] else [] : List (Option Name)).Pairwise
      fun a b => ∃ x y, a = some x ∧ b = some y ∧ x < y := by
    cases b <;> simp
  have hamong (p : Ty → Bool) : ((j.locals.filter fun e => p e.ty).map fun e => some e.name).Pairwise
      fun a b => ∃ x y, a = some x ∧ b = some y ∧ x < y := by
    refine List.pairwise_map.2 (((j.hypothesis.sorted.filter _).filter _).imp fun h => ?_)
    exact ⟨_,_,rfl,rfl,h⟩
  cases c with
  | auto => exact List.pairwise_singleton _ _
  | intros => exact hoffered _
  | destruct => exact hamong _
  | homomorphism => exact hamong _
  | destructLambdaCase => exact hoffered _
  | homomorphismLambdaCase => exact hoffered _

theorem actions_ordered (cfg : Config) (ctx : Context) (j : Judgement) (location : Span) :
    (actions cfg ctx j location).Pairwise Action.Before := by
  refine List.pairwise_flatMap.2 ⟨fun c _ => List.pairwise_map.2 ?_,?_⟩
  · exact (c.targets_ordered cfg.extensions ctx.types j).imp fun h => .inr ⟨rfl,h⟩
  · have hall : Command.all.Pairwise fun a b => Command.all.idxOf a < Command.all.idxOf b := by decide
    refine hall.imp fun h a ha b hb => .inl ?_
    obtain ⟨x,-,rfl⟩ := List.mem_map.1 ha
    obtain ⟨y,-,rfl⟩ := List.mem_map.1 hb
    exact h

def Command.candidates (j : Judgement) : List (Command × Option Name) :=
  Command.all.flatMap fun c => (none :: j.locals.map fun e => some e.name).map fun b => (c,b)

theorem Command.mem_candidates {c : Command} {extensions : Extensions} {types : TypeTable} {j : Judgement}
    {binding : Option Name} (h : binding ∈ c.targets extensions types j) : (c,binding) ∈ candidates j := by
  have hcommand : c ∈ Command.all := by cases c <;> decide
  have hoffered {b : Bool} (h : binding ∈ (if b then [none] else [] : List (Option Name))) :
      binding ∈ none :: j.locals.map fun e => some e.name := by
    rw [(mem_offered.1 h).2]
    exact List.mem_cons_self
  have hamong {p : Ty → Bool} (h : binding ∈ (j.locals.filter fun e => p e.ty).map fun e => some e.name) :
      binding ∈ none :: j.locals.map fun e => some e.name := by
    obtain ⟨e,he,-,rfl⟩ := mem_among.1 h
    exact List.mem_cons_of_mem _ (List.mem_map_of_mem he)
  refine List.mem_flatMap.2 ⟨c,hcommand,List.mem_map_of_mem ?_⟩
  cases c with
  | auto =>
    rw [List.mem_singleton.1 h]
    exact List.mem_cons_self
  | intros => exact hoffered h
  | destruct => exact hamong h
  | homomorphism => exact hamong h
  | destructLambdaCase => exact hoffered h
  | homomorphismLambdaCase => exact hoffered h

/-- At every hole: from some timeout on, each action that is offered, other than the automatic one, can be
run. Conversely, `intros`, a split on a local entry, and a split without a name where that is enabled are
offered wherever they can be run. The actions come in the order of the commands and then of the names of
their bindings, and none is offered twice. -/
theorem actions_run (ctx : Context) (j : Judgement) (location : Span) :
    (∃ timeout, ∀ cfg : Config, timeout ≤ cfg.timeout → ∀ a ∈ actions cfg ctx j location,
      a.command ≠ .auto → ∃ res, a.command.invoke cfg ctx j a.binding = .ok res) ∧
    (∀ cfg res, Command.intros.invoke cfg ctx j none = .ok res →
      ⟨.intros,none,location⟩ ∈ actions cfg ctx j location) ∧
    (∀ cfg res c, c = .destruct ∨ c = .homomorphism → ∀ e ∈ j.locals,
      Command.invoke c cfg ctx j (some e.name) = .ok res →
        ⟨c,some e.name,location⟩ ∈ actions cfg ctx j location) ∧
    (∀ cfg res c, c = .destructLambdaCase ∨ c = .homomorphismLambdaCase →
      cfg.extensions.has .lambdaCase = true → Command.invoke c cfg ctx j none = .ok res →
        ⟨c,none,location⟩ ∈ actions cfg ctx j location) ∧
    ∀ cfg, ((actions cfg ctx j location).map fun a => (a.command,a.binding)).Nodup ∧
      (actions cfg ctx j location).Pairwise Action.Before := by
  refine ⟨?_,fun cfg res h => ?_,fun cfg res c hc e he h => ?_,fun cfg res c hc hx h => ?_,
    fun cfg => ⟨?_,actions_ordered cfg ctx j location⟩⟩
  · obtain ⟨n,hn⟩ := exists_forall_of_list (Command.candidates j)
      (P := fun (c,b) m => c ≠ .auto → c.Applies ctx.types j b → ∀ cfg : Config, cfg.timeout = m →
        ∃ res, c.invoke cfg ctx j b = .ok res) fun (c,b) _ => by
      by_cases happlies : c ≠ .auto ∧ c.Applies ctx.types j b
      · obtain ⟨n,hn⟩ := Command.invoke_of_applies happlies.1 happlies.2
        exact ⟨n,fun m hm _ _ cfg hcfg => hn cfg (hcfg ▸ hm)⟩
      · exact ⟨0,fun _ _ hc hb => absurd ⟨hc,hb⟩ happlies⟩
    refine ⟨n,fun cfg hcfg a ha hauto => ?_⟩
    obtain ⟨htarget,-⟩ := mem_actions.1 ha
    exact hn cfg.timeout hcfg _ (Command.mem_candidates htarget) hauto
      (Command.applies_of_target hauto htarget) cfg rfl
  · exact mem_actions.2 ⟨Command.target_of_intros (Command.applies_of_invoke (by decide) h),rfl⟩
  · have hne : c ≠ .auto := by rcases hc with rfl | rfl <;> decide
    exact mem_actions.2 ⟨Command.target_of_local he hc (Command.applies_of_invoke hne h),rfl⟩
  · have hne : c ≠ .auto := by rcases hc with rfl | rfl <;> decide
    exact mem_actions.2 ⟨Command.target_of_lambdaCase hx hc (Command.applies_of_invoke hne h),rfl⟩
  · refine List.pairwise_map.2 ((actions_ordered cfg ctx j location).imp fun h he => ?_)
    obtain ⟨hc,hb⟩ := Prod.mk.inj he
    rcases h with h | ⟨-,x,y,hx,hy,hlt⟩
    · rw [hc] at h
      exact Nat.lt_irrefl _ h
    · rw [hx,hy] at hb
      cases hb
      exact String.lt_irrefl _ hlt

def Judgement.natFunction : Judgement where
  goal := .arrow (.const "N") (.const "N")
  hypothesis := .ofList [⟨"x",.const "N",.user⟩]

theorem actions_run_nat :
    (∃ timeout, ∀ later, timeout ≤ later → Command.destruct.invoke { extensions := .none, timeout := later }
        ⟨[],.empty,.nat⟩ .natFunction (some "x") =
          .ok ⟨.case (.var "x") [⟨"Z",[],.hole 1⟩,⟨"S",["n"],.hole 2⟩],[]⟩) ∧
      Command.intros.invoke { extensions := .none } ⟨[],.empty,.nat⟩ .natFunction none =
        .ok ⟨.lam ["n"] (.hole 1),[]⟩ ∧
      ⟨.intros,none,⟨0,0,1⟩⟩ ∈ actions { extensions := .none } ⟨[],.empty,.nat⟩ .natFunction ⟨0,0,1⟩ ∧
      ⟨.destruct,some "x",⟨0,0,1⟩⟩ ∈
        actions { extensions := .none } ⟨[],.empty,.nat⟩ .natFunction ⟨0,0,1⟩ ∧
      Command.destructLambdaCase.invoke { extensions := .enable .none .lambdaCase } ⟨[],.empty,.nat⟩ .natFunction
        none = .ok ⟨.lamCase [⟨"Z",[],.hole 1⟩,⟨"S",["n"],.hole 2⟩],[]⟩ ∧
      ⟨.destructLambdaCase,none,⟨0,0,1⟩⟩ ∈
        actions { extensions := .enable .none .lambdaCase } ⟨[],.empty,.nat⟩ .natFunction ⟨0,0,1⟩ ∧
      (actions { extensions := .enable .none .lambdaCase } ⟨[],.empty,.nat⟩ .natFunction ⟨0,0,1⟩).map
          (fun a => (a.command,a.binding)) =
        [(.auto,none),(.intros,none),(.destruct,some "x"),(.destructLambdaCase,none),
          (.homomorphismLambdaCase,none)] ∧
      (actions { extensions := .enable .none .lambdaCase } ⟨[],.empty,.nat⟩ .natFunction ⟨0,0,1⟩).Pairwise
        Action.Before := by
  obtain ⟨⟨timeout,hrun⟩,hintros,hlocal,hlambda,hordered⟩ := actions_run ⟨[],.empty,.nat⟩ .natFunction ⟨0,0,1⟩
  have htarget : some "x" ∈ Command.destruct.targets .none .nat .natFunction := by decide
  have hintroduced : Command.intros.invoke { extensions := .none } ⟨[],.empty,.nat⟩ .natFunction none =
      .ok ⟨.lam ["n"] (.hole 1),[]⟩ := Command.invoke_of_search_singleton rfl rfl
  have hcases : Command.destructLambdaCase.invoke { extensions := .enable .none .lambdaCase } ⟨[],.empty,.nat⟩
      .natFunction none = .ok ⟨.lamCase [⟨"Z",[],.hole 1⟩,⟨"S",["n"],.hole 2⟩],[]⟩ :=
    Command.invoke_of_search_singleton rfl rfl
  have hsplit : Command.destruct.invoke { extensions := .none, timeout := 1 } ⟨[],.empty,.nat⟩ .natFunction
      (some "x") = .ok ⟨.case (.var "x") [⟨"Z",[],.hole 1⟩,⟨"S",["n"],.hole 2⟩],[]⟩ :=
    Command.invoke_of_search_singleton rfl rfl
  refine ⟨⟨max 1 timeout,fun later hlater => ?_⟩,hintroduced,hintros _ _ hintroduced,?_,hcases,
    hlambda _ _ _ (.inl rfl) rfl hcases,by decide,(hordered _).2⟩
  · obtain ⟨hone,htimeout⟩ := Nat.max_le.1 hlater
    obtain ⟨res,hres⟩ := hrun { extensions := .none, timeout := later } htimeout ⟨.destruct,some "x",⟨0,0,1⟩⟩
      (mem_actions.2 ⟨htarget,rfl⟩) nofun
    -- a later deadline keeps the answer of the first millisecond
    have hsame : Command.destruct.invoke { extensions := .none, timeout := later } ⟨[],.empty,.nat⟩ .natFunction
        (some "x") = _ := Command.invoke_of_timeout_le hone fun h => by cases hsplit.symm.trans h
    cases hres.symm.trans (hsame.trans hsplit)
    exact hres
  · exact hlocal _ _ .destruct (.inl rfl) ⟨"x",.const "N",.user⟩ (by decide) hsplit

end TypedHole
