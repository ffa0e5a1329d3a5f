import TypedHole.Proofs.HomomorphismShape
import TypedHole.Proofs.SplitDiscipline

/-! The goals of a case split.
A rule that leaves all its subgoals open is done after one step, with just these subgoals (`search_of_open`), and a
rule that refuses a goal is the answer (`Refuses.of_rule`). Main statement: a case split on an entry of an algebraic
type has one goal for each constructor, where the fields of that constructor are known and nothing else has changed
(`destruct_goals`). -/
namespace TypedHole

variable {ι : Type} {procs : ι → Tactic ι} {ctx : Context} {j : Judgement}

/-- The open goal in the branch for a constructor, which binds the fields under the given names. -/
structure Judgement.Branches (j : Judgement) (x : Name) (c : Constructor) (binders : List Name) (k : Judgement) :
    Prop where
  arity : binders.length = c.fields.length
  distinct : binders.Nodup
  fresh : ∀ y ∈ binders, y ∉ j.hypothesis.names
  goal : k.goal = j.goal
  nested : k.isTop = false
  destructed : ∀ y, k.isDestructed y = true ↔ y = x ∨ j.isDestructed y = true
  entries : k.hypothesis.entries.Perm
    (j.hypothesis.entries ++ (binders.zip c.fields).mapIdx fun i (y,t) => ⟨y,t,.field (some x) c.name i⟩)

namespace Tactic

theorem branches_branch (j : Judgement) (x : Name) (c : Constructor) :
    j.Branches x c (branch j (some x) j.goal c).binders (branch j (some x) j.goal c).judgement where
  arity := length_binders ..
  distinct := nodup_binders ..
  fresh := fun _ hy => not_mem_names_of_binder hy
  goal := branch_goal ..
  nested := branch_isTop ..
  destructed := fun _ => Judgement.isDestructed_withDestructed ..
  entries := perm_branch ..

theorem joinAlts_openBranch (cs : List Constructor) (b : Constructor → Branch) (next : Nat) :
    (joinAlts (ι := ι) next (cs.map fun c => ⟨c.name,(b c).binders,openBranch (b c)⟩)).1 =
      cs.mapIdx fun i c => ⟨c.name,(b c).binders,.hole (next + i)⟩ := by
  induction cs generalizing next with
  | nil => rfl
  | cons c cs ih =>
    rw [List.map_cons,List.mapIdx_cons,joinAlts]
    refine congrArg₂ List.cons rfl ((ih (next + 1)).trans ?_)
    simp only [Nat.add_assoc,Nat.add_comm 1]

theorem bindAlts_mapIdx (fill : Nat → Term) (f : Nat → Constructor → Alt Term) (cs : List Constructor) :
    Term.bindAlts fill (cs.mapIdx f) = cs.mapIdx fun i c => { f i c with body := (f i c).body.bind fill } := by
  induction cs generalizing f with
  | nil => rfl
  | cons c cs ih =>
    rw [List.mapIdx_cons,List.mapIdx_cons,Term.bindAlts,ih]

end Tactic

theorem Draft.choose_of_open {r : Refinement (Tactic ι)} (hs : ∀ s ∈ r.subgoals, s.tactic = none) (d : Draft ι)
    (g : Goal ι) (next : Nat) :
    d.choose g ⟨some r,[]⟩ next =
      ⟨d.agenda,(g.hole,r.extract.shift next) :: d.fills,d.unsolved ++ r.subgoals.map (·.judgement)⟩ := by
  have hopen : r.subgoals.mapIdx (fun i s => schedule (next + i) s [] (g.depth + 1)) =
      r.subgoals.map fun s => .inr s.judgement := by
    refine List.ext_getElem (by simp) fun i hi hi' => ?_
    simp [schedule,hs _ (List.getElem_mem (by simpa using hi))]
  simp only [choose,hopen,enter,List.filterMap_map,Function.comp_def]
  simp

section

variable {name : String} {refine : Context → Judgement → Except TacticError (List (Refinement (Tactic ι)))}

theorem search_of_open {r : Refinement (Tactic ι)} (hr : refine ctx j = .ok [r])
    (hs : ∀ s ∈ r.subgoals, s.tactic = none) {cfg : Config} (ht : 1 ≤ cfg.timeout) :
    search procs cfg ctx j (.rule name refine) = .ok [⟨r.extract.shift 1,r.subgoals.map (·.judgement)⟩] := by
  have hl : 1 ≤ max 1 cfg.maxSolutions := Nat.le_max_left ..
  obtain ⟨left,hleft⟩ : ∃ left, cfg.timeout * stepsPerMillisecond = left + 2 := by
    rw [stepsPerMillisecond]
    exact ⟨cfg.timeout * 1000 - 2,by omega⟩
  have hexpansion : (Goal.root j (.rule name refine)).expansion procs ctx 1 = ⟨.ok [⟨some r,[]⟩],false⟩ := by
    simp [Goal.expansion,Goal.root,Tactic.expand,hr,Except.map]
  have hfirst := Frontier.advance_of_ok (f := Frontier.start j (.rule name refine)) rfl rfl hexpansion
  simp only [Draft.chooseAll,Draft.choose_of_open hs,List.append_nil,List.nil_append] at hfirst
  have hexplore : ∃ f', (Frontier.start j (.rule name refine)).explore procs ctx 1 (max 1 cfg.maxSolutions)
      (left + 1 + 1) = some (left,f') ∧ f'.found = [⟨r.extract.shift 1,r.subgoals.map (·.judgement)⟩] := by
    rw [Frontier.explore_of_advance (Frontier.start_drafts_ne_nil j _) hl hfirst rfl]
    apply Frontier.explore_done (d := ⟨[],[(0,r.extract.shift 1)],r.subgoals.map (·.judgement)⟩) left <;> rfl
  obtain ⟨f',he,hfound⟩ := hexplore
  rw [search,hleft,deepen_of_found he (by simp [hfound]),hfound]
  rfl

/-- A search that is refused at its first step, unless the time is up by then. -/
structure Refuses (procs : ι → Tactic ι) (ctx : Context) (j : Judgement) (t : Tactic ι) (err : TacticError) :
    Prop where
  answer : ∀ cfg, search procs cfg ctx j t = .error (if cfg.timeout = 0 then .timeout 0 else err)
  watched : ∀ cfg (deadline : Deadline) r, Searched procs ctx cfg j t deadline r ↔
    deadline 0 ∧ r = .error (.timeout cfg.timeout) ∨ ¬ deadline 0 ∧ r = .error err

theorem Refuses.of_rule {err : TacticError} (hr : refine ctx j = .error err) :
    Refuses procs ctx j (.rule name refine) err := by
  have hexpansion : (Goal.root j (.rule name refine)).expansion procs ctx 1 = ⟨.error err,false⟩ := by
    simp [Goal.expansion,Goal.root,Tactic.expand,hr,Except.map]
  have hfirst := Frontier.advance_of_error (f := Frontier.start j (.rule name refine)) rfl rfl hexpansion
  have hstart := Frontier.start_drafts_ne_nil j (.rule name refine)
  have hlate (cfg : Config) (deadline : Deadline) (up : deadline 0) :
      Searched procs ctx cfg j (.rule name refine) deadline (.error (.timeout cfg.timeout)) :=
    ⟨none,.late (.late hstart up),rfl⟩
  have hearly (cfg : Config) (deadline : Deadline) (early : ¬ deadline 0) :
      Searched procs ctx cfg j (.rule name refine) deadline (.error err) := by
    refine ⟨some (.error err),.answer (.more hstart early ?_ (.exhausted ?_)) ?_,rfl⟩
    · rw [hfirst]
      exact Nat.le_max_left ..
    · rw [hfirst]
    · rw [hfirst]
      rfl
  have hwatched (cfg : Config) (deadline : Deadline) (r : SearchResult) :
      Searched procs ctx cfg j (.rule name refine) deadline r ↔
        deadline 0 ∧ r = .error (.timeout cfg.timeout) ∨ ¬ deadline 0 ∧ r = .error err := by
    constructor
    · intro h
      by_cases up : deadline 0
      · exact .inl ⟨up,h.unique (hlate cfg deadline up)⟩
      · exact .inr ⟨up,h.unique (hearly cfg deadline up)⟩
    · rintro (⟨up,rfl⟩ | ⟨early,rfl⟩)
      · exact hlate cfg deadline up
      · exact hearly cfg deadline early
  refine ⟨fun cfg => ?_,hwatched⟩
  have hbudget : Deadline.ofBudget (cfg.timeout * stepsPerMillisecond) 0 ↔ cfg.timeout = 0 := by
    rw [Deadline.ofBudget,stepsPerMillisecond]
    omega
  rcases (hwatched cfg _ _).1 searched_search with ⟨up,h⟩ | ⟨early,h⟩
  · rw [h,if_pos (hbudget.1 up),hbudget.1 up]
  · rw [h,if_neg (mt hbudget.2 early)]

end

theorem findsOne_of_openBranch (procs : ι → Tactic ι) {name : String}
    {refine : Context → Judgement → Except TacticError (List (Refinement (Tactic ι)))}
    {wrap : List (Alt Term) → Term} (hw : ∀ f as, (wrap as).bind f = wrap (Term.bindAlts f as))
    {scrutinee : Option Name} {goal : Ty} {cs : List Constructor}
    (hr : refine ctx j = .ok [Tactic.splitOn wrap j scrutinee goal cs Tactic.openBranch]) :
    FindsOne procs ctx j (.rule name refine) fun d => d =
      ⟨wrap (cs.mapIdx fun i c => ⟨c.name,(Tactic.branch j scrutinee goal c).binders,.hole (i + 1)⟩),
        cs.map fun c => (Tactic.branch j scrutinee goal c).judgement⟩ := by
  have hgoals : (Tactic.splitOn (ι := ι) wrap j scrutinee goal cs Tactic.openBranch).subgoals =
      cs.map fun c => ⟨(Tactic.branch j scrutinee goal c).judgement,none⟩ := by
    rw [Tactic.subgoals_splitOn]
    exact List.map_eq_flatMap.symm
  have hopen : ∀ s ∈ (Tactic.splitOn (ι := ι) wrap j scrutinee goal cs Tactic.openBranch).subgoals,
      s.tactic = none := by
    rw [hgoals]
    simp
  have hterm : (Tactic.splitOn (ι := ι) wrap j scrutinee goal cs Tactic.openBranch).extract.shift 1 =
      wrap (cs.mapIdx fun i c => ⟨c.name,(Tactic.branch j scrutinee goal c).binders,.hole (i + 1)⟩) := by
    simp only [Tactic.splitOn,Tactic.joinAlts_openBranch,Term.shift,hw,Tactic.bindAlts_mapIdx,Term.bind,Nat.zero_add,
      Nat.add_comm 1]
  refine .of_search (n := 1) fun cfg ht => ⟨_,rfl,?_⟩
  rw [search_of_open hr hopen ht,hterm,hgoals,List.map_map]
  rfl

theorem findsOne_destruct (procs : ι → Tactic ι) {x : Name} {e : Entry} (he : j.hypothesis.find? x = some e)
    {cs : List Constructor} (hcs : ctx.types.constructors? e.ty = some cs) :
    FindsOne procs ctx j (Tactic.destruct x) fun d => d = ⟨.case (.var x) (cs.mapIdx fun i c =>
        ⟨c.name,(Tactic.branch j (some x) j.goal c).binders,.hole (i + 1)⟩),
      cs.map fun c => (Tactic.branch j (some x) j.goal c).judgement⟩ := by
  refine findsOne_of_openBranch procs (fun _ _ => rfl) ?_
  simp [Tactic.lookup_of_find? he,Tactic.constructorsFor,hcs,bind,Except.bind,pure,Except.pure]

theorem findsOne_destructLambdaCase (procs : ι → Tactic ι) {dom cod : Ty} (hg : j.goal = .arrow dom cod)
    {cs : List Constructor} (hcs : ctx.types.constructors? dom = some cs) :
    FindsOne procs ctx j Tactic.destructLambdaCase fun d => d = ⟨.lamCase (cs.mapIdx fun i c =>
        ⟨c.name,(Tactic.branch j none cod c).binders,.hole (i + 1)⟩),
      cs.map fun c => (Tactic.branch j none cod c).judgement⟩ := by
  refine findsOne_of_openBranch procs (fun _ _ => rfl) ?_
  simp [Tactic.functionGoal_of_arrow hg,Tactic.constructorsFor,hcs,bind,Except.bind,pure,Except.pure]

/-- A case split on an entry of an algebraic type has one derivation. It has an alternative for each constructor of
the data type, in the order of declaration, and in the same order it leaves the goals of these branches. Without an
entry of such a type it is refused. -/
theorem destruct_goals (procs : ι → Tactic ι) (ctx : Context) (j : Judgement) (x : Name) :
    (∀ e head args d, j.hypothesis.find? x = some e → e.ty.unapply? = some (head,args) →
      ctx.types.datatype? head = some d → d.params.length = args.length →
      FindsOne procs ctx j (Tactic.destruct x) fun y => ∃ (binders : Constructor → List Name)
        (goals : Constructor → Judgement),
        let cs := d.ctors.map fun c => ⟨c.name,c.fields.map (·.subst (d.params.zip args))⟩
        y.term = .case (.var x) (cs.mapIdx fun i c => ⟨c.name,binders c,.hole (i + 1)⟩) ∧
          y.unsolved = cs.map goals ∧ ∀ c ∈ cs, j.Branches x c (binders c) (goals c)) ∧
    (j.hypothesis.find? x = none → Refuses procs ctx j (Tactic.destruct x) (.notInScope x)) ∧
    ∀ e, j.hypothesis.find? x = some e → ctx.types.isAlgebraic e.ty = false →
      Refuses procs ctx j (Tactic.destruct x) (.noApplicableRule "destruct" j.goal) := by
  refine ⟨fun e head args d he hu hd hlen => ?_,fun hnone => .of_rule ?_,fun e he ha => .of_rule ?_⟩
  · have hcs : ctx.types.constructors? e.ty =
        some (d.ctors.map fun c => ⟨c.name,c.fields.map (·.subst (d.params.zip args))⟩) := by
      simp [TypeTable.constructors?,hu,hd,hlen]
    refine (findsOne_destruct procs he hcs).imp fun y hy => ?_
    subst hy
    exact ⟨_,_,rfl,rfl,fun c _ => Tactic.branches_branch j x c⟩
  · simp [Tactic.lookup,hnone,bind,Except.bind]
  · have hnone : ctx.types.constructors? e.ty = none := by simpa [TypeTable.isAlgebraic] using ha
    simp [Tactic.lookup_of_find? he,Tactic.constructorsFor,hnone,bind,Except.bind,Tactic.refusal]

def TypeTable.list : TypeTable where
  datatypes := [⟨"L",["a"],[⟨"Nil",[]⟩,⟨"Cons",[.var "a",.app (.const "L") (.var "a")]⟩]⟩]

def Judgement.ofList : Judgement where
  goal := .const "A"
  hypothesis := .ofList [⟨"a",.const "A",.user⟩,⟨"l",.app (.const "L") (.const "A"),.user⟩]

/-- A list is split, with new names for its parts, but neither an element nor what is not there. -/
theorem destruct_goals_list :
    (∃ y, ∃ (binders : Constructor → List Name) (goals : Constructor → Judgement),
      search (Tactic.bodies Empty.elim) { extensions := .none } ⟨[],.empty,.list⟩ .ofList (Tactic.destruct "l") =
        .ok [y] ∧
      y.term = .case (.var "l") [⟨"Nil",binders ⟨"Nil",[]⟩,.hole 1⟩,
        ⟨"Cons",binders ⟨"Cons",[.const "A",.app (.const "L") (.const "A")]⟩,.hole 2⟩] ∧
      y.term = .case (.var "l") [⟨"Nil",[],.hole 1⟩,⟨"Cons",["a1","l1"],.hole 2⟩] ∧
      y.unsolved = [⟨"Nil",[]⟩,⟨"Cons",[.const "A",.app (.const "L") (.const "A")]⟩].map goals ∧
      ∀ c ∈ [⟨"Nil",[]⟩,⟨"Cons",[.const "A",.app (.const "L") (.const "A")]⟩],
        Judgement.ofList.Branches "l" c (binders c) (goals c)) ∧
    search (Tactic.bodies Empty.elim) { extensions := .none } ⟨[],.empty,.list⟩ .ofList (Tactic.destruct "k") =
      .error (.notInScope "k") ∧
    search (Tactic.bodies Empty.elim) { extensions := .none } ⟨[],.empty,.list⟩ .ofList (Tactic.destruct "a") =
      .error (.noApplicableRule "destruct" (.const "A")) := by
  obtain ⟨hsplit,-,-⟩ := destruct_goals (Tactic.bodies Empty.elim) ⟨[],.empty,.list⟩ .ofList "l"
  obtain ⟨-,habsent,-⟩ := destruct_goals (Tactic.bodies Empty.elim) ⟨[],.empty,.list⟩ .ofList "k"
  obtain ⟨-,-,hrefused⟩ := destruct_goals (Tactic.bodies Empty.elim) ⟨[],.empty,.list⟩ .ofList "a"
  refine ⟨?_,(habsent (by decide)).answer _,(hrefused ⟨"a",.const "A",.user⟩ (by decide) rfl).answer _⟩
  have hfinds := hsplit ⟨"l",.app (.const "L") (.const "A"),.user⟩ "L" [.const "A"] _ (by decide) rfl rfl rfl
  obtain ⟨y,hy,hterm⟩ : ∃ y, search (Tactic.bodies Empty.elim) { extensions := .none } ⟨[],.empty,.list⟩ .ofList
      (Tactic.destruct "l") = .ok [y] ∧
      y.term = .case (.var "l") [⟨"Nil",[],.hole 1⟩,⟨"Cons",["a1","l1"],.hole 2⟩] := ⟨_,rfl,rfl⟩
  obtain ⟨d,⟨binders,goals,hshape,hopen,hbranches⟩,hd⟩ := hfinds.of_ok hy
  cases hd
  exact ⟨y,binders,goals,hy,hshape,hterm,hopen,hbranches⟩

end TypedHole
