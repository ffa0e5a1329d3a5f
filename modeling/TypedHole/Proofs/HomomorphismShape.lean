import TypedHole.Proofs.Applicability
import TypedHole.Proofs.Homomorphism

/-! What homomorphic splits are made of.
Each alternative takes one constructor apart and applies it again, to its fields or to calls of the definition being
written that take a field. Main statement: a homomorphic split is found alone and leaves nothing open
(`homomorphism_shape`). -/
namespace TypedHole

variable {ι : Type}

/-- A call of the definition being written. At one position it takes a field, and at every other position the
argument that the definition itself has there. -/
def Judgement.CallsOn (j : Judgement) (field : Name) (t : Term) : Prop :=
  ∃ r args position, j.hypothesis.findProvenance? (· == .recursive) = some r ∧
    t = (Term.var r.name).apply args ∧ args.length = r.ty.domains.length ∧
    args[position]? = some (.var field) ∧
    ∀ k u, k ≠ position → args[k]? = some u → ∃ e,
      j.hypothesis.findProvenance? (· == .argument r.name k) = some e ∧ r.ty.domains[k]? = some e.ty ∧
        u = .var e.name ∧ e.name ≠ field

/-- The alternative of a homomorphic split for a constructor. Fields have names of their own, and only where a
field has the type of the goal may a call stand for it. -/
structure Judgement.Homomorphic (j : Judgement) (goal : Ty) (c : Constructor) (alt : Alt Term) : Prop where
  ctor : alt.ctor = c.name
  arity : alt.binders.length = c.fields.length
  distinct : alt.binders.Nodup
  fresh : ∀ x ∈ alt.binders, x ∉ j.hypothesis.names
  body : ∃ ts, alt.body = (Term.var c.name).apply ts ∧
    List.Forall₂ (fun p t => t = .var p.1 ∨ p.2 = goal ∧ j.CallsOn p.1 t) (alt.binders.zip c.fields) ts

namespace Tactic

variable {j : Judgement} {scrutinee : Option Name} {goal : Ty} {c : Constructor}

theorem not_mem_names_of_binder {x : Name} (hx : x ∈ (branch j scrutinee goal c).binders) :
    x ∉ j.hypothesis.names := by
  intro hin
  obtain ⟨e,he,rfl⟩ := List.mem_map.1 hin
  exact not_mem_binders he hx

theorem callsOn_of_recursiveCall {x : Name} (hx : x ∈ (branch j scrutinee goal c).binders) {ty : Ty} {t : Term}
    (h : recursiveCall? (branch j scrutinee goal c).judgement scrutinee x ty = some t) : j.CallsOn x t := by
  obtain ⟨r,position,args,rfl,hcall⟩ := recursiveCall?_eq_some h
  refine ⟨r,args,position,findProvenance?_outside (by simp) hcall.entry,rfl,hcall.length,hcall.taken,
    fun k u hk hu => ?_⟩
  obtain ⟨e,he,hdomain,rfl⟩ := hcall.passed k u hk hu
  obtain ⟨hmem,-⟩ := findProvenance?_branch (by simp) he
  exact ⟨e,findProvenance?_outside (by simp) he,hdomain,rfl,fun hname => not_mem_binders hmem (hname ▸ hx)⟩

theorem Rebuilds.homomorphic {alt : Alt Term} (h : Rebuilds j scrutinee goal c alt) :
    j.Homomorphic goal c alt := by
  obtain ⟨hctor,hbinders,ts,hbody,hts⟩ := h
  refine ⟨hctor,hbinders ▸ length_binders ..,hbinders ▸ nodup_binders ..,
    fun x hx => not_mem_names_of_binder (hbinders ▸ hx),ts,hbody,?_⟩
  rw [hbinders]
  have hmem : ∀ p ∈ (branch j scrutinee goal c).binders.zip c.fields,
      p.1 ∈ (branch j scrutinee goal c).binders := fun p hp => (List.of_mem_zip hp).1
  refine ((List.forall₂_and_left _ _).2 ⟨hmem,hts⟩).imp ?_
  rintro p t ⟨hp,hfield | ⟨hgoal,hcall⟩⟩
  · exact .inl hfield
  · exact .inr ⟨hgoal.trans (branch_goal ..),callsOn_of_recursiveCall hp hcall⟩

end Tactic

/-- A search with one derivation to find. Without it the time is up, and with enough time there it is. -/
structure FindsOne (procs : ι → Tactic ι) (ctx : Context) (j : Judgement) (t : Tactic ι)
    (P : Derivation → Prop) : Prop where
  answer : ∀ cfg, search procs cfg ctx j t = .error (.timeout cfg.timeout) ∨
    ∃ d, P d ∧ search procs cfg ctx j t = .ok [d]
  watched : ∀ cfg deadline r, Searched procs ctx cfg j t deadline r → r = .error (.timeout cfg.timeout) ∨
    ∃ d, P d ∧ r = .ok [d]
  enough : ∃ steps,
    (∀ cfg : Config, steps ≤ cfg.timeout * stepsPerMillisecond → ∃ d, P d ∧ search procs cfg ctx j t = .ok [d]) ∧
    ∀ cfg (deadline : Deadline), deadline.Early steps → ∃ d, P d ∧ Searched procs ctx cfg j t deadline (.ok [d])

section

variable {procs : ι → Tactic ι} {ctx : Context} {j : Judgement} {P : Derivation → Prop}

theorem FindsOne.of_answersIn {t : Tactic ι} {steps : Nat}
    (h : AnswersIn procs ctx j t (fun ds => ∃ d, ds = [d] ∧ P d) steps) : FindsOne procs ctx j t P := by
  have hwatched (cfg : Config) (deadline : Deadline) (r : SearchResult)
      (hr : Searched procs ctx cfg j t deadline r) :
      r = .error (.timeout cfg.timeout) ∨ ∃ d, P d ∧ r = .ok [d] := by
    refine (h.searched hr).imp_right ?_
    rintro ⟨-,⟨d,rfl,hd⟩,hr⟩
    exact ⟨d,hd,hr⟩
  refine ⟨fun cfg => hwatched cfg _ _ searched_search,hwatched,steps,fun cfg hs => ?_,fun cfg deadline early => ?_⟩
  · obtain ⟨-,⟨d,rfl,hd⟩,hsearch⟩ := h.search hs
    exact ⟨d,hd,hsearch⟩
  · obtain ⟨-,⟨d,rfl,hd⟩,hsearched⟩ := h cfg deadline early
    exact ⟨d,hd,hsearched⟩

/-- It is enough to know what is found within a large enough budget. -/
theorem FindsOne.of_search {t : Tactic ι} {n : Nat}
    (h : ∀ cfg : Config, n ≤ cfg.timeout → ∃ d, P d ∧ search procs cfg ctx j t = .ok [d]) :
    FindsOne procs ctx j t P := by
  refine .of_answersIn (.of_search (n := n) fun cfg ht => ?_)
  obtain ⟨d,hd,hsearch⟩ := h cfg ht
  exact ⟨[d],⟨d,rfl,hd⟩,hsearch⟩

theorem FindsOne.imp {t : Tactic ι} {Q : Derivation → Prop} (h : FindsOne procs ctx j t P)
    (himp : ∀ d, P d → Q d) : FindsOne procs ctx j t Q := by
  have hone {p : Derivation → Prop} : (∃ d, P d ∧ p d) → ∃ d, Q d ∧ p d :=
    fun ⟨d,hd,hp⟩ => ⟨d,himp d hd,hp⟩
  obtain ⟨steps,hsearch,hsearched⟩ := h.enough
  exact ⟨fun cfg => (h.answer cfg).imp_right hone,fun cfg deadline r hr => (h.watched cfg deadline r hr).imp_right hone,
    steps,fun cfg hs => hone (hsearch cfg hs),fun cfg deadline early => hone (hsearched cfg deadline early)⟩

theorem FindsOne.of_ok {t : Tactic ι} (h : FindsOne procs ctx j t P) {cfg : Config} {ds : List Derivation}
    (hds : search procs cfg ctx j t = .ok ds) : ∃ d, P d ∧ ds = [d] := by
  rcases h.answer cfg with hlate | ⟨d,hd,hsearch⟩
  · cases hds.symm.trans hlate
  · cases hds.symm.trans hsearch
    exact ⟨d,hd,rfl⟩

variable {name : String} {refine : Context → Judgement → Except TacticError (List (Refinement (Tactic ι)))}
  {wrap : List (Alt Term) → Term} {scrutinee : Option Name} {goal : Ty} {cs : List Constructor}

theorem rebuilt_of_search (hw : ∀ f as, (wrap as).bind f = wrap (Term.bindAlts f as))
    (hh : ∀ as, (wrap as).holes = Term.holesAlts as)
    (hr : refine ctx j = .ok [Tactic.splitOn wrap j scrutinee goal cs (Tactic.rebuild scrutinee)])
    {cfg : Config} {ds : List Derivation} (h : search procs cfg ctx j (.rule name refine) = .ok ds)
    {d : Derivation} (hd : d ∈ ds) : d = ⟨wrap (cs.map (Tactic.rebuiltAlt j scrutinee goal)),[]⟩ := by
  obtain ⟨bound,budget,left,f,he,rfl⟩ := found_of_search h
  obtain ⟨p,hp,hrenders⟩ := grows_of_explore he hd
  cases hp with
  | @node _ as a _ qs _ outcome mem parts _ =>
    obtain ⟨rs,hrs,r,hmem,rfl⟩ := Tactic.Yields.of_rule ⟨_,_,as,outcome,mem⟩
    cases hr.symm.trans hrs
    cases List.mem_singleton.1 hmem
    exact parts.rebuilt_of_renders wrap hw hh rfl hrenders

theorem findsOne_rebuilt (procs : ι → Tactic ι) (name : String) (scrutinee : Option Name)
    (hw : ∀ f as, (wrap as).bind f = wrap (Term.bindAlts f as)) (hh : ∀ as, (wrap as).holes = Term.holesAlts as)
    (hr : refine ctx j = .ok [Tactic.splitOn wrap j scrutinee goal cs (Tactic.rebuild scrutinee)]) :
    FindsOne procs ctx j (.rule name refine) fun d =>
      d = ⟨wrap (cs.map (Tactic.rebuiltAlt j scrutinee goal)),[]⟩ := by
  have hsettled : ∀ s ∈ (Tactic.splitOn (ι := ι) wrap j scrutinee goal cs (Tactic.rebuild scrutinee)).subgoals,
      s.Settled := Tactic.settled_splitOn fun c => Tactic.settled_rebuild j _ _ c
  obtain ⟨n,hn⟩ : ∃ n, ∀ cfg : Config, n ≤ cfg.timeout →
      ∃ d, search procs cfg ctx j (.rule name refine) = .ok [d] :=
    ⟨_,fun _ ht => search_of_rule procs name hr hsettled ht⟩
  refine .of_search (n := n) fun cfg ht => ?_
  obtain ⟨d,hd⟩ := hn cfg ht
  exact ⟨d,rebuilt_of_search hw hh hr hd (List.mem_singleton_self d),hd⟩

theorem findsOne_of_rebuild (procs : ι → Tactic ι) (name : String) (scrutinee : Option Name)
    (hw : ∀ f as, (wrap as).bind f = wrap (Term.bindAlts f as)) (hh : ∀ as, (wrap as).holes = Term.holesAlts as)
    (hr : refine ctx j = .ok [Tactic.splitOn wrap j scrutinee goal cs (Tactic.rebuild scrutinee)]) :
    FindsOne procs ctx j (.rule name refine) fun d =>
      d.unsolved = [] ∧ ∃ alts, d.term = wrap alts ∧ List.Forall₂ (j.Homomorphic goal) cs alts := by
  refine (findsOne_rebuilt procs name scrutinee hw hh hr).imp fun d hd => ?_
  rw [hd]
  exact ⟨rfl,_,rfl,List.forall₂_map_right_iff.2 (List.forall₂_same.2 fun c _ =>
    (Tactic.rebuilds_rebuiltAlt j scrutinee goal c).homomorphic)⟩

end

/-- A homomorphism at any hole finds one derivation, unless it runs out of time, on any entry that has the type of
the goal and can be split, and one without a name does so for any function on one such type. Nothing is left open.
The constructors come in the order of their declaration, each taken apart and put together again. -/
theorem homomorphism_shape (procs : ι → Tactic ι) (ctx : Context) (j : Judgement) :
    (∀ x e cs, j.hypothesis.find? x = some e → e.ty = j.goal → ctx.types.constructors? j.goal = some cs →
      FindsOne procs ctx j (Tactic.homomorphism x) fun d => d.unsolved = [] ∧
        ∃ alts, d.term = .case (.var x) alts ∧ List.Forall₂ (j.Homomorphic j.goal) cs alts) ∧
    ∀ t cs, j.goal = .arrow t t → ctx.types.constructors? t = some cs →
      FindsOne procs ctx j Tactic.homomorphismLambdaCase fun d => d.unsolved = [] ∧
        ∃ alts, d.term = .lamCase alts ∧ List.Forall₂ (j.Homomorphic t) cs alts := by
  refine ⟨fun x e cs he ht hcs => ?_,fun t cs hg hcs => ?_⟩
  · refine findsOne_of_rebuild procs "homomorphism" (some x) (fun _ _ => rfl) (fun _ => rfl) ?_
    simp [Tactic.lookup_of_find? he,ht,Tactic.constructorsFor,hcs,bind,Except.bind,pure,Except.pure]
  · refine findsOne_of_rebuild procs "homomorphism_lambda_case" none (fun _ _ => rfl) (fun _ => rfl) ?_
    simp [Tactic.functionGoal_of_arrow hg,Tactic.constructorsFor,hcs,bind,Except.bind,pure,Except.pure]

def Judgement.sum : Judgement where
  goal := .const "N"
  hypothesis := .ofList [⟨"add",.arrow (.const "N") (.arrow (.const "N") (.const "N")),.recursive⟩,
    ⟨"x",.const "N",.argument "add" 0⟩,⟨"y",.const "N",.argument "add" 1⟩]

theorem homomorphism_shape_nat :
    (∃ alts, alts = [⟨"Z",[],.var "Z"⟩,
        ⟨"S",["n"],.app (.var "S") (.app (.app (.var "add") (.var "n")) (.var "y"))⟩] ∧
      search (Tactic.bodies Empty.elim) { extensions := .none } ⟨[],.empty,.nat⟩ .sum (Tactic.homomorphism "x") =
        .ok [⟨.case (.var "x") alts,[]⟩] ∧
      List.Forall₂ (Judgement.sum.Homomorphic (.const "N")) [⟨"Z",[]⟩,⟨"S",[.const "N"]⟩] alts) ∧
    ∃ alts, alts = [⟨"Z",[],.var "Z"⟩,⟨"S",["n"],.app (.var "S") (.var "n")⟩] ∧
      search (Tactic.bodies Empty.elim) { extensions := .none } ⟨[],.empty,.nat⟩ .natFunction
        Tactic.homomorphismLambdaCase = .ok [⟨.lamCase alts,[]⟩] ∧
      List.Forall₂ (Judgement.natFunction.Homomorphic (.const "N")) [⟨"Z",[]⟩,⟨"S",[.const "N"]⟩] alts := by
  obtain ⟨hnamed,-⟩ := homomorphism_shape (Tactic.bodies Empty.elim) ⟨[],.empty,.nat⟩ .sum
  obtain ⟨-,hunnamed⟩ := homomorphism_shape (Tactic.bodies Empty.elim) ⟨[],.empty,.nat⟩ .natFunction
  constructor
  · have hfinds := hnamed "x" ⟨"x",.const "N",.argument "add" 0⟩ _ (by decide) rfl rfl
    have hds : search (Tactic.bodies Empty.elim) { extensions := .none } ⟨[],.empty,.nat⟩ .sum
      (Tactic.homomorphism "x") = .ok _ := rfl
    obtain ⟨d,⟨-,alts,hterm,halts⟩,hd⟩ := hfinds.of_ok hds
    cases hd
    cases hterm
    exact ⟨_,rfl,hds,halts⟩
  · have hfinds := hunnamed (.const "N") _ rfl rfl
    have hds : search (Tactic.bodies Empty.elim) { extensions := .none } ⟨[],.empty,.nat⟩ .natFunction
      Tactic.homomorphismLambdaCase = .ok _ := rfl
    obtain ⟨d,⟨-,alts,hterm,halts⟩,hd⟩ := hfinds.of_ok hds
    cases hd
    cases hterm
    exact ⟨_,rfl,hds,halts⟩

end TypedHole
