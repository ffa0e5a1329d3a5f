import TypedHole.Proofs.Expansion
import TypedHole.Tactic.Auto

/-! The rules of the library.
Main statement: their refinements have one hole for each subgoal, in the order of the subgoals, and hand
tactics of their own to all subgoals or to none (`LibraryRule.offers`); these tactics are built from
the library again (`LibraryRule.built`). -/
namespace TypedHole

variable {ι : Type}

namespace Refinement

variable {τ : Type}

/-- The extract has one hole for each subgoal, in the order of the subgoals. -/
def InOrder (r : Refinement τ) : Prop := r.extract.holes = List.range r.subgoals.length

/-- Either all subgoals have a tactic of their own or none has. -/
def Uniform (r : Refinement τ) : Prop :=
  (∀ s ∈ r.subgoals, s.tactic.isSome) ∨ ∀ s ∈ r.subgoals, s.tactic = none

theorem inOrder_application (head : Name) (ss : List (Subgoal τ)) : (application head ss).InOrder := by
  simp [InOrder,application,Term.holes,List.flatMap_map]

end Refinement

theorem mapM_id_eq_some {α : Type} {xs : List (Option α)} {ys : List α} :
    xs.mapM id = some ys ↔ xs = ys.map some := by
  induction xs generalizing ys with
  | nil => cases ys <;> simp
  | cons x xs ih =>
    cases x with
    | none => cases ys <;> simp
    | some x =>
      cases ys with
      | nil => cases h : xs.mapM id <;> simp [h]
      | cons y ys =>
        simp only [List.mapM_cons,id_eq,Option.bind_eq_bind,Option.bind_some,Option.bind_eq_some_iff,ih,
          Option.pure_def,Option.some.injEq,List.cons.injEq,List.map_cons]
        constructor
        · rintro ⟨zs,rfl,rfl,rfl⟩
          exact ⟨rfl,rfl⟩
        · rintro ⟨rfl,rfl⟩
          exact ⟨ys,rfl,rfl,rfl⟩

namespace Tactic

inductive LibraryRule : Tactic ι → Prop
  | assumption : LibraryRule assumption
  | assume (x : Name) : LibraryRule (assume x)
  | intros : LibraryRule intros
  | split : LibraryRule split
  | apply : LibraryRule apply
  | destruct (x : Name) : LibraryRule (destruct x)
  | homomorphism (x : Name) : LibraryRule (homomorphism x)
  | destructLambdaCase : LibraryRule destructLambdaCase
  | homomorphismLambdaCase : LibraryRule homomorphismLambdaCase

/-- How a case split goes on in its branches. To rebuild them the scrutinee needs the type of the goal. -/
inductive SplitBody (scrutinee : Option Name) (source goal : Ty) :
    (Branch → Refinement (Tactic ι)) → Prop
  | openBranch : SplitBody scrutinee source goal openBranch
  | rebuild (same : source = goal) : SplitBody scrutinee source goal (rebuild scrutinee)

/-- Everything that a rule of the library can offer at a judgement. -/
inductive Move (ctx : Context) (j : Judgement) : Refinement (Tactic ι) → Prop
  | entry {e : Entry} (mem : e ∈ j.hypothesis.entries) (ty : e.ty = j.goal) :
      Move ctx j (.closed (.var e.name))
  | lam {names : List Name} {entries : List Entry} (domains : j.goal.domains ≠ [])
      (names_eq : names = ((NameSupply.ofHypothesis j.hypothesis).freshList j.goal.domains).1)
      (entries_eq : entries = (names.zip j.goal.domains).map fun (x,t) => ⟨x,t,.user⟩) :
      Move ctx j ⟨.lam names (.hole 0),[⟨(j.subgoal j.goal.result).withEntries entries,none⟩]⟩
  | constructor {cs : List Constructor} {c : Constructor} (ctors : ctx.types.constructors? j.goal = some cs)
      (mem : c ∈ cs) : Move ctx j (argumentsOf j c.name c.fields)
  | function {e : Entry} (mem : e ∈ j.hypothesis.entries) (result : e.ty.result = j.goal) :
      Move ctx j (argumentsOf j e.name e.ty.domains)
  | case {x : Name} {e : Entry} {cs : List Constructor} {body : Branch → Refinement (Tactic ι)}
      (found : j.hypothesis.find? x = some e) (ctors : ctx.types.constructors? e.ty = some cs)
      (fits : SplitBody (some x) e.ty j.goal body) :
      Move ctx j (splitOn (.case (.var x)) j (some x) j.goal cs body)
  | lamCase {dom cod : Ty} {cs : List Constructor} {body : Branch → Refinement (Tactic ι)}
      (goal : j.goal = .arrow dom cod) (ctors : ctx.types.constructors? dom = some cs)
      (fits : SplitBody none dom cod body) : Move ctx j (splitOn .lamCase j none cod cs body)

theorem bind_eq_ok {ε α β : Type} {x : Except ε α} {f : α → Except ε β} {b : β}
    (h : x >>= f = .ok b) : ∃ a, x = .ok a ∧ f a = .ok b := by
  cases x with
  | error => cases h
  | ok a => exact ⟨a,rfl,h⟩

theorem lookup_eq_ok {j : Judgement} {x : Name} {e : Entry} (h : lookup j x = .ok e) :
    j.hypothesis.find? x = some e := by
  rw [lookup] at h
  split at h
  next e' he => cases h; exact he
  next => cases h

theorem find?_eq_some {h : Hypothesis} {x : Name} {e : Entry} (he : h.find? x = some e) :
    e ∈ h.entries ∧ e.name = x :=
  ⟨List.mem_of_find?_eq_some he,by simpa using List.find?_some he⟩

theorem someOf_eq_ok {refused : TacticError} {rs rs' : List (Refinement (Tactic ι))}
    (h : someOf refused rs = .ok rs') : rs' = rs := by
  rw [someOf] at h
  split at h <;> cases h
  rfl

theorem constructorsFor_eq_ok {rule : String} {ctx : Context} {j : Judgement} {t : Ty}
    {cs : List Constructor} (h : constructorsFor rule ctx j t = .ok cs) :
    ctx.types.constructors? t = some cs := by
  rw [constructorsFor] at h
  split at h
  next cs' hc => cases h; exact hc
  next => cases h

theorem functionGoal_eq_ok {rule : String} {j : Judgement} {dom cod : Ty}
    (h : functionGoal rule j = .ok (dom,cod)) : j.goal = .arrow dom cod := by
  rw [functionGoal] at h
  split at h
  next p hp =>
    cases h
    cases hg : j.goal with
    | arrow d c => rw [hg] at hp; cases hp; rfl
    | _ => rw [hg] at hp; cases hp
  next => cases h

theorem passedOn?_eq_some {j : Judgement} {r : Entry} {i : Nat} {ty : Ty} {t : Term}
    (h : passedOn? j r i ty = some t) :
    ∃ e, j.hypothesis.findProvenance? (· == .argument r.name i) = some e ∧ e.ty = ty ∧ t = .var e.name := by
  simp only [passedOn?] at h
  split at h
  next e he =>
    split at h
    next ht => cases h; exact ⟨e,he,ht,rfl⟩
    next => cases h
  next => cases h

/-- What a recursive call is made of: an entry for the definition being written whose result is the
field's type, applied to the field at one position and elsewhere to arguments passed on. -/
structure RecursiveCall (j : Judgement) (scrutinee : Option Name) (field : Name) (ty : Ty) (r : Entry)
    (position : Nat) (args : List Term) : Prop where
  entry : j.hypothesis.findProvenance? (· == .recursive) = some r
  target : recursionPosition? j r scrutinee = some position
  result : r.ty.result = ty
  domain : r.ty.domains[position]? = some ty
  length : args.length = r.ty.domains.length
  taken : args[position]? = some (.var field)
  passed : ∀ i u, i ≠ position → args[i]? = some u → ∃ e,
    j.hypothesis.findProvenance? (· == .argument r.name i) = some e ∧ r.ty.domains[i]? = some e.ty ∧
      u = .var e.name

theorem recursiveCall?_eq_some {j : Judgement} {scrutinee : Option Name} {field : Name} {ty : Ty}
    {t : Term} (h : recursiveCall? j scrutinee field ty = some t) :
    ∃ r position args, t = (Term.var r.name).apply args ∧
      RecursiveCall j scrutinee field ty r position args := by
  simp only [recursiveCall?,Option.bind_eq_bind,Option.bind_eq_some_iff] at h
  obtain ⟨r,hr,position,hp,h⟩ := h
  split at h
  next hc =>
    obtain ⟨args,ha,ht⟩ := Option.bind_eq_some_iff.1 h
    cases ht
    have hargs := mapM_id_eq_some.1 ha
    have hlen : args.length = r.ty.domains.length := by simpa using (congrArg List.length hargs).symm
    have hget (i : Nat) := congrArg (·[i]?) hargs
    simp only [List.getElem?_mapIdx,List.getElem?_map] at hget
    refine ⟨r,position,args,rfl,hr,hp,hc.1,hc.2,hlen,?_,fun i u hne hu => ?_⟩
    · have hi := hget position
      rw [hc.2,Option.map_some,if_pos rfl] at hi
      obtain ⟨u,hu,he⟩ := Option.map_eq_some_iff.1 hi.symm
      rw [hu,Option.some.inj he]
    · have hi := hget i
      rw [hu,Option.map_some] at hi
      obtain ⟨s,hs,he⟩ := Option.map_eq_some_iff.1 hi
      rw [if_neg hne] at he
      obtain ⟨e,hfind,rfl,ht⟩ := passedOn?_eq_some he
      exact ⟨e,hfind,hs,ht⟩
  next => cases h

theorem RecursiveCall.mem_of_passed {j : Judgement} {scrutinee : Option Name} {field : Name} {ty : Ty}
    {r : Entry} {position : Nat} {args : List Term}
    (h : RecursiveCall j scrutinee field ty r position args) {i : Nat} {u : Term} (hi : i ≠ position)
    (hu : args[i]? = some u) :
    ∃ e ∈ j.hypothesis.entries, e.provenance = .argument r.name i ∧ u = .var e.name := by
  obtain ⟨e,he,-,hvar⟩ := h.passed i u hi hu
  exact ⟨e,List.mem_of_find?_eq_some he,by simpa using List.find?_some he,hvar⟩

theorem RecursiveCall.var {j : Judgement} {scrutinee : Option Name} {field : Name} {ty : Ty} {r : Entry}
    {position : Nat} {args : List Term} (h : RecursiveCall j scrutinee field ty r position args) {u : Term}
    (hu : u ∈ args) : u = .var field ∨
      ∃ e ∈ j.hypothesis.entries, ∃ i, e.provenance = .argument r.name i ∧ u = .var e.name := by
  obtain ⟨i,hi⟩ := List.getElem?_of_mem hu
  by_cases hp : i = position
  · have htaken := h.taken
    rw [← hp,hi] at htaken
    exact .inl (Option.some.inj htaken)
  · obtain ⟨e,he,hprovenance,hvar⟩ := h.mem_of_passed hp hi
    exact .inr ⟨e,he,i,hprovenance,hvar⟩

theorem recursiveCall?_vars {j : Judgement} {scrutinee : Option Name} {field : Name} {ty : Ty}
    {t : Term} (h : recursiveCall? j scrutinee field ty = some t) :
    ∃ head args, t = (Term.var head).apply args ∧ ∀ u ∈ args, ∃ x, u = .var x := by
  obtain ⟨r,position,args,rfl,hcall⟩ := recursiveCall?_eq_some h
  refine ⟨r.name,args,rfl,fun u hu => ?_⟩
  rcases hcall.var hu with hvar | ⟨e,-,-,-,hvar⟩
  · exact ⟨field,hvar⟩
  · exact ⟨e.name,hvar⟩

theorem recursiveCall?_holes {j : Judgement} {scrutinee : Option Name} {field : Name} {ty : Ty}
    {t : Term} (h : recursiveCall? j scrutinee field ty = some t) : t.holes = [] := by
  obtain ⟨head,args,rfl,hargs⟩ := recursiveCall?_vars h
  rw [Term.holes_apply,Term.holes,List.nil_append,List.flatMap_eq_nil_iff]
  intro u hu
  obtain ⟨x,rfl⟩ := hargs u hu
  rfl

theorem holes_terms {ps : List (Part ι)} (h : ∀ t, Part.term t ∈ ps → t.holes = []) (next : Nat) :
    (Part.terms next ps).flatMap Term.holes = List.range' next (Part.subgoals ps).length := by
  induction ps generalizing next with
  | nil => rfl
  | cons p ps ih =>
    have hps : ∀ t, Part.term t ∈ ps → t.holes = [] := fun t ht => h t (by simp [ht])
    cases p with
    | term t => simpa [Part.terms,Part.subgoals,h t (by simp)] using ih hps next
    | goal g => simp [Part.terms,Part.subgoals,Term.holes,ih hps,List.range'_succ]

theorem rebuildField_cases (scrutinee : Option Name) (j : Judgement) (field : Name) (ty : Ty) :
    (∃ t, rebuildField (ι := ι) scrutinee j field ty = .term t ∧ ty = j.goal ∧
      recursiveCall? j scrutinee field ty = some t) ∨
    rebuildField (ι := ι) scrutinee j field ty =
      .goal ⟨j.subgoal ty,some (.orElse (assume field) idle)⟩ := by
  by_cases hg : ty = j.goal
  · cases hc : recursiveCall? j scrutinee field ty with
    | none => right; simp [rebuildField,hg,hg ▸ hc]
    | some t => left; exact ⟨t,by simp [rebuildField,hg,hg ▸ hc],hg,rfl⟩
  · right
    simp [rebuildField,hg]

theorem mem_subgoals {ps : List (Part ι)} {s : Subgoal (Tactic ι)} (h : s ∈ Part.subgoals ps) :
    Part.goal s ∈ ps := by
  induction ps with
  | nil => cases h
  | cons p ps ih =>
    cases p with
    | term t => exact List.mem_cons_of_mem _ (ih h)
    | goal g =>
      rcases List.mem_cons.1 h with rfl | h
      · simp
      · exact List.mem_cons_of_mem _ (ih h)

theorem subgoal_of_rebuild {scrutinee : Option Name} {b : Branch} {s : Subgoal (Tactic ι)}
    (h : s ∈ (rebuild scrutinee b).subgoals) : ∃ x ty, (x,ty) ∈ b.binders.zip b.ctor.fields ∧
      s = ⟨b.judgement.subgoal ty,some (.orElse (assume x) idle)⟩ := by
  obtain ⟨⟨x,ty⟩,hm,hs⟩ := List.mem_map.1 (mem_subgoals h)
  dsimp only at hs
  rcases rebuildField_cases (ι := ι) scrutinee b.judgement x ty with ⟨t,ht,-,-⟩ | hg
  · rw [ht] at hs
    cases hs
  · rw [hg] at hs
    cases hs
    exact ⟨x,ty,hm,rfl⟩

theorem inOrder_rebuild (scrutinee : Option Name) (b : Branch) :
    (rebuild (ι := ι) scrutinee b).InOrder := by
  rw [Refinement.InOrder,rebuild,Term.holes_apply,Term.holes,List.nil_append,List.range_eq_range']
  refine holes_terms (fun t ht => ?_) 0
  obtain ⟨⟨x,ty⟩,-,hf⟩ := List.mem_map.1 ht
  dsimp only at hf
  rcases rebuildField_cases (ι := ι) scrutinee b.judgement x ty with ⟨u,hu,-,hc⟩ | hg
  · rw [hu] at hf
    cases hf
    exact recursiveCall?_holes hc
  · rw [hg] at hf
    cases hf

theorem holes_joinAlts {as : List (Alt (Refinement (Tactic ι)))} (h : ∀ a ∈ as, a.body.InOrder)
    (next : Nat) :
    Term.holesAlts (joinAlts next as).1 = List.range' next (joinAlts next as).2.length := by
  induction as generalizing next with
  | nil => rfl
  | cons a as ih =>
    obtain ⟨c,xs,r⟩ := a
    have hr : r.InOrder := h ⟨c,xs,r⟩ (by simp)
    have has := ih (fun a ha => h a (by simp [ha])) (next + r.subgoals.length)
    simp only [joinAlts,Term.holesAlts,has,Term.holes_shift,List.length_append]
    rw [hr,← List.range'_eq_map_range,List.range'_append_1]

theorem goals_joinAlts (as : List (Alt (Refinement (Tactic ι)))) (next : Nat) :
    (joinAlts next as).2 = as.flatMap (·.body.subgoals) := by
  induction as generalizing next with
  | nil => rfl
  | cons a as ih =>
    have hrest := ih (next + a.body.subgoals.length)
    simp only [joinAlts,hrest,List.flatMap_cons]

/-- A rule of the library makes only the listed moves. -/
theorem LibraryRule.moves {ctx : Context} {t : Tactic ι} (h : LibraryRule t) : t.Offers ctx (Move ctx) := by
  cases h with
  | assumption =>
    intro j rs hf r hr
    rw [someOf_eq_ok hf] at hr
    obtain ⟨e,he,rfl⟩ := List.mem_map.1 hr
    obtain ⟨hm,hc⟩ := List.mem_filter.1 he
    exact .entry hm (by simpa using (Bool.and_eq_true_iff.1 hc).1)
  | assume x =>
    intro j rs hf r hr
    obtain ⟨e,he,hf⟩ := bind_eq_ok hf
    split at hf
    next ht =>
      cases hf
      cases List.mem_singleton.1 hr
      obtain ⟨hm,hx⟩ := find?_eq_some (lookup_eq_ok he)
      exact hx ▸ .entry hm ht
    next => cases hf
  | intros =>
    intro j rs hf r hr
    dsimp only at hf
    split at hf
    next => cases hf
    next hd =>
      cases hf
      cases List.mem_singleton.1 hr
      exact .lam hd rfl rfl
  | split =>
    intro j rs hf r hr
    dsimp only at hf
    split at hf
    next => cases hf
    next cs hc =>
      cases hf
      obtain ⟨c,hm,rfl⟩ := List.mem_map.1 hr
      exact .constructor hc hm
  | apply =>
    intro j rs hf r hr
    rw [someOf_eq_ok hf] at hr
    obtain ⟨e,he,rfl⟩ := List.mem_map.1 hr
    obtain ⟨hm,hc⟩ := List.mem_filter.1 he
    exact .function hm (by simpa using (Bool.and_eq_true_iff.1 hc).2)
  | destruct x =>
    intro j rs hf r hr
    obtain ⟨e,he,hf⟩ := bind_eq_ok hf
    obtain ⟨cs,hc,hf⟩ := bind_eq_ok hf
    cases hf
    cases List.mem_singleton.1 hr
    exact .case (lookup_eq_ok he) (constructorsFor_eq_ok hc) .openBranch
  | homomorphism x =>
    intro j rs hf r hr
    obtain ⟨e,he,hf⟩ := bind_eq_ok hf
    split at hf
    next => cases hf
    next ht =>
      obtain ⟨cs,hc,hf⟩ := bind_eq_ok hf
      cases hf
      cases List.mem_singleton.1 hr
      exact .case (lookup_eq_ok he) (constructorsFor_eq_ok hc) (.rebuild (Decidable.not_not.1 ht))
  | destructLambdaCase =>
    intro j rs hf r hr
    obtain ⟨⟨dom,cod⟩,hg,hf⟩ := bind_eq_ok hf
    obtain ⟨cs,hc,hf⟩ := bind_eq_ok hf
    cases hf
    cases List.mem_singleton.1 hr
    exact .lamCase (functionGoal_eq_ok hg) (constructorsFor_eq_ok hc) .openBranch
  | homomorphismLambdaCase =>
    intro j rs hf r hr
    obtain ⟨⟨dom,cod⟩,hg,hf⟩ := bind_eq_ok hf
    dsimp only at hf
    split at hf
    next => cases hf
    next ht =>
      obtain ⟨cs,hc,hf⟩ := bind_eq_ok hf
      cases hf
      cases List.mem_singleton.1 hr
      exact .lamCase (functionGoal_eq_ok hg) (constructorsFor_eq_ok hc) (.rebuild (Decidable.not_not.1 ht))

theorem inOrder_argumentsOf (j : Judgement) (head : Name) (types : List Ty) :
    (argumentsOf (ι := ι) j head types).InOrder := Refinement.inOrder_application head _

theorem inOrder_splitOn {wrap : List (Alt Term) → Term} (hw : ∀ as, (wrap as).holes = Term.holesAlts as)
    {body : Branch → Refinement (Tactic ι)} (hb : ∀ b, (body b).InOrder) (j : Judgement)
    (scrutinee : Option Name) (goal : Ty) (cs : List Constructor) :
    (splitOn wrap j scrutinee goal cs body).InOrder := by
  rw [Refinement.InOrder,splitOn,hw,List.range_eq_range']
  refine holes_joinAlts (fun a ha => ?_) 0
  obtain ⟨c,-,rfl⟩ := List.mem_map.1 ha
  exact hb _

theorem SplitBody.inOrder {scrutinee : Option Name} {source goal : Ty}
    {body : Branch → Refinement (Tactic ι)} (h : SplitBody scrutinee source goal body) (b : Branch) :
    (body b).InOrder := by
  cases h with
  | openBranch => rfl
  | rebuild => exact inOrder_rebuild scrutinee b

theorem Move.inOrder {ctx : Context} {j : Judgement} {r : Refinement (Tactic ι)} (h : Move ctx j r) :
    r.InOrder := by
  cases h with
  | entry => rfl
  | lam => rfl
  | constructor => exact inOrder_argumentsOf ..
  | function => exact inOrder_argumentsOf ..
  | case _ _ fits => exact inOrder_splitOn (fun _ => rfl) fits.inOrder ..
  | lamCase _ _ fits => exact inOrder_splitOn (fun _ => rfl) fits.inOrder ..

theorem subgoals_splitOn (wrap : List (Alt Term) → Term) (j : Judgement) (scrutinee : Option Name) (goal : Ty)
    (cs : List Constructor) (body : Branch → Refinement (Tactic ι)) :
    (splitOn wrap j scrutinee goal cs body).subgoals =
      cs.flatMap fun c => (body (branch j scrutinee goal c)).subgoals := by
  simp only [splitOn,goals_joinAlts,List.flatMap_map]

theorem mem_splitOn {wrap : List (Alt Term) → Term} {j : Judgement} {scrutinee : Option Name} {goal : Ty}
    {cs : List Constructor} {body : Branch → Refinement (Tactic ι)} {s : Subgoal (Tactic ι)} :
    s ∈ (splitOn wrap j scrutinee goal cs body).subgoals ↔
      ∃ c ∈ cs, s ∈ (body (branch j scrutinee goal c)).subgoals := by
  rw [subgoals_splitOn,List.mem_flatMap]

theorem SplitBody.tactic {scrutinee : Option Name} {source goal : Ty}
    {body : Branch → Refinement (Tactic ι)} (h : SplitBody scrutinee source goal body) :
    (∀ b, ∀ s ∈ (body b).subgoals, s.tactic = none) ∨
      ∀ b, ∀ s ∈ (body b).subgoals, ∃ x, s.tactic = some (.orElse (assume x) idle) := by
  cases h with
  | openBranch =>
    left
    intro b s hs
    rw [List.mem_singleton.1 hs]
  | rebuild =>
    right
    intro b s hs
    obtain ⟨x,ty,-,rfl⟩ := subgoal_of_rebuild hs
    exact ⟨x,rfl⟩

theorem Move.tactic {ctx : Context} {j : Judgement} {r : Refinement (Tactic ι)} (h : Move ctx j r) :
    (∀ s ∈ r.subgoals, s.tactic = none) ∨
      ∀ s ∈ r.subgoals, ∃ x, s.tactic = some (.orElse (assume x) idle) := by
  have arguments (head : Name) (types : List Ty) :
      ∀ s ∈ (argumentsOf (ι := ι) j head types).subgoals, s.tactic = none := by
    intro s hs
    obtain ⟨t,-,rfl⟩ := List.mem_map.1 hs
    rfl
  have branches {wrap : List (Alt Term) → Term} {scrutinee : Option Name} {source goal : Ty}
      {cs : List Constructor} {body : Branch → Refinement (Tactic ι)}
      (fits : SplitBody scrutinee source goal body) :
      (∀ s ∈ (splitOn wrap j scrutinee goal cs body).subgoals, s.tactic = none) ∨
        ∀ s ∈ (splitOn wrap j scrutinee goal cs body).subgoals,
          ∃ x, s.tactic = some (.orElse (assume x) idle) :=
    fits.tactic.imp (fun h s hs => (mem_splitOn.1 hs).elim fun _ hb => h _ s hb.2)
      fun h s hs => (mem_splitOn.1 hs).elim fun _ hb => h _ s hb.2
  cases h with
  | entry => exact .inl fun s hs => by cases hs
  | lam =>
    left
    intro s hs
    rw [List.mem_singleton.1 hs]
  | constructor => exact .inl (arguments _ _)
  | function => exact .inl (arguments _ _)
  | case _ _ fits => exact branches fits
  | lamCase _ _ fits => exact branches fits

theorem Move.uniform {ctx : Context} {j : Judgement} {r : Refinement (Tactic ι)} (h : Move ctx j r) :
    r.Uniform := by
  rcases h.tactic with hn | hs
  · exact .inr hn
  · left
    intro s hm
    obtain ⟨x,hx⟩ := hs s hm
    rw [hx]
    rfl

/-- Refinements of library rules have one hole for each subgoal, in order, and are uniform. -/
theorem LibraryRule.offers {ctx : Context} {t : Tactic ι} (h : LibraryRule t) :
    t.Offers ctx fun _ r => r.InOrder ∧ r.Uniform := by
  exact h.moves.mono fun _ _ hm => ⟨hm.inOrder,hm.uniform⟩

/-- A library rule hands on only tactics that are built from the library again. -/
theorem LibraryRule.built {ctx : Context} {t : Tactic ι} (h : LibraryRule t) :
    t.Built ctx LibraryRule := by
  have assume_built (x : Name) : (Tactic.assume x : Tactic ι).Built ctx LibraryRule := by
    refine .rule (.assume x) fun j rs r s u hf hr hs hu => ?_
    obtain ⟨e,-,hf⟩ := bind_eq_ok hf
    split at hf
    · cases hf
      cases List.mem_singleton.1 hr
      cases hs
    · cases hf
  have hm : t.Offers ctx (Move ctx) := h.moves
  cases t with
  | rule name refine =>
    refine .rule h fun j rs r s u hf hr hs hu => ?_
    rcases (hm j rs hf r hr).tactic with hn | ho
    · rw [hn s hs] at hu
      cases hu
    · obtain ⟨x,hx⟩ := ho s hs
      rw [hx] at hu
      cases hu
      exact .orElse (assume_built x) .idle
  | _ => exact hm.elim

theorem destructAny_built {ctx : Context} : (destructAny : Tactic ι).Built ctx LibraryRule := by
  refine .withGoal fun j => .choice fun t ht => ?_
  obtain ⟨e,-,rfl⟩ := List.mem_map.1 ht
  exact (LibraryRule.destruct e.name).built

theorem homomorphismAny_built {ctx : Context} : (homomorphismAny : Tactic ι).Built ctx LibraryRule := by
  refine .withGoal fun j => .choice fun t ht => ?_
  obtain ⟨e,-,rfl⟩ := List.mem_map.1 ht
  exact (LibraryRule.homomorphism e.name).built

theorem autoStep_built {ctx : Context} {again : Tactic ι} (h : again.Built ctx LibraryRule) :
    (autoStep again).Built ctx LibraryRule := by
  refine .choice ?_
  simp only [List.mem_cons,List.not_mem_nil,or_false,forall_eq_or_imp,forall_eq]
  exact ⟨LibraryRule.assumption.built,.andThen LibraryRule.intros.built h,
    .andThen LibraryRule.split.built h,.andThen homomorphismAny_built h,.andThen destructAny_built h,
    .andThen LibraryRule.apply.built h⟩

/-- The automatic tactic is built from the library, and so are labels of one's own when their bodies are. -/
theorem bodies_built {κ : Type} {ctx : Context} {own : κ → Tactic (Label κ)}
    (h : ∀ l, (own l).Built ctx LibraryRule) (l : Label κ) : (bodies own l).Built ctx LibraryRule := by
  cases l with
  | auto => exact autoStep_built .call
  | own l => exact h l

end Tactic
end TypedHole
