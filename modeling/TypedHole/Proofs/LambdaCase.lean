import TypedHole.Proofs.Introduction
import TypedHole.Proofs.JudgementGrowth
import TypedHole.Proofs.Renaming
import TypedHole.Proofs.SplitGoals

/-! Functions that split their argument, with and without a name for it.
`intros` followed by a split on the new name gives `\x -> case x of {..}`, a lambda case gives `\case {..}`. The name
`x` is known in the branches of the first only, so the fields get other names there. The names are paired field by
field (`fieldPairs`), and what is built or left open in a branch is compared up to these pairs.
Main statement: both routes find one term each, and these agree in all but the names of fields
(`lambdaCase_agrees`). A field may get the name of its own constructor. Rebuilt alternatives then say different
things where this happens to different fields, and they are the same just where each constructor's name means the same
below the fields of its alternative. -/
namespace TypedHole

/-- An entry in a branch of a split on a name, and the entry that takes its place where the split has no name. -/
structure Entry.Follows (ps : List (Name × Name)) (x : Name) (e e' : Entry) : Prop where
  name : Name.Alike ps e.name e'.name
  ty : e.ty = e'.ty
  provenance : e.provenance = e'.provenance ∨
    ∃ c i, e.provenance = .field (some x) c i ∧ e'.provenance = .field none c i

/-- An open goal in a branch of a split on a name, and the one that takes its place where the split has no name. -/
structure Judgement.Follows (ps : List (Name × Name)) (x : Name) (k k' : Judgement) : Prop where
  goal : k.goal = k'.goal
  isTop : k.isTop = k'.isTop
  destructed : ∀ y, k'.isDestructed y = true ↔ k.isDestructed y = true ∧ y ≠ x
  entries : ∃ es es', es.Perm (k.hypothesis.entries.filter (·.name ≠ x)) ∧ es'.Perm k'.hypothesis.entries ∧
    List.Forall₂ (Entry.Follows ps x) es es'

/-- Alternatives that apply the same constructor to arguments that are the same up to the names of the fields. -/
structure Alt.SameArguments (a b : Alt Term) : Prop where
  ctor : a.ctor = b.ctor
  arity : a.binders.length = b.binders.length
  body : ∃ ts us, a.body = (Term.var a.ctor).apply ts ∧ b.body = (Term.var b.ctor).apply us ∧
    List.Forall₂ (Term.Alike (a.binders.zip b.binders)) ts us

theorem Alt.SameArguments.alike_iff {a b : Alt Term} (h : a.SameArguments b) :
    a.Alike [] b ↔ Name.Alike (a.binders.zip b.binders) a.ctor b.ctor := by
  obtain ⟨hctor,harity,ts,us,hbody,hbody',hargs⟩ := h
  have hhead : Term.Alike (a.binders.zip b.binders) (.var a.ctor) (.var b.ctor) ↔
      Name.Alike (a.binders.zip b.binders) a.ctor b.ctor := by
    constructor
    · rintro ⟨⟩
      assumption
    · exact .var
  constructor
  · intro halike
    have hbodies := halike.body
    rw [hbody,hbody',List.append_nil,Term.alike_apply_iff hargs.length_eq] at hbodies
    exact hhead.1 hbodies.1
  · intro hname
    refine ⟨hctor,harity,?_⟩
    rw [hbody,hbody',List.append_nil,Term.alike_apply_iff hargs.length_eq]
    exact ⟨hhead.2 hname,hargs⟩

theorem Ty.domains_of_not_isArrow {t : Ty} (h : t.isArrow = false) : t.domains = [] := by
  cases t <;> first | rfl | cases h

theorem Ty.result_of_not_isArrow {t : Ty} (h : t.isArrow = false) : t.result = t := by
  cases t <;> first | rfl | cases h

structure Judgement.Takes (j : Judgement) (x : Name) (dom cod : Ty) : Prop where
  goal : j.goal = .arrow dom cod
  single : cod.isArrow = false
  name : x = ((NameSupply.ofHypothesis j.hypothesis).fresh dom).1

namespace Tactic

variable {j : Judgement} {x : Name} {dom cod : Ty}

section

variable (h : j.Takes x dom cod)
include h

theorem domains_of_takes : j.goal.domains = [dom] := by
  rw [h.goal,Ty.domains,Ty.domains_of_not_isArrow h.single]

theorem introducedNames_of_takes : introducedNames j = [x] := by
  rw [introducedNames,domains_of_takes h,h.name]
  rfl

theorem introducedEntries_of_takes : introducedEntries j = [⟨x,dom,.user⟩] := by
  rw [introducedEntries,introducedNames_of_takes h,domains_of_takes h]
  rfl

theorem goal_introduced : (introduced j).goal = cod := by
  simp [introduced,Judgement.withEntries,Judgement.subgoal,h.goal,Ty.result,Ty.result_of_not_isArrow h.single]

theorem not_mem_of_takes : x ∉ j.hypothesis.names := by
  have hnew := new_introducedEntries j
  rw [introducedEntries_of_takes h] at hnew
  exact hnew _ (List.mem_singleton_self _)

theorem perm_introduced : (introduced j).hypothesis.entries.Perm (j.hypothesis.entries ++ [⟨x,dom,.user⟩]) := by
  have hperm : (introduced j).hypothesis.entries.Perm (j.hypothesis.entries ++ introducedEntries j) := by
    refine Hypothesis.perm_extend ?_ (new_introducedEntries j)
    rw [introducedEntries_names]
    exact NameSupply.nodup_freshList ..
  rwa [introducedEntries_of_takes h] at hperm

theorem find?_introduced : (introduced j).hypothesis.find? x = some ⟨x,dom,.user⟩ := by
  have hmem : ⟨x,dom,.user⟩ ∈ (introduced j).hypothesis.entries := (perm_introduced h).mem_iff.2 (by simp)
  exact Hypothesis.find?_of_mem hmem

theorem mem_names_introduced : x ∈ (introduced j).hypothesis.names :=
  List.mem_map.2 ⟨_,List.mem_of_find?_eq_some (find?_introduced h),rfl⟩

end

theorem findProvenance?_introduced (j : Judgement) {q : Provenance} (hq : q ≠ .user) :
    (introduced j).hypothesis.findProvenance? (· == q) = j.hypothesis.findProvenance? (· == q) := by
  refine Option.ext fun e => ?_
  simp only [Hypothesis.findProvenance?_eq_some_iff,beq_iff_eq]
  have hold {a : Entry} (ha : a ∈ (introduced j).hypothesis.entries) (hp : a.provenance = q) :
      a ∈ j.hypothesis.entries := (mem_introduced ha).resolve_right fun hu => hq (hp.symm.trans hu)
  constructor
  · rintro ⟨he,hp,hmin⟩
    exact ⟨hold he hp,hp,fun a ha => hmin a (mem_introduced_of_mem ha)⟩
  · rintro ⟨he,hp,hmin⟩
    exact ⟨mem_introduced_of_mem he,hp,fun a ha hpa => hmin a (hold ha hpa) hpa⟩

theorem forall₂_mapIdx {α β γ : Type} {R : β → γ → Prop} {f : Nat → α → β} {g : Nat → α → γ} (xs : List α)
    (h : ∀ i, ∀ x ∈ xs, R (f i x) (g i x)) : List.Forall₂ R (xs.mapIdx f) (xs.mapIdx g) := by
  refine List.forall₂_iff_get.2 ⟨by simp,fun i hi hi' => ?_⟩
  simp only [List.get_eq_getElem,List.getElem_mapIdx]
  exact h i _ (List.getElem_mem _)

theorem forall₂_mapM_id {α β : Type} {R : α → β → Prop} {as : List (Option α)} {bs : List (Option β)}
    (h : List.Forall₂ (Option.Rel R) as bs) : Option.Rel (List.Forall₂ R) (as.mapM id) (bs.mapM id) := by
  induction h with
  | nil => exact .some .nil
  | @cons a b as bs hab _ ih =>
    simp only [List.mapM_cons,id,Option.bind_eq_bind]
    cases hab with
    | none => exact .none
    | some hab =>
      cases has : as.mapM id with
      | none =>
        rw [has] at ih
        cases hbs : bs.mapM id with
        | none => exact .none
        | some => rw [hbs] at ih; cases ih
      | some us =>
        rw [has] at ih
        cases hbs : bs.mapM id with
        | none => rw [hbs] at ih; cases ih
        | some vs =>
          rw [hbs] at ih
          cases ih with
          | some hrest => exact .some (.cons hab hrest)

theorem passedOn?_rel {k k' : Judgement} {ps : List (Name × Name)} {r : Entry} {i : Nat} (ty : Ty)
    (hfind : k.hypothesis.findProvenance? (· == .argument r.name i) =
      k'.hypothesis.findProvenance? (· == .argument r.name i))
    (hknown : ∀ e, k.hypothesis.findProvenance? (· == .argument r.name i) = some e → Name.Alike ps e.name e.name) :
    Option.Rel (Term.Alike ps) (passedOn? k r i ty) (passedOn? k' r i ty) := by
  rw [passedOn?,passedOn?,← hfind]
  cases he : k.hypothesis.findProvenance? (· == .argument r.name i) with
  | none => exact .none
  | some e =>
    dsimp only
    split
    next => exact .some (.var (hknown e he))
    next => exact .none

/-- Recursive calls in two judgements are the same up to the field that they take when the definition, the position
and the arguments are the same. -/
theorem recursiveCall?_rel {k k' : Judgement} {scrutinee scrutinee' : Option Name} {ps : List (Name × Name)}
    {x y : Name} (ty : Ty)
    (hfind : ∀ q, q = .recursive ∨ (∃ f i, q = .argument f i) →
      k.hypothesis.findProvenance? (· == q) = k'.hypothesis.findProvenance? (· == q) ∧
        ∀ e, k.hypothesis.findProvenance? (· == q) = some e → Name.Alike ps e.name e.name)
    (hposition : ∀ r, recursionPosition? k r scrutinee = recursionPosition? k' r scrutinee')
    (hfield : Name.Alike ps x y) :
    Option.Rel (Term.Alike ps) (recursiveCall? k scrutinee x ty) (recursiveCall? k' scrutinee' y ty) := by
  obtain ⟨hdefinition,hname⟩ := hfind .recursive (.inl rfl)
  simp only [recursiveCall?,← hdefinition,Option.bind_eq_bind]
  cases hr : k.hypothesis.findProvenance? (· == .recursive) with
  | none => exact .none
  | some r =>
    simp only [Option.bind_some,← hposition r]
    cases hp : recursionPosition? k r scrutinee with
    | none => exact .none
    | some position =>
      simp only [Option.bind_some]
      split
      next =>
        have hargs : List.Forall₂ (Option.Rel (Term.Alike ps))
            (r.ty.domains.mapIdx fun i t => if i = position then some (.var x) else passedOn? k r i t)
            (r.ty.domains.mapIdx fun i t => if i = position then some (.var y) else passedOn? k' r i t) := by
          refine forall₂_mapIdx _ fun i t _ => ?_
          split
          next => exact .some (.var hfield)
          next =>
            obtain ⟨hpassed,hknown⟩ := hfind (.argument r.name i) (.inr ⟨_,_,rfl⟩)
            exact passedOn?_rel _ hpassed hknown
        have hcall := forall₂_mapM_id hargs
        revert hcall
        generalize (r.ty.domains.mapIdx fun i t =>
          if i = position then some (.var x) else passedOn? k r i t).mapM id = us
        generalize (r.ty.domains.mapIdx fun i t =>
          if i = position then some (.var y) else passedOn? k' r i t).mapM id = vs
        rintro (hsame | _)
        · exact .some ((Term.alike_apply_iff hsame.length_eq).2 ⟨.var (hname r hr),hsame⟩)
        · exact .none
      next => exact .none

/-- The names that the fields of a constructor get below the introduced argument, and those that they get in a
function without a name for it. -/
def fieldPairs (j : Judgement) (x : Name) (cod : Ty) (c : Constructor) : List (Name × Name) :=
  (branch (introduced j) (some x) cod c).binders.zip (branch j none cod c).binders

theorem alike_known (x : Name) (cod : Ty) (c : Constructor) {y : Name} (hy : y ∈ j.hypothesis.names) :
    Name.Alike (fieldPairs j x cod c) y y := by
  refine Name.alike_zip_of_not_mem (fun hin => not_mem_names_of_binder hin ?_)
    fun hin => not_mem_names_of_binder hin hy
  obtain ⟨e,he,rfl⟩ := List.mem_map.1 hy
  exact List.mem_map_of_mem (mem_introduced_of_mem he)

theorem arity_branch (j : Judgement) (x : Name) (cod : Ty) (c : Constructor) :
    (branch (introduced j) (some x) cod c).binders.length = (branch j none cod c).binders.length := by
  rw [length_binders,length_binders]

theorem alike_field {c : Constructor} {p : Name × Name} (hp : p ∈ fieldPairs j x cod c) :
    Name.Alike (fieldPairs j x cod c) p.1 p.2 :=
  Name.alike_zip hp (arity_branch ..) (nodup_binders ..) (nodup_binders ..)

/-- Which calls of the definition being written can be formed does not depend on the name of its argument. -/
theorem recursiveCall?_alike (h : j.Takes x dom cod) {c : Constructor} {p : Name × Name}
    (hp : p ∈ fieldPairs j x cod c) (ty : Ty) :
    Option.Rel (Term.Alike (fieldPairs j x cod c))
      (recursiveCall? (branch (introduced j) (some x) cod c).judgement (some x) p.1 ty)
      (recursiveCall? (branch j none cod c).judgement none p.2 ty) := by
  refine recursiveCall?_rel ty (fun q hq => ?_) (fun r => ?_) (alike_field hp)
  · have hfield (scrutinee : Option Name) (i : Nat) : q ≠ .field scrutinee c.name i := by
      rcases hq with rfl | ⟨f,k,rfl⟩ <;> nofun
    have huser : q ≠ .user := by rcases hq with rfl | ⟨f,k,rfl⟩ <;> nofun
    rw [findProvenance?_branch_eq _ _ _ _ (hfield _),findProvenance?_branch_eq _ _ _ _ (hfield _),
      findProvenance?_introduced j huser]
    exact ⟨rfl,fun e he => alike_known _ _ _ (List.mem_map_of_mem (List.mem_of_find?_eq_some he))⟩
  · have hargument : (branch (introduced j) (some x) cod c).judgement.hypothesis.find? x = some ⟨x,dom,.user⟩ :=
      find?_branch (find?_introduced h)
    simp [recursionPosition?,hargument]

theorem rebuilt_alike (h : j.Takes x dom cod) {c : Constructor} {p : Name × Name} (hp : p ∈ fieldPairs j x cod c)
    (ty : Ty) :
    Term.Alike (fieldPairs j x cod c)
      (rebuilt (branch (introduced j) (some x) cod c).judgement (some x) (p.1,ty))
      (rebuilt (branch j none cod c).judgement none (p.2,ty)) := by
  have hcall := recursiveCall?_alike h hp ty
  rw [rebuilt,rebuilt,branch_goal,branch_goal]
  split
  next =>
    revert hcall
    generalize recursiveCall? _ _ p.1 ty = t
    generalize recursiveCall? _ _ p.2 ty = u
    rintro (hsame | _)
    · exact hsame
    · exact .var (alike_field hp)
  next => exact .var (alike_field hp)

theorem sameArguments_rebuiltAlt (h : j.Takes x dom cod) (c : Constructor) :
    (rebuiltAlt (introduced j) (some x) cod c).SameArguments (rebuiltAlt j none cod c) where
  ctor := rfl
  arity := arity_branch j x cod c
  body := by
    refine ⟨_,_,rfl,rfl,List.forall₂_iff_get.2 ⟨by simp [length_binders],fun i hi hi' => ?_⟩⟩
    simp only [List.get_eq_getElem,List.getElem_map,List.getElem_zip]
    refine rebuilt_alike h (p := (_,_)) ?_ _
    exact List.mem_iff_getElem.2 ⟨i,by simpa [fieldPairs,length_binders] using hi,by simp [fieldPairs]⟩

theorem perm_branch_introduced (h : j.Takes x dom cod) (c : Constructor) :
    ((branch (introduced j) (some x) cod c).judgement.hypothesis.entries.filter (·.name ≠ x)).Perm
      (j.hypothesis.entries ++ fieldEntries (some x) c (branch (introduced j) (some x) cod c).binders) := by
  have hperm := ((perm_branch (introduced j) (some x) cod c).trans
    ((perm_introduced h).append_right _)).filter fun e => decide (e.name ≠ x)
  have hknown : j.hypothesis.entries.filter (fun e => decide (e.name ≠ x)) = j.hypothesis.entries := by
    refine List.filter_eq_self.2 fun e he => decide_eq_true ?_
    rintro rfl
    exact not_mem_of_takes h (List.mem_map_of_mem he)
  have hfields : (fieldEntries (some x) c (branch (introduced j) (some x) cod c).binders).filter
      (fun e => decide (e.name ≠ x)) = fieldEntries (some x) c (branch (introduced j) (some x) cod c).binders := by
    refine List.filter_eq_self.2 fun e he => decide_eq_true ?_
    intro hname
    exact new_fieldEntries _ _ _ _ e he (hname ▸ mem_names_introduced h)
  rw [List.filter_append,List.filter_append,hknown,hfields] at hperm
  simpa using hperm

theorem follows_fieldEntries (j : Judgement) (x : Name) (cod : Ty) (c : Constructor) :
    List.Forall₂ (Entry.Follows (fieldPairs j x cod c) x)
      (fieldEntries (some x) c (branch (introduced j) (some x) cod c).binders)
      (fieldEntries none c (branch j none cod c).binders) := by
  refine List.forall₂_iff_get.2 ⟨by simp [fieldEntries,length_binders],fun i hi hi' => ?_⟩
  simp only [List.get_eq_getElem,fieldEntries,List.getElem_mapIdx,List.getElem_zip]
  refine ⟨alike_field (p := (_,_)) ?_,rfl,.inr ⟨_,_,rfl,rfl⟩⟩
  exact List.mem_iff_getElem.2 ⟨i,by simpa [fieldPairs,fieldEntries,length_binders] using hi,by simp [fieldPairs]⟩

/-- What is left open in a branch differs in the names of the fields only, and in what is said of the scrutinee. -/
theorem follows_branch (h : j.Takes x dom cod) (hj : j.Scoped) (c : Constructor) :
    Judgement.Follows (fieldPairs j x cod c) x (branch (introduced j) (some x) cod c).judgement
      (branch j none cod c).judgement where
  goal := (branch_goal ..).trans (branch_goal ..).symm
  isTop := (branch_isTop ..).trans (branch_isTop ..).symm
  destructed := by
    intro y
    have hnamed : (branch (introduced j) (some x) cod c).judgement.isDestructed y = true ↔
        y = x ∨ j.isDestructed y = true := Judgement.isDestructed_withDestructed ..
    have hne : j.isDestructed y = true → y ≠ x := by
      rintro hy rfl
      exact not_mem_of_takes h (hj _ hy)
    rw [hnamed]
    exact ⟨fun hy => ⟨.inr hy,hne hy⟩,fun hy => hy.1.resolve_left hy.2⟩
  entries := by
    refine ⟨_,_,(perm_branch_introduced h c).symm,(perm_branch j none cod c).symm,List.rel_append ?_ ?_⟩
    · exact List.forall₂_same.2 fun e he => ⟨alike_known _ _ _ (List.mem_map_of_mem he),rfl,.inl rfl⟩
    · exact follows_fieldEntries j x cod c

section

variable {ι : Type} (procs : ι → Tactic ι) {ctx : Context} {cs : List Constructor}
  (hcs : ctx.types.constructors? dom = some cs)
include hcs

theorem findsOne_intros_destruct (h : j.Takes x dom cod) :
    FindsOne procs ctx j (.andThen intros (destruct x)) fun d => d = ⟨.lam [x] (.case (.var x) (cs.mapIdx fun i c =>
        ⟨c.name,(branch (introduced j) (some x) cod c).binders,.hole (i + 2)⟩)),
      cs.map fun c => (branch (introduced j) (some x) cod c).judgement⟩ := by
  have hbody := findsOne_destruct procs (find?_introduced h) hcs
  refine (hbody.andThen_intros (by simp [domains_of_takes h])).imp fun d hd => ?_
  obtain ⟨d',rfl,rfl⟩ := hd
  have hnext (i : Nat) : 1 + (i + 1) = i + 2 := by omega
  simp only [Derivation.under,introducedNames_of_takes h,goal_introduced h,Term.shift,Term.bind,bindAlts_mapIdx,hnext]

theorem findsOne_intros_homomorphism (h : j.Takes x dom dom) :
    FindsOne procs ctx j (.andThen intros (homomorphism x)) fun d =>
      d = ⟨.lam [x] (.case (.var x) (cs.map (rebuiltAlt (introduced j) (some x) dom))),[]⟩ := by
  have hbody : FindsOne procs ctx (introduced j) (homomorphism x) fun d =>
      d = ⟨.case (.var x) (cs.map (rebuiltAlt (introduced j) (some x) dom)),[]⟩ := by
    refine findsOne_rebuilt procs "homomorphism" (some x) (fun _ _ => rfl) (fun _ => rfl) ?_
    simp [lookup_of_find? (find?_introduced h),goal_introduced h,constructorsFor,hcs,bind,Except.bind,pure,Except.pure]
  refine (hbody.andThen_intros (by simp [domains_of_takes h])).imp fun d hd => ?_
  obtain ⟨d',rfl,rfl⟩ := hd
  have hclosed : (Term.case (.var x) (cs.map (rebuiltAlt (introduced j) (some x) dom))).holes = [] := by
    refine Term.holesAlts_eq_nil fun a ha => ?_
    obtain ⟨c,-,rfl⟩ := List.mem_map.1 ha
    exact (rebuilds_rebuiltAlt (introduced j) (some x) dom c).closed
  rw [Derivation.under,introducedNames_of_takes h,Term.shift,Term.bind_eq_self _ fun i hi => by simp [hclosed] at hi]

theorem findsOne_homomorphismLambdaCase (hg : j.goal = .arrow dom dom) :
    FindsOne procs ctx j homomorphismLambdaCase fun d => d = ⟨.lamCase (cs.map (rebuiltAlt j none dom)),[]⟩ := by
  refine findsOne_rebuilt procs "homomorphism_lambda_case" none (fun _ _ => rfl) (fun _ => rfl) ?_
  simp [functionGoal_of_arrow hg,constructorsFor,hcs,bind,Except.bind,pure,Except.pure]

end

end Tactic

/-- A function on an algebraic type can be split in two ways: by introducing its argument and splitting on it, or
without a name for the argument. The alternatives are the same up to the names of the fields, and so are the goals that
are left open in them. Where a value of the type is rebuilt, the arguments of the constructors are the same in this
sense, with the calls of the definition that is being written, and the alternatives are if the names of the
constructors are. -/
theorem lambdaCase_agrees {ι : Type} (procs : ι → Tactic ι) (ctx : Context) {j : Judgement} {x : Name} {dom cod : Ty}
    (h : j.Takes x dom cod) (ha : ctx.types.isAlgebraic dom = true) (hj : j.Scoped) :
    (∃ (d d' : Derivation) (alts alts' : List (Alt Term)),
      FindsOne procs ctx j (.andThen .intros (.destruct x)) (· = d) ∧
      FindsOne procs ctx j .destructLambdaCase (· = d') ∧
      d.term = .lam [x] (.case (.var x) alts) ∧ d'.term = .lamCase alts' ∧ Term.AlikeAlts [] alts alts' ∧
      d.unsolved.length = alts.length ∧ d'.unsolved.length = alts'.length ∧
      ∀ (i : Nat) a a' k k', alts[i]? = some a → alts'[i]? = some a' → d.unsolved[i]? = some k →
        d'.unsolved[i]? = some k' → Judgement.Follows (a.binders.zip a'.binders) x k k') ∧
    (cod = dom → ∃ (d d' : Derivation) (alts alts' : List (Alt Term)),
      FindsOne procs ctx j (.andThen .intros (.homomorphism x)) (· = d) ∧
      FindsOne procs ctx j .homomorphismLambdaCase (· = d') ∧
      d.term = .lam [x] (.case (.var x) alts) ∧ d'.term = .lamCase alts' ∧ d.unsolved = [] ∧ d'.unsolved = [] ∧
      List.Forall₂ Alt.SameArguments alts alts' ∧
      (Term.AlikeAlts [] alts alts' ↔
        ∀ p ∈ alts.zip alts', Name.Alike (p.1.binders.zip p.2.binders) p.1.ctor p.2.ctor)) := by
  obtain ⟨cs,hcs⟩ := Option.isSome_iff_exists.1 ha
  constructor
  · refine ⟨_,_,_,_,Tactic.findsOne_intros_destruct procs hcs h,findsOne_destructLambdaCase procs h.goal hcs,rfl,rfl,
      ?_,by simp,by simp,?_⟩
    · refine Term.alikeAlts_iff.2 (Tactic.forall₂_mapIdx cs fun i c _ => ⟨rfl,Tactic.arity_branch j x cod c,.hole⟩)
    · intro i a a' k k' ha ha' hk hk'
      simp only [List.getElem?_mapIdx,List.getElem?_map,Option.map_eq_some_iff] at ha ha' hk hk'
      obtain ⟨c,hc,rfl⟩ := ha
      obtain ⟨c',hc',rfl⟩ := ha'
      cases hc.symm.trans hc'
      obtain ⟨c',hc',rfl⟩ := hk
      cases hc.symm.trans hc'
      obtain ⟨c',hc',rfl⟩ := hk'
      cases hc.symm.trans hc'
      exact Tactic.follows_branch h hj c
  · rintro rfl
    have hsame : List.Forall₂ Alt.SameArguments (cs.map (Tactic.rebuiltAlt (Tactic.introduced j) (some x) cod))
        (cs.map (Tactic.rebuiltAlt j none cod)) := by
      refine List.forall₂_map_left_iff.2 (List.forall₂_map_right_iff.2 (List.forall₂_same.2 fun c _ => ?_))
      exact Tactic.sameArguments_rebuiltAlt h c
    refine ⟨_,_,_,_,Tactic.findsOne_intros_homomorphism procs hcs h,
      Tactic.findsOne_homomorphismLambdaCase procs hcs h.goal,rfl,rfl,rfl,rfl,hsame,?_⟩
    have hlength := hsame.length_eq
    rw [Term.alikeAlts_iff,List.forall₂_iff_zip]
    constructor
    · rintro ⟨-,halike⟩ ⟨a,b⟩ hp
      exact (List.forall₂_zip hsame hp).alike_iff.1 (halike hp)
    · exact fun hnames => ⟨hlength,fun {a b} hp => (List.forall₂_zip hsame hp).alike_iff.2 (hnames (a,b) hp)⟩

/-- The second field has its constructor's name on one side, and the first field on the other. -/
example :
    let j : Judgement := { goal := .arrow (.const "ℕ") (.const "ℕ"), hypothesis := .ofList [] }
    let c : Constructor := ⟨"ℕ1",[.const "ℕ",.const "ℕ"]⟩
    (Tactic.rebuiltAlt j none (.const "ℕ") c).binders = ["ℕ","ℕ1"] ∧
      (Tactic.rebuiltAlt (Tactic.introduced j) (some "ℕ") (.const "ℕ") c).binders = ["ℕ1","ℕ2"] := by
  decide

def Judgement.copying : Judgement where
  goal := .arrow (.const "N") (.const "N")
  hypothesis := .ofList [⟨"copy",.arrow (.const "N") (.const "N"),.recursive⟩]

/-- Both ways to write it call the function on the smaller number, under different names. -/
theorem lambdaCase_agrees_copying :
    Judgement.copying.Takes "n" (.const "N") (.const "N") ∧ Judgement.copying.Scoped ∧
    (∃ d d' alts alts', search (Tactic.bodies Empty.elim) { extensions := .none } ⟨[],.empty,.nat⟩ .copying
        (.andThen .intros (.destruct "n")) = .ok [d] ∧
      search (Tactic.bodies Empty.elim) { extensions := .none } ⟨[],.empty,.nat⟩ .copying .destructLambdaCase =
        .ok [d'] ∧
      d.term = .lam ["n"] (.case (.var "n") alts) ∧ d'.term = .lamCase alts' ∧ Term.AlikeAlts [] alts alts') ∧
    search (Tactic.bodies Empty.elim) { extensions := .none } ⟨[],.empty,.nat⟩ .copying
      (.andThen .intros (.homomorphism "n")) = .ok [⟨.lam ["n"] (.case (.var "n")
        [⟨"Z",[],.var "Z"⟩,⟨"S",["n1"],.app (.var "S") (.app (.var "copy") (.var "n1"))⟩]),[]⟩] ∧
    search (Tactic.bodies Empty.elim) { extensions := .none } ⟨[],.empty,.nat⟩ .copying .homomorphismLambdaCase =
      .ok [⟨.lamCase [⟨"Z",[],.var "Z"⟩,⟨"S",["n"],.app (.var "S") (.app (.var "copy") (.var "n"))⟩],[]⟩] ∧
    Term.AlikeAlts [] [⟨"Z",[],.var "Z"⟩,⟨"S",["n1"],.app (.var "S") (.app (.var "copy") (.var "n1"))⟩]
      [⟨"Z",[],.var "Z"⟩,⟨"S",["n"],.app (.var "S") (.app (.var "copy") (.var "n"))⟩] := by
  have htakes : Judgement.copying.Takes "n" (.const "N") (.const "N") := ⟨rfl,rfl,by decide⟩
  have hscoped : Judgement.copying.Scoped := fun y hy => by cases hy
  obtain ⟨⟨d,d',alts,alts',hd,hd',hterm,hterm',halike,-⟩,hsame⟩ :=
    lambdaCase_agrees (Tactic.bodies Empty.elim) ⟨[],.empty,.nat⟩ htakes rfl hscoped
  have hfound {t : Tactic (Tactic.Label Empty)} {y : Derivation} {ds : List Derivation}
      (h : FindsOne (Tactic.bodies Empty.elim) ⟨[],.empty,.nat⟩ .copying t (· = y))
      (hds : search (Tactic.bodies Empty.elim) { extensions := .none } ⟨[],.empty,.nat⟩ .copying t = .ok ds) :
      ds = [y] := by
    obtain ⟨_,rfl,hone⟩ := h.of_ok hds
    exact hone
  obtain ⟨e,e',bs,bs',he,he',hb,hb',-,-,-,hiff⟩ := hsame rfl
  cases hfound he rfl
  cases hfound he' rfl
  cases hb
  cases hb'
  refine ⟨htakes,hscoped,⟨d,d',alts,alts',?_,?_,hterm,hterm',halike⟩,rfl,rfl,hiff.2 ?_⟩
  · rw [← hfound hd rfl]
    rfl
  · rw [← hfound hd' rfl]
    rfl
  · intro p hp
    rcases List.mem_cons.1 hp with rfl | hp
    · exact .free
    · cases List.mem_singleton.1 hp
      exact .outer (by decide) (by decide) .free

end TypedHole
