import TypedHole.Proofs.Branch
import TypedHole.Proofs.Library
import TypedHole.Proofs.Typing

/-! Refinements by the library are well typed.
A refinement is sound when its extract has the type of the goal, with its holes standing for the
subgoals. Main statement: all moves of the library are sound (`Move.sound`). -/
namespace TypedHole

variable {ι : Type}

namespace Refinement

variable {τ : Type}

/-- What the holes of an extract stand for. -/
def goals (r : Refinement τ) (i : Nat) : Option Judgement := r.subgoals[i]?.map (·.judgement)

/-- The extract has the type of the goal. -/
def Sound (types : TypeTable) (j : Judgement) (r : Refinement τ) : Prop :=
  HasType types r.goals j.hypothesis.types r.extract j.goal

end Refinement

namespace Judgement

theorem argument_fields (j : Judgement) (t : Ty) :
    (j.argument t).hypothesis = j.hypothesis ∧ (j.argument t).goal = t := by
  have hfold (es : List Entry) (k : Judgement) :
      (es.foldl (fun arg e => arg.withDestructed e.name) k).hypothesis = k.hypothesis ∧
        (es.foldl (fun arg e => arg.withDestructed e.name) k).goal = k.goal := by
    induction es generalizing k with
    | nil => exact ⟨rfl,rfl⟩
    | cons e es ih => exact ih _
  exact hfold _ _

theorem types_withEntries (j : Judgement) (es : List Entry) :
    (j.withEntries es).hypothesis.types = j.hypothesis.types.bindAll (es.map fun e => (e.name,e.ty)) :=
  j.hypothesis.types_extend es

end Judgement

namespace Tactic

variable {types : TypeTable} {goals : Nat → Option Judgement} {Γ : Scope}

theorem typed_holes {j : Judgement} {ss : List Ty} {next : Nat}
    (h : ∀ i t, ss[i]? = some t → goals (next + i) = some (j.argument t)) :
    List.Forall₂ (fun a s => HasType types goals j.hypothesis.types a s)
      ((List.range' next ss.length).map Term.hole) ss := by
  induction ss generalizing next with
  | nil => exact .nil
  | cons s ss ih =>
    obtain ⟨hh,hg⟩ := j.argument_fields s
    have hs : HasType types goals j.hypothesis.types (.hole next) (j.argument s).goal :=
      .hole (by simpa using h 0 s) (by rw [hh])
    rw [hg] at hs
    refine .cons hs (ih fun i t ht => ?_)
    have := h (i + 1) t (by simpa using ht)
    rwa [Nat.add_comm i,← Nat.add_assoc] at this

theorem sound_argumentsOf {j : Judgement} {head : Name} {ss : List Ty}
    (hf : ∀ goals, HasType types goals j.hypothesis.types (.var head) (.arrows ss j.goal)) :
    (argumentsOf (ι := ι) j head ss).Sound types j := by
  refine (hf _).apply ?_
  rw [List.length_map,List.range_eq_range']
  refine typed_holes fun i t ht => ?_
  simp [Refinement.goals,argumentsOf,Refinement.application,ht]

theorem typed_of_findProvenance? {j : Judgement} {p : Provenance → Bool} {e : Entry}
    (h : j.hypothesis.findProvenance? p = some e) :
    HasType types goals j.hypothesis.types (.var e.name) e.ty :=
  .entry (Hypothesis.types_of_mem (List.mem_of_find?_eq_some h))

theorem RecursiveCall.typed {j : Judgement} {scrutinee : Option Name} {field : Name} {t : Ty} {r : Entry}
    {position : Nat} {args : List Term} (h : RecursiveCall j scrutinee field t r position args)
    (hf : j.hypothesis.types field = some t) :
    List.Forall₂ (fun a s => HasType types goals j.hypothesis.types a s) args r.ty.domains := by
  refine List.forall₂_iff_get.2 ⟨h.length,fun i h₁ h₂ => ?_⟩
  have harg : args[i]? = some (args.get ⟨i,h₁⟩) := List.getElem?_eq_getElem h₁
  have hdomain : r.ty.domains[i]? = some (r.ty.domains.get ⟨i,h₂⟩) := List.getElem?_eq_getElem h₂
  by_cases hi : i = position
  · have htaken := h.taken
    have htype := h.domain
    rw [← hi,harg] at htaken
    rw [← hi,hdomain] at htype
    rw [Option.some.inj htaken,Option.some.inj htype]
    exact .entry hf
  · obtain ⟨e,he,htype,hu⟩ := h.passed i _ hi harg
    rw [hu,Option.some.inj (hdomain.symm.trans htype)]
    exact typed_of_findProvenance? he

theorem typed_recursiveCall {j : Judgement} {scrutinee : Option Name} {field : Name} {t : Ty} {u : Term}
    (h : recursiveCall? j scrutinee field t = some u) (hf : j.hypothesis.types field = some t) :
    HasType types goals j.hypothesis.types u t := by
  obtain ⟨r,position,args,rfl,hcall⟩ := recursiveCall?_eq_some h
  have hhead : HasType types goals j.hypothesis.types (.var r.name) (.arrows r.ty.domains t) := by
    rw [← hcall.result,Ty.arrows_domains_result]
    exact typed_of_findProvenance? hcall.entry
  exact hhead.apply (hcall.typed hf)

def Part.Fits (types : TypeTable) (Γ : Scope) (t : Ty) : Part ι → Prop
  | term u => ∀ goals, HasType types goals Γ u t
  | goal s => s.judgement.hypothesis.types = Γ ∧ s.judgement.goal = t

theorem typed_terms {ps : List (Part ι)} {ts : List Ty} (h : List.Forall₂ (fun p t => p.Fits types Γ t) ps ts)
    {next : Nat} (hg : ∀ i s, (Part.subgoals ps)[i]? = some s → goals (next + i) = some s.judgement) :
    List.Forall₂ (fun u t => HasType types goals Γ u t) (Part.terms next ps) ts := by
  induction h generalizing next with
  | nil => exact .nil
  | @cons p t ps ts hp _ ih =>
    cases p with
    | term u => exact .cons (hp goals) (ih hg)
    | goal s =>
      obtain ⟨hΓ,ht⟩ := hp
      have hs : HasType types goals Γ (.hole next) s.judgement.goal := .hole (hg 0 s rfl) hΓ
      rw [ht] at hs
      refine .cons hs (ih fun i s' hs' => ?_)
      have := hg (i + 1) s' hs'
      rwa [Nat.add_comm i,← Nat.add_assoc] at this

theorem fits_rebuildField {j : Judgement} {scrutinee : Option Name} {x : Name} {t : Ty}
    (hx : j.hypothesis.types x = some t) :
    (rebuildField (ι := ι) scrutinee j x t).Fits types j.hypothesis.types t := by
  rcases rebuildField_cases (ι := ι) scrutinee j x t with ⟨u,hu,-,hc⟩ | hg
  · rw [hu]
    exact fun _ => typed_recursiveCall hc hx
  · rw [hg]
    exact ⟨rfl,rfl⟩

def FitsBranch (types : TypeTable) (goal : Ty) (b : Branch) (r : Refinement (Tactic ι)) : Prop :=
  HasType types r.goals b.judgement.hypothesis.types r.extract goal

theorem fits_openBranch (j : Judgement) (scrutinee : Option Name) (goal : Ty) (c : Constructor) :
    FitsBranch (ι := ι) types goal (branch j scrutinee goal c) (openBranch (branch j scrutinee goal c)) := by
  have h : HasType types (openBranch (ι := ι) (branch j scrutinee goal c)).goals
      (branch j scrutinee goal c).judgement.hypothesis.types (.hole 0)
      (branch j scrutinee goal c).judgement.goal := .hole rfl rfl
  rwa [branch_goal] at h

/-- A branch of the goal's own type may rebuild its constructor. -/
theorem fits_rebuild {j : Judgement} {scrutinee : Option Name} {goal : Ty} {cs : List Constructor}
    {c : Constructor} (hcs : types.constructors? goal = some cs) (hc : c ∈ cs) :
    FitsBranch (ι := ι) types goal (branch j scrutinee goal c)
      (rebuild scrutinee (branch j scrutinee goal c)) := by
  let b := branch j scrutinee goal c
  have hlen : b.binders.length = c.fields.length := length_binders ..
  have htypes : (b.binders.zip c.fields).map (·.2) = c.fields := List.map_snd_zip (by omega)
  have hparts : List.Forall₂ (fun p t => p.Fits types b.judgement.hypothesis.types t)
      ((b.binders.zip c.fields).map fun p => rebuildField (ι := ι) scrutinee b.judgement p.1 p.2)
      ((b.binders.zip c.fields).map (·.2)) := by
    rw [List.forall₂_map_left_iff,List.forall₂_map_right_iff,List.forall₂_same]
    exact fun p hp => fits_rebuildField (types_binder hp)
  rw [htypes] at hparts
  refine (HasType.ofConstructor hcs hc).apply (typed_terms hparts fun i s hs => ?_)
  rw [Nat.zero_add]
  exact congrArg (Option.map (·.judgement)) hs

theorem SplitBody.fits {j : Judgement} {scrutinee : Option Name} {source goal : Ty} {cs : List Constructor}
    {body : Branch → Refinement (Tactic ι)} (h : SplitBody scrutinee source goal body)
    (hcs : types.constructors? source = some cs) {c : Constructor} (hc : c ∈ cs) :
    FitsBranch types goal (branch j scrutinee goal c) (body (branch j scrutinee goal c)) := by
  cases h with
  | openBranch => exact fits_openBranch ..
  | rebuild same =>
    subst same
    exact fits_rebuild hcs hc

theorem typed_joinAlts {j : Judgement} {scrutinee : Option Name} {goal : Ty} {cs : List Constructor}
    {body : Branch → Refinement (Tactic ι)}
    (hb : ∀ c ∈ cs, FitsBranch types goal (branch j scrutinee goal c) (body (branch j scrutinee goal c)))
    {next : Nat} {alts : List (Alt (Refinement (Tactic ι)))}
    (halts : alts = cs.map fun c => let b := branch j scrutinee goal c; ⟨c.name,b.binders,body b⟩)
    (hg : ∀ i s, (joinAlts next alts).2[i]? = some s → goals (next + i) = some s.judgement) :
    HasAlts types goals j.hypothesis.types (joinAlts next alts).1 cs goal := by
  subst halts
  induction cs generalizing next with
  | nil => exact .nil
  | cons c cs ih =>
    let b := branch j scrutinee goal c
    let r := body b
    have hbody : HasType types r.goals b.judgement.hypothesis.types r.extract goal := hb c (by simp)
    rw [types_branch] at hbody
    refine .cons (nodup_binders ..) (length_binders ..) (hbody.shift fun i k hk => ?_)
      (ih (fun c' hc' => hb c' (by simp [hc'])) fun i s hs => ?_)
    · obtain ⟨s,hs,rfl⟩ := Option.map_eq_some_iff.1 hk
      have hi : i < r.subgoals.length := (List.getElem?_eq_some_iff.1 hs).1
      exact hg i s ((List.getElem?_append_left hi).trans hs)
    · have := hg (r.subgoals.length + i) s
        ((List.getElem?_append_right (Nat.le_add_right ..)).trans (by rwa [Nat.add_sub_cancel_left]))
      rwa [← Nat.add_assoc] at this

theorem typed_splitOn {j : Judgement} {scrutinee : Option Name} {goal : Ty} {cs : List Constructor}
    {body : Branch → Refinement (Tactic ι)} (wrap : List (Alt Term) → Term)
    (hb : ∀ c ∈ cs, FitsBranch types goal (branch j scrutinee goal c) (body (branch j scrutinee goal c))) :
    HasAlts types (splitOn wrap j scrutinee goal cs body).goals j.hypothesis.types
      (joinAlts 0 (cs.map fun c => let b := branch j scrutinee goal c; ⟨c.name,b.binders,body b⟩)).1
      cs goal := by
  refine typed_joinAlts hb rfl fun i s hs => ?_
  rw [Nat.zero_add]
  exact congrArg (Option.map (·.judgement)) hs

/-- Every move of the library is sound. -/
theorem Move.sound {ctx : Context} {j : Judgement} {r : Refinement (Tactic ι)} (h : Move ctx j r) :
    r.Sound ctx.types j := by
  cases h with
  | entry mem ty =>
    rw [Refinement.Sound,← ty]
    exact .entry (Hypothesis.types_of_mem mem)
  | @lam names entries domains names_eq entries_eq =>
    have hlen : names.length = j.goal.domains.length := by
      rw [names_eq,NameSupply.length_freshList]
    refine .lam domains (names_eq ▸ NameSupply.nodup_freshList ..) hlen ?_
    have hbind : entries.map (fun e => (e.name,e.ty)) = names.zip j.goal.domains := by
      simp [entries_eq,Function.comp_def]
    rw [← hbind]
    exact .hole rfl (Judgement.types_withEntries (j.subgoal j.goal.result) entries)
  | constructor ctors mem => exact sound_argumentsOf fun _ => .ofConstructor ctors mem
  | @function e mem result =>
    refine sound_argumentsOf fun _ => .entry ?_
    rw [← result,Ty.arrows_domains_result]
    exact Hypothesis.types_of_mem mem
  | @case x e cs body found ctors fits =>
    obtain ⟨mem,rfl⟩ := find?_eq_some found
    exact .case (.entry (Hypothesis.types_of_mem mem)) ctors
      (typed_splitOn _ fun c hc => fits.fits ctors hc)
  | lamCase goal ctors fits =>
    rw [Refinement.Sound,goal]
    exact .lamCase ctors (typed_splitOn _ fun c hc => fits.fits ctors hc)

end Tactic
end TypedHole
