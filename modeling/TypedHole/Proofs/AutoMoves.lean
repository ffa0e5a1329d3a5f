import TypedHole.Proofs.Deepening
import TypedHole.Proofs.SplitTerm

/-! What the automatic tactic does at a goal.
`Tactic.AutoMove` lists the moves of the automatic tactic with the conditions under which they are made. The
judgements for the arguments of an application are left as a parameter, so that automatic tactics that
differ in nothing else can be compared. Main statements: the tactic makes only these moves
(`Tactic.Yields.of_auto`), and it offers each of them (`Tactic.AutoMove.offered`). -/
namespace TypedHole
namespace Tactic

section

variable {ι : Type} (pass : Judgement → Ty → Judgement)

/-- A head applied to arguments, with the judgements that `pass` makes of their types. -/
def argumentsWith (j : Judgement) (head : Name) (types : List Ty) : Refinement (Tactic ι) :=
  .application head (types.map fun t => ⟨pass j t,none⟩)

def splitWith : Tactic ι := rule "split" fun ctx j =>
  match ctx.types.constructors? j.goal with
  | none => .error (refusal "split" j)
  | some cs => .ok (cs.map fun c => argumentsWith pass j c.name c.fields)

def applyWith : Tactic ι := rule "apply" fun _ j =>
  someOf (refusal "apply" j) <|
    (j.hypothesis.entries.filter fun e =>
      e.provenance != .recursive && e.ty.isArrow && e.ty.result == j.goal).map
      fun e => argumentsWith pass j e.name e.ty.domains

def autoStepWith (again : Tactic ι) : Tactic ι :=
  choice [assumption,
    andThen intros again,
    andThen (splitWith pass) again,
    andThen homomorphismAny again,
    andThen destructAny again,
    andThen (applyWith pass) again]

/-- The bodies of labels, with an automatic tactic that makes judgements for arguments in its own way. -/
def bodiesWith {κ : Type} (own : κ → Tactic (Label κ)) : Label κ → Tactic (Label κ)
  | .auto => autoStepWith pass (call .auto)
  | .own l => own l

end

@[simp] theorem bodiesWith_argument {κ : Type} (own : κ → Tactic (Label κ)) :
    bodiesWith Judgement.argument own = bodies own := by
  funext l
  cases l <;> rfl

theorem mem_splittable {j : Judgement} {e : Entry} :
    e ∈ splittable j ↔
      e ∈ j.hypothesis.entries ∧ e.provenance.isLocal = true ∧ ¬ j.isDestructed e.name = true := by
  simp only [splittable,Judgement.locals,List.mem_filter,Bool.not_eq_true',Bool.not_eq_true,and_assoc]

def introducedNames (j : Judgement) : List Name :=
  ((NameSupply.ofHypothesis j.hypothesis).freshList j.goal.domains).1

def introducedEntries (j : Judgement) : List Entry :=
  ((introducedNames j).zip j.goal.domains).map fun (x,t) => ⟨x,t,.user⟩

theorem introducedEntries_names (j : Judgement) : (introducedEntries j).map (·.name) = introducedNames j := by
  have hlen : (introducedNames j).length = j.goal.domains.length := NameSupply.length_freshList ..
  rw [introducedEntries,List.map_map]
  exact List.map_fst_zip (Nat.le_of_eq hlen)

theorem new_introducedEntries (j : Judgement) : ∀ e ∈ introducedEntries j, e.name ∉ j.hypothesis.names := by
  intro e he
  have hname := List.mem_map_of_mem (f := (·.name)) he
  rw [introducedEntries_names] at hname
  exact NameSupply.freshList_not_mem _ _ _ hname

def introduced (j : Judgement) : Judgement := (j.subgoal j.goal.result).withEntries (introducedEntries j)

theorem mem_introduced {j : Judgement} {e : Entry} (h : e ∈ (introduced j).hypothesis.entries) :
    e ∈ j.hypothesis.entries ∨ e.provenance = .user := by
  refine (Hypothesis.mem_extend h).imp_right fun h => ?_
  obtain ⟨p,-,rfl⟩ := List.mem_map.1 h
  rfl

theorem mem_introduced_of_mem {j : Judgement} {e : Entry} (h : e ∈ j.hypothesis.entries) :
    e ∈ (introduced j).hypothesis.entries :=
  Hypothesis.mem_extend_of_mem (new_introducedEntries j) h

theorem types_introduced (j : Judgement) : (introduced j).hypothesis.types =
    j.hypothesis.types.bindAll ((introducedNames j).zip j.goal.domains) := by
  have hpairs : (introducedEntries j).map (fun e => (e.name,e.ty)) =
      (introducedNames j).zip j.goal.domains := by
    simp [introducedEntries,Function.comp_def]
  rw [← hpairs]
  exact Hypothesis.types_extend ..

/-- Everything that the automatic tactic can do at a judgement, with itself to run on what is left. -/
inductive AutoMove {κ : Type} (pass : Judgement → Ty → Judgement) (ctx : Context) (j : Judgement) :
    Alternative (Label κ) → Prop
  | entry {e : Entry} (mem : e ∈ j.hypothesis.entries) (ty : e.ty = j.goal)
      (other : e.provenance ≠ .recursive) : AutoMove pass ctx j ⟨some (.closed (.var e.name)),[]⟩
  | lam (domains : j.goal.domains ≠ []) :
      AutoMove pass ctx j ⟨some ⟨.lam (introducedNames j) (.hole 0),[⟨introduced j,none⟩]⟩,[auto]⟩
  | constructor {cs : List Constructor} {c : Constructor} (ctors : ctx.types.constructors? j.goal = some cs)
      (mem : c ∈ cs) : AutoMove pass ctx j ⟨some (argumentsWith pass j c.name c.fields),[auto]⟩
  | function {e : Entry} (mem : e ∈ j.hypothesis.entries) (other : e.provenance ≠ .recursive)
      (arrow : e.ty.isArrow = true) (result : e.ty.result = j.goal) :
      AutoMove pass ctx j ⟨some (argumentsWith pass j e.name e.ty.domains),[auto]⟩
  | destruct {e : Entry} {cs : List Constructor} (mem : e ∈ splittable j)
      (ctors : ctx.types.constructors? e.ty = some cs) :
      AutoMove pass ctx j
        ⟨some (splitOn (.case (.var e.name)) j (some e.name) j.goal cs openBranch),[auto]⟩
  | homomorphism {e : Entry} {cs : List Constructor} (mem : e ∈ splittable j) (ty : e.ty = j.goal)
      (ctors : ctx.types.constructors? e.ty = some cs) :
      AutoMove pass ctx j
        ⟨some (splitOn (.case (.var e.name)) j (some e.name) j.goal cs (rebuild (some e.name))),[auto]⟩

section

variable {κ : Type} {pass : Judgement → Ty → Judgement} {own : κ → Tactic (Label κ)} {ctx : Context}
  {j : Judgement} {a : Alternative (Label κ)}

theorem find?_splittable {e d : Entry} (he : e ∈ splittable j) (hd : j.hypothesis.find? e.name = some d) :
    d = e := by
  have hfind : j.hypothesis.find? e.name = some e := Hypothesis.find?_of_mem (mem_splittable.1 he).1
  exact Option.some.inj (hd.symm.trans hfind)

/-- The automatic tactic makes only the listed moves. -/
theorem Yields.of_auto (h : Yields (bodiesWith pass own) ctx j auto [] a) : AutoMove pass ctx j a := by
  obtain ⟨t,ht,h⟩ := h.of_call.of_choice
  simp only [List.mem_cons,List.not_mem_nil,or_false] at ht
  rcases ht with rfl | rfl | rfl | rfl | rfl | rfl
  · obtain ⟨rs,hf,r,hr,rfl⟩ := h.of_rule
    rw [someOf_eq_ok hf] at hr
    obtain ⟨e,he,rfl⟩ := List.mem_map.1 hr
    have hcond := List.mem_filter.1 he
    simp only [Bool.and_eq_true,beq_iff_eq,bne_iff_ne] at hcond
    exact .entry hcond.1 hcond.2.1 hcond.2.2
  · obtain ⟨rs,hf,r,hr,rfl⟩ := h.of_andThen.of_rule
    split at hf
    next => cases hf
    next hd =>
      cases hf
      cases List.mem_singleton.1 hr
      exact .lam hd
  · obtain ⟨rs,hf,r,hr,rfl⟩ := h.of_andThen.of_rule
    split at hf
    next => cases hf
    next cs hc =>
      cases hf
      obtain ⟨c,hm,rfl⟩ := List.mem_map.1 hr
      exact .constructor hc hm
  · obtain ⟨t,ht,h⟩ := h.of_andThen.of_withGoal.of_choice
    obtain ⟨e,he,rfl⟩ := List.mem_map.1 ht
    obtain ⟨d,cs,hd,hty,hc,rfl⟩ := h.of_homomorphism
    have hsplit := (List.mem_filter.1 he).1
    cases find?_splittable hsplit hd
    exact .homomorphism hsplit hty hc
  · obtain ⟨t,ht,h⟩ := h.of_andThen.of_withGoal.of_choice
    obtain ⟨e,he,rfl⟩ := List.mem_map.1 ht
    obtain ⟨d,cs,hd,hc,rfl⟩ := h.of_destruct
    have hsplit := (List.mem_filter.1 he).1
    cases find?_splittable hsplit hd
    exact .destruct hsplit hc
  · obtain ⟨rs,hf,r,hr,rfl⟩ := h.of_andThen.of_rule
    rw [someOf_eq_ok hf] at hr
    obtain ⟨e,he,rfl⟩ := List.mem_map.1 hr
    have hcond := List.mem_filter.1 he
    simp only [Bool.and_eq_true,beq_iff_eq,bne_iff_ne] at hcond
    exact .function hcond.1 hcond.2.1.1 hcond.2.1.2 hcond.2.2

theorem AutoMove.isSome {j : Judgement} {a : Alternative (Label κ)} (h : AutoMove pass ctx j a) :
    a.refinement ≠ none := by
  cases h <;> exact Option.some_ne_none _

end

section

variable {ι : Type}

def Offering (procs : ι → Tactic ι) (ctx : Context) (j : Judgement) (fuel : Nat) (t : Tactic ι)
    (rest : List (Tactic ι)) (a : Alternative ι) : Prop :=
  ∃ as, (expand procs ctx j false fuel t rest).outcome = .ok as ∧ a ∈ as

namespace Offering

variable {procs : ι → Tactic ι} {ctx : Context} {j : Judgement} {fuel : Nat} {rest : List (Tactic ι)}
  {a : Alternative ι}

theorem rule {name : String}
    (refine : Context → Judgement → Except TacticError (List (Refinement (Tactic ι))))
    (rs : List (Refinement (Tactic ι))) {r : Refinement (Tactic ι)} (hf : refine ctx j = .ok rs)
    (hr : r ∈ rs) : Offering procs ctx j (fuel + 1) (.rule name refine) rest ⟨some r,rest⟩ := by
  refine ⟨rs.map fun r => ⟨some r,rest⟩,?_,List.mem_map_of_mem hr⟩
  simp [expand,hf,Except.map]

theorem andThen {b c : Tactic ι} (h : Offering procs ctx j fuel b (c :: rest) a) :
    Offering procs ctx j (fuel + 1) (.andThen b c) rest a := h

theorem choice {ts : List (Tactic ι)} {t : Tactic ι} (ht : t ∈ ts)
    (h : Offering procs ctx j fuel t rest a) : Offering procs ctx j (fuel + 1) (.choice ts) rest a := by
  obtain ⟨bs,hbs,ha⟩ := h
  exact Expansion.mem_all_of_mem (List.mem_map_of_mem ht) hbs ha

theorem call {l : ι} (h : Offering procs ctx j fuel (procs l) rest a) :
    Offering procs ctx j (fuel + 1) (.call l) rest a := h

theorem withGoal {f : Judgement → Tactic ι} (h : Offering procs ctx j fuel (f j) rest a) :
    Offering procs ctx j (fuel + 1) (.withGoal f) rest a := h

end Offering

theorem someOf_of_mem {refused : TacticError} {rs : List (Refinement (Tactic ι))}
    {r : Refinement (Tactic ι)} (hr : r ∈ rs) : someOf refused rs = .ok rs := by
  have hne : rs.isEmpty = false := by
    cases rs with
    | nil => cases hr
    | cons => rfl
  simp [someOf,hne]

theorem not_isArrow_of_constructors? {types : TypeTable} {t : Ty} {cs : List Constructor}
    (h : types.constructors? t = some cs) : t.isArrow = false := by
  cases t with
  | arrow d c => simp [TypeTable.constructors?,Ty.unapply?] at h
  | _ => rfl

namespace Offering

variable {procs : ι → Tactic ι} {pass : Judgement → Ty → Judgement} {ctx : Context} {j : Judgement}
  {fuel : Nat} {rest : List (Tactic ι)} {e : Entry} {c : Constructor} {cs : List Constructor}

theorem assumption (mem : e ∈ j.hypothesis.entries) (ty : e.ty = j.goal) (other : e.provenance ≠ .recursive) :
    Offering procs ctx j (fuel + 1) assumption rest ⟨some (.closed (.var e.name)),rest⟩ := by
  have hr := List.mem_map_of_mem (f := fun e : Entry => (.closed (.var e.name) : Refinement (Tactic ι)))
    (List.mem_filter (p := fun e => e.ty == j.goal && e.provenance != .recursive).2
      ⟨mem,by simp [ty,other]⟩)
  exact .rule (fun _ j => someOf (refusal "assumption" j) _) _ (someOf_of_mem hr) hr

theorem intros (domains : j.goal.domains ≠ []) : Offering procs ctx j (fuel + 1) intros rest
    ⟨some ⟨.lam (introducedNames j) (.hole 0),[⟨introduced j,none⟩]⟩,rest⟩ := by
  refine .rule _ [_] ?_ List.mem_cons_self
  dsimp only
  split
  next hd => exact absurd hd domains
  next => rfl

theorem splitWith (ctors : ctx.types.constructors? j.goal = some cs) (mem : c ∈ cs) :
    Offering procs ctx j (fuel + 1) (splitWith pass) rest
      ⟨some (argumentsWith pass j c.name c.fields),rest⟩ := by
  refine .rule _ (cs.map fun c => argumentsWith pass j c.name c.fields) ?_ (List.mem_map_of_mem mem)
  simp [ctors]

theorem applyWith (mem : e ∈ j.hypothesis.entries) (other : e.provenance ≠ .recursive)
    (arrow : e.ty.isArrow = true) (result : e.ty.result = j.goal) :
    Offering procs ctx j (fuel + 1) (applyWith pass) rest
      ⟨some (argumentsWith pass j e.name e.ty.domains),rest⟩ := by
  have hr := List.mem_map_of_mem (f := fun e : Entry => argumentsWith (ι := ι) pass j e.name e.ty.domains)
    (List.mem_filter (p := fun e => e.provenance != .recursive && e.ty.isArrow && e.ty.result == j.goal).2
      ⟨mem,by simp [other,arrow,result]⟩)
  exact .rule (fun _ j => someOf (refusal "apply" j) _) _ (someOf_of_mem hr) hr

theorem destructAny (mem : e ∈ splittable j) (ctors : ctx.types.constructors? e.ty = some cs) :
    Offering procs ctx j (fuel + 3) destructAny rest
      ⟨some (splitOn (.case (.var e.name)) j (some e.name) j.goal cs openBranch),rest⟩ := by
  have hfind : j.hypothesis.find? e.name = some e := Hypothesis.find?_of_mem (mem_splittable.1 mem).1
  have hmem := List.mem_map_of_mem (f := fun e : Entry => destruct (ι := ι) e.name)
    (List.mem_filter (p := fun e => !e.ty.isArrow).2 ⟨mem,by simp [not_isArrow_of_constructors? ctors]⟩)
  refine .withGoal (.choice hmem (.rule _ [_] ?_ List.mem_cons_self))
  simp [lookup,hfind,constructorsFor,ctors,bind,Except.bind,pure,Except.pure]

theorem homomorphismAny (mem : e ∈ splittable j) (ty : e.ty = j.goal)
    (ctors : ctx.types.constructors? e.ty = some cs) :
    Offering procs ctx j (fuel + 3) homomorphismAny rest
      ⟨some (splitOn (.case (.var e.name)) j (some e.name) j.goal cs (rebuild (some e.name))),rest⟩ := by
  have hfind : j.hypothesis.find? e.name = some e := Hypothesis.find?_of_mem (mem_splittable.1 mem).1
  have hmem := List.mem_map_of_mem (f := fun e : Entry => homomorphism (ι := ι) e.name)
    (List.mem_filter (p := fun e => e.ty == j.goal).2 ⟨mem,by simp [ty]⟩)
  refine .withGoal (.choice hmem (.rule _ [_] ?_ List.mem_cons_self))
  rw [ty] at ctors
  simp [lookup,hfind,ty,constructorsFor,ctors,bind,Except.bind,pure,Except.pure]

end Offering

end

/-- The automatic tactic offers all listed moves: they lie within the nesting that is opened up. -/
theorem AutoMove.offered {κ : Type} {pass : Judgement → Ty → Judgement} {own : κ → Tactic (Label κ)}
    {ctx : Context} {j : Judgement} {a : Alternative (Label κ)} (h : AutoMove pass ctx j a) :
    Offering (bodiesWith pass own) ctx j (maxNesting + 1) auto [] a := by
  have hauto {t : Tactic (Label κ)} (ht : t ∈ [assumption,andThen intros auto,andThen (splitWith pass) auto,
      andThen homomorphismAny auto,andThen destructAny auto,andThen (applyWith pass) auto])
      (h : Offering (bodiesWith pass own) ctx j 511 t [] a) :
      Offering (bodiesWith pass own) ctx j (maxNesting + 1) auto [] a :=
    .call (.choice ht h)
  cases h with
  | entry mem ty other => exact hauto (by simp) (.assumption mem ty other)
  | lam domains => exact hauto (t := .andThen intros auto) (by simp) (.andThen (.intros domains))
  | constructor ctors mem =>
    exact hauto (t := .andThen (splitWith pass) auto) (by simp) (.andThen (.splitWith ctors mem))
  | function mem other arrow result =>
    exact hauto (t := .andThen (applyWith pass) auto) (by simp)
      (.andThen (.applyWith mem other arrow result))
  | destruct mem ctors =>
    exact hauto (t := .andThen destructAny auto) (by simp) (.andThen (.destructAny mem ctors))
  | homomorphism mem ty ctors =>
    exact hauto (t := .andThen homomorphismAny auto) (by simp) (.andThen (.homomorphismAny mem ty ctors))

end Tactic

open TypedHole.Tactic

section

variable {κ : Type} {pass : Judgement → Ty → Judgement} {own : κ → Tactic (Label κ)} {ctx : Context}
  {bound : Nat} {g : Goal (Label κ)} {a : Alternative (Label κ)}

/-- A goal on which nothing but the automatic tactic is to run. -/
structure Goal.IsAuto (g : Goal (Label κ)) : Prop where
  tactic : g.tactic = auto
  rest : g.rest = []

theorem Goal.IsAuto.move (hg : g.IsAuto) {as : List (Alternative (Label κ))}
    (outcome : (g.expansion (bodiesWith pass own) ctx bound).outcome = .ok as) (mem : a ∈ as) :
    g.depth < bound ∧ AutoMove pass ctx g.judgement a := by
  have hmove : AutoMove pass ctx g.judgement a := by
    rw [Goal.expansion,hg.tactic,hg.rest] at outcome
    have hyields : Yields (bodiesWith pass own) ctx g.judgement auto [] a := ⟨_,_,as,outcome,mem⟩
    exact hyields.of_auto
  refine ⟨Nat.lt_of_not_le fun hle => ?_,hmove⟩
  exact hmove.isSome (Goal.refinement_of_spent outcome hle a mem)

/-- What holds of what grows for the automatic tactic holds of what has been derived for the subgoals without a
tactic of their own. -/
theorem forall₂_handOut {R : Goal (Label κ) ⊕ Judgement → Growth → Prop}
    {S : Judgement → Derivation → Prop} {depth : Nat} {ss : List (Subgoal (Tactic (Label κ)))}
    {qs : List Growth} (hS : ∀ j p, R (.inl ⟨0,j,auto,[],depth⟩) p → S j p.derivation)
    (h : List.Forall₂ R (ss.map fun s => Draft.schedule 0 s [auto] depth) qs) :
    List.Forall₂ (fun s d => s.tactic = none → S s.judgement d) ss (qs.map (·.derivation)) := by
  rw [List.forall₂_map_left_iff] at h
  rw [List.forall₂_map_right_iff]
  refine h.imp fun s q hq hs => hS s.judgement q ?_
  obtain ⟨j,t⟩ := s
  cases hs
  exact hq

end

end TypedHole
