import TypedHole.Proofs.JudgementGrowth
import TypedHole.Proofs.Loading
import TypedHole.Proofs.Soundness

/-! Guarded calls of the definition being written.
A call of the definition is guarded when it stands directly below a constructor that a branch rebuilds, takes
a field of that branch at one position and passes on the arguments of the definition at all others. `Guarded`
is the typing of terms that contain no other occurrence of the definition. Main statement: the automatic
tactic finds only such terms (`auto_guarded`). -/
namespace TypedHole

structure Scope.Fresh (Γ : Scope) (xs : List Name) (ts : List Ty) : Prop where
  distinct : xs.Nodup
  new : ∀ x ∈ xs, Γ x = none
  length : xs.length = ts.length

/-- The arguments of a call that takes one of the fields just matched: a field of the type that the
definition results in at one position, and what may be passed on at all others. -/
structure TakesField (r : Entry) (passes : Nat → Name → Prop) (fields : List (Name × Ty))
    (args : List Term) : Prop where
  length : args.length = r.ty.domains.length
  taken : ∃ (p : Nat) (x : Name), args[p]? = some (.var x) ∧ (x,r.ty.result) ∈ fields ∧
    ∀ i u, i ≠ p → args[i]? = some u → ∃ y, u = .var y ∧ passes i y

mutual

/-- The typing of terms without holes in which the definition being written, `r`, occurs in guarded calls
only. -/
inductive Guarded (types : TypeTable) (r : Entry) (passes : Nat → Name → Prop) : Scope → Term → Ty → Prop
  | var {Γ : Scope} {x : Name} {t : Ty} (other : x ≠ r.name)
      (typed : HasType types (fun _ => none) Γ (.var x) t) : Guarded types r passes Γ (.var x) t
  | app {Γ : Scope} {f a : Term} {s t : Ty} (fn : Guarded types r passes Γ f (.arrow s t))
      (arg : Guarded types r passes Γ a s) : Guarded types r passes Γ (.app f a) t
  | lam {Γ : Scope} {xs : List Name} {b : Term} {t : Ty} (domains : t.domains ≠ [])
      (fresh : Γ.Fresh xs t.domains)
      (body : Guarded types r passes (Γ.bindAll (xs.zip t.domains)) b t.result) :
      Guarded types r passes Γ (.lam xs b) t
  | case {Γ : Scope} {s : Term} {as : List (Alt Term)} {cs : List Constructor} {u t : Ty}
      (scrutinee : Guarded types r passes Γ s u) (ctors : types.constructors? u = some cs)
      (alts : GuardedAlts types r passes Γ as cs t) : Guarded types r passes Γ (.case s as) t

/-- One alternative for each constructor. Where an alternative rebuilds its constructor, calls may take the
fields that it binds. -/
inductive GuardedAlts (types : TypeTable) (r : Entry) (passes : Nat → Name → Prop) :
    Scope → List (Alt Term) → List Constructor → Ty → Prop
  | nil {Γ : Scope} {t : Ty} : GuardedAlts types r passes Γ [] [] t
  | cons {Γ : Scope} {c : Constructor} {xs : List Name} {b : Term} {as : List (Alt Term)}
      {cs : List Constructor} {t : Ty} (fresh : Γ.Fresh xs c.fields)
      (body : Guarded types r passes (Γ.bindAll (xs.zip c.fields)) b t)
      (alts : GuardedAlts types r passes Γ as cs t) :
      GuardedAlts types r passes Γ (⟨c.name,xs,b⟩ :: as) (c :: cs) t
  | rebuilt {Γ : Scope} {c : Constructor} {xs : List Name} {args : List Term} {as : List (Alt Term)}
      {cs : List Constructor} {t : Ty} (fresh : Γ.Fresh xs c.fields)
      (head : Guarded types r passes (Γ.bindAll (xs.zip c.fields)) (.var c.name) (.arrows c.fields t))
      (parts : GuardedArgs types r passes (xs.zip c.fields) (Γ.bindAll (xs.zip c.fields)) args c.fields)
      (alts : GuardedAlts types r passes Γ as cs t) :
      GuardedAlts types r passes Γ (⟨c.name,xs,(Term.var c.name).apply args⟩ :: as) (c :: cs) t

/-- The arguments of a rebuilt constructor, calls among them. -/
inductive GuardedArgs (types : TypeTable) (r : Entry) (passes : Nat → Name → Prop) :
    List (Name × Ty) → Scope → List Term → List Ty → Prop
  | nil {fields : List (Name × Ty)} {Γ : Scope} : GuardedArgs types r passes fields Γ [] []
  | cons {fields : List (Name × Ty)} {Γ : Scope} {a : Term} {as : List Term} {t : Ty} {ts : List Ty}
      (arg : Guarded types r passes Γ a t) (args : GuardedArgs types r passes fields Γ as ts) :
      GuardedArgs types r passes fields Γ (a :: as) (t :: ts)
  | call {fields : List (Name × Ty)} {Γ : Scope} {us as : List Term} {ts : List Ty}
      (call : TakesField r passes fields us) (args : GuardedArgs types r passes fields Γ as ts) :
      GuardedArgs types r passes fields Γ ((Term.var r.name).apply us :: as) (r.ty.result :: ts)

end

section

variable {types : TypeTable} {r : Entry} {passes : Nat → Name → Prop} {Γ : Scope} {t : Ty}

theorem Guarded.apply {f : Term} {as : List Term} {ss : List Ty}
    (hf : Guarded types r passes Γ f (.arrows ss t))
    (has : List.Forall₂ (fun a s => Guarded types r passes Γ a s) as ss) :
    Guarded types r passes Γ (f.apply as) t := by
  induction has generalizing f with
  | nil => exact hf
  | cons ha _ ih => exact ih (.app hf ha)

theorem Guarded.of_vars {as : List Term} {ss : List Ty}
    (h : List.Forall₂ (fun a s => HasType types (fun _ => none) Γ a s) as ss)
    (hvars : ∀ a ∈ as, ∃ x, a = .var x ∧ x ≠ r.name) :
    List.Forall₂ (fun a s => Guarded types r passes Γ a s) as ss := by
  induction h with
  | nil => exact .nil
  | cons ha _ ih =>
    obtain ⟨x,rfl,hx⟩ := hvars _ List.mem_cons_self
    exact .cons (.var hx ha) (ih fun a ha => hvars a (List.mem_cons_of_mem _ ha))

theorem Guarded.entry {h : Hypothesis} {e : Entry} (he : e ∈ h.entries) (hr : r ∈ h.entries)
    (hother : e.provenance ≠ r.provenance) : Guarded types r passes h.types (.var e.name) e.ty :=
  .var (Hypothesis.name_ne_of_provenance he hr hother) (.entry (Hypothesis.types_of_mem he))

theorem Guarded.ofConstructor (hctor : types.owner? r.name = none) {cs : List Constructor} {c : Constructor}
    (hcs : types.constructors? t = some cs) (hc : c ∈ cs) :
    Guarded types r passes Γ (.var c.name) (.arrows c.fields t) := by
  have hname : c.name ≠ r.name := by
    intro hname
    have howner := TypeTable.owner?_of_constructors? hcs hc
    rw [hname,hctor] at howner
    cases howner
  exact .var hname (.ofConstructor hcs hc)

def GuardedAlt (types : TypeTable) (r : Entry) (passes : Nat → Name → Prop) (Γ : Scope) (t : Ty)
    (c : Constructor) (alt : Alt Term) : Prop :=
  ∀ as cs, GuardedAlts types r passes Γ as cs t → GuardedAlts types r passes Γ (alt :: as) (c :: cs) t

theorem GuardedAlts.of_forall₂ {cs : List Constructor} {as : List (Alt Term)}
    (h : List.Forall₂ (GuardedAlt types r passes Γ t) cs as) : GuardedAlts types r passes Γ as cs t := by
  induction h with
  | nil => exact .nil
  | cons hfirst _ ih => exact hfirst _ _ ih

def GuardedArg (types : TypeTable) (r : Entry) (passes : Nat → Name → Prop) (fields : List (Name × Ty))
    (Γ : Scope) (t : Ty) (a : Term) : Prop :=
  Guarded types r passes Γ a t ∨
    ∃ us, a = (Term.var r.name).apply us ∧ t = r.ty.result ∧ TakesField r passes fields us

theorem GuardedArgs.of_forall₂ {fields : List (Name × Ty)} {ts : List Ty} {as : List Term}
    (h : List.Forall₂ (GuardedArg types r passes fields Γ) ts as) :
    GuardedArgs types r passes fields Γ as ts := by
  induction h with
  | nil => exact .nil
  | cons hfirst _ ih =>
    rcases hfirst with harg | ⟨us,rfl,rfl,hcall⟩
    · exact .cons harg ih
    · exact .call hcall ih

end

/-! What stays known of the definition. -/

theorem Hypothesis.fresh_freshList (h : Hypothesis) (ts : List Ty) :
    h.types.Fresh ((NameSupply.ofHypothesis h).freshList ts).1 ts where
  distinct := NameSupply.nodup_freshList ..
  new x hx := types_eq_none (NameSupply.freshList_not_mem _ _ x hx)
  length := NameSupply.length_freshList ..

namespace Judgement

variable {j k : Judgement} {r : Entry}

/-- What the definition passes on at a position: an entry that stands for its argument there. -/
def Passes (j : Judgement) (r : Entry) (i : Nat) (x : Name) : Prop :=
  ∃ e ∈ j.hypothesis.entries, e.name = x ∧ e.provenance = .argument r.name i

/-- A judgement knows the definition being written, and its arguments only from another judgement. -/
structure Keeps (j : Judgement) (r : Entry) (k : Judgement) : Prop where
  mem : r ∈ k.hypothesis.entries
  passed : ∀ e ∈ k.hypothesis.entries, ∀ i, e.provenance = .argument r.name i → e ∈ j.hypothesis.entries

theorem Keeps.refl (hr : r ∈ j.hypothesis.entries) : j.Keeps r j := ⟨hr,fun _ he _ _ => he⟩

theorem Keeps.of_hypothesis {k' : Judgement} (h : j.Keeps r k) (hsame : k'.hypothesis = k.hypothesis) :
    j.Keeps r k' := by
  refine ⟨?_,?_⟩
  · rw [hsame]
    exact h.mem
  · rw [hsame]
    exact h.passed

end Judgement

namespace Tactic

variable {j k : Judgement} {r : Entry}

theorem keeps_introduced (h : j.Keeps r k) : j.Keeps r (introduced k) := by
  refine ⟨mem_introduced_of_mem h.mem,fun e he i hp => ?_⟩
  rcases mem_introduced he with he | huser
  · exact h.passed e he i hp
  · rw [huser] at hp
    cases hp

theorem keeps_branch (h : j.Keeps r k) (scrutinee : Option Name) (goal : Ty) (c : Constructor) :
    j.Keeps r (branch k scrutinee goal c).judgement := by
  refine ⟨mem_branch_of_mem h.mem,fun e he i hp => ?_⟩
  rcases mem_branch he with he | ⟨n,hfield⟩
  · exact h.passed e he i hp
  · rw [hfield] at hp
    cases hp

section

variable {types : TypeTable} {scrutinee : Option Name} {goal : Ty} {c : Constructor}

theorem RecursiveCall.takesField {x : Name} {t : Ty} {position : Nat} {args : List Term}
    (h : RecursiveCall k scrutinee x t r position args) (hk : j.Keeps r k) {fields : List (Name × Ty)}
    (hx : (x,t) ∈ fields) : TakesField r (j.Passes r) fields args := by
  refine ⟨h.length,position,x,h.taken,?_,fun i u hi hu => ?_⟩
  · rw [h.result]
    exact hx
  · obtain ⟨e,he,hprovenance,rfl⟩ := h.mem_of_passed hi hu
    exact ⟨e.name,rfl,e,hk.passed e he i hprovenance,rfl,hprovenance⟩

theorem RecursiveCall.guarded {passes : Nat → Name → Prop} {x : Name} {t : Ty} {f : Entry} {position : Nat}
    {args : List Term} (h : RecursiveCall k scrutinee x t f position args) (hf : f ≠ r)
    (hr : r ∈ k.hypothesis.entries) (hrec : r.provenance = .recursive) (hx : x ≠ r.name)
    (htype : k.hypothesis.types x = some t) :
    Guarded types r passes k.hypothesis.types ((Term.var f.name).apply args) t := by
  have hname : f.name ≠ r.name := by
    intro hname
    have hfind := Hypothesis.find?_of_mem (List.mem_of_find?_eq_some h.entry)
    rw [hname,Hypothesis.find?_of_mem hr] at hfind
    exact hf (Option.some.inj hfind).symm
  have hhead : HasType types (fun _ => none) k.hypothesis.types (.var f.name) (.arrows f.ty.domains t) := by
    rw [← h.result,Ty.arrows_domains_result]
    exact typed_of_findProvenance? h.entry
  have hvars : ∀ u ∈ args, ∃ y, u = .var y ∧ y ≠ r.name := by
    intro u hu
    rcases h.var hu with hvar | ⟨e,he,i,hprovenance,hvar⟩
    · exact ⟨x,hvar,hx⟩
    · refine ⟨e.name,hvar,Hypothesis.name_ne_of_provenance he hr ?_⟩
      rw [hprovenance,hrec]
      simp
  exact (Guarded.var hname hhead).apply (Guarded.of_vars (h.typed htype) hvars)

/-- Each part of a rebuilt constructor is a field, a call of another definition, or a guarded call. -/
theorem Rebuilt.guarded {p : Name × Ty} {t : Term}
    (h : Rebuilt (branch k scrutinee goal c).judgement scrutinee p t)
    (hp : p ∈ (branch k scrutinee goal c).binders.zip c.fields) (hk : j.Keeps r k)
    (hrec : r.provenance = .recursive) :
    GuardedArg types r (j.Passes r) ((branch k scrutinee goal c).binders.zip c.fields)
      (branch k scrutinee goal c).judgement.hypothesis.types p.2 t := by
  have htype := types_binder hp
  have hother : p.1 ≠ r.name := by
    intro hname
    have hbinder := (List.of_mem_zip hp).1
    rw [hname] at hbinder
    exact not_mem_binders hk.mem hbinder
  rcases h with rfl | ⟨-,h⟩
  · exact .inl (.var hother (.entry htype))
  · obtain ⟨f,position,args,rfl,hcall⟩ := recursiveCall?_eq_some h
    have hbranch := keeps_branch hk scrutinee goal c
    by_cases hf : f = r
    · subst hf
      exact .inr ⟨args,rfl,hcall.result.symm,hcall.takesField hbranch hp⟩
    · exact .inl (hcall.guarded hf hbranch.mem hrec hother htype)

theorem guardedArgs_of_rebuilt (types : TypeTable) {args : List Term}
    (h : List.Forall₂ (Rebuilt (branch k scrutinee goal c).judgement scrutinee)
      ((branch k scrutinee goal c).binders.zip c.fields) args)
    (hk : j.Keeps r k) (hrec : r.provenance = .recursive) :
    GuardedArgs types r (j.Passes r) ((branch k scrutinee goal c).binders.zip c.fields)
      (branch k scrutinee goal c).judgement.hypothesis.types args c.fields := by
  have htypes : ((branch k scrutinee goal c).binders.zip c.fields).map (·.2) = c.fields :=
    List.map_snd_zip (Nat.le_of_eq (length_binders ..).symm)
  obtain ⟨hlength,hzip⟩ := List.forall₂_iff_zip.1 h
  have hparts : List.Forall₂ (GuardedArg types r (j.Passes r)
      ((branch k scrutinee goal c).binders.zip c.fields)
      (branch k scrutinee goal c).judgement.hypothesis.types)
      (((branch k scrutinee goal c).binders.zip c.fields).map (·.2)) args := by
    rw [List.forall₂_map_left_iff]
    refine List.forall₂_iff_zip.2 ⟨hlength,fun {p t} hmem => ?_⟩
    exact (hzip hmem).guarded (List.of_mem_zip hmem).1 hk hrec
  rw [htypes] at hparts
  exact .of_forall₂ hparts

theorem Rebuilds.guarded {alt : Alt Term} (h : Rebuilds k scrutinee goal c alt) (hk : j.Keeps r k)
    (hrec : r.provenance = .recursive) (hctor : types.owner? r.name = none) {cs : List Constructor}
    (hcs : types.constructors? goal = some cs) (hc : c ∈ cs) :
    GuardedAlt types r (j.Passes r) k.hypothesis.types goal c alt := by
  intro as' cs' hrest
  obtain ⟨hname,hbinders,args,hbody,hargs⟩ := h
  obtain ⟨name,binders,body⟩ := alt
  cases hname
  cases hbinders
  cases hbody
  have hparts := guardedArgs_of_rebuilt types hargs hk hrec
  rw [types_branch] at hparts
  exact .rebuilt (Hypothesis.fresh_freshList ..) (.ofConstructor hctor hcs hc) hparts hrest

end

end Tactic

open TypedHole.Tactic

section

variable {κ : Type} {own : κ → Tactic (Label κ)} {procs : Label κ → Tactic (Label κ)} {ctx : Context}
  {bound : Nat} {j : Judgement} {r : Entry}

/-- What has been derived for a judgement that keeps the definition is guarded. -/
def Judgement.Guards (j : Judgement) (ctx : Context) (r : Entry) (k : Judgement) (d : Derivation) : Prop :=
  j.Keeps r k → Guarded ctx.types r (j.Passes r) k.hypothesis.types d.term k.goal

def Goal.Guards (j : Judgement) (ctx : Context) (r : Entry) : Goal (Label κ) ⊕ Judgement → Growth → Prop
  | .inl g, p => g.IsAuto → j.Guards ctx r g.judgement p.derivation
  | .inr _, _ => True

theorem Judgement.guards_of_handOut {ss : List (Subgoal (Tactic (Label κ)))} {depth : Nat}
    {qs : List Growth}
    (h : List.Forall₂ (Goal.Guards j ctx r) (ss.map fun s => Draft.schedule 0 s [auto] depth) qs) :
    List.Forall₂ (fun s d => s.tactic = none → j.Guards ctx r s.judgement d) ss (qs.map (·.derivation)) :=
  forall₂_handOut (S := j.Guards ctx r) (fun _ _ hp => hp ⟨rfl,rfl⟩) h

theorem Tactic.guarded_argumentsOf {k : Judgement} {head : Name} {types : List Ty} {ds : List Derivation}
    (hkeeps : j.Keeps r k)
    (hhead : Guarded ctx.types r (j.Passes r) k.hypothesis.types (.var head) (.arrows types k.goal))
    (h : List.Forall₂ (fun s d => s.tactic = none → j.Guards ctx r s.judgement d)
      (argumentsOf (ι := Label κ) k head types).subgoals ds) :
    Guarded ctx.types r (j.Passes r) k.hypothesis.types
      (Derivation.plug (argumentsOf (ι := Label κ) k head types).extract ds).term k.goal := by
  have hterm : (Derivation.plug (argumentsOf (ι := Label κ) k head types).extract ds).term =
      (Term.var head).apply (ds.map (·.term)) := Derivation.plug_application h.length_eq.symm
  have hargs : List.Forall₂ (fun a s => Guarded ctx.types r (j.Passes r) k.hypothesis.types a s)
      (ds.map (·.term)) types := by
    rw [List.forall₂_map_left_iff]
    refine (List.forall₂_map_left_iff.1 h).flip.imp fun d t hd => ?_
    obtain ⟨hsame,hgoal⟩ := k.argument_fields t
    have hguarded := hd rfl (hkeeps.of_hypothesis hsame)
    rwa [hsame,hgoal] at hguarded
  rw [hterm]
  exact hhead.apply hargs

theorem Tactic.Filled.guarded {k : Judgement} {scrutinee : Option Name} {goal : Ty} {c : Constructor}
    {alt : Alt Term} (hkeeps : j.Keeps r k)
    (h : Filled (ι := Label κ) (fun s d => s.tactic = none → j.Guards ctx r s.judgement d) c.name
      (branch k scrutinee goal c).binders (openBranch (branch k scrutinee goal c)) alt) :
    GuardedAlt ctx.types r (j.Passes r) k.hypothesis.types goal c alt := by
  intro as' cs' hrest
  obtain ⟨hname,hbinders,vs,hvs,hbody⟩ := h
  obtain ⟨v,_,hv,hnil,rfl⟩ := List.forall₂_cons_left_iff.1 hvs
  cases hnil
  obtain ⟨name,binders,body⟩ := alt
  cases hname
  cases hbinders
  cases hbody
  have hbranch := hv rfl (keeps_branch hkeeps scrutinee goal c)
  rw [types_branch,branch_goal] at hbranch
  exact .cons (Hypothesis.fresh_freshList ..) hbranch hrest

theorem Tactic.AutoMove.guarded (hrec : r.provenance = .recursive) (hctor : ctx.types.owner? r.name = none)
    {g : Goal (Label κ)} {a : Alternative (Label κ)} {qs : List Growth}
    (h : AutoMove Judgement.argument ctx g.judgement a) (parts : Grows procs ctx bound (a.handOut g) qs)
    (hparts : List.Forall₂ (Goal.Guards j ctx r) (a.handOut g) qs) :
    j.Guards ctx r g.judgement (Growth.node a qs).derivation := by
  intro hkeeps
  have hentry {e : Entry} (he : e ∈ g.judgement.hypothesis.entries) (hother : e.provenance ≠ .recursive) :
      Guarded ctx.types r (j.Passes r) g.judgement.hypothesis.types (.var e.name) e.ty :=
    .entry he hkeeps.mem (hrec ▸ hother)
  have hlocal {e : Entry} (he : e ∈ splittable g.judgement) :
      Guarded ctx.types r (j.Passes r) g.judgement.hypothesis.types (.var e.name) e.ty := by
    have hsplit := mem_splittable.1 he
    refine hentry hsplit.1 fun hp => ?_
    rw [hp] at hsplit
    cases hsplit.2.1
  cases h with
  | @entry e mem ty other => exact ty ▸ hentry mem other
  | lam domains =>
    obtain ⟨d,ds,hd,hds,he⟩ := List.forall₂_cons_left_iff.1 (Judgement.guards_of_handOut hparts)
    have hbody := hd rfl (keeps_introduced hkeeps)
    rw [types_introduced] at hbody
    simp only [Growth.node,he]
    exact .lam domains (Hypothesis.fresh_freshList ..) hbody
  | constructor ctors mem =>
    exact guarded_argumentsOf hkeeps (.ofConstructor hctor ctors mem) (Judgement.guards_of_handOut hparts)
  | @function e mem other arrow result =>
    refine guarded_argumentsOf hkeeps ?_ (Judgement.guards_of_handOut hparts)
    rw [← result,Ty.arrows_domains_result]
    exact hentry mem other
  | @destruct e cs mem ctors =>
    obtain ⟨alts,hterm,halts⟩ := alts_splitOn (.case (.var e.name)) (fun _ _ => rfl) (fun _ => by rfl)
      (Judgement.guards_of_handOut hparts)
    have hcase := Guarded.case (hlocal mem) ctors (.of_forall₂ (halts.imp fun _ _ h => h.guarded hkeeps))
    rw [← hterm] at hcase
    exact hcase
  | @homomorphism e cs mem ty ctors =>
    obtain ⟨alts,hterm,halts⟩ := parts.rebuilt (.case (.var e.name)) (fun _ _ => rfl) rfl
    obtain ⟨hlength,hzip⟩ := List.forall₂_iff_zip.1 halts
    rw [hterm]
    refine .case (hlocal mem) ctors (.of_forall₂ (List.forall₂_iff_zip.2 ⟨hlength,fun hmem => ?_⟩))
    exact (hzip hmem).guarded hkeeps hrec hctor (ty ▸ ctors) (List.of_mem_zip hmem).1

theorem Grows.guarded (hrec : r.provenance = .recursive) (hctor : ctx.types.owner? r.name = none)
    {xs : List (Goal (Label κ) ⊕ Judgement)} {ps : List Growth} (h : Grows (bodies own) ctx bound xs ps) :
    List.Forall₂ (Goal.Guards j ctx r) xs ps := by
  induction h with
  | nil => exact .nil
  | unsolved _ ih => exact .cons trivial ih
  | node outcome mem parts _ ihparts ihothers =>
    refine .cons (fun hauto => ?_) ihothers
    rw [← bodiesWith_argument] at outcome
    exact (hauto.move outcome mem).2.guarded hrec hctor parts ihparts

end

/-- In whatever the automatic tactic finds, a recursive entry whose name is no constructor occurs in guarded
calls only, which pass on the entries for its arguments. -/
theorem auto_guarded {κ : Type} {own : κ → Tactic (Label κ)} {ctx : Context} {cfg : Config} {j : Judgement}
    {r : Entry} (hr : r ∈ j.hypothesis.entries) (hrec : r.provenance = .recursive)
    (hctor : ctx.types.owner? r.name = none) {ds : List Derivation}
    (h : search (bodies own) cfg ctx j auto = .ok ds) :
    ∀ d ∈ ds, Guarded ctx.types r (j.Passes r) j.hypothesis.types d.term j.goal := by
  intro d hd
  obtain ⟨bound,p,hp,hterm⟩ := grows_of_auto h hd
  obtain ⟨hroot,-⟩ := List.forall₂_cons.1 (hp.guarded (j := j) hrec hctor)
  have hauto : (Goal.root j auto : Goal (Label κ)).IsAuto := ⟨rfl,rfl⟩
  have hguarded := hroot hauto (.refl hr)
  rw [hterm]
  exact hguarded

def Entry.ofAdd : Entry := ⟨"add",.arrows [.const "N",.const "N"] (.const "N"),.recursive⟩

def Judgement.ofAdd : Judgement where
  goal := .const "N"
  hypothesis := .ofList [.ofAdd,⟨"x",.const "N",.argument "add" 0⟩,⟨"y",.const "N",.argument "add" 1⟩]

/-- Recursion over the second argument passes on the first one. -/
theorem auto_guarded_add :
    ∃ ds, search (bodies Empty.elim) { extensions := .none } ⟨[],.empty,.nat⟩ .ofAdd auto = .ok ds ∧
      ∃ d ∈ ds, d.term = .case (.var "y") [⟨"Z",[],.var "Z"⟩,
          ⟨"S",["n"],.app (.var "S") (.app (.app (.var "add") (.var "x")) (.var "n"))⟩] ∧
        Guarded .nat .ofAdd (Judgement.ofAdd.Passes .ofAdd) Judgement.ofAdd.hypothesis.types d.term
          (.const "N") := by
  obtain ⟨ds,hsearch,d,hd,hterm⟩ : ∃ ds, search (bodies Empty.elim) { extensions := .none }
      ⟨[],.empty,.nat⟩ .ofAdd auto = .ok ds ∧ ∃ d ∈ ds, d.term = .case (.var "y") [⟨"Z",[],.var "Z"⟩,
        ⟨"S",["n"],.app (.var "S") (.app (.app (.var "add") (.var "x")) (.var "n"))⟩] :=
    ⟨_,rfl,_,.tail _ (.tail _ (.tail _ (.tail _ (.head _)))),rfl⟩
  have hmem : Entry.ofAdd ∈ Judgement.ofAdd.hypothesis.entries := by decide
  exact ⟨ds,hsearch,d,hd,hterm,auto_guarded hmem rfl (by decide) hsearch d hd⟩

end TypedHole
