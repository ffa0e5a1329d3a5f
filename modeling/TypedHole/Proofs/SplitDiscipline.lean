import TypedHole.Proofs.AutoMoves

/-! The normal form of automatic fills.
A term is disciplined when each application has a variable at its head and each case split is on a
variable that has been bound or given for that purpose: no argument splits what is in scope outside, and
no branch splits the same variable again. Main statement: whatever the automatic tactic finds is
disciplined from the splittable entries on (`auto_disciplined`). -/
namespace TypedHole
namespace Term

/-- Whether a term is a variable applied to any number of arguments. -/
def isNeutral : Term → Bool
  | var _ => true
  | app f _ => f.isNeutral
  | _ => false

mutual

/-- Whether a term without holes and unnamed splits keeps to the variables that may be split. -/
def disciplined : List Name → Term → Bool
  | _, var _ => true
  | splittable, app f a => f.isNeutral && f.disciplined splittable && a.disciplined []
  | splittable, lam xs b => b.disciplined (splittable ++ xs)
  | splittable, case (var x) as =>
    splittable.contains x && disciplinedAlts (splittable.filter (· ≠ x)) as
  | _, _ => false

def disciplinedAlts : List Name → List (Alt Term) → Bool
  | _, [] => true
  | splittable, ⟨_,xs,b⟩ :: as => b.disciplined (splittable ++ xs) && disciplinedAlts splittable as

end

theorem holes_of_disciplined {xs : List Name} (t : Term) (h : t.disciplined xs) : t.holes = [] := by
  refine induct (P := fun t => ∀ xs, t.disciplined xs → t.holes = [])
    (Q := fun as => ∀ xs, disciplinedAlts xs as → holesAlts as = [])
    ?var ?app ?lam ?case ?lamCase ?hole ?nil ?cons t xs h
  case var => intros; rfl
  case app =>
    intro f a hf ha xs h
    simp only [disciplined,Bool.and_eq_true] at h
    rw [holes,hf xs h.1.2,ha [] h.2]
    rfl
  case lam => exact fun ys b hb xs h => hb _ h
  case case =>
    intro s as _ has xs h
    cases s with
    | var x =>
      simp only [disciplined,Bool.and_eq_true] at h
      exact has _ h.2
    | _ => cases h
  case lamCase => exact fun as _ xs h => by cases h
  case hole => exact fun i xs h => by cases h
  case nil => intros; rfl
  case cons =>
    intro c ys b as hb has xs h
    simp only [disciplinedAlts,Bool.and_eq_true] at h
    rw [holesAlts,hb _ h.1,has _ h.2]
    rfl

theorem disciplined_apply (xs : List Name) {f : Term} (hf : f.isNeutral) (as : List Term) :
    (f.apply as).disciplined xs = (f.disciplined xs && as.all (·.disciplined [])) := by
  induction as generalizing f with
  | nil => simp
  | cons a as ih =>
    rw [apply_cons,ih (f := .app f a) hf,disciplined,hf,Bool.true_and,List.all_cons,Bool.and_assoc]

theorem disciplinedAlts_of_forall {xs : List Name} {as : List (Alt Term)}
    (h : ∀ a ∈ as, a.body.disciplined (xs ++ a.binders)) : disciplinedAlts xs as := by
  induction as with
  | nil => rfl
  | cons a as ih =>
    obtain ⟨c,ys,b⟩ := a
    rw [disciplinedAlts,h ⟨c,ys,b⟩ (by simp),ih fun a ha => h a (by simp [ha])]
    rfl

end Term

theorem NameSet.mem_place_iff {x y : Name} {ys : List Name} : y ∈ place x ys ↔ y = x ∨ y ∈ ys := by
  refine ⟨mem_place,fun h => ?_⟩
  induction ys with
  | nil => simpa [place] using h
  | cons z zs ih =>
    simp only [place]
    split
    next => simpa using h
    next nlt =>
      split
      next =>
        rcases h with h | h
        · exact List.mem_cons_of_mem _ (ih (.inl h))
        · rcases List.mem_cons.1 h with rfl | h
          · exact List.mem_cons_self
          · exact List.mem_cons_of_mem _ (ih (.inr h))
      next nlt' =>
        rcases h with rfl | h
        · rw [Hypothesis.name_eq_of_not_lt nlt nlt']
          exact List.mem_cons_self
        · exact h

namespace Judgement

variable {j : Judgement} {e : Entry}

theorem isDestructed_withDestructed (j : Judgement) (x y : Name) :
    (j.withDestructed x).isDestructed y = true ↔ y = x ∨ j.isDestructed y = true := by
  simp only [isDestructed,withDestructed,NameSet.contains,NameSet.insert,List.contains_iff_mem,
    NameSet.mem_place_iff]

theorem isDestructed_argument_iff {t : Ty} {x : Name} :
    (j.argument t).isDestructed x = true ↔ (∃ e ∈ j.locals, e.name = x) ∨ j.isDestructed x = true := by
  have hfold (es : List Entry) (k : Judgement) :
      (es.foldl (fun arg e => arg.withDestructed e.name) k).isDestructed x = true ↔
        (∃ e ∈ es, e.name = x) ∨ k.isDestructed x = true := by
    induction es generalizing k with
    | nil => simp
    | cons a as ih =>
      have hfirst : (∃ e ∈ a :: as, e.name = x) ↔ a.name = x ∨ ∃ e ∈ as, e.name = x := by simp
      rw [List.foldl_cons,ih,isDestructed_withDestructed,hfirst,eq_comm (a := x),or_left_comm,or_assoc]
  exact hfold _ _

theorem isDestructed_argument {t : Ty} (h : e ∈ j.locals) : (j.argument t).isDestructed e.name :=
  isDestructed_argument_iff.2 (.inl ⟨e,h,rfl⟩)

end Judgement

namespace Tactic

def Allows (xs : List Name) (j : Judgement) : Prop := ∀ e ∈ splittable j, e.name ∈ xs

/-- Nothing that is in scope outside is split inside an argument. -/
theorem allows_argument (j : Judgement) (t : Ty) : Allows [] (j.argument t) := by
  intro e he
  obtain ⟨hmem,hlocal,hnot⟩ := mem_splittable.1 he
  rw [(j.argument_fields t).1] at hmem
  exact absurd (Judgement.isDestructed_argument (List.mem_filter.2 ⟨hmem,hlocal⟩)) hnot

theorem Allows.withEntries {xs ys : List Name} {j : Judgement} (h : Allows xs j) (goal : Ty)
    {es : List Entry} (hes : ∀ e ∈ es, e.name ∈ ys) : Allows (xs ++ ys) ((j.subgoal goal).withEntries es) := by
  intro e he
  obtain ⟨hmem,hlocal,hnot⟩ := mem_splittable.1 he
  rcases Hypothesis.mem_extend hmem with hmem | hmem
  · exact List.mem_append.2 (.inl (h e (mem_splittable.2 ⟨hmem,hlocal,hnot⟩)))
  · exact List.mem_append.2 (.inr (hes e hmem))

/-- A branch may split the fields that it binds, but the scrutinee no more. -/
theorem Allows.branch {xs : List Name} {j : Judgement} (h : Allows xs j) (x : Name) (goal : Ty)
    (c : Constructor) :
    Allows (xs.filter (· ≠ x) ++ (branch j (some x) goal c).binders)
      (branch j (some x) goal c).judgement := by
  intro e he
  obtain ⟨hmem,hlocal,hnot⟩ := mem_splittable.1 he
  obtain ⟨hne,hnot⟩ := not_or.1 (mt (Judgement.isDestructed_withDestructed _ _ _).2 hnot)
  have hfields : ∀ e ∈ fieldEntries (some x) c (Tactic.branch j (some x) goal c).binders,
      e.name ∈ (Tactic.branch j (some x) goal c).binders := by
    intro e he
    have hname := List.mem_map_of_mem (f := (·.name)) he
    rwa [fieldEntries_names] at hname
  rcases List.mem_append.1 (h.withEntries goal hfields e (mem_splittable.2 ⟨hmem,hlocal,hnot⟩)) with hin | hin
  · exact List.mem_append.2 (.inl (List.mem_filter.2 ⟨hin,by simpa using hne⟩))
  · exact List.mem_append.2 (.inr hin)

end Tactic

open TypedHole.Tactic

theorem Tactic.Rebuilt.disciplined {j : Judgement} {scrutinee : Option Name} {field : Name × Ty} {t : Term}
    (h : Rebuilt j scrutinee field t) : t.disciplined [] := by
  rcases h with rfl | ⟨-,hc⟩
  · rfl
  · obtain ⟨head,args,rfl,hargs⟩ := recursiveCall?_vars hc
    have hvars : ∀ u ∈ args, u.disciplined [] = true := by
      intro u hu
      obtain ⟨x,rfl⟩ := hargs u hu
      rfl
    rw [Term.disciplined_apply _ rfl,List.all_eq_true.2 hvars]
    rfl

variable {κ : Type} {own : κ → Tactic (Label κ)} {ctx : Context} {bound : Nat}

def AutoGoal (xs : List Name) : Goal (Label κ) ⊕ Judgement → Prop
  | .inl g => g.tactic = auto ∧ g.rest = [] ∧ Allows xs g.judgement
  | .inr _ => False

def Subgoal.Disciplined (s : Subgoal (Tactic (Label κ))) (d : Derivation) : Prop :=
  s.tactic = none → ∀ xs, Allows xs s.judgement → d.term.disciplined xs

theorem Subgoal.disciplined_of_handOut {ss : List (Subgoal (Tactic (Label κ)))} {depth : Nat}
    {qs : List Growth}
    (h : List.Forall₂ (fun x p => ∀ xs, AutoGoal xs x → p.derivation.term.disciplined xs)
      (ss.map fun s => Draft.schedule 0 s [auto] depth) qs) :
    List.Forall₂ Disciplined ss (qs.map (·.derivation)) :=
  forall₂_handOut (S := fun j d => ∀ xs, Allows xs j → d.term.disciplined xs)
    (fun _ _ hp xs hx => hp xs ⟨rfl,rfl,hx⟩) h

theorem Tactic.disciplined_argumentsOf {j : Judgement} {head : Name} {types : List Ty}
    {ds : List Derivation}
    (h : List.Forall₂ Subgoal.Disciplined (argumentsOf (ι := Label κ) j head types).subgoals ds)
    (names : List Name) :
    (Derivation.plug (argumentsOf (ι := Label κ) j head types).extract ds).term.disciplined names := by
  have hargs : ∀ d ∈ ds, d.term.disciplined [] = true :=
    forall_of_forall₂ (List.forall₂_map_left_iff.1 h) fun t d hd => hd rfl [] (allows_argument j t)
  have hterm : (Derivation.plug (argumentsOf (ι := Label κ) j head types).extract ds).term =
      (Term.var head).apply (ds.map (·.term)) := Derivation.plug_application h.length_eq.symm
  rw [hterm,Term.disciplined_apply _ rfl]
  simpa [Term.disciplined] using hargs

theorem Tactic.AutoMove.disciplined {procs : Label κ → Tactic (Label κ)} {g : Goal (Label κ)}
    {a : Alternative (Label κ)} {names : List Name} {qs : List Growth}
    (h : AutoMove Judgement.argument ctx g.judgement a)
    (hallows : Allows names g.judgement) (parts : Grows procs ctx bound (a.handOut g) qs)
    (hparts : List.Forall₂ (fun x p => ∀ xs, AutoGoal xs x → p.derivation.term.disciplined xs)
      (a.handOut g) qs) : (Growth.node a qs).derivation.term.disciplined names := by
  cases h with
  | entry => rfl
  | lam =>
    obtain ⟨d,ds,hd,hds,he⟩ := List.forall₂_cons_left_iff.1 (Subgoal.disciplined_of_handOut hparts)
    have hnames : ∀ e ∈ introducedEntries g.judgement, e.name ∈ introducedNames g.judgement :=
      fun e he => introducedEntries_names g.judgement ▸ List.mem_map_of_mem he
    have hbody := hd rfl _ (hallows.withEntries g.judgement.goal.result hnames)
    simp only [Growth.node,he]
    exact hbody
  | constructor => exact disciplined_argumentsOf (Subgoal.disciplined_of_handOut hparts) names
  | function => exact disciplined_argumentsOf (Subgoal.disciplined_of_handOut hparts) names
  | @destruct e cs hmem =>
    obtain ⟨alts,hterm,halts⟩ := alts_splitOn (.case (.var e.name)) (fun _ _ => rfl) (fun _ => by rfl)
      (Subgoal.disciplined_of_handOut hparts)
    refine (congrArg (Term.disciplined names) hterm).trans ?_
    rw [Term.disciplined,Term.disciplinedAlts_of_forall (forall_of_forall₂ halts fun c alt hfilled => ?_)]
    · simpa using hallows e hmem
    · obtain ⟨-,hbinders,vs,hvs,hbody⟩ := hfilled
      obtain ⟨v,_,hv,hnil,rfl⟩ := List.forall₂_cons_left_iff.1 hvs
      cases hnil
      rw [hbody,hbinders]
      exact hv rfl _ (hallows.branch e.name g.judgement.goal c)
  | @homomorphism e cs hmem =>
    obtain ⟨alts,hterm,halts⟩ := parts.rebuilt (.case (.var e.name)) (fun _ _ => rfl) rfl
    rw [hterm,Term.disciplined,
      Term.disciplinedAlts_of_forall (forall_of_forall₂ halts fun c alt hrebuilt => ?_)]
    · simpa using hallows e hmem
    · obtain ⟨-,-,args,hbody,hargs⟩ := hrebuilt
      rw [hbody,Term.disciplined_apply _ rfl,
        List.all_eq_true.2 (forall_of_forall₂ hargs fun _ _ h => h.disciplined)]
      rfl

/-- What grows for the automatic tactic is disciplined. -/
theorem Grows.disciplined {xs : List (Goal (Label κ) ⊕ Judgement)} {ps : List Growth}
    (h : Grows (bodies own) ctx bound xs ps) :
    List.Forall₂ (fun x p => ∀ names, AutoGoal names x → p.derivation.term.disciplined names) xs ps := by
  induction h with
  | nil => exact .nil
  | unsolved _ ih => exact .cons (fun _ h => h.elim) ih
  | @node g as a xs qs ps outcome mem parts _ ihparts ihothers =>
    refine .cons ?_ ihothers
    rintro names ⟨ht,hrest,hallows⟩
    have hauto : g.IsAuto := ⟨ht,hrest⟩
    rw [← bodiesWith_argument] at outcome
    exact (hauto.move outcome mem).2.disciplined hallows parts ihparts

theorem grows_of_auto {cfg : Config} {j : Judgement} {ds : List Derivation}
    (h : search (bodies own) cfg ctx j auto = .ok ds) {d : Derivation} (hd : d ∈ ds) :
    ∃ bound p, Grows (bodies own) ctx bound [.inl (.root j auto)] [p] ∧ d.term = p.derivation.term := by
  obtain ⟨bound,budget,left,f,he,rfl⟩ := found_of_search h
  obtain ⟨p,hp,hterm,-⟩ := grows_of_explore he hd
  obtain ⟨hroot,-⟩ := List.forall₂_cons.1 hp.disciplined
  have hdisciplined := hroot ((splittable j).map (·.name)) ⟨rfl,rfl,fun e he => List.mem_map_of_mem he⟩
  have hholes : d.term.holes = [] := by
    have := congrArg Term.holes hterm
    simpa [Term.holes_of_disciplined _ hdisciplined] using this
  exact ⟨bound,p,hp,by rwa [Term.blank_of_closed hholes] at hterm⟩

/-- Whatever the automatic tactic finds has no hole and is disciplined, where at first the entries bound in
the definition may be split, except those that have been split already. -/
theorem auto_disciplined {cfg : Config} {j : Judgement} {ds : List Derivation}
    (h : search (bodies own) cfg ctx j auto = .ok ds) :
    ∀ d ∈ ds, d.term.holes = [] ∧ d.term.disciplined
      ((j.hypothesis.entries.filter fun e => e.provenance.isLocal && !j.isDestructed e.name).map (·.name)) := by
  obtain ⟨bound,budget,left,f,he,rfl⟩ := found_of_search h
  intro d hd
  obtain ⟨p,hp,hterm,-⟩ := grows_of_explore he hd
  obtain ⟨hroot,-⟩ := List.forall₂_cons.1 hp.disciplined
  have hallows : Allows ((j.hypothesis.entries.filter fun e =>
      e.provenance.isLocal && !j.isDestructed e.name).map (·.name)) j := by
    intro e he
    refine List.mem_map_of_mem (List.mem_filter.2 ?_)
    simpa using mem_splittable.1 he
  have hterm' := hroot _ ⟨rfl,rfl,hallows⟩
  have hholes : d.term.holes = [] := by
    have := congrArg Term.holes hterm
    simpa [Term.holes_of_disciplined _ hterm'] using this
  refine ⟨hholes,?_⟩
  rwa [← hterm,Term.blank_of_closed hholes] at hterm'

def TypeTable.pair : TypeTable where
  datatypes := [⟨"P",[],[⟨"Q",[.const "A",.const "B"]⟩]⟩]

def Judgement.ofPair : Judgement where
  goal := .const "A"
  hypothesis := .ofList [⟨"p",.const "P",.user⟩]

theorem auto_disciplined_pair :
    ∃ d, search (bodies Empty.elim) { extensions := .none } ⟨[],.empty,.pair⟩ .ofPair auto = .ok [d] ∧
      d.term = .case (.var "p") [⟨"Q",["a","b"],.var "a"⟩] ∧ d.term.disciplined ["p"] := by
  obtain ⟨d,hsearch,hterm⟩ : ∃ d,
      search (bodies Empty.elim) { extensions := .none } ⟨[],.empty,.pair⟩ .ofPair auto = .ok [d] ∧
      d.term = .case (.var "p") [⟨"Q",["a","b"],.var "a"⟩] := ⟨_,rfl,rfl⟩
  exact ⟨d,hsearch,hterm,(auto_disciplined hsearch d (List.mem_singleton_self d)).2⟩

end TypedHole
