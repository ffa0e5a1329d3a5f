import TypedHole.Proofs.JudgementGrowth

/-! Binders that capture nothing.
Main statements: no binder of what the library derives captures a name (`Grows.apart`); this holds with the
growth of judgements throughout every exploration (`judgements_grow`). -/
namespace TypedHole

variable {ι : Type}

namespace Term

/-- Whether names are distinct and none of them is taken. -/
def newNames (taken xs : List Name) : Bool := decide (xs.Nodup ∧ ∀ x ∈ xs, x ∉ taken)

mutual

/-- Whether all binders are new where they stand: distinct, none of the taken names and none of the binders
around them. -/
def apart : List Name → Term → Bool
  | _, var _ => true
  | taken, app f a => f.apart taken && a.apart taken
  | taken, lam xs b => newNames taken xs && b.apart (taken ++ xs)
  | taken, case s as => s.apart taken && apartAlts taken as
  | taken, lamCase as => apartAlts taken as
  | _, hole _ => true

def apartAlts : List Name → List (Alt Term) → Bool
  | _, [] => true
  | taken, ⟨_,xs,b⟩ :: as => newNames taken xs && b.apart (taken ++ xs) && apartAlts taken as

end

theorem newNames_mono {taken taken' xs : List Name} (hsub : taken' ⊆ taken) (h : newNames taken xs) :
    newNames taken' xs := by
  have hnew := of_decide_eq_true h
  exact decide_eq_true ⟨hnew.1,fun x hx hin => hnew.2 x hx (hsub hin)⟩

theorem apart_mono {taken taken' : List Name} (hsub : taken' ⊆ taken) (t : Term) (h : t.apart taken) :
    t.apart taken' := by
  have hmore {taken taken' : List Name} (xs : List Name) (hsub : taken' ⊆ taken) :
      taken' ++ xs ⊆ taken ++ xs := by
    intro x hx
    rcases List.mem_append.1 hx with hx | hx
    · exact List.mem_append.2 (.inl (hsub hx))
    · exact List.mem_append.2 (.inr hx)
  refine induct (P := fun t => ∀ taken taken', taken' ⊆ taken → t.apart taken → t.apart taken')
    (Q := fun as => ∀ taken taken', taken' ⊆ taken → apartAlts taken as → apartAlts taken' as)
    ?var ?app ?lam ?case ?lamCase ?hole ?nil ?cons t taken taken' hsub h
  case var => simp [apart]
  case hole => simp [apart]
  case nil => simp [apartAlts]
  case lamCase => exact fun as has taken taken' hsub h => has taken taken' hsub h
  case app =>
    intro f a hf ha taken taken' hsub h
    simp only [apart,Bool.and_eq_true] at h ⊢
    exact ⟨hf _ _ hsub h.1,ha _ _ hsub h.2⟩
  case lam =>
    intro xs b hb taken taken' hsub h
    simp only [apart,Bool.and_eq_true] at h ⊢
    exact ⟨newNames_mono hsub h.1,hb _ _ (hmore xs hsub) h.2⟩
  case case =>
    intro s as hs has taken taken' hsub h
    simp only [apart,Bool.and_eq_true] at h ⊢
    exact ⟨hs _ _ hsub h.1,has _ _ hsub h.2⟩
  case cons =>
    intro c xs b as hb has taken taken' hsub h
    simp only [apartAlts,Bool.and_eq_true] at h ⊢
    exact ⟨⟨newNames_mono hsub h.1.1,hb _ _ (hmore xs hsub) h.1.2⟩,
      has _ _ hsub h.2⟩

theorem apart_apply (taken : List Name) (f : Term) (as : List Term) :
    (f.apply as).apart taken = (f.apart taken && as.all (·.apart taken)) := by
  induction as generalizing f with
  | nil => simp
  | cons a as ih => rw [apply_cons,ih,apart,List.all_cons,Bool.and_assoc]

theorem apartAlts_of_forall {taken : List Name} {as : List (Alt Term)}
    (h : ∀ a ∈ as, newNames taken a.binders ∧ a.body.apart (taken ++ a.binders)) : apartAlts taken as := by
  induction as with
  | nil => rfl
  | cons a as ih =>
    obtain ⟨c,xs,b⟩ := a
    have hfirst := h ⟨c,xs,b⟩ (by simp)
    have hrest := ih fun a ha => h a (by simp [ha])
    simp [apartAlts,hfirst.1,hfirst.2,hrest]

end Term

namespace Tactic

theorem newNames_freshList (j : Judgement) (ts : List Ty) :
    Term.newNames j.hypothesis.names ((NameSupply.ofHypothesis j.hypothesis).freshList ts).1 :=
  decide_eq_true ⟨NameSupply.nodup_freshList ..,NameSupply.freshList_not_mem _ _⟩

end Tactic

section

variable {procs : ι → Tactic ι} {ctx : Context} {bound : Nat} {j : Judgement}

open TypedHole.Tactic

theorem Term.apart_blank (t : Term) : ∀ taken, t.blank.apart taken = t.apart taken := by
  refine induct (P := fun t => ∀ taken, t.blank.apart taken = t.apart taken)
    (Q := fun as => ∀ taken, apartAlts taken (bindAlts (fun _ => .hole 0) as) = apartAlts taken as)
    ?var ?app ?lam ?case ?lamCase ?hole ?nil ?cons t
  case var => exact fun x taken => rfl
  case hole => exact fun i taken => rfl
  case nil => exact fun taken => rfl
  case app => exact fun f a hf ha taken => congrArg₂ and (hf taken) (ha taken)
  case lam => exact fun xs b hb taken => congrArg (newNames taken xs && ·) (hb (taken ++ xs))
  case case => exact fun s as hs has taken => congrArg₂ and (hs taken) (has taken)
  case lamCase => exact fun as has taken => has taken
  case cons =>
    intro c xs b as hb has taken
    exact congrArg₂ and (congrArg (newNames taken xs && ·) (hb (taken ++ xs))) (has taken)

def Subgoal.Apart (s : Subgoal (Tactic ι)) (d : Derivation) : Prop :=
  d.term.apart s.judgement.hypothesis.names = true

theorem Tactic.Rebuilt.apart {scrutinee : Option Name} {field : Name × Ty} {t : Term}
    (h : Rebuilt j scrutinee field t) (taken : List Name) : t.apart taken := by
  rcases h with rfl | ⟨-,hc⟩
  · rfl
  · obtain ⟨head,args,rfl,hargs⟩ := recursiveCall?_vars hc
    have hvars : ∀ u ∈ args, u.apart taken = true := by
      intro u hu
      obtain ⟨x,rfl⟩ := hargs u hu
      rfl
    simpa [Term.apart_apply,Term.apart] using hvars

theorem Tactic.names_branch (j : Judgement) (scrutinee : Option Name) (goal : Ty) (c : Constructor) :
    j.hypothesis.names ++ (branch j scrutinee goal c).binders ⊆
      (branch j scrutinee goal c).judgement.hypothesis.names := by
  have hnames := Hypothesis.append_names_subset (new_fieldEntries j scrutinee goal c)
  rw [fieldEntries_names] at hnames
  rw [hypothesis_branch]
  exact hnames

theorem Tactic.SplitBody.apart {scrutinee : Option Name} {source goal target : Ty}
    {body : Branch → Refinement (Tactic ι)} (fits : SplitBody scrutinee source goal body)
    (wrap : List (Alt Term) → Term) (hw : ∀ f as, (wrap as).bind f = wrap (Term.bindAlts f as))
    {cs : List Constructor} {g : Goal ι} {a : Alternative ι} {qs : List Growth}
    (ha : a.refinement = some (splitOn wrap j scrutinee target cs body))
    (parts : Grows procs ctx bound (a.handOut g) qs)
    (hparts : List.Forall₂ Subgoal.Apart (splitOn wrap j scrutinee target cs body).subgoals
      (qs.map (·.derivation))) :
    ∃ alts, (Growth.node a qs).derivation.term = wrap alts ∧ Term.apartAlts j.hypothesis.names alts := by
  have hnew (c : Constructor) : Term.newNames j.hypothesis.names (branch j scrutinee target c).binders :=
    newNames_freshList j c.fields
  cases fits with
  | openBranch =>
    obtain ⟨alts,hterm,halts⟩ := alts_splitOn wrap hw (fun _ => by rfl) hparts
    refine ⟨alts,?_,Term.apartAlts_of_forall (forall_of_forall₂ halts fun c alt hfilled => ?_)⟩
    · simpa only [Growth.node,Alternative.extract,ha] using hterm
    · obtain ⟨-,hbinders,vs,hvs,hbody⟩ := hfilled
      obtain ⟨v,_,hv,hnil,rfl⟩ := List.forall₂_cons_left_iff.1 hvs
      cases hnil
      rw [hbody,hbinders]
      exact ⟨hnew c,Term.apart_mono (names_branch j scrutinee target c) _ hv⟩
  | rebuild =>
    obtain ⟨alts,hterm,halts⟩ := parts.rebuilt wrap hw ha
    refine ⟨alts,hterm,Term.apartAlts_of_forall (forall_of_forall₂ halts fun c alt hrebuilt => ?_)⟩
    obtain ⟨-,hbinders,args,hbody,hargs⟩ := hrebuilt
    rw [hbody,hbinders,Term.apart_apply]
    have hall := List.all_eq_true.2
      (forall_of_forall₂ hargs fun _ _ h => h.apart (j.hypothesis.names ++ (branch j scrutinee target c).binders))
    exact ⟨hnew c,by simp [Term.apart,hall]⟩

theorem Tactic.apart_argumentsOf {head : Name} {types : List Ty} {ds : List Derivation}
    (h : List.Forall₂ Subgoal.Apart (argumentsOf (ι := ι) j head types).subgoals ds) :
    (Derivation.plug (argumentsOf (ι := ι) j head types).extract ds).term.apart j.hypothesis.names := by
  have hargs : ∀ d ∈ ds, d.term.apart j.hypothesis.names = true :=
    forall_of_forall₂ (List.forall₂_map_left_iff.1 h) fun t d hd => by
      have hsame : (j.argument t).hypothesis = j.hypothesis := (j.argument_fields t).1
      rwa [Subgoal.Apart,hsame] at hd
  have hterm : (Derivation.plug (argumentsOf (ι := ι) j head types).extract ds).term =
      (Term.var head).apply (ds.map (·.term)) := Derivation.plug_application h.length_eq.symm
  rw [hterm,Term.apart_apply]
  simpa [Term.apart] using hargs

/-- A rule of the library leads from parts that capture nothing to a whole that captures nothing. -/
theorem Tactic.Move.apart {g : Goal ι} {a : Alternative ι} {r : Refinement (Tactic ι)} {qs : List Growth}
    (h : Move ctx g.judgement r) (ha : a.refinement = some r)
    (parts : Grows procs ctx bound (a.handOut g) qs)
    (hparts : List.Forall₂ Subgoal.Apart r.subgoals (qs.map (·.derivation))) :
    (Growth.node a qs).derivation.term.apart g.judgement.hypothesis.names := by
  have hnode : (Growth.node a qs).derivation.term =
      (Derivation.plug r.extract (qs.map (·.derivation))).term := by
    simp only [Growth.node,Alternative.extract,ha]
  cases h with
  | entry => rw [hnode]; rfl
  | @lam names entries domains names_eq entries_eq =>
    obtain ⟨d,ds,hd,hds,he⟩ := List.forall₂_cons_left_iff.1 hparts
    have hnames : names = introducedNames g.judgement := names_eq
    have hentries : entries = introducedEntries g.judgement := by
      rw [entries_eq,names_eq]
      rfl
    have hnew : Term.newNames g.judgement.hypothesis.names names := names_eq ▸ newNames_freshList ..
    have hknown := Hypothesis.append_names_subset (new_introducedEntries g.judgement)
    rw [introducedEntries_names,← hnames,← hentries] at hknown
    have hbody := Term.apart_mono hknown d.term hd
    rw [hnode,he]
    exact Bool.and_eq_true_iff.2 ⟨hnew,hbody⟩
  | constructor => rw [hnode]; exact apart_argumentsOf hparts
  | function => rw [hnode]; exact apart_argumentsOf hparts
  | case found ctors fits =>
    obtain ⟨alts,hterm,halts⟩ := fits.apart _ (fun _ _ => rfl) ha parts hparts
    rw [hterm]
    exact halts
  | lamCase goal ctors fits =>
    obtain ⟨alts,hterm,halts⟩ := fits.apart _ (fun _ _ => rfl) ha parts hparts
    rw [hterm]
    exact halts

def Goal.Apart (ctx : Context) : Goal ι ⊕ Judgement → Growth → Prop
  | .inl g, p => g.Built ctx LibraryRule → p.derivation.term.apart g.judgement.hypothesis.names = true
  | .inr k, p => p.derivation.term.apart k.hypothesis.names = true

theorem Subgoal.apart_of_handOut {rest : List (Tactic ι)} {depth : Nat} {ss : List (Subgoal (Tactic ι))}
    {qs : List Growth} (hrest : ∀ t ∈ rest, t.Built ctx LibraryRule)
    (hown : ∀ s ∈ ss, ∀ t, s.tactic = some t → t.Built ctx LibraryRule)
    (h : List.Forall₂ (Goal.Apart ctx) (ss.map fun s => Draft.schedule 0 s rest depth) qs) :
    List.Forall₂ Subgoal.Apart ss (qs.map (·.derivation)) := by
  induction ss generalizing qs with
  | nil =>
    cases h
    exact .nil
  | cons s ss ih =>
    obtain ⟨q,qs,hq,hqs,rfl⟩ := List.forall₂_cons_left_iff.1 h
    refine .cons ?_ (ih (fun s hs => hown s (by simp [hs])) hqs)
    dsimp only at hq
    cases hs : Draft.schedule 0 s rest depth with
    | inl g =>
      rw [hs] at hq
      rw [Subgoal.Apart,← (Draft.schedule_inl hs).2.1]
      exact hq (Goal.built_of_schedule hs hrest (hown s (by simp)))
    | inr k =>
      rw [hs] at hq
      have hopen := Draft.schedule_of_staysOpen s rest 0 depth
      split at hopen
      next =>
        cases hs.symm.trans hopen
        exact hq
      next =>
        obtain ⟨g,hg,-⟩ := hopen
        cases hs.symm.trans hg

theorem Grows.apart (hp : ∀ l, (procs l).Built ctx LibraryRule) {xs : List (Goal ι ⊕ Judgement)}
    {ps : List Growth} (h : Grows procs ctx bound xs ps) : List.Forall₂ (Goal.Apart ctx) xs ps := by
  induction h with
  | nil => exact .nil
  | unsolved _ ih => exact .cons rfl ih
  | @node g as a xs qs ps outcome mem parts _ ihparts ihothers =>
    refine .cons (fun hg => ?_) ihothers
    have hoffered := offered_of_expand hp hg.1 hg.2 outcome a mem
    have hsub : List.Forall₂ Subgoal.Apart (a.subgoals g.judgement) (qs.map (·.derivation)) :=
      Subgoal.apart_of_handOut hoffered.rest (fun s hs => hoffered.subgoal hs) ihparts
    cases hr : a.refinement with
    | none =>
      simp only [Alternative.subgoals,hr] at hsub
      obtain ⟨d,_,hd,hnil,he⟩ := List.forall₂_cons_left_iff.1 hsub
      cases hnil
      simp only [Growth.node,Alternative.extract,hr,he]
      exact hd
    | some r =>
      simp only [Alternative.subgoals,hr] at hsub
      exact (hoffered.move hr).apart hr parts hsub

end

/-- The judgements of a draft know all that was known at first. None of them is a whole right-hand side where
a rule has been applied above it. -/
structure Draft.Hygienic (j : Judgement) (d : Draft ι) : Prop where
  agenda : ∀ g ∈ d.agenda, j.Grown g.judgement ∧ (0 < g.depth → g.judgement.isTop = false)
  unsolved : ∀ k ∈ d.unsolved, j.Grown k ∧ (d.fills ≠ [] → k.isTop = false)

/-- So do the open goals of a derivation, and its binders are new: distinct, none of the names known at first
and none of the binders around them. -/
structure Derivation.Hygienic (j : Judgement) (d : Derivation) : Prop where
  unsolved : ∀ k ∈ d.unsolved, j.Grown k ∧ (d.term ≠ .hole 0 → k.isTop = false)
  binders : d.term.apart j.hypothesis.names = true

theorem Draft.Grown.hygienic {j : Judgement} {d : Draft ι} (h : d.Grown j) : d.Hygienic j := by
  refine ⟨fun g hg => ?_,fun k hk => ?_⟩
  · have hmem : g.judgement ∈ d.judgements := List.mem_append.2 (.inl (List.mem_map_of_mem hg))
    refine ⟨h.grown _ hmem,fun hdepth => h.nested (fun hf => ?_) _ hmem⟩
    have := (h.alone hf).2 g hg
    omega
  · have hmem : k ∈ d.judgements := List.mem_append.2 (.inr hk)
    exact ⟨h.grown k hmem,fun hf => h.nested hf k hmem⟩

theorem Draft.Hygienic.finish {j : Judgement} {d : Draft ι} (h : d.Hygienic j) :
    ∀ k ∈ (d.finish 0).unsolved, j.Grown k ∧ ((d.finish 0).term ≠ .hole 0 → k.isTop = false) := by
  intro k hk
  refine ⟨(h.unsolved k hk).1,fun hterm => (h.unsolved k hk).2 fun hf => hterm ?_⟩
  simp [Draft.finish,hf,Term.instantiate,Term.follow]

/-- Whatever tactic from the library runs on a judgement that counts only names of its hypothesis as split,
all judgements on the way know what was known at first, in the same place, and no derivation captures a
name. -/
theorem judgements_grow {κ : Type} (ctx : Context) (own : κ → Tactic (Tactic.Label κ))
    (hown : ∀ l, (own l).Built ctx Tactic.LibraryRule) (t : Tactic (Tactic.Label κ))
    (ht : t.Built ctx Tactic.LibraryRule) (j : Judgement) (hj : j.Scoped) :
    (∀ bound limit budget f,
      (f ∈ (Frontier.start j t).passed (Tactic.bodies own) ctx bound limit budget ∨
        ∃ left, (Frontier.start j t).explore (Tactic.bodies own) ctx bound limit budget = some (left,f)) →
      ∀ d ∈ f.drafts, d.Hygienic j) ∧
    (∀ bound limit budget left f,
      (Frontier.start j t).explore (Tactic.bodies own) ctx bound limit budget = some (left,f) →
        ∀ d ∈ f.found, d.Hygienic j) ∧
    ∀ cfg ds, search (Tactic.bodies own) cfg ctx j t = .ok ds → ∀ d ∈ ds, d.Hygienic j := by
  have hp := Tactic.bodies_built hown
  have hstep (bound : Nat) (f f' : Frontier (Tactic.Label κ))
      (h : f.Grown ctx j ∧ ∀ y ∈ f.found, ∀ k ∈ y.unsolved,
        j.Grown k ∧ (y.term ≠ .hole 0 → k.isTop = false))
      (hs : Frontier.Step (Tactic.bodies own) ctx bound f f') :
      f'.Grown ctx j ∧ ∀ y ∈ f'.found, ∀ k ∈ y.unsolved,
        j.Grown k ∧ (y.term ≠ .hole 0 → k.isTop = false) := by
    refine ⟨h.1.step hp hs,fun y hy => ?_⟩
    rcases hs.mem_found hy with hy | ⟨d,hd,-,rfl⟩
    · exact h.2 y hy
    · exact (h.1.drafts d hd).hygienic.finish
  have hreached (bound limit budget : Nat) (f : Frontier (Tactic.Label κ))
      (hf : f ∈ (Frontier.start j t).passed (Tactic.bodies own) ctx bound limit budget ∨
        ∃ left, (Frontier.start j t).explore (Tactic.bodies own) ctx bound limit budget = some (left,f)) :=
    Frontier.forall_reached (hstep bound) ⟨Frontier.grown_start hj ht,fun y hy => by cases hy⟩ hf
  have hfound (bound limit budget left : Nat) (f : Frontier (Tactic.Label κ))
      (he : (Frontier.start j t).explore (Tactic.bodies own) ctx bound limit budget = some (left,f)) :
      ∀ d ∈ f.found, d.Hygienic j := by
    intro d hd
    refine ⟨(hreached bound limit budget f (.inr ⟨left,he⟩)).2 d hd,?_⟩
    obtain ⟨p,hgrows,hterm,-⟩ := grows_of_explore he hd
    obtain ⟨hroot,-⟩ := List.forall₂_cons.1 (hgrows.apart hp)
    have hapart := hroot ⟨ht,by simp [Goal.root]⟩
    rwa [← hterm,Term.apart_blank] at hapart
  refine ⟨fun bound limit budget f hf d hd => ?_,hfound,fun cfg ds h d hd => ?_⟩
  · exact ((hreached bound limit budget f hf).1.drafts d hd).hygienic
  · obtain ⟨bound,budget,left,f,he,rfl⟩ := found_of_search h
    exact hfound _ _ _ _ _ he d hd

def Judgement.ofSecond : Judgement where
  goal := .arrow (.const "P") (.const "B")
  hypothesis := .ofList [⟨"p",.const "A",.user⟩]
  isTop := true
  destructed := .ofList ["p"]

/-- The introduced pair gets another name than the one that is known. -/
theorem judgements_grow_second :
    Judgement.ofSecond.Scoped ∧
      ∃ d, search (Tactic.bodies Empty.elim) { extensions := .none } ⟨[],.empty,.pair⟩ .ofSecond
        Tactic.auto = .ok [d] ∧
      d.term = .lam ["p1"] (.case (.var "p1") [⟨"Q",["a","b"],.var "b"⟩]) ∧ d.Hygienic .ofSecond := by
  have hscoped : Judgement.ofSecond.Scoped := by
    intro x hx
    have hx : x ∈ ["p"] := List.contains_iff_mem.1 hx
    exact hx
  obtain ⟨d,hsearch,hterm⟩ : ∃ d, search (Tactic.bodies Empty.elim) { extensions := .none }
      ⟨[],.empty,.pair⟩ .ofSecond Tactic.auto = .ok [d] ∧
      d.term = .lam ["p1"] (.case (.var "p1") [⟨"Q",["a","b"],.var "b"⟩]) := ⟨_,rfl,rfl⟩
  exact ⟨hscoped,d,hsearch,hterm,(judgements_grow _ _ (fun l => l.elim) _ .call _ hscoped).2.2 _ _ hsearch d
    (List.mem_singleton_self d)⟩

end TypedHole
