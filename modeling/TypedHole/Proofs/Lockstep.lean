import Mathlib.Data.List.Forall2
import TypedHole.Proofs.Continuation
import TypedHole.Proofs.OpenGoals

/-! Explorations in lockstep.
Two explorations start from tactics that differ in what waits behind them. Either they open up the same goals
together, or one of them has left a goal open and the other one still has it on its agenda, with nothing to run
on it (`Frontier.Trails`). Main statement: both end with the same terms in the same order
(`Frontier.Trails.explore`). -/
namespace TypedHole

variable {ι : Type}

/-- Expansions that are the same up to what waits behind them. -/
def Expansion.SameUpTo (k k' : List (Tactic ι)) (e e' : Expansion ι) : Prop :=
  e = e' ∨ ∃ e₀ : Expansion ι, e = e₀.followedBy k ∧ e' = e₀.followedBy k'

def Alternative.SameUpTo (k k' : List (Tactic ι)) (a a' : Alternative ι) : Prop :=
  a = a' ∨ ∃ a₀ : Alternative ι, a = a₀.followedBy k ∧ a' = a₀.followedBy k'

def Goal.Shallow (procs : ι → Tactic ι) (ctx : Context) (bound : Nat) (g : Goal ι) : Prop :=
  g.tactic.opensWithin procs ctx g.judgement (bound ≤ g.depth) (Tactic.maxNesting + 1) = true

instance (procs : ι → Tactic ι) (ctx : Context) (bound : Nat) (g : Goal ι) :
    Decidable (g.Shallow procs ctx bound) :=
  inferInstanceAs (Decidable (_ = true))

structure Goal.SameUpTo (procs : ι → Tactic ι) (ctx : Context) (bound : Nat) (k k' : List (Tactic ι))
    (g g' : Goal ι) : Prop where
  hole : g.hole = g'.hole
  judgement : g.judgement = g'.judgement
  depth : g.depth = g'.depth
  expansion : g.Shallow procs ctx bound → g'.Shallow procs ctx bound →
    Expansion.SameUpTo k k' (g.expansion procs ctx bound) (g'.expansion procs ctx bound)

/-- What may be exchanged behind goals: nothing for the tactic that does nothing, and tactics whose first ones
do the same. -/
inductive Exchange (procs : ι → Tactic ι) (ctx : Context) (bound : Nat) :
    List (Tactic ι) → List (Tactic ι) → Prop
  | idle : Exchange procs ctx bound [] [.idle]
  | tactics {t t' : Tactic ι} {ks ks' : List (Tactic ι)}
      (same : ∀ i j d, Goal.SameUpTo procs ctx bound (t :: ks) (t' :: ks') ⟨i,j,t,ks,d⟩ ⟨i,j,t',ks',d⟩) :
      Exchange procs ctx bound (t :: ks) (t' :: ks')

variable {procs : ι → Tactic ι} {ctx : Context} {bound limit : Nat} {k k' : List (Tactic ι)}

theorem Expansion.SameUpTo.cases {e e' : Expansion ι} (h : e.SameUpTo k k' e') : e.cut = e'.cut ∧
    ((∃ err, e.outcome = .error err ∧ e'.outcome = .error err) ∨
      ∃ as as', e.outcome = .ok as ∧ e'.outcome = .ok as' ∧
        List.Forall₂ (Alternative.SameUpTo k k') as as') := by
  rcases h with rfl | ⟨e₀,rfl,rfl⟩
  · refine ⟨rfl,?_⟩
    cases ho : e.outcome with
    | error err => exact .inl ⟨err,rfl,rfl⟩
    | ok as => exact .inr ⟨as,as,rfl,rfl,List.forall₂_same.2 fun a _ => .inl rfl⟩
  · refine ⟨rfl,?_⟩
    cases ho : e₀.outcome with
    | error err => exact .inl ⟨err,followedBy_of_error ho,followedBy_of_error ho⟩
    | ok as =>
      refine .inr ⟨_,_,followedBy_of_ok ho,followedBy_of_ok ho,?_⟩
      rw [List.forall₂_map_left_iff,List.forall₂_map_right_iff,List.forall₂_same]
      exact fun a _ => .inr ⟨a,rfl,rfl⟩

namespace Goal

theorem sameUpTo_append (i : Nat) (j : Judgement) (t : Tactic ι) (rest : List (Tactic ι)) (d : Nat) :
    SameUpTo procs ctx bound k k' ⟨i,j,t,rest ++ k,d⟩ ⟨i,j,t,rest ++ k',d⟩ where
  hole := rfl
  judgement := rfl
  depth := rfl
  expansion _ _ := .inr ⟨_,Tactic.expand_append _ t rest k,Tactic.expand_append _ t rest k'⟩

theorem sameUpTo_refl (g : Goal ι) : SameUpTo procs ctx bound k k' g g := ⟨rfl,rfl,rfl,fun _ _ => .inl rfl⟩

end Goal

namespace Alternative.SameUpTo

variable {a a' : Alternative ι}

theorem refinement (h : a.SameUpTo k k' a') : a.refinement = a'.refinement := by
  rcases h with rfl | ⟨a₀,rfl,rfl⟩ <;> rfl

theorem parts (h : a.SameUpTo k k' a') {g g' : Goal ι} (hg : Goal.SameUpTo procs ctx bound k k' g g')
    (next : Nat) : a.parts g next = a'.parts g' next := by
  rw [Alternative.parts,Alternative.parts,h.refinement,hg.hole,hg.judgement]

theorem depth (h : a.SameUpTo k k' a') (above : Nat) : a.depth above = a'.depth above := by
  rw [Alternative.depth,Alternative.depth,h.refinement]

theorem width (h : a.SameUpTo k k' a') : a.width = a'.width := by
  rw [Alternative.width,Alternative.width,h.refinement]

/-- What is left to run stays the same, or it begins on both sides, or on one side there is nothing and on the
other one the tactic that does nothing. -/
theorem schedule (h : a.SameUpTo k k' a') (hk : Exchange procs ctx bound k k') :
    (∀ i s d, Sum.LiftRel (Goal.SameUpTo procs ctx bound k k') Eq (Draft.schedule i s a.rest d)
      (Draft.schedule i s a'.rest d)) ∨
    k = [] ∧ k' = [.idle] ∧ a.rest = [] ∧ a'.rest = [.idle] := by
  rcases h with rfl | ⟨a₀,rfl,rfl⟩
  · left
    intro i s d
    cases Draft.schedule i s a.rest d with
    | inl g => exact .inl g.sameUpTo_refl
    | inr j => exact .inr rfl
  · obtain ⟨r,rest⟩ := a₀
    cases rest with
    | cons t rest =>
      left
      intro i s d
      obtain ⟨j,own⟩ := s
      cases own with
      | none => exact .inl (Goal.sameUpTo_append i j t rest d)
      | some own => exact .inl (Goal.sameUpTo_append i j own (t :: rest) d)
    | nil =>
      cases hk with
      | idle => exact .inr ⟨rfl,rfl,rfl,rfl⟩
      | tactics same =>
        left
        intro i s d
        obtain ⟨j,own⟩ := s
        cases own with
        | none => exact .inl (same i j d)
        | some own => exact .inl (Goal.sameUpTo_append i j own [] d)

end Alternative.SameUpTo

def SameJudgements (ordered : Prop) (js js' : List Judgement) : Prop := js.Perm js' ∧ (ordered → js = js')

variable (procs ctx bound k k') (ordered : Prop)

/-- Agendas whose goals correspond, except that the second one still has goals with nothing to run on them for
the judgements listed between them. If `ordered` holds such goals stand in front. -/
inductive Goal.Trails : List (Goal ι) → List Judgement → List (Goal ι) → Prop
  | nil : Trails [] [] []
  | goal {g g' : Goal ι} {gs gs' : List (Goal ι)} {js : List Judgement}
      (head : g.SameUpTo procs ctx bound k k' g') (tail : Trails gs js gs') (order : ordered → js = []) :
      Trails (g :: gs) js (g' :: gs')
  | delayed {i d : Nat} {j : Judgement} {gs gs' : List (Goal ι)} {js : List Judgement}
      (tail : Trails gs js gs') : Trails gs (j :: js) (⟨i,j,.idle,[],d⟩ :: gs')

/-- Drafts with the same term, where the second one is yet to leave some goals open. -/
def Draft.Trails (d d' : Draft ι) : Prop :=
  d.fills = d'.fills ∧ ∃ js, Goal.Trails procs ctx bound k k' ordered d.agenda js d'.agenda ∧
    SameJudgements ordered d.unsolved (d'.unsolved ++ js)

def Derivation.Agrees (d d' : Derivation) : Prop :=
  d.term = d'.term ∧ SameJudgements ordered d.unsolved d'.unsolved

structure Frontier.Trails (f f' : Frontier ι) : Prop where
  drafts : List.Forall₂ (Draft.Trails procs ctx bound k k' ordered) f.drafts f'.drafts
  next : f.next = f'.next
  cut : f.cut = f'.cut
  failure : f.failure = f'.failure
  found : List.Forall₂ (Derivation.Agrees ordered) f.found f'.found

variable {procs ctx bound k k' ordered}

theorem SameJudgements.append {js js' : List Judgement} (h : SameJudgements ordered js js')
    (xs : List Judgement) : SameJudgements ordered (js ++ xs) (js' ++ xs) :=
  ⟨h.1.append_right xs,fun ho => by rw [h.2 ho]⟩

section

variable {a a' : Alternative ι} {gs gs' : List (Goal ι)} {js : List Judgement}

theorem Goal.Trails.scheduleAll_same {rest rest' : List (Tactic ι)} {d : Nat}
    (hs : ∀ i s, Sum.LiftRel (Goal.SameUpTo procs ctx bound k k') Eq (Draft.schedule i s rest d)
      (Draft.schedule i s rest' d))
    (ht : Goal.Trails procs ctx bound k k' ordered gs js gs') (ho : ordered → js = [])
    (ps : List (Nat × Subgoal (Tactic ι))) :
    Goal.Trails procs ctx bound k k' ordered
        ((Draft.scheduleAll rest d ps).filterMap Sum.getLeft? ++ gs) js
        ((Draft.scheduleAll rest' d ps).filterMap Sum.getLeft? ++ gs') ∧
      (Draft.scheduleAll rest d ps).filterMap Sum.getRight? =
        (Draft.scheduleAll rest' d ps).filterMap Sum.getRight? := by
  induction ps with
  | nil => exact ⟨ht,rfl⟩
  | cons p ps ih =>
    obtain ⟨htail,hopen⟩ := ih
    have hp := hs p.1 p.2
    simp only [Draft.scheduleAll,List.map_cons,List.filterMap_cons] at htail hopen ⊢
    cases hx : Draft.schedule p.1 p.2 rest d <;> cases hx' : Draft.schedule p.1 p.2 rest' d <;>
      rw [hx,hx'] at hp
    · cases hp with
      | inl hsame => exact ⟨.goal hsame htail ho,hopen⟩
    · cases hp
    · cases hp
    · cases hp with
      | inr hj => exact ⟨htail,congrArg₂ List.cons hj hopen⟩

/-- Where nothing waits, a subgoal without a tactic is left open at once; where the tactic that does nothing
waits, it is delayed. -/
theorem Goal.Trails.scheduleAll_idle (d : Nat) (ht : Goal.Trails procs ctx bound [] [.idle] ordered gs js gs')
    (ho : ordered → js = []) {ps : List (Nat × Subgoal (Tactic ι))}
    (hu : ordered → (∀ p ∈ ps, p.2.tactic.isSome) ∨ ∀ p ∈ ps, p.2.tactic = none) :
    Goal.Trails procs ctx bound [] [.idle] ordered
        ((Draft.scheduleAll [] d ps).filterMap Sum.getLeft? ++ gs)
        ((Draft.scheduleAll [] d ps).filterMap Sum.getRight? ++ js)
        ((Draft.scheduleAll [.idle] d ps).filterMap Sum.getLeft? ++ gs') ∧
      (Draft.scheduleAll [.idle] d ps).filterMap Sum.getRight? = [] := by
  induction ps with
  | nil => exact ⟨ht,rfl⟩
  | cons p ps ih =>
    obtain ⟨htail,hopen⟩ := ih fun ho => (hu ho).imp (fun h p hp => h p (by simp [hp]))
      fun h p hp => h p (by simp [hp])
    obtain ⟨i,j,own⟩ := p
    cases own with
    | none => exact ⟨.delayed htail,hopen⟩
    | some t =>
      refine ⟨.goal (Goal.sameUpTo_append i j t [] d) htail fun hord => ?_,hopen⟩
      -- All the other subgoals have tactics of their own too, so none is left open.
      have hown := (hu hord).resolve_right fun h => by cases h (i,⟨j,some t⟩) (by simp)
      rw [ho hord,List.append_nil,Draft.open_scheduleAll,List.map_eq_nil_iff,List.filter_eq_nil_iff]
      intro p hp
      simpa [Subgoal.staysOpen,Option.isSome_iff_ne_none] using hown p hp

theorem Goal.Trails.scheduleAll (h : a.SameUpTo k k' a') (hk : Exchange procs ctx bound k k') (d : Nat)
    (ht : Goal.Trails procs ctx bound k k' ordered gs js gs') (ho : ordered → js = [])
    {ps : List (Nat × Subgoal (Tactic ι))}
    (hu : ordered → k = [] → (∀ p ∈ ps, p.2.tactic.isSome) ∨ ∀ p ∈ ps, p.2.tactic = none) :
    ∃ js₀, Goal.Trails procs ctx bound k k' ordered
        ((Draft.scheduleAll a.rest d ps).filterMap Sum.getLeft? ++ gs) (js₀ ++ js)
        ((Draft.scheduleAll a'.rest d ps).filterMap Sum.getLeft? ++ gs') ∧
      (Draft.scheduleAll a.rest d ps).filterMap Sum.getRight? =
        (Draft.scheduleAll a'.rest d ps).filterMap Sum.getRight? ++ js₀ := by
  rcases h.schedule hk with hsame | ⟨rfl,rfl,hrest,hrest'⟩
  · obtain ⟨htrails,hopen⟩ := ht.scheduleAll_same (fun i s => hsame i s d) ho ps
    exact ⟨[],htrails,by rw [hopen,List.append_nil]⟩
  · obtain ⟨htrails,hopen⟩ := ht.scheduleAll_idle d ho fun hord => hu hord rfl
    rw [hrest,hrest']
    exact ⟨_,htrails,by rw [hopen,List.nil_append]⟩

end

namespace Draft

variable {d d' : Draft ι} {g g' : Goal ι} {js : List Judgement}

theorem Trails.choose {a a' : Alternative ι}
    (ht : Goal.Trails procs ctx bound k k' ordered d.agenda js d'.agenda) (hf : d.fills = d'.fills)
    (ho : ordered → js = []) (hj : SameJudgements ordered d.unsolved (d'.unsolved ++ js))
    (hg : g.SameUpTo procs ctx bound k k' g') (ha : a.SameUpTo k k' a')
    (hk : Exchange procs ctx bound k k')
    (hu : ordered → k = [] → ∀ r, a.refinement = some r → r.Uniform) (n : Nat) :
    Trails procs ctx bound k k' ordered (d.choose g a n) (d'.choose g' a' n) := by
  have hparts : ordered → k = [] →
      (∀ p ∈ a.parts g n, p.2.tactic.isSome) ∨ ∀ p ∈ a.parts g n, p.2.tactic = none :=
    fun hord hnil => uniform_parts (hu hord hnil)
  obtain ⟨js₀,htrails,hopen⟩ := ht.scheduleAll ha hk (a.depth g.depth) ho hparts
  refine ⟨?_,js₀ ++ js,?_,?_⟩
  · cases hr : a.refinement with
    | none => rw [choose_fills_none hr,choose_fills_none (ha.refinement ▸ hr),hf]
    | some r => rw [choose_fills_some hr,choose_fills_some (ha.refinement ▸ hr),hf,hg.hole]
  · rw [choose_agenda,choose_agenda,← ha.depth,← ha.parts hg,← hg.depth]
    exact htrails
  · rw [choose_unsolved,choose_unsolved,← ha.depth,← ha.parts hg,← hg.depth,hopen]
    refine ⟨?_,fun hord => ?_⟩
    · rw [List.append_assoc]
      refine (hj.append _).1.trans ?_
      rw [List.append_assoc]
      refine (List.Perm.append_left d'.unsolved ?_)
      exact List.perm_append_comm.trans (by rw [List.append_assoc])
    · rw [hj.2 hord,ho hord]
      simp

theorem Trails.chooseAll {as as' : List (Alternative ι)}
    (ht : Goal.Trails procs ctx bound k k' ordered d.agenda js d'.agenda) (hf : d.fills = d'.fills)
    (ho : ordered → js = []) (hj : SameJudgements ordered d.unsolved (d'.unsolved ++ js))
    (hg : g.SameUpTo procs ctx bound k k' g') (has : List.Forall₂ (Alternative.SameUpTo k k') as as')
    (hk : Exchange procs ctx bound k k')
    (hu : ordered → k = [] → ∀ a ∈ as, ∀ r, a.refinement = some r → r.Uniform) (n : Nat) :
    List.Forall₂ (Trails procs ctx bound k k' ordered) (d.chooseAll g as n).1 (d'.chooseAll g' as' n).1 ∧
      (d.chooseAll g as n).2 = (d'.chooseAll g' as' n).2 := by
  induction has generalizing n with
  | nil => exact ⟨.nil,rfl⟩
  | @cons a a' as as' ha _ ih =>
    obtain ⟨hdrafts,hnext⟩ := ih (fun hord hnil a ha => hu hord hnil a (by simp [ha])) (n + a.width)
    rw [chooseAll_cons,chooseAll_cons,← ha.width]
    exact ⟨.cons (.choose ht hf ho hj hg ha hk (fun hord hnil => hu hord hnil a (by simp)) n) hdrafts,hnext⟩

end Draft

/-- What is offered for a goal does not mix subgoals where no rule does. -/
theorem Goal.Built.uniform {g : Goal ι} (hg : g.Built ctx (Tactic.Offers ctx fun _ r => r.Uniform))
    (hp : ∀ l, (procs l).Built ctx (Tactic.Offers ctx fun _ r => r.Uniform)) {as : List (Alternative ι)}
    (h : (g.expansion procs ctx bound).outcome = .ok as) :
    ∀ a ∈ as, ∀ r, a.refinement = some r → r.Uniform := by
  intro a ha r hr
  obtain ⟨ht,hrest⟩ := hg
  obtain ⟨name,refine,rs,hrule,hf,hm,-⟩ := (Tactic.offered_of_expand hp ht hrest h a ha).refinement r hr
  exact hrule _ rs hf r hm

namespace Frontier

variable {f f' : Frontier ι}

theorem Trails.record (h : f.Trails procs ctx bound k k' ordered f') {x x' : Derivation}
    (hx : x.Agrees ordered x') : (f.record x).Trails procs ctx bound k k' ordered (f'.record x') := by
  have hany : f.found.any (·.term == x.term) = f'.found.any (·.term == x'.term) := by
    have hterms : f.found.map (·.term) = f'.found.map (·.term) := by
      rw [← List.forall₂_eq_eq_eq,List.forall₂_map_left_iff,List.forall₂_map_right_iff]
      exact h.found.imp fun _ _ hd => hd.1
    have hsame := congrArg (List.any · (· == x.term)) hterms
    rw [List.any_map,List.any_map] at hsame
    rw [← hx.1]
    exact hsame
  rw [Frontier.record,Frontier.record,hany]
  split
  · exact h
  · exact { h with found := List.rel_append h.found (.cons hx .nil) }

/-- Either the second frontier leaves a goal open that the first one has left open, or both take a step. -/
theorem Trails.advance (h : f.Trails procs ctx bound k k' ordered f') (hne : f'.drafts ≠ [])
    (hk : Exchange procs ctx bound k k')
    (hs : ∀ g, f.goal? = some g → g.Shallow procs ctx bound)
    (hs' : ∀ g, f'.goal? = some g → g.Shallow procs ctx bound)
    (hp : ordered → k = [] → ∀ l, (procs l).Built ctx (Tactic.Offers ctx fun _ r => r.Uniform))
    (hb : ordered → k = [] → ∀ d ∈ f.drafts, ∀ g ∈ d.agenda,
      g.Built ctx (Tactic.Offers ctx fun _ r => r.Uniform)) :
    (f.Trails procs ctx bound k k' ordered (f'.advance procs ctx bound) ∧
      (f'.advance procs ctx bound).found = f'.found) ∨
    (f.advance procs ctx bound).Trails procs ctx bound k k' ordered (f'.advance procs ctx bound) := by
  obtain ⟨d',ds',hd'⟩ := List.exists_cons_of_ne_nil hne
  obtain ⟨drafts,next,cut,failure,found⟩ := h
  rw [hd'] at drafts
  obtain ⟨d,ds,⟨hf,js,ht,hj⟩,htail,hd⟩ := List.forall₂_cons_right_iff.1 drafts
  generalize ha : d.agenda = agenda at ht
  generalize ha' : d'.agenda = agenda' at ht
  cases ht with
  | nil =>
    right
    rw [advance_of_nil hd ha,advance_of_nil hd' ha']
    have hrest : Trails procs ctx bound k k' ordered { f with drafts := ds } { f' with drafts := ds' } :=
      ⟨htail,next,cut,failure,found⟩
    refine hrest.record ⟨?_,?_⟩
    · rw [Draft.finish,Draft.finish,hf]
    · rwa [List.append_nil] at hj
  | @delayed i depth j _ gs' js htail' =>
    left
    have he : Goal.expansion procs ctx bound ⟨i,j,.idle,[],depth⟩ = ⟨.ok [⟨none,[]⟩],false⟩ := rfl
    rw [advance_of_ok hd' ha' he]
    refine ⟨⟨?_,next,?_,failure,found⟩,rfl⟩
    · rw [hd]
      refine .cons ⟨hf,js,?_,?_⟩ htail
      · rw [ha]
        exact htail'
      · show SameJudgements ordered d.unsolved (d'.unsolved ++ [j] ++ js)
        rwa [List.append_assoc,List.singleton_append]
    · rw [cut,Bool.or_false]
  | @goal g g' gs gs' js hsame htail' ho =>
    right
    obtain ⟨hcut,hcases⟩ := (hsame.expansion (hs g (goal?_of_cons hd ha))
      (hs' g' (goal?_of_cons hd' ha'))).cases
    rcases he : g.expansion procs ctx bound with ⟨outcome,c⟩
    rcases he' : g'.expansion procs ctx bound with ⟨outcome',c'⟩
    rw [he,he'] at hcut hcases
    rcases hcases with ⟨err,rfl,rfl⟩ | ⟨as,as',rfl,rfl,has⟩
    · rw [advance_of_error hd ha he,advance_of_error hd' ha' he']
      exact ⟨htail,next,congrArg₂ or cut hcut,by rw [failure],found⟩
    · have hu : ordered → k = [] → ∀ a ∈ as, ∀ r, a.refinement = some r → r.Uniform := fun hord hnil =>
        (hb hord hnil d (by simp [hd]) g (by simp [ha])).uniform (hp hord hnil) (by rw [he])
      have htaken : Goal.Trails procs ctx bound k k' ordered ({ d with agenda := gs } : Draft ι).agenda js
          ({ d' with agenda := gs' } : Draft ι).agenda := htail'
      obtain ⟨hdrafts,hnext⟩ := Draft.Trails.chooseAll htaken hf ho hj hsame has hk hu f.next
      rw [advance_of_ok hd ha he,advance_of_ok hd' ha' he',← next]
      exact ⟨List.rel_append hdrafts htail,hnext,congrArg₂ or cut hcut,failure,found⟩

theorem Trails.drafts_eq_nil (h : f.Trails procs ctx bound k k' ordered f') :
    f.drafts = [] ↔ f'.drafts = [] := by
  rw [← List.length_eq_zero_iff,← List.length_eq_zero_iff,h.drafts.length_eq]

theorem Trails.explore (h : f.Trails procs ctx bound k k' ordered f') (hk : Exchange procs ctx bound k k')
    {budget budget' left left' : Nat} {f₁ f₁' : Frontier ι}
    (he : f.explore procs ctx bound limit budget = some (left,f₁))
    (he' : f'.explore procs ctx bound limit budget' = some (left',f₁')) (hroom : f'.found.length < limit)
    (hs : ∀ f₀ ∈ f.passed procs ctx bound limit budget, ∀ g, f₀.goal? = some g → g.Shallow procs ctx bound)
    (hs' : ∀ f₀ ∈ f'.passed procs ctx bound limit budget', ∀ g, f₀.goal? = some g →
      g.Shallow procs ctx bound)
    (hp : ordered → k = [] → ∀ l, (procs l).Built ctx (Tactic.Offers ctx fun _ r => r.Uniform))
    (hb : ordered → k = [] → ∀ d ∈ f.drafts, ∀ g ∈ d.agenda,
      g.Built ctx (Tactic.Offers ctx fun _ r => r.Uniform)) :
    f₁.Trails procs ctx bound k k' ordered f₁' := by
  -- The second exploration has as many steps as the first one, and those that leave delayed goals open.
  induction budget' generalizing f f' budget with
  | zero =>
    by_cases hd' : f'.drafts = []
    · rw [explore_of_empty hd'] at he'
      rw [explore_of_empty (h.drafts_eq_nil.2 hd')] at he
      cases he
      cases he'
      exact h
    · rw [explore_zero hd'] at he'
      cases he'
  | succ budget' ih =>
    by_cases hd' : f'.drafts = []
    · rw [explore_of_empty hd'] at he'
      rw [explore_of_empty (h.drafts_eq_nil.2 hd')] at he
      cases he
      cases he'
      exact h
    have hd : f.drafts ≠ [] := fun hnil => hd' (h.drafts_eq_nil.1 hnil)
    cases budget with
    | zero =>
      rw [explore_zero hd] at he
      cases he
    | succ budget =>
      rw [explore_succ hd'] at he'
      rw [passed_succ hd'] at hs'
      obtain ⟨hhere',hthere'⟩ := List.forall_mem_cons.1 hs'
      have hhere : ∀ g, f.goal? = some g → g.Shallow procs ctx bound := by
        rw [passed_succ hd] at hs
        exact (List.forall_mem_cons.1 hs).1
      dsimp only at he' hthere'
      rcases h.advance hd' hk hhere hhere' hp hb with ⟨hstay,hfound⟩ | hgo
      · rw [if_neg (by rw [hfound]; exact Nat.not_le.2 hroom)] at he' hthere'
        exact ih hstay he he' (hfound ▸ hroom) hs hthere' hb
      · rw [explore_succ hd] at he
        rw [passed_succ hd] at hs
        have hthere := (List.forall_mem_cons.1 hs).2
        dsimp only at he hthere
        rw [hgo.found.length_eq] at he hthere
        by_cases hl : limit ≤ (f'.advance procs ctx bound).found.length
        · rw [if_pos hl] at he he'
          cases he
          cases he'
          exact hgo
        · rw [if_neg hl] at he he' hthere hthere'
          refine ih hgo he he' (Nat.lt_of_not_le hl) hthere hthere' fun hord hnil => ?_
          exact (step_advance procs ctx bound hd).built (hp hord hnil) (hb hord hnil)

end Frontier

end TypedHole
