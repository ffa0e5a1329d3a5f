import TypedHole.Proofs.Exhaustion
import TypedHole.Proofs.Simulation

/-! Derivations as trees.
A growth follows one choice of alternatives from a goal down to the open goals, and keeps the lengths of
its branches. Main statements: what a run finds has grown from a draft (`Frontier.Run.grown`), a run that
is not stopped finds all that can grow (`Frontier.Run.bears`), a larger depth bound lets grow what has
grown before (`Grows.mono`), and nothing grows from a barren agenda (`Barren.not_grows`). -/
namespace TypedHole

variable {ι : Type}

/-- What has been derived for a goal, with the numbers of rules along the branches. -/
structure Growth where
  derivation : Derivation
  branches : List Nat

namespace Growth

def unsolved (j : Judgement) : Growth := ⟨⟨.hole 0,[j]⟩,[0]⟩

def node (a : Alternative ι) (ps : List Growth) : Growth where
  derivation := .plug a.extract (ps.map (·.derivation))
  branches :=
    match a.refinement with
    | none => ps.flatMap (·.branches)
    | some _ => if ps.isEmpty then [1] else (ps.flatMap (·.branches)).map (· + 1)

variable {a : Alternative ι} {ps : List Growth} {p : Growth} {n : Nat}

theorem mem_branches_of_passed (ha : a.refinement = none) (hp : p ∈ ps) (hn : n ∈ p.branches) :
    n ∈ (node a ps).branches := by
  simp only [node,ha]
  exact List.mem_flatMap.2 ⟨p,hp,hn⟩

theorem mem_branches_of_refined {r : Refinement (Tactic ι)} (ha : a.refinement = some r) (hp : p ∈ ps)
    (hn : n ∈ p.branches) : n + 1 ∈ (node a ps).branches := by
  obtain ⟨q,qs,rfl⟩ := List.exists_cons_of_ne_nil (List.ne_nil_of_mem hp)
  simp only [node,ha,List.isEmpty_cons,Bool.false_eq_true,if_false]
  exact List.mem_map_of_mem (List.mem_flatMap.2 ⟨p,hp,hn⟩)

theorem branches_of_closed {r : Refinement (Tactic ι)} (ha : a.refinement = some r) :
    (node a []).branches = [1] := by simp [node,ha]

end Growth

/-- What an alternative leaves: goals that go on, without the numbers of their holes, and judgements that
stay open. -/
def Alternative.handOut (a : Alternative ι) (g : Goal ι) : List (Goal ι ⊕ Judgement) :=
  (a.subgoals g.judgement).map fun s => Draft.schedule 0 s a.rest (a.depth g.depth)

/-- What can be derived, within a depth bound, for each of some goals together. -/
inductive Grows (procs : ι → Tactic ι) (ctx : Context) (bound : Nat) :
    List (Goal ι ⊕ Judgement) → List Growth → Prop
  | nil : Grows procs ctx bound [] []
  | unsolved {j : Judgement} {xs : List (Goal ι ⊕ Judgement)} {ps : List Growth}
      (others : Grows procs ctx bound xs ps) : Grows procs ctx bound (.inr j :: xs) (.unsolved j :: ps)
  | node {g : Goal ι} {as : List (Alternative ι)} {a : Alternative ι} {xs : List (Goal ι ⊕ Judgement)}
      {qs ps : List Growth} (outcome : (g.expansion procs ctx bound).outcome = .ok as) (mem : a ∈ as)
      (parts : Grows procs ctx bound (a.handOut g) qs) (others : Grows procs ctx bound xs ps) :
      Grows procs ctx bound (.inl g :: xs) (.node a qs :: ps)

namespace Grows

variable {procs : ι → Tactic ι} {ctx : Context} {bound : Nat} {xs ys : List (Goal ι ⊕ Judgement)}
  {ps qs : List Growth}

theorem length (h : Grows procs ctx bound xs ps) : ps.length = xs.length := by
  induction h with
  | nil => rfl
  | unsolved _ ih => simp [ih]
  | node _ _ _ _ _ ih => simp [ih]

theorem append (h : Grows procs ctx bound xs ps) (h' : Grows procs ctx bound ys qs) :
    Grows procs ctx bound (xs ++ ys) (ps ++ qs) := by
  induction h with
  | nil => exact h'
  | unsolved _ ih => exact .unsolved ih
  | node outcome mem parts _ _ ih => exact .node outcome mem parts ih

theorem of_append (h : Grows procs ctx bound (xs ++ ys) ps) :
    ∃ qs rs, ps = qs ++ rs ∧ Grows procs ctx bound xs qs ∧ Grows procs ctx bound ys rs := by
  induction xs generalizing ps with
  | nil => exact ⟨[],ps,rfl,.nil,h⟩
  | cons x xs ih =>
    cases h with
    | unsolved others =>
      obtain ⟨qs,rs,rfl,hq,hr⟩ := ih others
      exact ⟨_ :: qs,rs,rfl,.unsolved hq,hr⟩
    | node outcome mem parts others =>
      obtain ⟨qs,rs,rfl,hq,hr⟩ := ih others
      exact ⟨_ :: qs,rs,rfl,.node outcome mem parts hq,hr⟩

theorem mono {bound' : Nat} (h : Grows procs ctx bound xs ps) (hb : bound ≤ bound') :
    Grows procs ctx bound' xs ps := by
  induction h with
  | nil => exact .nil
  | unsolved _ ih => exact .unsolved ih
  | node outcome mem _ _ ihparts ihothers =>
    obtain ⟨bs,hbs,hab⟩ := Goal.mem_expansion outcome mem hb
    exact .node hbs hab ihparts ihothers

theorem unnumber {gs : List (Goal ι)} (h : Grows procs ctx bound (gs.map .inl) ps) :
    Grows procs ctx bound ((gs.map Goal.unnumbered).map .inl) ps := by
  induction gs generalizing ps with
  | nil => exact h
  | cons g gs ih =>
    cases h with
    | node outcome mem parts others => exact .node (g := g.unnumbered) outcome mem parts (ih others)

theorem renumber {gs : List (Goal ι)} (h : Grows procs ctx bound ((gs.map Goal.unnumbered).map .inl) ps) :
    Grows procs ctx bound (gs.map .inl) ps := by
  induction gs generalizing ps with
  | nil => exact h
  | cons g gs ih =>
    cases h with
    | node outcome mem parts others => exact .node (g := g) outcome mem parts (ih others)

section

variable {rest : List (Tactic ι)} {depth : Nat} {ss : List (Subgoal (Tactic ι))}

/-- What grows from the goals scheduled for subgoals makes up what grows from the subgoals. -/
theorem of_scheduled (h : Grows procs ctx bound ((Draft.scheduled rest depth ss).map .inl) ps) :
    ∃ qs, Grows procs ctx bound (ss.map fun s => Draft.schedule 0 s rest depth) qs ∧
      qs.map (·.derivation) = merge rest ss (ps.map (·.derivation)) := by
  induction ss generalizing ps with
  | nil => exact ⟨[],.nil,rfl⟩
  | cons s ss ih =>
    have hs := Draft.schedule_of_staysOpen s rest 0 depth
    rw [List.map_cons]
    split at hs
    next ho =>
      rw [Draft.scheduled_cons_inr hs] at h
      obtain ⟨qs,hq,hm⟩ := ih h
      rw [hs,merge_of_staysOpen ho]
      exact ⟨.unsolved s.judgement :: qs,.unsolved hq,by rw [List.map_cons,hm]; rfl⟩
    next ho =>
      obtain ⟨g,hg,-⟩ := hs
      rw [Draft.scheduled_cons_inl hg,List.map_cons] at h
      cases h with
      | node outcome mem parts others =>
        obtain ⟨qs,hq,hm⟩ := ih others
        rw [hg,List.map_cons,merge_of_scheduled ho]
        exact ⟨_ :: qs,.node outcome mem parts hq,by rw [List.map_cons,hm]⟩

theorem to_scheduled (h : Grows procs ctx bound (ss.map fun s => Draft.schedule 0 s rest depth) qs) :
    ∃ ps, Grows procs ctx bound ((Draft.scheduled rest depth ss).map .inl) ps ∧
      qs.map (·.derivation) = merge rest ss (ps.map (·.derivation)) := by
  induction ss generalizing qs with
  | nil =>
    cases h
    exact ⟨[],.nil,rfl⟩
  | cons s ss ih =>
    have hs := Draft.schedule_of_staysOpen s rest 0 depth
    rw [List.map_cons] at h
    split at hs
    next ho =>
      rw [hs] at h
      cases h with
      | unsolved others =>
        obtain ⟨ps,hp,hm⟩ := ih others
        rw [Draft.scheduled_cons_inr hs]
        exact ⟨ps,hp,by rw [merge_of_staysOpen ho,List.map_cons,hm]; rfl⟩
    next ho =>
      obtain ⟨g,hg,-⟩ := hs
      rw [hg] at h
      cases h with
      | node outcome mem parts others =>
        obtain ⟨ps,hp,hm⟩ := ih others
        rw [Draft.scheduled_cons_inl hg]
        exact ⟨_ :: ps,.node outcome mem parts hp,by rw [List.map_cons,List.map_cons,merge_of_scheduled ho,hm]⟩

end

end Grows

theorem Barren.not_grows {procs : ι → Tactic ι} {ctx : Context} {bound : Nat} {gs : List (Goal ι)}
    (h : Barren procs ctx bound gs) {ps : List Growth} : ¬ Grows procs ctx bound (gs.map .inl) ps := by
  induction h generalizing ps with
  | @failed g gs err outcome =>
    intro hg
    rw [List.map_cons] at hg
    cases hg with
    | node outcome' =>
      rw [outcome] at outcome'
      cases outcome'
  | @opened g gs as outcome _ ih =>
    intro hg
    rw [List.map_cons] at hg
    cases hg with
    | node outcome' mem parts others =>
      rw [outcome] at outcome'
      cases outcome'
      obtain ⟨qs,hq,-⟩ := parts.to_scheduled
      have hall := hq.append others
      rw [← List.map_append] at hall
      exact ih _ mem hall

namespace Draft

variable {procs : ι → Tactic ι} {ctx : Context} {bound : Nat}

/-- A draft is completed by what grows from its agenda. -/
def Bears (procs : ι → Tactic ι) (ctx : Context) (bound : Nat) (d : Draft ι) (y : Derivation) : Prop :=
  ∃ ps, Grows procs ctx bound (d.agenda.map .inl) ps ∧ d.Completed (ps.map (·.derivation)) y

variable {m n : Nat} {d : Draft ι} {g : Goal ι} {gs : List (Goal ι)} {as : List (Alternative ι)}
  {a : Alternative ι} {y : Derivation}

theorem Bears.of_choose (hn : d.Numbered m) (hd : d.agenda = g :: gs)
    (ho : (g.expansion procs ctx bound).outcome = .ok as) (ha : a ∈ as) (hm : m ≤ n)
    (h : (({ d with agenda := gs } : Draft ι).choose g a n).Bears procs ctx bound y) :
    d.Bears procs ctx bound y := by
  obtain ⟨ps,hps,hy⟩ := h
  have hps := hps.unnumber
  rw [unnumbered_choose,List.map_append] at hps
  obtain ⟨qs,rs,rfl,hq,hr⟩ := hps.of_append
  obtain ⟨us,hu,hmerge⟩ := hq.of_scheduled
  refine ⟨.node a us :: rs,?_,?_⟩
  · rw [hd]
    exact .node ho ha hu hr.renumber
  · have hl : (qs.map (·.derivation)).length = (a.goals g).length := by
      simpa using hq.length
    rw [List.map_append] at hy
    have := hy.of_choose hn hd hm hl
    rwa [← hmerge] at this

theorem Bears.finish (h : d.agenda = []) : d.Bears procs ctx bound (d.finish 0) :=
  ⟨[],by rw [h]; exact .nil,.finish h⟩

end Draft

theorem mem_foldl_addNew_of_mem (ds : List Derivation) {found : List Derivation} {y : Derivation}
    (h : y ∈ found) :
    y ∈ ds.foldl addNew found := by
  rw [foldl_addNew]
  exact List.mem_append.2 (.inl h)

theorem exists_mem_foldl_addNew {ds : List Derivation} (found : List Derivation) {y : Derivation}
    (h : y ∈ ds) : ∃ y' ∈ ds.foldl addNew found, y'.term = y.term := by
  induction ds generalizing found with
  | nil => cases h
  | cons d ds ih =>
    rcases List.mem_cons.1 h with rfl | h
    · have hadd : ∃ y' ∈ addNew found y, y'.term = y.term := by
        rw [addNew]
        split
        next ha => simpa using ha
        next => exact ⟨y,by simp,rfl⟩
      obtain ⟨y',hy,ht⟩ := hadd
      exact ⟨y',mem_foldl_addNew_of_mem ds hy,ht⟩
    · exact ih _ h

namespace Frontier

variable {procs : ι → Tactic ι} {ctx : Context} {bound limit : Nat} {f f' : Frontier ι}
  {fs : List (Frontier ι)}

/-- A step leaves nothing that has not been found or borne before. -/
theorem Step.grown (hs : Step procs ctx bound f f') (hn : ∀ d ∈ f.drafts, d.Numbered f.next)
    {y : Derivation} (h : y ∈ f'.found ∨ ∃ d ∈ f'.drafts, d.Bears procs ctx bound y) :
    y ∈ f.found ∨ ∃ d ∈ f.drafts, d.Bears procs ctx bound y := by
  rcases h with h | ⟨d,hd,h⟩
  · rcases hs.mem_found h with h | ⟨d,hd,ha,rfl⟩
    · exact .inl h
    · exact .inr ⟨d,hd,.finish ha⟩
  · rcases hs.mem_drafts hd with hd | @⟨d,g,gs,as,a,n,mem,agenda,outcome,alternative,next,_,_⟩
    · exact .inr ⟨d,hd,h⟩
    · exact .inr ⟨d,mem,h.of_choose (hn d mem) agenda outcome alternative next⟩

theorem Run.grown (r : Run procs ctx bound limit fs f f') (hn : ∀ d ∈ f.drafts, d.Numbered f.next)
    {y : Derivation} (h : y ∈ f'.found) : y ∈ f.found ∨ ∃ d ∈ f.drafts, d.Bears procs ctx bound y := by
  induction r with
  | exhausted => exact .inl h
  | full hs => exact hs.grown hn (.inl h)
  | more hs _ _ ih => exact hs.grown hn (ih (hs.numbered hn) h)

/-- A run that is not stopped completes a draft with everything that grows from its agenda. -/
theorem Run.bears (r : Run procs ctx bound limit fs f f') (few : f'.found.length < limit)
    (hn : ∀ d ∈ f.drafts, d.Numbered f.next) {d : Draft ι} (hd : d ∈ f.drafts) {ps : List Growth}
    (hp : Grows procs ctx bound (d.agenda.map .inl) ps) :
    ∃ y ∈ derived fs, d.Completed (ps.map (·.derivation)) y := by
  induction r generalizing d ps with
  | exhausted hnil => simp [hnil] at hd
  | full _ enough => exact absurd few (Nat.not_lt.2 enough)
  | @more f f₁ f₂ fs hs _ _ ih =>
    have hlater {d : Draft ι} {ps : List Growth} (hd : d ∈ f₁.drafts)
        (hp : Grows procs ctx bound (d.agenda.map .inl) ps) :
        ∃ y ∈ derived (f :: fs), d.Completed (ps.map (·.derivation)) y := by
      obtain ⟨y,hy,hc⟩ := ih few (hs.numbered hn) hd hp
      exact ⟨y,(List.Sublist.filterMap _ (List.sublist_cons_self f fs)).subset hy,hc⟩
    cases hs with
    | @finished d₀ ds hdrafts ha =>
      rw [record_drafts] at hlater
      rw [hdrafts] at hd
      rcases List.mem_cons.1 hd with rfl | hd
      · rw [ha] at hp
        cases hp
        refine ⟨d.finish 0,?_,.finish ha⟩
        rw [derived_cons_some (derived?_of_nil hdrafts ha)]
        exact List.mem_cons_self
      · exact hlater hd hp
    | @failed d₀ ds g gs err hdrafts ha ho =>
      rw [hdrafts] at hd
      rcases List.mem_cons.1 hd with rfl | hd
      · rw [ha,List.map_cons] at hp
        cases hp with
        | node outcome =>
          rw [ho] at outcome
          cases outcome
      · exact hlater hd hp
    | @opened d₀ ds g gs as hdrafts ha ho =>
      rw [hdrafts] at hd
      rcases List.mem_cons.1 hd with rfl | hd
      · rw [ha,List.map_cons] at hp
        cases hp with
        | @node _ _ a _ us rs outcome mem parts others =>
          rw [ho] at outcome
          cases outcome
          obtain ⟨n,hm,hchosen⟩ := Draft.mem_chooseAll_of_mem (d := { d with agenda := gs }) (g := g) mem f.next
          obtain ⟨qs,(hq : Grows procs ctx bound ((a.goals g).map .inl) qs),hmerge⟩ := parts.to_scheduled
          have hgrows : Grows procs ctx bound
              ((({ d with agenda := gs } : Draft ι).choose g a n).agenda.map .inl) (qs ++ rs) := by
            refine .renumber ?_
            rw [Draft.unnumbered_choose,List.map_append]
            exact hq.append others.unnumber
          obtain ⟨y,hy,hc⟩ := hlater (List.mem_append.2 (.inl hchosen)) hgrows
          refine ⟨y,hy,?_⟩
          have hl : (qs.map (·.derivation)).length = (a.goals g).length := by
            simpa using hq.length
          rw [List.map_append] at hc
          have := hc.of_choose (hn d (by simp [hdrafts])) ha hm hl
          rwa [← hmerge] at this
      · exact hlater (List.mem_append.2 (.inr hd)) hp

end Frontier

def Goal.root (j : Judgement) (t : Tactic ι) : Goal ι := ⟨0,j,t,[],0⟩

section

variable {procs : ι → Tactic ι} {ctx : Context} {bound limit budget left : Nat} {j : Judgement}
  {t : Tactic ι} {f : Frontier ι}

theorem Frontier.start_numbered : ∀ d ∈ (start j t).drafts, d.Numbered (start j t).next := by
  intro d hd
  cases List.mem_singleton.1 hd
  exact .start _ rfl

theorem Draft.completed_start {p d : Derivation} :
    (⟨[.root j t],[],[]⟩ : Draft ι).Completed [p] d ↔ d.Renders p := by
  refine ⟨fun h => ⟨h.term,by simpa using h.unsolved⟩,fun h => ⟨h.1,by simpa using h.2⟩⟩

theorem grows_of_explore (h : (Frontier.start j t).explore procs ctx bound limit budget = some (left,f))
    {y : Derivation} (hy : y ∈ f.found) :
    ∃ p, Grows procs ctx bound [.inl (.root j t)] [p] ∧ y.Renders p.derivation := by
  rcases (Frontier.explore_run h).grown Frontier.start_numbered hy with hy | ⟨d,hd,ps,hp,hc⟩
  · cases hy
  · cases List.mem_singleton.1 hd
    obtain ⟨p,rfl⟩ := List.length_eq_one_iff.1 hp.length
    exact ⟨p,hp,Draft.completed_start.1 hc⟩

/-- An exploration that is not stopped finds what grows from its goal, each term once. -/
theorem explore_of_grows (h : (Frontier.start j t).explore procs ctx bound limit budget = some (left,f))
    (few : f.found.length < limit) {p : Growth} (hp : Grows procs ctx bound [.inl (.root j t)] [p]) :
    ∃ y ∈ f.found, y.term.blank = p.derivation.term := by
  have hrun := Frontier.explore_run h
  obtain ⟨y,hy,hc⟩ := hrun.bears few Frontier.start_numbered (List.mem_singleton_self _) hp
  obtain ⟨y',hy',ht⟩ := exists_mem_foldl_addNew (Frontier.start j t).found hy
  rw [← hrun.found] at hy'
  exact ⟨y',hy',by rw [ht,(Draft.completed_start.1 hc).1]⟩

end

end TypedHole
