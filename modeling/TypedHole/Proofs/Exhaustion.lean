import TypedHole.Proofs.Expansion
import TypedHole.Tactic.Direct

/-! Exhaustion.
A depth bound shows only where an expansion is cut off. Without a cut, expansions and whole explorations
are the same at every larger bound (`Frontier.explore_of_not_cut`), and what offers nothing at some bound
offers nothing at a smaller one either (`Barren.mono`). Main statement: when a search fails before its
budget runs out, no depth bound has a derivation (`search_exhausted`). -/
namespace TypedHole

variable {ι : Type} {procs : ι → Tactic ι} {ctx : Context}

namespace Expansion

def error? (e : Expansion ι) : Option TacticError :=
  match e.outcome with
  | .error err => some err
  | .ok _ => none

theorem cut_all (es : List (Expansion ι)) : (all es).cut = false ↔ ∀ e ∈ es, e.cut = false := by
  simp [all]

theorem cut_orElse {first : Expansion ι} {second : Unit → Expansion ι}
    (h : (first.orElse second).cut = false) : first.cut = false := by
  rcases orElse_cases first second with ⟨he,-⟩ | ⟨he,-⟩
  · rwa [he] at h
  · rw [he] at h
    exact (Bool.or_eq_false_iff.1 h).1

theorem orElse_congr {first : Expansion ι} {second second' : Unit → Expansion ι}
    (h : (first.orElse second).cut = false) (hs : (second ()).cut = false → second () = second' ()) :
    first.orElse second = first.orElse second' := by
  obtain ⟨outcome,cut⟩ := first
  match outcome, cut with
  | .error err, cut =>
    have hcut : (cut || (second ()).cut) = false := h
    show { second () with cut := cut || (second ()).cut } =
      { second' () with cut := cut || (second' ()).cut }
    rw [hs (Bool.or_eq_false_iff.1 hcut).2]
  | .ok (a :: as), _ => rfl
  | .ok [], true => rfl
  | .ok [], false =>
    have hcut : (false || (second ()).cut) = false := h
    show { second () with cut := false || (second ()).cut } =
      { second' () with cut := false || (second' ()).cut }
    rw [hs (Bool.or_eq_false_iff.1 hcut).2]

end Expansion

namespace Tactic

theorem cut_expand (j : Judgement) (fuel : Nat) (t : Tactic ι) (rest : List (Tactic ι)) :
    (expand procs ctx j false fuel t rest).cut = false := by
  induction fuel generalizing t rest with
  | zero => rfl
  | succ fuel ih =>
    cases t with
    | rule => rfl
    | andThen a b => exact ih a _
    | orElse a b =>
      rw [expand]
      rcases Expansion.orElse_cases (expand procs ctx j false fuel a rest)
        (fun _ => expand procs ctx j false fuel b rest) with ⟨he,-⟩ | ⟨he,-⟩
      · rw [he]
        exact ih a rest
      · rw [he]
        exact Bool.or_eq_false_iff.2 ⟨ih a rest,ih b rest⟩
    | choice ts =>
      rw [expand,Expansion.cut_all]
      intro e he
      obtain ⟨t,-,rfl⟩ := List.mem_map.1 he
      exact ih t rest
    | idle => rfl
    | fail => rfl
    | call l => exact ih _ _
    | withGoal f => exact ih _ _

/-- Without a cut the depth bound has had no effect. -/
theorem expand_of_not_cut {j : Judgement} {fuel : Nat} {t : Tactic ι} {rest : List (Tactic ι)}
    (h : (expand procs ctx j true fuel t rest).cut = false) :
    expand procs ctx j true fuel t rest = expand procs ctx j false fuel t rest := by
  induction fuel generalizing t rest with
  | zero => rfl
  | succ fuel ih =>
    cases t with
    | rule => cases h
    | andThen a b => exact ih h
    | orElse a b =>
      rw [expand] at h
      calc (expand procs ctx j true fuel a rest).orElse (fun _ => expand procs ctx j true fuel b rest)
          = (expand procs ctx j true fuel a rest).orElse fun _ => expand procs ctx j false fuel b rest :=
            Expansion.orElse_congr h ih
        _ = (expand procs ctx j false fuel a rest).orElse fun _ =>
              expand procs ctx j false fuel b rest := by rw [ih (Expansion.cut_orElse h)]
    | choice ts =>
      rw [expand,Expansion.cut_all] at h
      rw [expand,expand]
      congr 1
      refine List.map_congr_left fun t ht => ih (h _ (List.mem_map_of_mem ht))
    | idle => rfl
    | fail => rfl
    | call l => exact ih h
    | withGoal f => exact ih h

theorem cut_of_error {j : Judgement} {spent : Bool} {fuel : Nat} {t : Tactic ι} {rest : List (Tactic ι)}
    {err : TacticError} (h : (expand procs ctx j spent fuel t rest).outcome = .error err) :
    (expand procs ctx j spent fuel t rest).cut = false := by
  induction fuel generalizing t rest err with
  | zero => rfl
  | succ fuel ih =>
    cases t with
    | rule =>
      rw [expand] at h ⊢
      split at h
      next => cases h
      next hs => simp [hs]
    | andThen a b => exact ih h
    | orElse a b =>
      rw [expand] at h ⊢
      rcases Expansion.orElse_cases (expand procs ctx j spent fuel a rest)
        (fun _ => expand procs ctx j spent fuel b rest) with ⟨he,as,hok,-⟩ | ⟨he,hfirst⟩
      · rw [he,hok] at h
        cases h
      · rw [he] at h ⊢
        refine Bool.or_eq_false_iff.2 ⟨?_,ih h⟩
        cases ho : (expand procs ctx j spent fuel a rest).outcome with
        | error => exact ih ho
        | ok as => exact (hfirst as ho).2
    | choice ts =>
      rw [expand] at h ⊢
      rw [Expansion.cut_all]
      intro e he
      obtain ⟨err',he'⟩ := Expansion.error_of_all h e he
      obtain ⟨t,-,rfl⟩ := List.mem_map.1 he
      exact ih he'
    | idle => rfl
    | fail => rfl
    | call l => exact ih h
    | withGoal f => exact ih h

theorem mem_expand_of_spent {j : Judgement} {fuel : Nat} {t : Tactic ι} {rest : List (Tactic ι)}
    {as : List (Alternative ι)} {a : Alternative ι}
    (h : (expand procs ctx j true fuel t rest).outcome = .ok as) (ha : a ∈ as) :
    ∃ bs, (expand procs ctx j false fuel t rest).outcome = .ok bs ∧ a ∈ bs := by
  induction fuel generalizing t rest as with
  | zero => cases h
  | succ fuel ih =>
    cases t with
    | rule =>
      cases h
      cases ha
    | andThen b c => exact ih h ha
    | orElse b c =>
      rw [expand] at h ⊢
      rcases Expansion.orElse_cases (expand procs ctx j true fuel b rest)
        (fun _ => expand procs ctx j true fuel c rest) with ⟨he,-⟩ | ⟨he,hfirst⟩
      · rw [he] at h
        obtain ⟨bs,hbs,hab⟩ := ih h ha
        rcases Expansion.orElse_cases (expand procs ctx j false fuel b rest)
          (fun _ => expand procs ctx j false fuel c rest) with ⟨he',-⟩ | ⟨-,hfirst'⟩
        · rw [he']
          exact ⟨bs,hbs,hab⟩
        · rw [(hfirst' bs hbs).1] at hab
          cases hab
      · -- The first part fails or is empty, and was not cut off; so it is the same within the bound.
        rw [he] at h
        have hcut : (expand procs ctx j true fuel b rest).cut = false := by
          cases ho : (expand procs ctx j true fuel b rest).outcome with
          | error => exact cut_of_error ho
          | ok as => exact (hfirst as ho).2
        obtain ⟨bs,hbs,hab⟩ := ih h ha
        rw [expand_of_not_cut hcut] at hfirst
        rcases Expansion.orElse_cases (expand procs ctx j false fuel b rest)
          (fun _ => expand procs ctx j false fuel c rest) with ⟨-,as',hok,hempty⟩ | ⟨he',-⟩
        · obtain ⟨hnil,hnot⟩ := hfirst as' hok
          rw [hempty hnil] at hnot
          cases hnot
        · rw [he']
          exact ⟨bs,hbs,hab⟩
    | choice ts =>
      obtain ⟨e,he,bs,hbs,hab⟩ := Expansion.mem_all h ha
      obtain ⟨t,ht,rfl⟩ := List.mem_map.1 he
      obtain ⟨cs,hcs,hac⟩ := ih hbs hab
      exact Expansion.mem_all_of_mem (List.mem_map_of_mem ht) hcs hac
    | idle => exact ⟨as,h,ha⟩
    | fail => cases h
    | call l => exact ih h ha
    | withGoal f => exact ih h ha

end Tactic

namespace Goal

variable {bound bound' : Nat}

theorem expansion_of_not_cut {g : Goal ι} (h : (g.expansion procs ctx bound).cut = false)
    (hb : bound ≤ bound') : g.expansion procs ctx bound' = g.expansion procs ctx bound := by
  simp only [expansion] at h ⊢
  by_cases hd : bound ≤ g.depth
  · by_cases hd' : bound' ≤ g.depth
    · rw [decide_eq_true hd,decide_eq_true hd']
    · rw [decide_eq_true hd] at h ⊢
      rw [decide_eq_false hd',Tactic.expand_of_not_cut h]
  · have hd' : ¬ bound' ≤ g.depth := fun h => hd (Nat.le_trans hb h)
    rw [decide_eq_false hd,decide_eq_false hd']

theorem mem_expansion {g : Goal ι} {as : List (Alternative ι)} {a : Alternative ι}
    (h : (g.expansion procs ctx bound).outcome = .ok as) (ha : a ∈ as) (hb : bound ≤ bound') :
    ∃ bs, (g.expansion procs ctx bound').outcome = .ok bs ∧ a ∈ bs := by
  by_cases hc : (g.expansion procs ctx bound).cut = false
  · rw [expansion_of_not_cut hc hb]
    exact ⟨as,h,ha⟩
  · have hd : bound ≤ g.depth := by
      refine Decidable.byContradiction fun hd => hc ?_
      rw [expansion,decide_eq_false hd]
      exact Tactic.cut_expand ..
    by_cases hd' : bound' ≤ g.depth
    · refine ⟨as,?_,ha⟩
      rwa [expansion,decide_eq_true hd',← decide_eq_true hd]
    · rw [expansion,decide_eq_true hd] at h
      rw [expansion,decide_eq_false hd']
      exact Tactic.mem_expand_of_spent h ha

end Goal

namespace Frontier

variable {bound bound' limit budget left : Nat} {f f' : Frontier ι} {fs : List (Frontier ι)}

/-- The goals opened up in the frontiers that a run passes, with what is offered there, in their order. -/
def expansions (procs : ι → Tactic ι) (ctx : Context) (bound : Nat) (fs : List (Frontier ι)) :
    List (Goal ι × Expansion ι) :=
  fs.filterMap fun f => f.goal?.map fun g => (g,g.expansion procs ctx bound)

/-- The first of the goals opened up that fails. -/
def firstFailure (procs : ι → Tactic ι) (ctx : Context) (bound : Nat) (fs : List (Frontier ι)) :
    Option TacticError := (expansions procs ctx bound fs).findSome? (·.2.error?)

theorem record_cut (f : Frontier ι) (d : Derivation) : (f.record d).cut = f.cut := by
  simp only [record]
  split <;> rfl

theorem record_failure (f : Frontier ι) (d : Derivation) : (f.record d).failure = f.failure := by
  simp only [record]
  split <;> rfl

theorem Step.not_cut (hs : Step procs ctx bound f f') (h : f'.cut = false) :
    f.cut = false ∧ ∀ g, f.goal? = some g → (g.expansion procs ctx bound).cut = false := by
  cases hs with
  | finished hd ha =>
    rw [record_cut] at h
    refine ⟨h,fun g hg => ?_⟩
    rw [goal?_of_nil hd ha] at hg
    cases hg
  | failed hd ha ho =>
    obtain ⟨hf,he⟩ := Bool.or_eq_false_iff.1 h
    refine ⟨hf,fun g hg => ?_⟩
    rw [goal?_of_cons hd ha] at hg
    cases hg
    exact he
  | opened hd ha ho =>
    obtain ⟨hf,he⟩ := Bool.or_eq_false_iff.1 h
    refine ⟨hf,fun g hg => ?_⟩
    rw [goal?_of_cons hd ha] at hg
    cases hg
    exact he

theorem Run.not_cut (r : Run procs ctx bound limit fs f f') (h : f'.cut = false) : f.cut = false := by
  induction r with
  | exhausted => exact h
  | full hs => exact (hs.not_cut h).1
  | more hs _ _ ih => exact (hs.not_cut (ih h)).1

theorem advance_of_not_cut (hd : f.drafts ≠ []) (h : (f.advance procs ctx bound).cut = false)
    (hb : bound ≤ bound') : f.advance procs ctx bound' = f.advance procs ctx bound := by
  obtain ⟨d,ds,hd'⟩ := List.exists_cons_of_ne_nil hd
  have hexp := ((step_advance procs ctx bound hd).not_cut h).2
  cases ha : d.agenda with
  | nil => simp only [advance,hd',visit,ha]
  | cons g gs =>
    have he := Goal.expansion_of_not_cut (hexp g (goal?_of_cons hd' ha)) hb
    rw [Goal.expansion,Goal.expansion] at he
    simp only [advance,hd',visit,ha,he]

/-- An exploration that cuts nothing off passes the same frontiers at every larger bound. -/
theorem explore_of_not_cut (h : f.explore procs ctx bound limit budget = some (left,f'))
    (hc : f'.cut = false) (hb : bound ≤ bound') :
    f.explore procs ctx bound' limit budget = some (left,f') ∧
      f.passed procs ctx bound' limit budget = f.passed procs ctx bound limit budget ∧
      expansions procs ctx bound' (f.passed procs ctx bound' limit budget) =
        expansions procs ctx bound (f.passed procs ctx bound limit budget) := by
  induction budget generalizing f with
  | zero =>
    by_cases hd : f.drafts = []
    · rw [explore_of_empty hd] at h ⊢
      rw [passed_of_empty hd,passed_of_empty hd]
      exact ⟨h,rfl,by simp [expansions]⟩
    · rw [explore_zero hd] at h
      cases h
  | succ budget ih =>
    by_cases hd : f.drafts = []
    · rw [explore_of_empty hd] at h ⊢
      rw [passed_of_empty hd,passed_of_empty hd]
      exact ⟨h,rfl,by simp [expansions]⟩
    · have hs := step_advance procs ctx bound hd
      rw [explore_succ hd] at h
      dsimp only at h
      have hcut : (f.advance procs ctx bound).cut = false := by
        split at h
        · cases h
          exact hc
        · exact (explore_run h).not_cut hc
      have hgoal : f.goal?.map (fun g => (g,g.expansion procs ctx bound')) =
          f.goal?.map fun g => (g,g.expansion procs ctx bound) := by
        cases hg : f.goal? with
        | none => rw [Option.map_none,Option.map_none]
        | some g =>
          have he := Goal.expansion_of_not_cut ((hs.not_cut hcut).2 g hg) hb
          rw [Option.map_some,Option.map_some,he]
      rw [explore_succ hd,passed_succ hd,passed_succ hd,advance_of_not_cut hd hcut hb]
      dsimp only
      split at h
      next hl =>
        simp only [if_pos hl]
        exact ⟨h,trivial,by simp only [expansions,List.filterMap_cons,hgoal,List.filterMap_nil]⟩
      next hl =>
        obtain ⟨he,hp,ho⟩ := ih h
        simp only [if_neg hl]
        refine ⟨he,by rw [hp],?_⟩
        simp only [expansions] at ho ⊢
        rw [List.filterMap_cons,List.filterMap_cons,hgoal,ho]

theorem Step.failure (hs : Step procs ctx bound f f') :
    f'.failure = f.failure.or (firstFailure procs ctx bound [f]) := by
  cases hs with
  | finished hd ha => simp [record_failure,firstFailure,expansions,goal?_of_nil hd ha]
  | failed hd ha ho =>
    simp [firstFailure,expansions,goal?_of_cons hd ha,Expansion.error?,ho]
  | opened hd ha ho =>
    simp [firstFailure,expansions,goal?_of_cons hd ha,Expansion.error?,ho]

theorem Run.failure (r : Run procs ctx bound limit fs f f') :
    f'.failure = f.failure.or (firstFailure procs ctx bound fs) := by
  induction r with
  | exhausted => simp [firstFailure,expansions]
  | full hs => exact hs.failure
  | @more f f₁ f₂ fs hs _ _ ih =>
    have hsplit : firstFailure procs ctx bound (f :: fs) =
        (firstFailure procs ctx bound [f]).or (firstFailure procs ctx bound fs) := by
      rw [firstFailure,firstFailure,firstFailure,← List.findSome?_append,expansions,expansions,expansions,
        ← List.filterMap_append]
      rfl
    rw [ih,hs.failure,Option.or_assoc,hsplit]

end Frontier

/-- No way to go on with an agenda, whose goals come without numbers, ends in a derivation. -/
inductive Barren (procs : ι → Tactic ι) (ctx : Context) (bound : Nat) : List (Goal ι) → Prop
  | failed {g : Goal ι} {gs : List (Goal ι)} {err : TacticError}
      (outcome : (g.expansion procs ctx bound).outcome = .error err) : Barren procs ctx bound (g :: gs)
  | opened {g : Goal ι} {gs : List (Goal ι)} {as : List (Alternative ι)}
      (outcome : (g.expansion procs ctx bound).outcome = .ok as)
      (barren : ∀ a ∈ as, Barren procs ctx bound (a.goals g ++ gs)) : Barren procs ctx bound (g :: gs)

theorem Barren.mono {bound bound' : Nat} {gs : List (Goal ι)} (h : Barren procs ctx bound' gs)
    (hb : bound ≤ bound') : Barren procs ctx bound gs := by
  induction h with
  | @failed g gs err outcome =>
    cases ho : (g.expansion procs ctx bound).outcome with
    | error err' => exact .failed ho
    | ok as =>
      refine .opened ho fun a ha => ?_
      obtain ⟨bs,hbs,-⟩ := Goal.mem_expansion ho ha hb
      rw [outcome] at hbs
      cases hbs
  | @opened g gs as outcome _ ih =>
    cases ho : (g.expansion procs ctx bound).outcome with
    | error err' => exact .failed ho
    | ok as' =>
      refine .opened ho fun a ha => ih a ?_
      obtain ⟨bs,hbs,hab⟩ := Goal.mem_expansion ho ha hb
      rw [outcome] at hbs
      cases hbs
      exact hab

namespace Frontier

variable {bound limit : Nat} {f f' : Frontier ι} {fs : List (Frontier ι)}

/-- Nothing has been found, and no draft can be finished. -/
def Fruitless (procs : ι → Tactic ι) (ctx : Context) (bound : Nat) (f : Frontier ι) : Prop :=
  f.found = [] ∧ ∀ d ∈ f.drafts, Barren procs ctx bound (d.agenda.map Goal.unnumbered)

theorem record_ne_nil (f : Frontier ι) (d : Derivation) : (f.record d).found ≠ [] := by
  rw [record]
  split
  next h =>
    intro hnil
    rw [hnil] at h
    cases h
  next => simp

theorem Step.fruitless (hs : Step procs ctx bound f f') (h : f'.Fruitless procs ctx bound) :
    f.Fruitless procs ctx bound := by
  obtain ⟨hnil,hbarren⟩ := h
  cases hs with
  | finished => exact absurd hnil (record_ne_nil _ _)
  | failed hd ha ho =>
    refine ⟨hnil,fun d' hd' => ?_⟩
    rw [hd] at hd'
    rcases List.mem_cons.1 hd' with rfl | hd'
    · rw [ha,List.map_cons]
      exact .failed ho
    · exact hbarren d' hd'
  | @opened d ds g gs as hd ha ho =>
    refine ⟨hnil,fun d' hd' => ?_⟩
    rw [hd] at hd'
    rcases List.mem_cons.1 hd' with rfl | hd'
    · rw [ha,List.map_cons]
      refine .opened ho fun a hm => ?_
      obtain ⟨n,-,hn⟩ := Draft.mem_chooseAll_of_mem (d := { d' with agenda := gs }) (g := g) hm f.next
      have := hbarren _ (List.mem_append.2 (.inl hn))
      rwa [Draft.unnumbered_choose] at this
    · exact hbarren d' (by simp [hd'])

theorem Run.fruitless (r : Run procs ctx bound limit fs f f') (hl : 1 ≤ limit) (h : f'.found = []) :
    f.Fruitless procs ctx bound := by
  induction r with
  | exhausted hd => exact ⟨h,fun d hd' => by simp [hd] at hd'⟩
  | full _ enough =>
    rw [h] at enough
    exact absurd (Nat.le_trans hl enough) (Nat.not_succ_le_zero 0)
  | more hs _ _ ih => exact hs.fruitless (ih h)

theorem Fruitless.step (h : f.Fruitless procs ctx bound) (hs : Step procs ctx bound f f') :
    f'.Fruitless procs ctx bound := by
  obtain ⟨hnil,hbarren⟩ := h
  refine ⟨List.eq_nil_iff_forall_not_mem.2 fun y hy => ?_,fun d hd => ?_⟩
  · rcases hs.mem_found hy with hy | ⟨d,hd,agenda,-⟩
    · simp [hnil] at hy
    · have := hbarren d hd
      rw [agenda] at this
      cases this
  · rcases hs.mem_drafts hd with hd | @⟨d,g,gs,as,a,n,mem,agenda,outcome,alternative,_,_,_⟩
    · exact hbarren d hd
    · have := hbarren d mem
      rw [agenda,List.map_cons] at this
      rw [Draft.unnumbered_choose]
      cases this with
      | failed failure =>
        have hfail : (g.expansion procs ctx bound).outcome = .error _ := failure
        rw [outcome] at hfail
        cases hfail
      | opened outcome' barren =>
        have hok : (g.expansion procs ctx bound).outcome = .ok _ := outcome'
        rw [outcome] at hok
        cases hok
        exact barren a alternative

theorem Fruitless.run (h : f.Fruitless procs ctx bound) (r : Run procs ctx bound limit fs f f') :
    f'.Fruitless procs ctx bound := by
  induction r with
  | exhausted => exact h
  | full hs => exact h.step hs
  | more hs _ _ ih => exact ih (h.step hs)

end Frontier

/-- An exploration that cuts nothing off does the same at every larger bound. When a search fails and its
budget has not run out, no exploration at any bound finds a derivation, and the error is the first failure
of an exploration that was not cut off, if there is any failure. -/
theorem search_exhausted {j : Judgement} {t : Tactic ι} :
    (∀ bound limit budget left f,
      (Frontier.start j t).explore procs ctx bound limit budget = some (left,f) → f.cut = false →
        ∀ bound', bound ≤ bound' →
          (Frontier.start j t).explore procs ctx bound' limit budget = some (left,f) ∧
          (Frontier.start j t).passed procs ctx bound' limit budget =
            (Frontier.start j t).passed procs ctx bound limit budget ∧
          Frontier.expansions procs ctx bound'
              ((Frontier.start j t).passed procs ctx bound' limit budget) =
            Frontier.expansions procs ctx bound
              ((Frontier.start j t).passed procs ctx bound limit budget)) ∧
    ∀ cfg err, search procs cfg ctx j t = .error err →
      deepen procs ctx (max 1 cfg.maxSolutions) j t (cfg.timeout * stepsPerMillisecond)
          (cfg.timeout * stepsPerMillisecond) 1 = none ∧ err = .timeout cfg.timeout ∨
      (∀ bound limit budget left f,
        (Frontier.start j t).explore procs ctx bound limit budget = some (left,f) → f.found = []) ∧
      ∃ bound budget left f,
        (Frontier.start j t).explore procs ctx bound (max 1 cfg.maxSolutions) budget = some (left,f) ∧
        f.cut = false ∧
        err = (Frontier.firstFailure procs ctx bound
          ((Frontier.start j t).passed procs ctx bound (max 1 cfg.maxSolutions) budget)).getD
            (.noApplicableRule "search" j.goal) := by
  refine ⟨fun bound limit budget left f h hc bound' hb => Frontier.explore_of_not_cut h hc hb,
    fun cfg err h => ?_⟩
  simp only [search] at h
  cases hd : deepen procs ctx (max 1 cfg.maxSolutions) j t (cfg.timeout * stepsPerMillisecond)
      (cfg.timeout * stepsPerMillisecond) 1 with
  | none =>
    rw [hd] at h
    cases h
    exact .inl ⟨rfl,rfl⟩
  | some r =>
    rw [hd,Option.getD_some] at h
    subst h
    obtain ⟨bound,-,budget,left,f,he,hv⟩ := explore_of_deepen hd
    obtain ⟨hnil,hc,herr⟩ : f.found = [] ∧ f.cut = false ∧
        err = f.failure.getD (.noApplicableRule "search" j.goal) := by
      rw [Frontier.verdict] at hv
      split at hv
      next hnil =>
        split at hv
        next => cases hv
        next hc =>
          cases hv
          exact ⟨List.isEmpty_iff.1 hnil,Bool.eq_false_iff.2 hc,rfl⟩
      next => cases hv
    refine .inr ⟨fun bound₁ limit₁ budget₁ left₁ f₁ he₁ => ?_,bound,budget,left,f,he,hc,?_⟩
    · -- At a bound above both the search has nothing to find, and so it has nothing below.
      have hmax := (Frontier.explore_of_not_cut he hc (Nat.le_max_left bound bound₁)).1
      obtain ⟨hstart,hbarren⟩ := (Frontier.explore_run hmax).fruitless (Nat.le_max_left ..) hnil
      have hless : (Frontier.start j t).Fruitless procs ctx bound₁ :=
        ⟨hstart,fun d hd => (hbarren d hd).mono (Nat.le_max_right bound bound₁)⟩
      exact (hless.run (Frontier.explore_run he₁)).1
    · rw [herr,(Frontier.explore_run he).failure]
      rfl

/-- To keep the goal as it is, and go on with a tactic. -/
def Tactic.passThen (t : Tactic Empty) : Tactic Empty :=
  .andThen (.rule "pass" fun _ j => .ok [⟨.hole 0,[⟨j,none⟩]⟩]) t

def Judgement.known : Judgement where
  goal := .const "A"
  hypothesis := .ofList [⟨"x",.const "A",.user⟩]

/-- Before a failure nothing is found at any bound. Before a rule that finds the variable a bound of one cuts the
run off, and no bound above two changes it. -/
theorem search_exhausted_pass :
    search Empty.elim { extensions := .none } ⟨[],.empty,{}⟩ .known (.passThen (.fail .noProgress)) =
        .error .noProgress ∧
      (∀ bound limit budget left f, (Frontier.start .known (.passThen (.fail .noProgress))).explore Empty.elim
        ⟨[],.empty,{}⟩ bound limit budget = some (left,f) → f.found = []) ∧
      (∃ bound budget left f, (Frontier.start .known (.passThen (.fail .noProgress))).explore Empty.elim
          ⟨[],.empty,{}⟩ bound 8 budget = some (left,f) ∧ f.cut = false ∧
        Frontier.firstFailure Empty.elim ⟨[],.empty,{}⟩ bound ((Frontier.start .known
          (.passThen (.fail .noProgress))).passed Empty.elim ⟨[],.empty,{}⟩ bound 8 budget) = some .noProgress) ∧
      (∃ left f, (Frontier.start .known (.passThen (Tactic.assume "x"))).explore Empty.elim ⟨[],.empty,{}⟩ 1 8 9 =
          some (left,f) ∧ f.cut = true ∧ f.found = []) ∧
      ∃ left f, (Frontier.start .known (.passThen (Tactic.assume "x"))).explore Empty.elim ⟨[],.empty,{}⟩ 2 8 9 =
          some (left,f) ∧ f.cut = false ∧ f.found = [⟨.var "x",[]⟩] ∧
        ∀ bound, 2 ≤ bound →
          (Frontier.start .known (.passThen (Tactic.assume "x"))).explore Empty.elim ⟨[],.empty,{}⟩ bound 8 9 =
            some (left,f) ∧
          (Frontier.start .known (.passThen (Tactic.assume "x"))).passed Empty.elim ⟨[],.empty,{}⟩ bound 8 9 =
            (Frontier.start .known (.passThen (Tactic.assume "x"))).passed Empty.elim ⟨[],.empty,{}⟩ 2 8 9 ∧
          Frontier.expansions Empty.elim ⟨[],.empty,{}⟩ bound ((Frontier.start .known
              (.passThen (Tactic.assume "x"))).passed Empty.elim ⟨[],.empty,{}⟩ bound 8 9) =
            Frontier.expansions Empty.elim ⟨[],.empty,{}⟩ 2 ((Frontier.start .known
              (.passThen (Tactic.assume "x"))).passed Empty.elim ⟨[],.empty,{}⟩ 2 8 9) := by
  have hsearch : search Empty.elim { extensions := .none } ⟨[],.empty,{}⟩ .known (.passThen (.fail .noProgress)) =
    .error .noProgress := rfl
  rcases search_exhausted.2 _ _ hsearch with ⟨-,htimeout⟩ | ⟨hnone,bound,budget,left,f,hexplore,hwhole,herror⟩
  · cases htimeout
  -- had nothing failed, the error would be that no rule applies
  have hfailure := (Option.getD_eq_iff.1 herror.symm).resolve_right fun hquiet => by cases hquiet.2
  refine ⟨hsearch,hnone,⟨bound,budget,left,f,hexplore,hwhole,hfailure⟩,⟨_,_,rfl,rfl,rfl⟩,?_⟩
  obtain ⟨left,f,he,hcut,hfound⟩ : ∃ left f, (Frontier.start .known (.passThen (Tactic.assume "x"))).explore
      Empty.elim ⟨[],.empty,{}⟩ 2 8 9 = some (left,f) ∧ f.cut = false ∧ f.found = [⟨.var "x",[]⟩] :=
    ⟨_,_,rfl,rfl,rfl⟩
  exact ⟨left,f,he,hcut,hfound,search_exhausted.1 2 8 9 left f he hcut⟩

end TypedHole
