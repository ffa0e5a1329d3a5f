import TypedHole.Search

/-! The course of an exploration.
`Frontier.Step` lists everything that one visit can do, and `Frontier.Run` strings visits together with
the frontiers they start from. Main statements: every exploration is a run (`explore_run`), and what each
step preserves a run preserves (`Run.invariant`). -/
namespace TypedHole

variable {ι : Type} (procs : ι → Tactic ι) (ctx : Context) (bound limit : Nat)

def Goal.expansion (g : Goal ι) : Expansion ι :=
  g.tactic.expand procs ctx g.judgement (bound ≤ g.depth) (Tactic.maxNesting + 1) g.rest

namespace Frontier

/-- Everything that can happen to a frontier when its first draft is visited. -/
inductive Step : Frontier ι → Frontier ι → Prop
  | finished {f : Frontier ι} {d : Draft ι} {ds : List (Draft ι)} (drafts : f.drafts = d :: ds)
      (agenda : d.agenda = []) : Step f ({ f with drafts := ds }.record (d.finish 0))
  | failed {f : Frontier ι} {d : Draft ι} {ds : List (Draft ι)} {g : Goal ι} {gs : List (Goal ι)}
      {err : TacticError} (drafts : f.drafts = d :: ds) (agenda : d.agenda = g :: gs)
      (outcome : (g.expansion procs ctx bound).outcome = .error err) :
      Step f { f with
        drafts := ds
        cut := f.cut || (g.expansion procs ctx bound).cut
        failure := f.failure <|> some err }
  | opened {f : Frontier ι} {d : Draft ι} {ds : List (Draft ι)} {g : Goal ι} {gs : List (Goal ι)}
      {as : List (Alternative ι)} (drafts : f.drafts = d :: ds) (agenda : d.agenda = g :: gs)
      (outcome : (g.expansion procs ctx bound).outcome = .ok as) :
      Step f { f with
        drafts := ({ d with agenda := gs }.chooseAll g as f.next).1 ++ ds
        next := ({ d with agenda := gs }.chooseAll g as f.next).2
        cut := f.cut || (g.expansion procs ctx bound).cut }

/-- The frontier after its first draft has been visited. -/
def advance (f : Frontier ι) : Frontier ι :=
  match f.drafts with
  | [] => f
  | d :: drafts => visit procs ctx bound { f with drafts } d

def goal? (f : Frontier ι) : Option (Goal ι) := f.drafts.head?.bind (·.agenda.head?)

/-- The frontiers from which an exploration takes a step, in order. -/
def passed : Nat → Frontier ι → List (Frontier ι)
  | 0, _ => []
  | budget + 1, f =>
    if f.drafts.isEmpty then []
    else
      let f' := f.advance procs ctx bound
      f :: if limit ≤ f'.found.length then [] else passed budget f'

theorem goal?_of_cons {f : Frontier ι} {d : Draft ι} {ds : List (Draft ι)} {g : Goal ι} {gs : List (Goal ι)}
    (hd : f.drafts = d :: ds) (ha : d.agenda = g :: gs) : f.goal? = some g := by
  simp [goal?,hd,ha]

theorem goal?_of_nil {f : Frontier ι} {d : Draft ι} {ds : List (Draft ι)} (hd : f.drafts = d :: ds)
    (ha : d.agenda = []) : f.goal? = none := by
  simp [goal?,hd,ha]

@[simp] theorem record_drafts (f : Frontier ι) (d : Derivation) : (f.record d).drafts = f.drafts := by
  simp only [record]
  split <;> rfl

@[simp] theorem record_next (f : Frontier ι) (d : Derivation) : (f.record d).next = f.next := by
  simp only [record]
  split <;> rfl

theorem step_advance {f : Frontier ι} (h : f.drafts ≠ []) :
    Step procs ctx bound f (f.advance procs ctx bound) := by
  obtain ⟨d,ds,hd⟩ := List.exists_cons_of_ne_nil h
  simp only [advance,hd,visit]
  cases ha : d.agenda with
  | nil => exact .finished hd ha
  | cons g gs =>
    cases ho : (g.expansion procs ctx bound).outcome with
    | error err =>
      rw [Goal.expansion] at ho
      simp only [ho]
      exact .failed hd ha ho
    | ok as =>
      rw [Goal.expansion] at ho
      simp only [ho]
      exact .opened hd ha ho

/-- An exploration with the frontiers it passes: it goes on until the frontier is empty or holds enough
derivations. -/
inductive Run : List (Frontier ι) → Frontier ι → Frontier ι → Prop
  | exhausted {f : Frontier ι} (drafts : f.drafts = []) : Run [] f f
  | full {f f' : Frontier ι} (step : Step procs ctx bound f f') (enough : limit ≤ f'.found.length) :
      Run [f] f f'
  | more {f f' f'' : Frontier ι} {fs : List (Frontier ι)} (step : Step procs ctx bound f f')
      (few : f'.found.length < limit) (run : Run fs f' f'') : Run (f :: fs) f f''

variable {procs ctx bound limit}

theorem explore_of_empty {budget : Nat} {f : Frontier ι} (h : f.drafts = []) :
    f.explore procs ctx bound limit budget = some (budget,f) := explore.eq_1 _ _ _ _ _ _ h

theorem explore_zero {f : Frontier ι} (h : f.drafts ≠ []) :
    f.explore procs ctx bound limit 0 = none := by
  obtain ⟨d,ds,hd⟩ := List.exists_cons_of_ne_nil h
  exact explore.eq_2 _ _ _ _ _ _ _ hd

theorem explore_succ {budget : Nat} {f : Frontier ι} (h : f.drafts ≠ []) :
    f.explore procs ctx bound limit (budget + 1) =
      let f' := f.advance procs ctx bound
      if limit ≤ f'.found.length then some (budget,f')
      else f'.explore procs ctx bound limit budget := by
  obtain ⟨d,ds,hd⟩ := List.exists_cons_of_ne_nil h
  have ha : f.advance procs ctx bound = visit procs ctx bound { f with drafts := ds } d := by
    simp [advance,hd]
  rw [ha]
  exact explore.eq_3 _ _ _ _ _ _ _ _ hd

section

variable {f : Frontier ι} {d : Draft ι} {ds : List (Draft ι)} {g : Goal ι} {gs : List (Goal ι)}

theorem advance_of_nil (hd : f.drafts = d :: ds) (ha : d.agenda = []) :
    f.advance procs ctx bound = { f with drafts := ds }.record (d.finish 0) := by
  simp only [advance,hd,visit,ha]

theorem advance_of_error {err : TacticError} {cut : Bool} (hd : f.drafts = d :: ds) (ha : d.agenda = g :: gs)
    (he : g.expansion procs ctx bound = ⟨.error err,cut⟩) :
    f.advance procs ctx bound = { f with
      drafts := ds
      cut := f.cut || cut
      failure := f.failure <|> some err } := by
  rw [Goal.expansion] at he
  simp only [advance,hd,visit,ha,he]

theorem advance_of_ok {as : List (Alternative ι)} {cut : Bool} (hd : f.drafts = d :: ds)
    (ha : d.agenda = g :: gs) (he : g.expansion procs ctx bound = ⟨.ok as,cut⟩) :
    f.advance procs ctx bound = { f with
      drafts := ({ d with agenda := gs }.chooseAll g as f.next).1 ++ ds
      next := ({ d with agenda := gs }.chooseAll g as f.next).2
      cut := f.cut || cut } := by
  rw [Goal.expansion] at he
  simp only [advance,hd,visit,ha,he]

end

theorem explore_of_advance {budget : Nat} {f f' : Frontier ι} (hd : f.drafts ≠ []) (hl : 1 ≤ limit)
    (ha : f.advance procs ctx bound = f') (hnil : f'.found = []) :
    f.explore procs ctx bound limit (budget + 1) = f'.explore procs ctx bound limit budget := by
  rw [explore_succ hd,ha]
  dsimp only
  rw [if_neg (by rw [hnil]; exact Nat.not_le.2 hl)]

theorem passed_succ {budget : Nat} {f : Frontier ι} (h : f.drafts ≠ []) :
    f.passed procs ctx bound limit (budget + 1) =
      let f' := f.advance procs ctx bound
      f :: if limit ≤ f'.found.length then [] else f'.passed procs ctx bound limit budget := by
  simp [passed,h]

theorem passed_of_empty {budget : Nat} {f : Frontier ι} (h : f.drafts = []) :
    f.passed procs ctx bound limit budget = [] := by
  cases budget <;> simp [passed,h]

theorem explore_run {budget left : Nat} {f f' : Frontier ι}
    (h : f.explore procs ctx bound limit budget = some (left,f')) :
    Run procs ctx bound limit (f.passed procs ctx bound limit budget) f f' := by
  induction budget generalizing f with
  | zero =>
    by_cases hd : f.drafts = []
    · rw [explore_of_empty hd] at h
      cases h
      rw [passed_of_empty hd]
      exact .exhausted hd
    · simp [explore_zero hd] at h
  | succ budget ih =>
    by_cases hd : f.drafts = []
    · rw [explore_of_empty hd] at h
      cases h
      rw [passed_of_empty hd]
      exact .exhausted hd
    · have hs := step_advance procs ctx bound hd
      rw [explore_succ hd] at h
      rw [passed_succ hd]
      dsimp only at h ⊢
      split at h
      next he =>
        cases h
        rw [if_pos he]
        exact .full hs he
      next he =>
        rw [if_neg he]
        exact .more hs (Nat.lt_of_not_le he) (ih h)

/-- What a step preserves holds of all frontiers that an exploration passes, also when its budget runs out,
and of the one that it ends with. -/
theorem forall_reached {I : Frontier ι → Prop} (step : ∀ f f', I f → Step procs ctx bound f f' → I f')
    {budget : Nat} {f f' : Frontier ι} (h : I f)
    (hf : f' ∈ f.passed procs ctx bound limit budget ∨
      ∃ left, f.explore procs ctx bound limit budget = some (left,f')) : I f' := by
  induction budget generalizing f with
  | zero =>
    rcases hf with hf | ⟨left,hf⟩
    · cases hf
    · by_cases hd : f.drafts = []
      · rw [explore_of_empty hd] at hf
        cases hf
        exact h
      · simp [explore_zero hd] at hf
  | succ budget ih =>
    by_cases hd : f.drafts = []
    · rw [passed_of_empty hd,explore_of_empty hd] at hf
      rcases hf with hf | ⟨left,hf⟩
      · cases hf
      · cases hf
        exact h
    · have hnext : I (f.advance procs ctx bound) := step _ _ h (step_advance procs ctx bound hd)
      rw [passed_succ hd,explore_succ hd] at hf
      dsimp only at hf
      split at hf
      next =>
        rcases hf with hf | ⟨left,hf⟩
        · exact List.mem_singleton.1 hf ▸ h
        · cases hf
          exact hnext
      next =>
        rcases hf with hf | hf
        · rcases List.mem_cons.1 hf with rfl | hf
          · exact h
          · exact ih hnext (.inl hf)
        · exact ih hnext (.inr hf)

/-- What a step preserves, a run preserves; the property may also speak of the frontiers passed. -/
theorem Run.invariant {I : List (Frontier ι) → Frontier ι → Prop}
    (step : ∀ past f f', I past f → Step procs ctx bound f f' → I (past ++ [f]) f')
    {fs past : List (Frontier ι)} {f f' : Frontier ι} (r : Run procs ctx bound limit fs f f')
    (h : I past f) : I (past ++ fs) f' := by
  induction r generalizing past with
  | exhausted => simpa using h
  | full hs => exact step _ _ _ h hs
  | more hs _ _ ih => simpa using ih (step _ _ _ h hs)

theorem Run.forall_passed {I : Frontier ι → Prop}
    (step : ∀ f f', I f → Step procs ctx bound f f' → I f') {fs : List (Frontier ι)} {f f' : Frontier ι}
    (r : Run procs ctx bound limit fs f f') (h : I f) : ∀ f₁ ∈ fs, I f₁ := by
  induction r with
  | exhausted => simp
  | full => simpa using h
  | more hs _ _ ih => exact List.forall_mem_cons.2 ⟨h,ih (step _ _ h hs)⟩

end Frontier

variable {procs ctx limit}

theorem Frontier.verdict_eq_none {f : Frontier ι} {goal : Ty} (h : f.verdict goal = none) : f.found = [] := by
  rw [verdict] at h
  split at h
  next hf => exact List.isEmpty_iff.1 hf
  next => cases h

theorem Frontier.cut_of_verdict {f : Frontier ι} {goal : Ty} (h : f.verdict goal = none) : f.cut = true := by
  rw [verdict] at h
  split at h
  next =>
    split at h
    next hc => exact hc
    next => cases h
  next => cases h

theorem Frontier.verdict_eq_ok {f : Frontier ι} {goal : Ty} {ds : List Derivation}
    (h : f.verdict goal = some (.ok ds)) : f.found = ds ∧ ds ≠ [] := by
  rw [verdict] at h
  split at h
  next => split at h <;> cases h
  next hf =>
    cases h
    exact ⟨rfl,fun hnil => hf (by rw [hnil]; rfl)⟩

theorem deepen_eq_some {j : Judgement} {t : Tactic ι} {rounds budget bound : Nat} {r : SearchResult}
    (h : deepen procs ctx limit j t rounds budget bound = some r) :
    ∃ more left f, rounds = more + 1 ∧
      (Frontier.start j t).explore procs ctx bound limit budget = some (left,f) ∧
      (f.verdict j.goal = some r ∨
        f.verdict j.goal = none ∧ deepen procs ctx limit j t more left (bound + 1) = some r) := by
  cases rounds with
  | zero => cases h
  | succ rounds =>
    rw [deepen] at h
    split at h
    next => cases h
    next left f he =>
      refine ⟨rounds,left,f,rfl,he,?_⟩
      cases hv : f.verdict j.goal with
      | some r' =>
        rw [hv] at h
        exact .inl h
      | none =>
        rw [hv] at h
        exact .inr ⟨rfl,h⟩

/-- A search that says something has explored some depth bound and repeats its verdict. Within the bounds
before it has found nothing. -/
theorem explore_of_deepen {j : Judgement} {t : Tactic ι} {rounds budget bound : Nat} {r : SearchResult}
    (h : deepen procs ctx limit j t rounds budget bound = some r) :
    ∃ b, (bound ≤ b ∧ ∀ c, bound ≤ c → c < b → ∃ budget' left f,
        (Frontier.start j t).explore procs ctx c limit budget' = some (left,f) ∧ f.found = []) ∧
      ∃ budget' left f, (Frontier.start j t).explore procs ctx b limit budget' = some (left,f) ∧
        f.verdict j.goal = some r := by
  induction rounds generalizing budget bound with
  | zero => cases h
  | succ rounds ih =>
    obtain ⟨more,left,f,hmore,he,hv | ⟨hv,hrest⟩⟩ := deepen_eq_some h
    · exact ⟨bound,⟨Nat.le_refl _,fun c hc hc' => by omega⟩,budget,left,f,he,hv⟩
    · cases hmore
      obtain ⟨b,⟨hb,hless⟩,hrun⟩ := ih hrest
      refine ⟨b,⟨Nat.le_of_succ_le hb,fun c hc hc' => ?_⟩,hrun⟩
      rcases Nat.eq_or_lt_of_le hc with rfl | hc
      · exact ⟨budget,left,f,he,Frontier.verdict_eq_none hv⟩
      · exact hless c hc hc'

theorem deepen_of_search {cfg : Config} {j : Judgement} {t : Tactic ι} {ds : List Derivation}
    (h : search procs cfg ctx j t = .ok ds) :
    deepen procs ctx (max 1 cfg.maxSolutions) j t (cfg.timeout * stepsPerMillisecond)
      (cfg.timeout * stepsPerMillisecond) 1 = some (.ok ds) := by
  simp only [search] at h
  cases hd : deepen procs ctx (max 1 cfg.maxSolutions) j t (cfg.timeout * stepsPerMillisecond)
      (cfg.timeout * stepsPerMillisecond) 1 with
  | none => simp [hd] at h
  | some r => simpa [hd] using h

theorem found_of_search {cfg : Config} {j : Judgement} {t : Tactic ι} {ds : List Derivation}
    (h : search procs cfg ctx j t = .ok ds) :
    ∃ bound budget left f, (Frontier.start j t).explore procs ctx bound (max 1 cfg.maxSolutions) budget =
      some (left,f) ∧ f.found = ds := by
  obtain ⟨b,-,budget,left,f,he,hv⟩ := explore_of_deepen (deepen_of_search h)
  exact ⟨b,budget,left,f,he,(Frontier.verdict_eq_ok hv).1⟩

theorem ne_nil_of_search {cfg : Config} {j : Judgement} {t : Tactic ι} {ds : List Derivation}
    (h : search procs cfg ctx j t = .ok ds) : ds ≠ [] := by
  obtain ⟨b,-,budget,left,f,he,hv⟩ := explore_of_deepen (deepen_of_search h)
  exact (Frontier.verdict_eq_ok hv).2

end TypedHole
