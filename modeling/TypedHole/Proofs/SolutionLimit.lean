import TypedHole.Proofs.Applicability

/-! The limit on derivations.
A frontier only ever adds to what has been found, one derivation at a time (`Frontier.Step.found_grows`), and
looks at the limit only to stop. Two explorations with different limits therefore pass the same frontiers until
the smaller limit is reached (`Frontier.Watched.restrict`). Main statement: a search with a smaller limit returns
the first of the derivations, and otherwise the same (`search_limit`). -/
namespace TypedHole

variable {ι : Type} {procs : ι → Tactic ι} {ctx : Context} {bound k k' : Nat} {d d' : Deadline}

namespace Frontier

variable {f f' : Frontier ι}

theorem Step.found_grows (hs : Step procs ctx bound f f') :
    f.found <+: f'.found ∧ f'.found.length ≤ f.found.length + 1 := by
  cases hs with
  | finished =>
    rw [record]
    split
    next => exact ⟨List.prefix_rfl,Nat.le_succ _⟩
    next => exact ⟨List.prefix_append _ _,by rw [List.length_append]; exact Nat.le_refl _⟩
  | failed | opened => exact ⟨List.prefix_rfl,Nat.le_succ _⟩

namespace Watched

variable {n n' : Nat}

theorem found_prefix {x : Option (Nat × Frontier ι)} (h : f.Watched procs ctx bound k d n x)
    (hx : x = some (n',f')) : f.found <+: f'.found := by
  induction h with
  | exhausted =>
    cases hx
    exact List.prefix_rfl
  | late => cases hx
  | full drafts =>
    cases hx
    exact (step_advance procs ctx bound drafts).found_grows.1
  | more drafts _ _ _ ih => exact (step_advance procs ctx bound drafts).found_grows.1.trans (ih hx)

/-- With a smaller limit an exploration stops at the first derivations, and it is the same exploration unless there
are that many. -/
theorem restrict {x : Option (Nat × Frontier ι)} (h : f.Watched procs ctx bound k' d n x) (hk : k ≤ k')
    (few : f.found.length < k) (hx : x = some (n',f')) :
    ∃ m g, f.Watched procs ctx bound k d n (some (m,g)) ∧ g.found = f'.found.take k ∧
      (g.found.length < k → m = n' ∧ g = f') := by
  -- The visit that reaches the smaller limit is the last one.
  have hlast {n : Nat} {f : Frontier ι} (drafts : f.drafts ≠ []) (early : ¬ d n) (few : f.found.length < k)
      (enough : k ≤ (f.advance procs ctx bound).found.length)
      (hmore : (f.advance procs ctx bound).found <+: f'.found) :
      ∃ m g, f.Watched procs ctx bound k d n (some (m,g)) ∧ g.found = f'.found.take k ∧
        (g.found.length < k → m = n' ∧ g = f') := by
    have hone := (step_advance procs ctx bound drafts).found_grows.2
    have hlength : (f.advance procs ctx bound).found.length = k := by omega
    refine ⟨n + 1,f.advance procs ctx bound,.full drafts early enough,?_,fun hless => by omega⟩
    rw [← hlength]
    exact List.prefix_iff_eq_take.1 hmore
  induction h with
  | exhausted drafts =>
    cases hx
    exact ⟨_,_,.exhausted drafts,(List.take_of_length_le (Nat.le_of_lt few)).symm,fun _ => ⟨rfl,rfl⟩⟩
  | late => cases hx
  | full drafts early enough =>
    cases hx
    exact hlast drafts early few (Nat.le_trans hk enough) List.prefix_rfl
  | @more n f x drafts early _ rest ih =>
    by_cases hless : (f.advance procs ctx bound).found.length < k
    · obtain ⟨m,g,hrun,hfound,hsame⟩ := ih hless hx
      exact ⟨m,g,.more drafts early hless hrun,hfound,hsame⟩
    · exact hlast drafts early few (Nat.le_of_not_lt hless) (rest.found_prefix hx)

theorem extend {x : Option (Nat × Frontier ι)} (h : f.Watched procs ctx bound k d n x) (hk : k ≤ k')
    (hx : x = some (n',f')) (few : f'.found.length < k) : f.Watched procs ctx bound k' d n x := by
  induction h with
  | exhausted drafts => exact .exhausted drafts
  | late => cases hx
  | full _ _ enough =>
    cases hx
    exact absurd few (Nat.not_lt.2 enough)
  | more drafts early hless _ ih => exact .more drafts early (Nat.lt_of_lt_of_le hless hk) (ih hx)

end Watched

end Frontier

namespace Searches

variable {j : Judgement} {t : Tactic ι} {n : Nat} {x : Option SearchResult} {r r' : SearchResult}

theorem restrict (h : Searches procs ctx k' j t d n bound x) (hpos : 1 ≤ k) (hk : k ≤ k') (hx : x = some r) :
    Searches procs ctx k j t d n bound (some (r.map (List.take k))) := by
  induction h with
  | late => cases hx
  | @answer n n' bound f r run verdict =>
    cases hx
    obtain ⟨m,g,hrun,hfound,hsame⟩ := run.restrict hk hpos rfl
    refine .answer hrun ?_
    cases hnil : f.found with
    | nil =>
      obtain ⟨-,rfl⟩ := hsame (by rw [hfound,hnil,List.take_nil]; exact hpos)
      cases r with
      | error => exact verdict
      | ok => exact absurd ((Frontier.verdict_eq_ok verdict).1.symm.trans hnil) (Frontier.verdict_eq_ok verdict).2
    | cons y ys =>
      have hne : f.found ≠ [] := by simp [hnil]
      rw [Frontier.verdict_of_found hne] at verdict
      cases verdict
      have hg : g.found ≠ [] := by
        rw [hfound,hnil,← Nat.succ_pred_eq_of_pos hpos]
        exact List.cons_ne_nil _ _
      rw [Frontier.verdict_of_found hg,hfound]
      rfl
  | @deeper n n' bound f x run verdict _ ih =>
    have hnil : f.found = [] := Frontier.verdict_eq_none verdict
    obtain ⟨m,g,hrun,hfound,hsame⟩ := run.restrict hk hpos rfl
    obtain ⟨rfl,rfl⟩ := hsame (by rw [hfound,hnil,List.take_nil]; exact hpos)
    exact .deeper hrun verdict (ih hx)

theorem extend (h : Searches procs ctx k j t d n bound x) (hpos : 1 ≤ k) (hk : k ≤ k') (hx : x = some r)
    (few : ∀ ds, r = .ok ds → ds.length < k) : Searches procs ctx k' j t d n bound x := by
  induction h with
  | late => cases hx
  | @answer n n' bound f r run verdict =>
    cases hx
    refine .answer (run.extend hk rfl ?_) verdict
    by_cases hnil : f.found = []
    · rw [hnil]
      exact hpos
    · rw [Frontier.verdict_of_found hnil] at verdict
      exact few _ (Option.some.inj verdict).symm
  | deeper run verdict _ ih =>
    refine .deeper (run.extend hk rfl ?_) verdict (ih hx)
    rw [Frontier.verdict_eq_none verdict]
    exact hpos

theorem eq_take (h : Searches procs ctx k j t d 0 1 (some r)) (h' : Searches procs ctx k' j t d' 0 1 (some r'))
    (hpos : 1 ≤ k) (hk : k ≤ k') : r = r'.map (List.take k) := by
  have hnever := h.later d.later_never d.early_zero rfl
  have hnever' := (h'.restrict hpos hk rfl).later d'.later_never d'.early_zero rfl
  exact Option.some.inj (hnever.unique hnever')

end Searches

/-- Take two limits on the number of derivations. Where a search answers under the larger one it answers under the
smaller one within the same time, with the first derivations or the same error. This is so of any two answers,
however much time each of them takes. An answer that is an error or falls short of the smaller limit is the answer
under the larger one, too, within the same time. A limit of zero counts as one. -/
theorem search_limit (procs : ι → Tactic ι) (ctx : Context) (j : Judgement) (t : Tactic ι) :
    (∀ k k', 1 ≤ k → k ≤ k' →
      (∀ d r, Searches procs ctx k' j t d 0 1 (some r) →
        Searches procs ctx k j t d 0 1 (some (r.map (List.take k)))) ∧
      (∀ d d' r r', Searches procs ctx k j t d 0 1 (some r) → Searches procs ctx k' j t d' 0 1 (some r') →
        r = r'.map (List.take k)) ∧
      (∀ d r, Searches procs ctx k j t d 0 1 (some r) → (∀ ds, r = .ok ds → ds.length < k) →
        Searches procs ctx k' j t d 0 1 (some r)) ∧
      ∀ cfg : Config, search procs { cfg with maxSolutions := k' } ctx j t = .error (.timeout cfg.timeout) ∨
        search procs { cfg with maxSolutions := k } ctx j t =
          (search procs { cfg with maxSolutions := k' } ctx j t).map (List.take k)) ∧
    ∀ cfg : Config,
      search procs { cfg with maxSolutions := 0 } ctx j t = search procs { cfg with maxSolutions := 1 } ctx j t ∧
      ∀ d r, Searched procs ctx { cfg with maxSolutions := 0 } j t d r ↔
        Searched procs ctx { cfg with maxSolutions := 1 } j t d r := by
  refine ⟨fun k k' hpos hk => ⟨fun d r h => h.restrict hpos hk rfl,fun d d' r r' h h' => h.eq_take h' hpos hk,
    fun d r h few => h.extend hpos hk rfl few,fun cfg => ?_⟩,fun cfg => ⟨rfl,fun d r => Iff.rfl⟩⟩
  have hmax : max 1 k' = k' := Nat.max_eq_right (Nat.le_trans hpos hk)
  obtain ⟨x,hx,hsearch⟩ : Searched procs ctx { cfg with maxSolutions := k' } j t
    (.ofBudget (cfg.timeout * stepsPerMillisecond)) _ := searched_search
  rw [hsearch]
  cases x with
  | none => exact .inl rfl
  | some r =>
    refine .inr ?_
    have hsmaller : Searched procs ctx { cfg with maxSolutions := k } j t
        (.ofBudget (cfg.timeout * stepsPerMillisecond)) (r.map (List.take k)) := by
      refine ⟨some (r.map (List.take k)),?_,rfl⟩
      rw [Nat.max_eq_right hpos]
      exact (hmax ▸ hx).restrict hpos hk rfl
    exact searched_search.unique hsmaller

/-- Of the four pairs of two leaves the first two are found, or all four. -/
theorem search_limit_pair : ∃ ds,
    search Empty.elim { maxSolutions := 9 } ⟨[],.empty,{}⟩ .bare .pairOfLeaves = .ok ds ∧
    ds.map (·.term.text) = ["pair x x","pair x y","pair y x","pair y y"] ∧
    search Empty.elim { maxSolutions := 2 } ⟨[],.empty,{}⟩ .bare .pairOfLeaves = .ok (ds.take 2) := by
  obtain ⟨hlimits,-⟩ := search_limit Empty.elim ⟨[],.empty,{}⟩ .bare .pairOfLeaves
  obtain ⟨-,-,-,htake⟩ := hlimits 2 9 (by decide) (by decide)
  obtain ⟨ds,hds,htext⟩ : ∃ ds,
      search Empty.elim { maxSolutions := 9 } ⟨[],.empty,{}⟩ .bare .pairOfLeaves = .ok ds ∧
      ds.map (·.term.text) = ["pair x x","pair x y","pair y x","pair y y"] := ⟨_,rfl,rfl⟩
  refine ⟨ds,hds,htext,?_⟩
  rcases htake { maxSolutions := 9 } with hlate | htake
  · cases hds.symm.trans hlate
  · rw [hds] at htake
    exact htake

end TypedHole
