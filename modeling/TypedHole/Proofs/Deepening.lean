import TypedHole.Proofs.Growth

/-! Deepening.
Past the depth bound goals can only be passed on, so that what has no open goals has all its branches
within the bound; and when none of these ends exactly at the bound, it grows within the next smaller bound
too (`Grows.reaches`). Main statement: a larger bound finds all terms that a smaller one finds, and a
search stops at the least bound that has any derivation (`search_shallowest`). -/
namespace TypedHole

variable {ι : Type} {procs : ι → Tactic ι} {ctx : Context}

theorem Tactic.refinement_of_spent {j : Judgement} {fuel : Nat} {t : Tactic ι} {rest : List (Tactic ι)}
    {as : List (Alternative ι)} (h : (expand procs ctx j true fuel t rest).outcome = .ok as) :
    ∀ a ∈ as, a.refinement = none := by
  induction fuel generalizing t rest as with
  | zero => cases h
  | succ fuel ih =>
    cases t with
    | rule =>
      cases h
      simp
    | andThen a b => exact ih h
    | orElse a b =>
      rw [expand] at h
      rcases Expansion.orElse_cases (expand procs ctx j true fuel a rest)
        (fun _ => expand procs ctx j true fuel b rest) with ⟨he,-⟩ | ⟨he,-⟩
      · rw [he] at h
        exact ih h
      · rw [he] at h
        exact ih h
    | choice ts =>
      intro a ha
      obtain ⟨e,he,bs,hbs,hab⟩ := Expansion.mem_all h ha
      obtain ⟨t,-,rfl⟩ := List.mem_map.1 he
      exact ih hbs a hab
    | idle =>
      cases h
      simp
    | fail => cases h
    | call l => exact ih h
    | withGoal f => exact ih h

theorem Goal.refinement_of_spent {bound : Nat} {g : Goal ι} {as : List (Alternative ι)}
    (h : (g.expansion procs ctx bound).outcome = .ok as) (hg : bound ≤ g.depth) :
    ∀ a ∈ as, a.refinement = none := by
  rw [expansion,decide_eq_true hg] at h
  exact Tactic.refinement_of_spent h

theorem Goal.expansion_of_lt {bound bound' : Nat} {g : Goal ι} (h : g.depth < bound)
    (h' : g.depth < bound') : g.expansion procs ctx bound = g.expansion procs ctx bound' := by
  rw [expansion,expansion,decide_eq_false (Nat.not_le.2 h),decide_eq_false (Nat.not_le.2 h')]

theorem Alternative.depth_of_mem_handOut {a : Alternative ι} {g g' : Goal ι} (h : .inl g' ∈ a.handOut g) :
    g'.depth = a.depth g.depth := by
  obtain ⟨s,-,hs⟩ := List.mem_map.1 h
  exact (Draft.schedule_inl hs).2.2.1

theorem Alternative.handOut_ne_nil {a : Alternative ι} {g : Goal ι} (h : a.refinement = none) :
    a.handOut g ≠ [] := by simp [handOut,subgoals,h]

theorem Derivation.unsolved_of_plug {e : Term} {ds : List Derivation} (h : (plug e ds).unsolved = []) :
    ∀ d ∈ ds, d.unsolved = [] := List.flatMap_eq_nil_iff.1 h

namespace Grows

variable {bound : Nat} {xs : List (Goal ι ⊕ Judgement)} {ps : List Growth}

theorem open_of_spent (h : Grows procs ctx bound xs ps) (hx : ∀ g, .inl g ∈ xs → bound ≤ g.depth) :
    ∀ p ∈ ps, p.derivation.unsolved ≠ [] := by
  induction h with
  | nil => simp
  | unsolved _ ih =>
    exact List.forall_mem_cons.2 ⟨List.cons_ne_nil _ _,ih fun g hg => hx g (by simp [hg])⟩
  | @node g as a xs qs ps outcome mem parts _ ihparts ihothers =>
    refine List.forall_mem_cons.2 ⟨fun hnil => ?_,ihothers fun g hg => hx g (by simp [hg])⟩
    have hg : bound ≤ g.depth := hx g (by simp)
    have hnone := Goal.refinement_of_spent outcome hg a mem
    have hdepth : ∀ g', .inl g' ∈ a.handOut g → bound ≤ g'.depth := by
      intro g' hg'
      rw [Alternative.depth_of_mem_handOut hg',Alternative.depth,hnone]
      exact hg
    obtain ⟨q,hq⟩ := List.exists_mem_of_length_pos (parts.length ▸
      List.length_pos_of_ne_nil (Alternative.handOut_ne_nil hnone))
    exact ihparts hdepth q hq (Derivation.unsolved_of_plug hnil _ (List.mem_map_of_mem hq))

/-- What grows without open goals from goals at one depth has a branch up to the depth bound, or else it
grows within the next smaller bound. -/
theorem reaches (h : Grows procs ctx (bound + 1) xs ps) {depth : Nat}
    (hx : ∀ g, .inl g ∈ xs → g.depth = depth) (hp : ∀ p ∈ ps, p.derivation.unsolved = []) :
    (∃ p ∈ ps, ∃ n ∈ p.branches, depth + n = bound + 1) ∨ Grows procs ctx bound xs ps := by
  induction h generalizing depth with
  | nil => exact .inr .nil
  | unsolved => exact absurd (hp _ List.mem_cons_self) (List.cons_ne_nil _ _)
  | @node g as a xs qs ps outcome mem parts others ihparts ihothers =>
    obtain ⟨hnode,hp⟩ := List.forall_mem_cons.1 hp
    have hclosed : ∀ q ∈ qs, q.derivation.unsolved = [] := fun q hq =>
      Derivation.unsolved_of_plug hnode _ (List.mem_map_of_mem hq)
    have hg : g.depth = depth := hx g (by simp)
    have hdepth : ∀ g', .inl g' ∈ a.handOut g → g'.depth = a.depth depth := fun g' hg' =>
      hg ▸ Alternative.depth_of_mem_handOut hg'
    rcases ihothers (fun g hg => hx g (by simp [hg])) hp with ⟨p,hp,n,hn,he⟩ | hothers
    · exact .inl ⟨p,by simp [hp],n,hn,he⟩
    -- Above the bound the goal is opened up as before.
    have hless (hparts : Grows procs ctx bound (a.handOut g) qs) (hlt : depth < bound) :
        Grows procs ctx bound (.inl g :: xs) (.node a qs :: ps) := by
      have hsame : g.expansion procs ctx (bound + 1) = g.expansion procs ctx bound :=
        Goal.expansion_of_lt (by omega) (by omega)
      rw [hsame] at outcome
      exact .node outcome mem hparts hothers
    cases hr : a.refinement with
    | none =>
      have hpassed : a.depth depth = depth := by rw [Alternative.depth,hr]
      rw [hpassed] at hdepth
      rcases ihparts hdepth hclosed with ⟨q,hq,n,hn,he⟩ | hparts
      · exact .inl ⟨_,List.mem_cons_self,n,Growth.mem_branches_of_passed hr hq hn,he⟩
      · by_cases hlt : depth < bound
        · exact .inr (hless hparts hlt)
        · have hspent : ∀ g', .inl g' ∈ a.handOut g → bound ≤ g'.depth := fun g' hg' => by
            rw [hdepth g' hg']
            omega
          obtain ⟨q,hq⟩ := List.exists_mem_of_length_pos (parts.length ▸
            List.length_pos_of_ne_nil (Alternative.handOut_ne_nil hr))
          exact absurd (hclosed q hq) (hparts.open_of_spent hspent q hq)
    | some r =>
      have hrefined : a.depth depth = depth + 1 := by rw [Alternative.depth,hr]
      rw [hrefined] at hdepth
      have hwithin : depth < bound + 1 := by
        refine Nat.lt_of_not_le fun hle => ?_
        rw [Goal.refinement_of_spent outcome (hg.symm ▸ hle) a mem] at hr
        cases hr
      rcases ihparts hdepth hclosed with ⟨q,hq,n,hn,he⟩ | hparts
      · exact .inl ⟨_,List.mem_cons_self,n + 1,Growth.mem_branches_of_refined hr hq hn,by omega⟩
      · by_cases hlt : depth < bound
        · exact .inr (hless hparts hlt)
        · -- Right at the bound only a rule without subgoals closes the goal.
          have hspent : ∀ g', .inl g' ∈ a.handOut g → bound ≤ g'.depth := fun g' hg' => by
            rw [hdepth g' hg']
            omega
          have hnil : qs = [] := List.eq_nil_iff_forall_not_mem.2 fun q hq =>
            hparts.open_of_spent hspent q hq (hclosed q hq)
          refine .inl ⟨_,List.mem_cons_self,1,?_,by omega⟩
          rw [hnil,Growth.branches_of_closed hr]
          exact List.mem_singleton_self 1

/-- A goal on its own: either some branch has exactly as many rules as the bound allows, or the next smaller
bound allows as much. -/
theorem reaches_root {j : Judgement} {t : Tactic ι} {p : Growth}
    (h : Grows procs ctx (bound + 1) [.inl (.root j t)] [p]) (hp : p.derivation.unsolved = []) :
    bound + 1 ∈ p.branches ∨ Grows procs ctx bound [.inl (.root j t)] [p] := by
  have hroot : ∀ g, .inl g ∈ [(.inl (.root j t) : Goal ι ⊕ Judgement)] → g.depth = 0 := by
    intro g hg
    cases List.mem_singleton.1 hg
    rfl
  rcases h.reaches hroot (by simpa using hp) with ⟨q,hq,n,hn,he⟩ | h
  · cases List.mem_singleton.1 hq
    rw [Nat.zero_add] at he
    exact .inl (he ▸ hn)
  · exact .inr h

end Grows

namespace Frontier

variable {bound bound' : Nat} {j : Judgement} {t : Tactic ι}

theorem Fruitless.mono {f : Frontier ι} (h : f.Fruitless procs ctx bound') (hb : bound ≤ bound') :
    f.Fruitless procs ctx bound :=
  ⟨h.1,fun d hd => (h.2 d hd).mono hb⟩

theorem Fruitless.not_grows (h : (start j t).Fruitless procs ctx bound) (p : Growth) :
    ¬ Grows procs ctx bound [.inl (.root j t)] [p] := by
  have hbarren : Barren procs ctx bound [.root j t] := h.2 _ (List.mem_singleton_self _)
  exact hbarren.not_grows

end Frontier

/-- What has been found at a bound is found at every larger bound too, when both explorations finish and the
second one is not stopped; it is the same term if it has no holes. When a search returns derivations, they
have been found at some bound. There all that is derived without open goals has a branch of just as many
rules, and at smaller bounds nothing is derived at all. -/
theorem search_shallowest {j : Judgement} {t : Tactic ι} :
    (∀ bound bound' limit limit' budget budget' left left' f f', bound ≤ bound' →
      (Frontier.start j t).explore procs ctx bound limit budget = some (left,f) →
      (Frontier.start j t).explore procs ctx bound' limit' budget' = some (left',f') →
      f'.found.length < limit' →
        ∀ y ∈ f.found, ∃ y' ∈ f'.found, y'.term.blank = y.term.blank ∧
          (y.term.holes = [] → y'.term = y.term)) ∧
    ∀ cfg ds, search procs cfg ctx j t = .ok ds →
      ∃ bound budget left f,
        (Frontier.start j t).explore procs ctx bound (max 1 cfg.maxSolutions) budget = some (left,f) ∧
        f.found = ds ∧
        (∀ y ∈ ds, (∃ p, Grows procs ctx bound [.inl (.root j t)] [p] ∧ y.Renders p.derivation) ∧
          (y.unsolved = [] → ∀ p, Grows procs ctx bound [.inl (.root j t)] [p] →
            y.Renders p.derivation → bound ∈ p.branches)) ∧
        (1 < bound → ∀ b < bound, (∀ p, ¬ Grows procs ctx b [.inl (.root j t)] [p]) ∧
          ∀ limit budget left f,
            (Frontier.start j t).explore procs ctx b limit budget = some (left,f) → f.found = []) := by
  refine ⟨fun bound bound' limit limit' budget budget' left left' f f' hb h h' few y hy => ?_,
    fun cfg ds h => ?_⟩
  · obtain ⟨p,hp,hr⟩ := grows_of_explore h hy
    obtain ⟨y',hy',ht⟩ := explore_of_grows h' few (hp.mono hb)
    have hblank : y'.term.blank = y.term.blank := ht.trans hr.1.symm
    refine ⟨y',hy',hblank,fun hclosed => ?_⟩
    have hclosed' : y'.term.holes = [] := by
      have := congrArg List.length (congrArg Term.holes hblank)
      simpa [hclosed] using this
    rwa [Term.blank_of_closed hclosed,Term.blank_of_closed hclosed'] at hblank
  · obtain ⟨bound,⟨hone,hless⟩,budget,left,f,he,hv⟩ := explore_of_deepen (deepen_of_search h)
    have hfound : f.found = ds := (Frontier.verdict_eq_ok hv).1
    have hfruitless : ∀ c, 1 ≤ c → c < bound → (Frontier.start j t).Fruitless procs ctx c := by
      intro c hc hlt
      obtain ⟨budget',left',f',he',hnil⟩ := hless c hc hlt
      exact (Frontier.explore_run he').fruitless (Nat.le_max_left ..) hnil
    refine ⟨bound,budget,left,f,he,hfound,fun y hy => ⟨grows_of_explore he (hfound ▸ hy),?_⟩,
      fun hbound b hb => ?_⟩
    · intro hsolved p hp hrender
      have hclosed : p.derivation.unsolved = [] := List.nil_perm.1 (hsolved ▸ hrender.2)
      obtain ⟨b,rfl⟩ := Nat.exists_eq_add_of_le' hone
      refine (hp.reaches_root hclosed).resolve_right fun hp' => ?_
      -- The bound before has been explored in vain, or it is zero, where goals only stay open.
      rcases Nat.eq_zero_or_pos b with rfl | hpos
      · exact hp'.open_of_spent (fun g _ => Nat.zero_le g.depth) p (List.mem_singleton_self p) hclosed
      · exact (hfruitless b hpos (Nat.lt_succ_self b)).not_grows p hp'
    · have hbarren : (Frontier.start j t).Fruitless procs ctx b :=
        (hfruitless (bound - 1) (by omega) (by omega)).mono (by omega)
      exact ⟨hbarren.not_grows,fun _ _ _ f₁ he₁ => (hbarren.run (Frontier.explore_run he₁)).1⟩

def Tactic.pairOfLeaves : Tactic Empty := .andThen .pair (.orElse .leaf .idle)

theorem search_shallowest_pair :
    ∃ f f' ds, (Frontier.start .bare .pairOfLeaves).explore Empty.elim ⟨[],.empty,{}⟩ 2 9 100 = some (86,f) ∧
      (Frontier.start .bare .pairOfLeaves).explore Empty.elim ⟨[],.empty,{}⟩ 3 9 100 = some (86,f') ∧
      (∀ y ∈ f.found, ∃ y' ∈ f'.found, y'.term.blank = y.term.blank ∧
        (y.term.holes = [] → y'.term = y.term)) ∧
      search Empty.elim { extensions := .none } ⟨[],.empty,{}⟩ .bare .pairOfLeaves = .ok ds ∧
      ds.map (·.term.text) = ["pair x x","pair x y","pair y x","pair y y"] ∧
      ∃ bound, ∀ y ∈ ds, ∃ p, Grows Empty.elim ⟨[],.empty,{}⟩ bound [.inl (.root .bare .pairOfLeaves)] [p] ∧
        y.Renders p.derivation ∧ bound ∈ p.branches := by
  obtain ⟨f,hf⟩ : ∃ f, (Frontier.start .bare .pairOfLeaves).explore Empty.elim ⟨[],.empty,{}⟩ 2 9 100 =
    some (86,f) := ⟨_,rfl⟩
  obtain ⟨f',hf',few⟩ : ∃ f', (Frontier.start .bare .pairOfLeaves).explore Empty.elim ⟨[],.empty,{}⟩ 3 9 100 =
    some (86,f') ∧ f'.found.length < 9 := ⟨_,rfl,by decide⟩
  obtain ⟨ds,hds,htext,hclosed⟩ : ∃ ds,
      search Empty.elim { extensions := .none } ⟨[],.empty,{}⟩ .bare .pairOfLeaves = .ok ds ∧
      ds.map (·.term.text) = ["pair x x","pair x y","pair y x","pair y y"] ∧
      ds.map (·.unsolved) = [[],[],[],[]] := ⟨_,rfl,rfl,rfl⟩
  refine ⟨f,f',ds,hf,hf',?_,hds,htext,?_⟩
  · exact search_shallowest.1 2 3 9 9 100 100 86 86 f f' (by decide) hf hf' few
  · obtain ⟨bound,-,-,-,-,-,hgrown,-⟩ := search_shallowest.2 _ ds hds
    refine ⟨bound,fun y hy => ?_⟩
    have hsolved : y.unsolved = [] := by
      have := List.mem_map_of_mem (f := (·.unsolved)) hy
      simpa [hclosed] using this
    obtain ⟨⟨p,hp,hr⟩,hbranch⟩ := hgrown y hy
    exact ⟨p,hp,hr,hbranch hsolved p hp hr⟩

end TypedHole
