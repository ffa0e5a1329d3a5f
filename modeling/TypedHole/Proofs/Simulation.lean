import Mathlib.Data.List.Forall2
import TypedHole.Proofs.OpenGoals
import TypedHole.Proofs.Product

/-! The frontier against the meaning of tactics.
A draft is completed by solutions for the goals on its agenda. Main statement: what a run finds is what
the recursive semantics says, each term once (`explore_solves`). -/
namespace TypedHole

variable {ι : Type} {procs : ι → Tactic ι} {ctx : Context} {bound : Nat}

theorem forall₂_append_left {α β : Type} {R : α → β → Prop} {xs ys : List α} {zs : List β}
    (h : List.Forall₂ R (xs ++ ys) zs) :
    ∃ us vs, zs = us ++ vs ∧ List.Forall₂ R xs us ∧ List.Forall₂ R ys vs :=
  ⟨zs.take xs.length,zs.drop xs.length,(List.take_append_drop ..).symm,
    (List.forall₂_take_append _ _ _ h.flip).flip,(List.forall₂_drop_append _ _ _ h.flip).flip⟩

namespace Draft

def assign (gs : List (Goal ι)) (ds : List Derivation) (i : Nat) : Term :=
  (((gs.map (·.hole)).zip (ds.map (·.term))).lookup i).getD (.hole 0)

theorem assign_cons (g : Goal ι) (gs : List (Goal ι)) (d : Derivation) (ds : List Derivation) (i : Nat) :
    assign (g :: gs) (d :: ds) i = if i = g.hole then d.term else assign gs ds i := by
  simp only [assign,List.map_cons,List.zip_cons_cons,Term.lookup_cons]
  split <;> rfl

theorem assign_of_not_mem {gs : List (Goal ι)} {i : Nat} (h : i ∉ gs.map (·.hole)) (ds : List Derivation) :
    assign gs ds i = .hole 0 := by
  induction gs generalizing ds with
  | nil => rfl
  | cons g gs ih =>
    cases ds with
    | nil => rfl
    | cons d ds =>
      obtain ⟨hg,hgs⟩ := not_or.1 fun hi => h (List.mem_cons.2 hi)
      rw [assign_cons,if_neg hg,ih hgs]

theorem assign_append {gs gs' : List (Goal ι)} {ds ds' : List Derivation} {i : Nat}
    (h : i ∉ gs.map (·.hole)) (hl : ds.length = gs.length) :
    assign (gs ++ gs') (ds ++ ds') i = assign gs' ds' i := by
  induction gs generalizing ds with
  | nil => rw [List.length_eq_zero_iff.1 hl,List.nil_append,List.nil_append]
  | cons g gs ih =>
    obtain ⟨hg,hgs⟩ := not_or.1 fun hi => h (List.mem_cons.2 hi)
    obtain ⟨d,ds,rfl⟩ := List.exists_cons_of_length_eq_add_one hl
    rw [List.cons_append,List.cons_append,assign_cons,if_neg hg,ih hgs (by simpa using hl)]

variable {rest : List (Tactic ι)} {depth : Nat}

theorem length_scheduled (ps : List (Nat × Subgoal (Tactic ι))) :
    ((scheduleAll rest depth ps).filterMap Sum.getLeft?).length =
      (scheduled rest depth (ps.map (·.2))).length := by
  rw [← unnumbered_scheduleAll,List.length_map]

theorem length_merge {ss : List (Subgoal (Tactic ι))} {ds : List Derivation}
    (h : ds.length = (scheduled rest depth ss).length) : (merge rest ss ds).length = ss.length := by
  induction ss generalizing ds with
  | nil => rfl
  | cons s ss ih =>
    have hs := schedule_of_staysOpen s rest 0 depth
    split at hs
    next ho =>
      rw [scheduled_cons_inr hs] at h
      rw [merge_of_staysOpen ho,List.length_cons,List.length_cons,ih h]
    next ho =>
      obtain ⟨g,hg,-⟩ := hs
      rw [scheduled_cons_inl hg] at h
      obtain ⟨d,ds,rfl⟩ := List.exists_cons_of_length_eq_add_one h
      rw [merge_of_scheduled ho,List.length_cons,List.length_cons,ih (by simpa using h)]

theorem unsolved_merge {ss : List (Subgoal (Tactic ι))} {ds : List Derivation}
    (h : ds.length = (scheduled rest depth ss).length) :
    ((merge rest ss ds).flatMap (·.unsolved)).Perm
      ((ss.filter (·.staysOpen rest)).map (·.judgement) ++ ds.flatMap (·.unsolved)) := by
  induction ss generalizing ds with
  | nil =>
    rw [List.length_eq_zero_iff.1 h]
    exact .refl _
  | cons s ss ih =>
    have hs := schedule_of_staysOpen s rest 0 depth
    split at hs
    next ho =>
      rw [scheduled_cons_inr hs] at h
      rw [merge_of_staysOpen ho,List.filter_cons,if_pos ho,List.flatMap_cons,List.map_cons]
      exact (ih h).cons _
    next ho =>
      obtain ⟨g,hg,-⟩ := hs
      rw [scheduled_cons_inl hg] at h
      obtain ⟨d,ds,rfl⟩ := List.exists_cons_of_length_eq_add_one h
      rw [merge_of_scheduled ho,List.filter_cons,if_neg ho,List.flatMap_cons,List.flatMap_cons]
      refine ((ih (by simpa using h)).append_left d.unsolved).trans ?_
      rw [← List.append_assoc,← List.append_assoc]
      exact List.perm_append_comm.append_right _

theorem assign_part {ps : List (Nat × Subgoal (Tactic ι))} {gs : List (Goal ι)} {ds : List Derivation}
    (hn : (ps.map (·.1) ++ gs.map (·.hole)).Nodup)
    (hl : ds.length = (scheduled rest depth (ps.map (·.2))).length) (ds' : List Derivation) {k i : Nat}
    {s : Subgoal (Tactic ι)} (hk : ps[k]? = some (i,s)) :
    (merge rest (ps.map (·.2)) ds)[k]?.map (·.term) =
      some (assign ((scheduleAll rest depth ps).filterMap Sum.getLeft? ++ gs) (ds ++ ds') i) := by
  induction ps generalizing k ds with
  | nil => simp at hk
  | cons p ps ih =>
    obtain ⟨i',s'⟩ := p
    obtain ⟨hi',hps⟩ := List.nodup_cons.1 hn
    have hs := schedule_of_staysOpen s' rest i' depth
    have hs' := schedule_of_staysOpen s' rest 0 depth
    rw [List.map_cons] at hl ⊢
    split at hs
    next ho =>
      rw [if_pos ho] at hs'
      rw [scheduled_cons_inr hs'] at hl
      have hsched : (scheduleAll rest depth ((i',s') :: ps)).filterMap Sum.getLeft? =
          (scheduleAll rest depth ps).filterMap Sum.getLeft? := by
        simp only [scheduleAll,List.map_cons,hs,List.filterMap_cons,Sum.getLeft?_inr]
      rw [merge_of_staysOpen ho,hsched]
      cases k with
      | zero =>
        cases hk
        have hnot : i ∉ ((scheduleAll rest depth ps).filterMap Sum.getLeft? ++ gs).map (·.hole) := by
          rw [List.map_append]
          exact fun h => hi' (((holes_scheduleAll_sublist rest depth ps).append_right _).subset h)
        rw [assign_of_not_mem hnot]
        rfl
      | succ k => exact ih hps hl hk
    next ho =>
      rw [if_neg ho] at hs'
      obtain ⟨g,hg,hgi⟩ := hs
      obtain ⟨g',hg',-⟩ := hs'
      rw [scheduled_cons_inl hg'] at hl
      obtain ⟨d,ds,rfl⟩ := List.exists_cons_of_length_eq_add_one hl
      have hsched : (scheduleAll rest depth ((i',s') :: ps)).filterMap Sum.getLeft? =
          g :: (scheduleAll rest depth ps).filterMap Sum.getLeft? := by
        simp only [scheduleAll,List.map_cons,hg,List.filterMap_cons,Sum.getLeft?_inl]
      rw [merge_of_scheduled ho,hsched,List.cons_append,List.cons_append,assign_cons,hgi]
      cases k with
      | zero =>
        cases hk
        rw [if_pos rfl]
        rfl
      | succ k =>
        have hne : i ≠ i' := by
          rintro rfl
          exact hi' (List.mem_append.2 (.inl (List.mem_map.2 ⟨_,List.mem_of_getElem? hk,rfl⟩)))
        rw [if_neg hne]
        exact ih hps (by simpa using hl) hk

/-- A derivation that completes a draft with derivations for the goals on its agenda. -/
structure Completed (d : Draft ι) (ds : List Derivation) (y : Derivation) : Prop where
  term : y.term.blank = d.term.bind (assign d.agenda ds)
  unsolved : y.unsolved.Perm (d.unsolved ++ ds.flatMap (·.unsolved))

theorem Completed.finish {d : Draft ι} (h : d.agenda = []) : d.Completed [] (d.finish 0) := by
  refine ⟨?_,?_⟩
  · rw [h]
    rfl
  · rw [List.flatMap_nil,List.append_nil]
    exact .refl _

section

variable {m n : Nat} {d : Draft ι} {g : Goal ι} {gs : List (Goal ι)} {a : Alternative ι}
  {ds ds' : List Derivation}

/-- Solutions for what an alternative leaves make up a solution of the goal. -/
theorem bind_choose (hn : d.Numbered m) (hd : d.agenda = g :: gs) (hm : m ≤ n)
    (hl : ds.length = (a.goals g).length) :
    (({ d with agenda := gs } : Draft ι).choose g a n).term.bind
        (assign (({ d with agenda := gs } : Draft ι).choose g a n).agenda (ds ++ ds')) =
      d.term.bind (assign (g :: gs)
        (Derivation.plug a.extract (merge a.rest (a.subgoals g.judgement) ds) :: ds')) := by
  obtain ⟨hparts,-⟩ := hn.parts_holes (a := a) hd hm
  rw [choose_agenda]
  rw [Alternative.goals,← Alternative.parts_subgoals a g n] at hl
  have hmerge := length_merge hl
  have hassign {k i : Nat} {s : Subgoal (Tactic ι)} (hk : (a.parts g n)[k]? = some (i,s)) :=
    assign_part hparts hl ds' hk
  have hother {i : Nat} (hi : i ∉ (a.parts g n).map (·.1)) :
      assign ((scheduleAll a.rest (a.depth g.depth) (a.parts g n)).filterMap Sum.getLeft? ++ gs)
        (ds ++ ds') i = assign gs ds' i :=
    assign_append (fun h => hi ((holes_scheduleAll_sublist ..).subset h)) (hl.trans (length_scheduled _).symm)
  rw [Alternative.parts_subgoals] at hassign hmerge
  cases hr : a.refinement with
  | none =>
    have hp : a.parts g n = [(g.hole,⟨g.judgement,none⟩)] := by simp [Alternative.parts,hr]
    have he : a.extract = .hole 0 := by simp [Alternative.extract,hr]
    rw [Numbered.term_choose_none hr]
    refine Term.bind_congr _ fun i _ => ?_
    rw [assign_cons]
    split
    next hi =>
      have hfirst : (a.parts g n)[0]? = some (g.hole,⟨g.judgement,none⟩) := by rw [hp]; rfl
      rw [Derivation.plug,he,Term.bind,hassign hfirst,hi]
      rfl
    next hi => exact hother (by simpa [hp] using hi)
  | some r =>
    have hnew : (a.parts g n).map (·.1) = List.range' n r.subgoals.length := Alternative.parts_some hr
    have he : a.extract = r.extract := by simp [Alternative.extract,hr]
    have hs : a.subgoals g.judgement = r.subgoals := by simp [Alternative.subgoals,hr]
    rw [hn.term_choose hd hm hr,Term.plug,Term.bind_bind]
    refine Term.bind_congr _ fun i hi => ?_
    rw [assign_cons]
    split
    next =>
      rw [Term.shift,Term.bind_bind,Derivation.plug,he]
      refine Term.bind_congr _ fun k _ => ?_
      rw [Term.bind]
      by_cases hk : k < r.subgoals.length
      · have hpart : (a.parts g n)[k]? = some (n + k,r.subgoals[k]) := by
          simp [Alternative.parts,hr,hk]
        rw [hassign hpart]
        rfl
      · -- A hole past the subgoals is left for good.
        have hnot : n + k ∉ (a.parts g n).map (·.1) := by
          rw [hnew,List.mem_range'_1]
          omega
        have hgs : n + k ∉ gs.map (·.hole) := by
          intro h
          obtain ⟨g',hg',he'⟩ := List.mem_map.1 h
          have := hn.below g' (by simp [hd,hg'])
          omega
        rw [hother hnot,assign_of_not_mem hgs,List.getElem?_eq_none (by rw [hmerge,hs]; omega)]
        rfl
    next =>
      have hi : i < m := hn.term_below i hi
      refine hother ?_
      rw [hnew,List.mem_range'_1]
      omega

theorem Completed.of_choose {y : Derivation} (hn : d.Numbered m) (hd : d.agenda = g :: gs) (hm : m ≤ n)
    (hl : ds.length = (a.goals g).length)
    (h : (({ d with agenda := gs } : Draft ι).choose g a n).Completed (ds ++ ds') y) :
    d.Completed (Derivation.plug a.extract (merge a.rest (a.subgoals g.judgement) ds) :: ds') y := by
  refine ⟨?_,h.unsolved.trans ?_⟩
  · rw [h.term,bind_choose hn hd hm hl,hd]
  · have hopen : ((a.parts g n).filter (·.2.staysOpen a.rest)).map (·.2.judgement) =
        ((a.subgoals g.judgement).filter (·.staysOpen a.rest)).map (·.judgement) := by
      rw [← Alternative.parts_subgoals a g n,List.filter_map,List.map_map]
      rfl
    rw [choose_unsolved,open_scheduleAll,hopen,List.flatMap_append,List.flatMap_cons,List.append_assoc]
    refine List.Perm.append_left _ ?_
    rw [← List.append_assoc]
    exact (unsolved_merge hl).symm.append_right _

end

/-- The derivations that complete a draft with the solutions of the goals on its agenda, in order. -/
def Completes (S : Solver ι) (d : Draft ι) (ys : List Derivation) : Prop :=
  ∃ dss, product (d.agenda.map (·.solve S)) = some dss ∧ List.Forall₂ d.Completed dss ys

theorem Completes.mono {S S' : Solver ι} (hS : S.Within S') {d : Draft ι} {ys : List Derivation}
    (h : d.Completes S ys) : d.Completes S' ys := by
  obtain ⟨dss,hdss,hy⟩ := h
  exact ⟨dss,product_mono (agree_map (fun g => hS _ _ _ _) _) hdss,hy⟩

variable {S : Solver ι}

theorem map_solve_choose (d : Draft ι) (g : Goal ι) (a : Alternative ι) (n : Nat) :
    (d.choose g a n).agenda.map (·.solve S) =
      (a.goals g).map (·.solve S) ++ d.agenda.map (·.solve S) := by
  have h (gs : List (Goal ι)) : gs.map (·.solve S) =
      (gs.map Goal.unnumbered).map (·.solve S) := by
    rw [List.map_map]
    rfl
  rw [h,unnumbered_choose,List.map_append,← h]

theorem completes_chooseAll {m n : Nat} {d : Draft ι} {g : Goal ι} {gs : List (Goal ι)}
    {as : List (Alternative ι)} (hn : d.Numbered m) (hd : d.agenda = g :: gs) (hm : m ≤ n)
    {yss : List (List Derivation)}
    (h : List.Forall₂ (Completes S) (({ d with agenda := gs } : Draft ι).chooseAll g as n).1
      yss) :
    ∃ xs, solveAny S g.judgement g.depth as = some xs ∧
      ∃ dss, product (some xs :: gs.map (·.solve S)) = some dss ∧
        List.Forall₂ d.Completed dss yss.flatten := by
  induction as generalizing n yss with
  | nil =>
    cases h
    exact ⟨[],by rw [solveAny],[],rfl,.nil⟩
  | cons a as ih =>
    rw [chooseAll_cons] at h
    obtain ⟨ys,yss,hys,hyss,rfl⟩ := List.forall₂_cons_left_iff.1 h
    obtain ⟨xs,hxs,dss,hdss,hall⟩ := ih (Nat.le_trans hm (Nat.le_add_right ..)) hyss
    obtain ⟨ess,hess,hy⟩ := hys
    rw [map_solve_choose,product_append] at hess
    obtain ⟨pss,hpss,hess⟩ := Option.bind_eq_some_iff.1 hess
    let x (ds : List Derivation) : Derivation :=
      Derivation.plug a.extract (merge a.rest (a.subgoals g.judgement) ds)
    have hsolve : solveAny S g.judgement g.depth (a :: as) = some (pss.map x ++ xs) := by
      rw [solveAny,product_subgoals,← Alternative.goals,hpss,hxs]
      simp [x,Function.comp_def]
    refine ⟨pss.map x ++ xs,hsolve,?_⟩
    rw [List.flatten_cons]
    split at hess
    next hnil =>
      -- No way to solve what the alternative leaves: it adds nothing.
      cases hess
      cases hy
      rw [List.isEmpty_iff.1 hnil]
      exact ⟨dss,hdss,hall⟩
    next =>
      obtain ⟨qss,hqss,rfl⟩ := Option.map_eq_some_iff.1 hess
      have hdss' : dss = xs.flatMap fun x => qss.map (x :: ·) := by
        rw [product_cons hqss] at hdss
        exact (Option.some.inj hdss).symm
      let pairs := pss.flatMap fun p => qss.map fun q => (p,q)
      have hleft : (pss.flatMap fun p => qss.map (p ++ ·)) = pairs.map fun c => c.1 ++ c.2 := by
        simp [pairs,List.map_flatMap,Function.comp_def]
      have hright : ((pss.map x).flatMap fun x => qss.map (x :: ·)) = pairs.map fun c => x c.1 :: c.2 := by
        simp [pairs,List.map_flatMap,List.flatMap_map,Function.comp_def]
      have hlength : ∀ c ∈ pairs, c.1.length = (a.goals g).length := by
        intro c hc
        obtain ⟨p,hp,hc⟩ := List.mem_flatMap.1 hc
        obtain ⟨q,-,rfl⟩ := List.mem_map.1 hc
        simpa using length_of_product hpss p hp
      refine ⟨_,product_cons hqss _,?_⟩
      rw [List.flatMap_append,hright,← hdss']
      rw [hleft,List.forall₂_map_left_iff] at hy
      refine List.rel_append ?_ hall
      rw [List.forall₂_map_left_iff]
      exact ((List.forall₂_and_left _ _).2 ⟨hlength,hy⟩).imp fun c y h => .of_choose hn hd hm h.1 h.2

end Draft

namespace Frontier

variable {limit : Nat} {f f' : Frontier ι} {fs : List (Frontier ι)}

def derived? (f : Frontier ι) : Option Derivation :=
  f.drafts.head?.bind fun d => if d.agenda.isEmpty then some (d.finish 0) else none

/-- All derivations that are finished in the frontiers that a run passes, also those found before. -/
def derived (fs : List (Frontier ι)) : List Derivation := fs.filterMap derived?

theorem derived?_of_nil {d : Draft ι} {ds : List (Draft ι)} (hd : f.drafts = d :: ds)
    (ha : d.agenda = []) : f.derived? = some (d.finish 0) := by
  simp [derived?,hd,ha]

theorem derived?_of_cons {d : Draft ι} {ds : List (Draft ι)} {g : Goal ι} {gs : List (Goal ι)}
    (hd : f.drafts = d :: ds) (ha : d.agenda = g :: gs) : f.derived? = none := by
  simp [derived?,hd,ha]

theorem derived_cons_some {y : Derivation} (h : f.derived? = some y) :
    derived (f :: fs) = y :: derived fs := List.filterMap_cons_some h

theorem derived_cons_none (h : f.derived? = none) : derived (f :: fs) = derived fs :=
  List.filterMap_cons_none h

theorem record_found (f : Frontier ι) (d : Derivation) : (f.record d).found = addNew f.found d := by
  rw [record,addNew]
  split <;> rfl

theorem Step.found (hs : Step procs ctx bound f f') :
    f'.found = (derived [f]).foldl addNew f.found := by
  cases hs with
  | finished hd ha =>
    rw [record_found,derived_cons_some (derived?_of_nil hd ha)]
    rfl
  | failed hd ha _ =>
    rw [derived_cons_none (derived?_of_cons hd ha)]
    rfl
  | opened hd ha _ =>
    rw [derived_cons_none (derived?_of_cons hd ha)]
    rfl

theorem Run.found (r : Run procs ctx bound limit fs f f') :
    f'.found = (Frontier.derived fs).foldl addNew f.found := by
  induction r with
  | exhausted => rfl
  | full hs => exact hs.found
  | @more f f₁ f₂ fs hs _ _ ih =>
    have hsplit : Frontier.derived (f :: fs) = Frontier.derived [f] ++ Frontier.derived fs :=
      List.filterMap_append (l := [f])
    rw [ih,hs.found,hsplit,List.foldl_append]

/-- A run that is not stopped completes each draft with all solutions of its agenda, one draft after the
other. -/
theorem Run.completes (r : Run procs ctx bound limit fs f f') (few : f'.found.length < limit)
    (hn : ∀ d ∈ f.drafts, d.Numbered f.next) :
    ∃ clock yss, List.Forall₂ (Draft.Completes (solve procs ctx bound clock)) f.drafts yss ∧
      yss.flatten = Frontier.derived fs := by
  induction r with
  | exhausted hd => exact ⟨0,[],by rw [hd]; exact .nil,rfl⟩
  | full _ enough => exact absurd few (Nat.not_lt.2 enough)
  | @more f f₁ f₂ fs hs _ _ ih =>
    obtain ⟨clock,yss,hall,hflat⟩ := ih few (hs.numbered hn)
    have hlater : (solve procs ctx bound clock).Within (solve procs ctx bound (clock + 1)) :=
      solve_succ procs ctx bound clock
    cases hs with
    | @finished d ds hd ha =>
      rw [record_drafts] at hall
      refine ⟨clock,[d.finish 0] :: yss,?_,?_⟩
      · rw [hd]
        refine .cons ⟨[[]],?_,.cons (.finish ha) .nil⟩ hall
        rw [ha]
        rfl
      · rw [derived_cons_some (derived?_of_nil hd ha),← hflat]
        rfl
    | @failed d ds g gs err hd ha ho =>
      refine ⟨clock + 1,[] :: yss,?_,?_⟩
      · rw [hd]
        refine .cons ⟨[],?_,.nil⟩ (hall.imp fun _ _ => .mono hlater)
        rw [ha,List.map_cons,g.solve_of_error ho]
        rfl
      · rw [derived_cons_none (derived?_of_cons hd ha),← hflat]
        rfl
    | @opened d ds g gs as hd ha ho =>
      obtain ⟨us,vs,rfl,hus,hvs⟩ := forall₂_append_left hall
      obtain ⟨xs,hxs,dss,hdss,hy⟩ := Draft.completes_chooseAll (hn d (by simp [hd])) ha (Nat.le_refl _) hus
      refine ⟨clock + 1,us.flatten :: vs,?_,?_⟩
      · rw [hd]
        refine .cons ⟨dss,?_,hy⟩ (hvs.imp fun _ _ => .mono hlater)
        rw [ha,List.map_cons,g.solve_of_ok ho,hxs]
        exact product_mono (.cons (fun _ => id) (agree_map (fun g => hlater _ _ _ _) gs)) hdss
      · rw [derived_cons_none (derived?_of_cons hd ha),← hflat]
        simp

theorem Run.open_derived {t : Tactic ι} {j : Judgement} (r : Run procs ctx bound limit fs (start j t) f)
    (ht : t.AllOffer procs ctx fun _ r => r.InOrder) :
    ∀ y ∈ derived fs, y.unsolved.isEmpty = y.term.holes.isEmpty := by
  have hstep (f f' : Frontier ι)
      (h : ∃ log, f.Tracked ctx (fun _ r => r.InOrder) False log) (hs : Step procs ctx bound f f') :
      ∃ log, f'.Tracked ctx (fun _ r => r.InOrder) False log := by
    obtain ⟨log,h⟩ := h
    exact ⟨_,hs.tracked ht.2 (fun _ _ hr => ⟨hr,False.elim⟩) h⟩
  intro y hy
  obtain ⟨f₁,hf,hy⟩ := List.mem_filterMap.1 hy
  obtain ⟨log,hlog⟩ := r.forall_passed hstep ⟨_,tracked_start procs bound ht.1⟩ f₁ hf
  obtain ⟨d,hd,hy⟩ := Option.bind_eq_some_iff.1 hy
  split at hy
  next ha =>
    cases hy
    obtain ⟨-,ids,hids,hh⟩ := hlog.paired.drafts d (List.mem_of_mem_head? hd)
    rw [List.isEmpty_iff.1 ha,List.map_nil,List.append_nil] at hh
    have hlen : d.term.holes.length = d.unsolved.length := hh.perm.length_eq.trans hids.length_eq
    show d.unsolved.isEmpty = d.term.holes.isEmpty
    rw [Bool.eq_iff_iff,List.isEmpty_iff_length_eq_zero,List.isEmpty_iff_length_eq_zero,hlen]
  next => cases hy

end Frontier

namespace Derivation

/-- The second derivation is the first one without the numbers of its holes. -/
def Renders (y s : Derivation) : Prop := y.term.blank = s.term ∧ y.unsolved.Perm s.unsolved

/-- Both derivations have the same term, and the same open goals up to order. -/
def Same (d e : Derivation) : Prop := d.term = e.term ∧ d.unsolved.Perm e.unsolved

def closed (ds : List Derivation) : List Derivation := ds.filter (·.term.holes.isEmpty)

def solved (ds : List Derivation) : List Derivation := ds.filter (·.unsolved.isEmpty)

theorem Renders.closed {ys ss : List Derivation} (h : List.Forall₂ Renders ys ss) :
    List.Forall₂ Same (closed ys) (closed ss) := by
  have hfilter : List.Forall₂ Renders (Derivation.closed ys) (Derivation.closed ss) := by
    refine List.rel_filter (fun y s hys => ?_) h
    show y.term.holes.isEmpty = true ↔ s.term.holes.isEmpty = true
    rw [← hys.1,Term.holes_blank,List.isEmpty_map]
  have hclosed : ∀ y ∈ Derivation.closed ys, y.term.holes = [] :=
    fun y hy => List.isEmpty_iff.1 (List.mem_filter.1 hy).2
  refine ((List.forall₂_and_left _ _).2 ⟨hclosed,hfilter⟩).imp fun y s hys => ⟨?_,hys.2.2⟩
  rw [← hys.2.1,Term.blank_of_closed hys.1]

/-- The derivations of a run have open goals just when they have holes, and so have the solutions. -/
theorem Renders.open_iff {ys ss : List Derivation} (h : List.Forall₂ Renders ys ss)
    (hys : ∀ y ∈ ys, y.unsolved.isEmpty = y.term.holes.isEmpty) :
    ∀ s ∈ ss, s.unsolved.isEmpty = s.term.holes.isEmpty := by
  induction h with
  | nil => simp
  | @cons y s ys ss hy _ ih =>
    refine List.forall_mem_cons.2 ⟨?_,ih fun y hy => hys y (by simp [hy])⟩
    have hone := hys y (by simp)
    rw [← hy.1,Term.holes_blank,List.isEmpty_map,← hone,Bool.eq_iff_iff,List.isEmpty_iff,List.isEmpty_iff]
    exact ⟨fun hs => List.perm_nil.1 (hs ▸ hy.2),fun hs => List.nil_perm.1 (hs ▸ hy.2)⟩

theorem Same.eq {ds es : List Derivation} (h : List.Forall₂ Same ds es)
    (hds : ∀ d ∈ ds, d.unsolved = []) : ds = es := by
  induction h with
  | nil => rfl
  | @cons d e ds es hd _ ih =>
    obtain ⟨term,unsolved⟩ := d
    obtain ⟨term',unsolved'⟩ := e
    have hnil : unsolved = [] := hds ⟨term,unsolved⟩ (by simp)
    have hnil' : unsolved' = [] := List.nil_perm.1 (hnil ▸ hd.2)
    have hterm : term = term' := hd.1
    rw [ih fun d hd => hds d (by simp [hd]),hterm,hnil,hnil']

theorem Same.firstOfEach {ds es : List Derivation} (h : List.Forall₂ Same ds es) :
    List.Forall₂ Same (firstOfEach ds) (firstOfEach es) := by
  induction h with
  | nil => exact .nil
  | cons hd _ ih =>
    refine .cons hd (List.rel_filter (fun y s hys => ?_) ih)
    simp only [hys.1,hd.1]

end Derivation

theorem Draft.Completes.start {S : Solver ι} {j : Judgement} {t : Tactic ι} {ys : List Derivation}
    (h : Draft.Completes S ⟨[⟨0,j,t,[],0⟩],[],[]⟩ ys) :
    ∃ ss, S j t [] 0 = some ss ∧ List.Forall₂ Derivation.Renders ys ss := by
  obtain ⟨dss,hdss,hall⟩ := h
  have hone : product [S j t [] 0] = some dss := hdss
  cases hss : S j t [] 0 with
  | none =>
    rw [hss] at hone
    cases hone
  | some ss =>
    refine ⟨ss,rfl,?_⟩
    rw [hss,product_cons (show product [] = some [[]] from rfl)] at hone
    have hdss : dss = ss.map fun s => [s] := by
      rw [← Option.some.inj hone,List.map_eq_flatMap]
      rfl
    rw [hdss,List.forall₂_map_left_iff] at hall
    refine (hall.imp fun s y hy => ?_ : List.Forall₂ (flip Derivation.Renders) ss ys).flip
    refine ⟨hy.term,?_⟩
    simpa using hy.unsolved

/-- What a run finds that has not been stopped by its limit on derivations: the solutions that the semantics
gives, each term once, where terms without holes are concerned. When refinements keep holes in order, these
are the derivations without open goals. -/
theorem explore_solves {limit budget left : Nat} {j : Judgement} {t : Tactic ι} {f : Frontier ι}
    (h : (Frontier.start j t).explore procs ctx bound limit budget = some (left,f))
    (few : f.found.length < limit) :
    ∃ clock ss, (∀ n, clock ≤ n → solve procs ctx bound n j t [] 0 = some ss) ∧
      List.Forall₂ Derivation.Same (Derivation.closed f.found) (firstOfEach (Derivation.closed ss)) ∧
      (t.AllOffer procs ctx (fun _ r => r.InOrder) →
        Derivation.solved f.found = firstOfEach (Derivation.solved ss)) := by
  have hrun := Frontier.explore_run h
  have hnumbered : ∀ d ∈ (Frontier.start j t).drafts, d.Numbered (Frontier.start j t).next := by
    intro d hd
    cases List.mem_singleton.1 hd
    exact .start _ rfl
  obtain ⟨clock,yss,hall,hflat⟩ := hrun.completes few hnumbered
  obtain ⟨ys,_,hys,hnil,rfl⟩ := List.forall₂_cons_left_iff.1 hall
  cases hnil
  rw [List.flatten_cons,List.flatten_nil,List.append_nil] at hflat
  obtain ⟨ss,hss,hrender⟩ := Draft.Completes.start hys
  have hfound : f.found = firstOfEach ys := by
    rw [hrun.found,hflat,foldl_addNew]
    simp [Frontier.start]
  have hsame : List.Forall₂ Derivation.Same (Derivation.closed f.found)
      (firstOfEach (Derivation.closed ss)) := by
    rw [hfound,Derivation.closed,filter_firstOfEach fun t => t.holes.isEmpty]
    exact Derivation.Same.firstOfEach (Derivation.Renders.closed hrender)
  refine ⟨clock,ss,fun n hn => solve_of_le hn _ _ _ _ _ hss,hsame,fun ht => ?_⟩
  have hys : ∀ y ∈ ys, y.unsolved.isEmpty = y.term.holes.isEmpty := hflat ▸ hrun.open_derived ht
  have hsolved : Derivation.solved f.found = Derivation.closed f.found := by
    rw [hfound]
    exact List.filter_congr fun y hy => hys y ((firstOfEach_sublist ys).subset hy)
  have hsolved' : Derivation.solved ss = Derivation.closed ss :=
    List.filter_congr (Derivation.Renders.open_iff hrender hys)
  rw [← hsolved,← hsolved'] at hsame
  exact Derivation.Same.eq hsame fun d hd => List.isEmpty_iff.1 (List.mem_filter.1 hd).2

def Tactic.leaf : Tactic Empty :=
  .rule "leaf" fun _ _ => .ok [.closed (.var "x"),.closed (.var "y"),.closed (.var "x")]

theorem explore_solves_pair :
    ∃ f clock ss, (Frontier.start .bare (.andThen .pair .leaf)).explore Empty.elim ⟨[],.empty,{}⟩ 2 9 100 =
        some (86,f) ∧
      f.found.map (·.term.text) = ["pair x x","pair x y","pair y x","pair y y"] ∧
      (∀ n, clock ≤ n →
        solve Empty.elim ⟨[],.empty,{}⟩ 2 n .bare (.andThen .pair .leaf) [] 0 = some ss) ∧
      Derivation.solved f.found = firstOfEach (Derivation.solved ss) := by
  obtain ⟨f,hf,htext⟩ : ∃ f,
      (Frontier.start .bare (.andThen .pair .leaf)).explore Empty.elim ⟨[],.empty,{}⟩ 2 9 100 =
        some (86,f) ∧
      f.found.map (·.term.text) = ["pair x x","pair x y","pair y x","pair y y"] := ⟨_,rfl,rfl⟩
  have few : f.found.length < 9 := by
    have := congrArg List.length htext
    simp only [List.length_map,List.length_cons,List.length_nil] at this
    omega
  have hleaf : Tactic.leaf.Built ⟨[],.empty,{}⟩
      (Tactic.Offers ⟨[],.empty,{}⟩ fun _ r => r.InOrder) := by
    refine .rule (fun j rs hf r hr => ?_) fun j rs r s t hf hr hs _ => ?_
    · cases hf
      simp only [List.mem_cons,List.not_mem_nil,or_false] at hr
      rcases hr with rfl | rfl | rfl <;> rfl
    · cases hf
      simp only [List.mem_cons,List.not_mem_nil,or_false] at hr
      rcases hr with rfl | rfl | rfl <;> cases hs
  have hall : (Tactic.andThen .pair .leaf).AllOffer Empty.elim ⟨[],.empty,{}⟩ fun _ r => r.InOrder :=
    ⟨.andThen (Tactic.pair_built fun _ => Refinement.inOrder_application _ _) hleaf,fun l => l.elim⟩
  obtain ⟨clock,ss,hss,-,hsolved⟩ := explore_solves hf few
  exact ⟨f,clock,ss,hf,htext,hss,hsolved hall⟩

end TypedHole
