import TypedHole.Proofs.SplitDiscipline

/-! Growing judgements.
A judgement reached from another one by rules of the library knows all that was known before, and is never
again the whole right-hand side of an equation. Main statements: one rule only lets judgements grow
(`Tactic.Move.grown`), so all judgements of a draft have grown from the first one (`Draft.Grown.choose`)
and all those of a frontier stay so (`Frontier.Grown.step`). -/
namespace TypedHole

variable {ι : Type}

namespace Judgement

def Scoped (j : Judgement) : Prop := ∀ x, j.isDestructed x = true → x ∈ j.hypothesis.names

/-- A judgement knows all that another one knows: its entries, unchanged, and the names split on. -/
structure Grown (j k : Judgement) : Prop where
  entries : ∀ e ∈ j.hypothesis.entries, e ∈ k.hypothesis.entries
  destructed : ∀ x, j.isDestructed x = true → k.isDestructed x = true
  inScope : k.Scoped

variable {j k l : Judgement}

theorem Grown.refl (h : j.Scoped) : j.Grown j := ⟨fun _ he => he,fun _ hx => hx,h⟩

theorem Grown.trans (h : j.Grown k) (h' : k.Grown l) : j.Grown l where
  entries e he := h'.entries e (h.entries e he)
  destructed x hx := h'.destructed x (h.destructed x hx)
  inScope := h'.inScope

theorem Grown.names (h : j.Grown k) : j.hypothesis.names ⊆ k.hypothesis.names := by
  intro x hx
  obtain ⟨e,he,rfl⟩ := List.mem_map.1 hx
  exact List.mem_map_of_mem (h.entries e he)

theorem Grown.withEntries (h : j.Grown k) {es : List Entry} (hnew : ∀ e ∈ es, e.name ∉ k.hypothesis.names) :
    j.Grown (k.withEntries es) := by
  have hkept : ∀ e ∈ k.hypothesis.entries, e ∈ (k.withEntries es).hypothesis.entries :=
    fun e he => Hypothesis.mem_extend_of_mem hnew he
  refine ⟨fun e he => hkept e (h.entries e he),h.destructed,fun x hx => ?_⟩
  obtain ⟨e,he,rfl⟩ := List.mem_map.1 (h.inScope x hx)
  exact List.mem_map_of_mem (hkept e he)

theorem Grown.withDestructed (h : j.Grown k) {x : Name} (hx : x ∈ k.hypothesis.names) :
    j.Grown (k.withDestructed x) := by
  refine ⟨h.entries,fun y hy => ?_,fun y hy => ?_⟩
  · exact (isDestructed_withDestructed k x y).2 (.inr (h.destructed y hy))
  · rcases (isDestructed_withDestructed k x y).1 hy with rfl | hy
    · exact hx
    · exact h.inScope y hy

theorem grown_subgoal (h : j.Scoped) (t : Ty) : j.Grown (j.subgoal t) := ⟨fun _ he => he,fun _ hx => hx,h⟩

theorem argument_isTop (j : Judgement) (t : Ty) : (j.argument t).isTop = false := by
  have hfold (es : List Entry) (k : Judgement) :
      (es.foldl (fun arg e => arg.withDestructed e.name) k).isTop = k.isTop := by
    induction es generalizing k with
    | nil => rfl
    | cons e es ih => exact ih _
  exact hfold _ _

theorem grown_argument (h : j.Scoped) (t : Ty) : j.Grown (j.argument t) := by
  have hsame : (j.argument t).hypothesis = j.hypothesis := (j.argument_fields t).1
  refine ⟨fun e he => ?_,fun x hx => ?_,fun x hx => ?_⟩
  · rw [hsame]
    exact he
  · exact isDestructed_argument_iff.2 (.inr hx)
  · rw [hsame]
    rcases isDestructed_argument_iff.1 hx with ⟨e,he,rfl⟩ | hx
    · exact List.mem_map_of_mem (List.mem_of_mem_filter he)
    · exact h x hx

end Judgement

namespace Tactic

variable {j : Judgement} {ctx : Context}

theorem grown_branch (h : j.Scoped) {scrutinee : Option Name}
    (hx : ∀ x, scrutinee = some x → x ∈ j.hypothesis.names) (goal : Ty) (c : Constructor) :
    j.Grown (branch j scrutinee goal c).judgement := by
  have hinner : j.Grown ((j.subgoal goal).withEntries
      (fieldEntries scrutinee c (branch j scrutinee goal c).binders)) :=
    (Judgement.grown_subgoal h goal).withEntries (new_fieldEntries j scrutinee goal c)
  cases scrutinee with
  | none => exact hinner
  | some x => exact hinner.withDestructed (hinner.names (hx x rfl))

theorem SplitBody.judgement {scrutinee : Option Name} {source goal : Ty}
    {body : Branch → Refinement (Tactic ι)} (h : SplitBody scrutinee source goal body) {b : Branch}
    {s : Subgoal (Tactic ι)} (hs : s ∈ (body b).subgoals) :
    s.judgement = b.judgement ∨ ∃ t, s.judgement = b.judgement.subgoal t := by
  cases h with
  | openBranch => exact .inl (by rw [List.mem_singleton.1 hs])
  | rebuild =>
    obtain ⟨x,t,-,rfl⟩ := subgoal_of_rebuild hs
    exact .inr ⟨t,rfl⟩

theorem SplitBody.grown {scrutinee : Option Name} {source goal : Ty}
    {body : Branch → Refinement (Tactic ι)} (fits : SplitBody scrutinee source goal body) (h : j.Scoped)
    (hx : ∀ x, scrutinee = some x → x ∈ j.hypothesis.names) {wrap : List (Alt Term) → Term} {target : Ty}
    {cs : List Constructor} {s : Subgoal (Tactic ι)}
    (hs : s ∈ (splitOn wrap j scrutinee target cs body).subgoals) :
    j.Grown s.judgement ∧ s.judgement.isTop = false := by
  obtain ⟨c,-,hs⟩ := mem_splitOn.1 hs
  have hbranch := grown_branch h hx target c
  rcases fits.judgement hs with heq | ⟨t,heq⟩
  · rw [heq]
    exact ⟨hbranch,branch_isTop ..⟩
  · rw [heq]
    exact ⟨hbranch.trans (Judgement.grown_subgoal hbranch.inScope t),rfl⟩

theorem name_of_find? {x : Name} {e : Entry} (h : j.hypothesis.find? x = some e) :
    ∀ y, some x = some y → y ∈ j.hypothesis.names := by
  intro y hy
  cases hy
  obtain ⟨hmem,rfl⟩ := find?_eq_some h
  exact List.mem_map_of_mem hmem

/-- What a rule of the library leaves has grown, and is no whole right-hand side. -/
theorem Move.grown {r : Refinement (Tactic ι)} (h : Move ctx j r) (hj : j.Scoped) {s : Subgoal (Tactic ι)}
    (hs : s ∈ r.subgoals) : j.Grown s.judgement ∧ s.judgement.isTop = false := by
  have harguments {head : Name} {types : List Ty} (hs : s ∈ (argumentsOf j head types).subgoals) :
      j.Grown s.judgement ∧ s.judgement.isTop = false := by
    obtain ⟨t,-,rfl⟩ := List.mem_map.1 hs
    exact ⟨Judgement.grown_argument hj t,j.argument_isTop t⟩
  cases h with
  | entry => cases hs
  | @lam names entries domains names_eq entries_eq =>
    have hentries : entries = introducedEntries j := by
      rw [entries_eq,names_eq]
      rfl
    have hnew : ∀ e ∈ entries, e.name ∉ j.hypothesis.names := hentries ▸ new_introducedEntries j
    rw [List.mem_singleton.1 hs]
    exact ⟨(Judgement.grown_subgoal hj j.goal.result).withEntries hnew,rfl⟩
  | constructor => exact harguments hs
  | function => exact harguments hs
  | case found _ fits => exact fits.grown hj (name_of_find? found) hs
  | lamCase _ _ fits => exact fits.grown hj (fun x hx => by cases hx) hs

theorem Offered.move {a : Alternative ι} (h : Offered ctx LibraryRule j a) {r : Refinement (Tactic ι)}
    (hr : a.refinement = some r) : Move ctx j r := by
  obtain ⟨name,refine,rs,hrule,hf,hm,-⟩ := h.refinement r hr
  exact hrule.moves j rs hf r hm

end Tactic

namespace Draft

variable {ctx : Context} {j : Judgement} {d : Draft ι} {g g' : Goal ι} {gs : List (Goal ι)}
  {a : Alternative ι} {n : Nat}

def judgements (d : Draft ι) : List Judgement := d.agenda.map (·.judgement) ++ d.unsolved

theorem judgements_scheduleAll (rest : List (Tactic ι)) (depth : Nat) (ps : List (Nat × Subgoal (Tactic ι))) :
    (((scheduleAll rest depth ps).filterMap Sum.getLeft?).map (·.judgement) ++
      (scheduleAll rest depth ps).filterMap Sum.getRight?).Perm (ps.map (·.2.judgement)) := by
  induction ps with
  | nil => exact .refl _
  | cons p ps ih =>
    obtain ⟨i,⟨k,t⟩⟩ := p
    cases t with
    | some t => exact ih.cons k
    | none =>
      cases rest with
      | nil => exact List.perm_middle.trans (ih.cons k)
      | cons t rest => exact ih.cons k

theorem judgements_choose (d : Draft ι) (g : Goal ι) (a : Alternative ι) (n : Nat) :
    (d.choose g a n).judgements.Perm ((a.subgoals g.judgement).map (·.judgement) ++ d.judgements) := by
  have hparts := judgements_scheduleAll a.rest (a.depth g.depth) (a.parts g n)
  have hsub : (a.parts g n).map (·.2.judgement) = (a.subgoals g.judgement).map (·.judgement) := by
    rw [← Alternative.parts_subgoals a g n,List.map_map]
    rfl
  rw [hsub] at hparts
  refine List.Perm.trans ?_ (hparts.append_right _)
  rw [judgements,judgements,choose_agenda,choose_unsolved,List.map_append,List.append_assoc,
    List.append_assoc]
  refine List.Perm.append_left _ ?_
  rw [← List.append_assoc]
  exact List.perm_append_comm

theorem depth_of_choose (h : g' ∈ (d.choose g a n).agenda) :
    g'.depth = a.depth g.depth ∨ g' ∈ d.agenda := by
  rw [choose_agenda] at h
  rcases List.mem_append.1 h with h | h
  · obtain ⟨x,hx,hg⟩ := List.mem_filterMap.1 h
    obtain ⟨p,hp,rfl⟩ := List.mem_map.1 hx
    exact .inl (schedule_inl (Sum.getLeft?_eq_some_iff.1 hg)).2.2.1
  · exact .inr h

/-- All judgements of a draft have grown from the first one. Once a rule has been applied none of them is a
whole right-hand side; before that there is only the first one. -/
structure Grown (j : Judgement) (d : Draft ι) : Prop where
  grown : ∀ k ∈ d.judgements, j.Grown k
  nested : d.fills ≠ [] → ∀ k ∈ d.judgements, k.isTop = false
  alone : d.fills = [] → d.judgements.length ≤ 1 ∧ ∀ g ∈ d.agenda, g.depth = 0

theorem Grown.choose (h : d.Grown j) (hd : d.agenda = g :: gs)
    (ha : ∀ r, a.refinement = some r → Tactic.Move ctx g.judgement r) :
    (({ d with agenda := gs } : Draft ι).choose g a n).Grown j := by
  have hfirst : d.judgements = g.judgement :: ({ d with agenda := gs } : Draft ι).judgements := by
    simp [judgements,hd]
  have hg : j.Grown g.judgement := h.grown _ (by simp [hfirst])
  have hperm := judgements_choose { d with agenda := gs } g a n
  cases hr : a.refinement with
  | none =>
    have hsame : (({ d with agenda := gs } : Draft ι).choose g a n).judgements.Perm d.judgements := by
      simpa [Alternative.subgoals,hr,hfirst] using hperm
    have hfills : (({ d with agenda := gs } : Draft ι).choose g a n).fills = d.fills := choose_fills_none hr
    refine ⟨fun k hk => h.grown k (hsame.mem_iff.1 hk),fun hf k hk => ?_,fun hf => ?_⟩
    · rw [hfills] at hf
      exact h.nested hf k (hsame.mem_iff.1 hk)
    · rw [hfills] at hf
      have halone := h.alone hf
      refine ⟨hsame.length_eq ▸ halone.1,fun g' hg' => ?_⟩
      rcases depth_of_choose hg' with hdepth | hg'
      · rw [hdepth,Alternative.depth,hr]
        exact halone.2 g (by simp [hd])
      · exact halone.2 g' (hd ▸ List.mem_cons_of_mem g hg')
  | some r =>
    have hfills : (({ d with agenda := gs } : Draft ι).choose g a n).fills ≠ [] := by
      rw [choose_fills_some hr]
      exact List.cons_ne_nil _ _
    have hcases : ∀ k ∈ (({ d with agenda := gs } : Draft ι).choose g a n).judgements,
        (∃ s ∈ r.subgoals, s.judgement = k) ∨ k ∈ ({ d with agenda := gs } : Draft ι).judgements := by
      intro k hk
      have hk := hperm.mem_iff.1 hk
      simpa [Alternative.subgoals,hr] using hk
    refine ⟨fun k hk => ?_,fun _ k hk => ?_,fun hf => absurd hf hfills⟩
    · rcases hcases k hk with ⟨s,hs,rfl⟩ | hk
      · exact hg.trans ((ha r hr).grown hg.inScope hs).1
      · exact h.grown k (hfirst ▸ List.mem_cons_of_mem _ hk)
    · rcases hcases k hk with ⟨s,hs,rfl⟩ | hk
      · exact ((ha r hr).grown hg.inScope hs).2
      · by_cases hf : d.fills = []
        · -- the goal at hand has been the only one
          have hlen := (h.alone hf).1
          have hpos := List.length_pos_of_mem hk
          simp only [hfirst,List.length_cons] at hlen
          omega
        · exact h.nested hf k (hfirst ▸ List.mem_cons_of_mem _ hk)

end Draft

/-- All judgements of all drafts have grown from the first one, and only tactics from the library are to run
on them. -/
structure Frontier.Grown (ctx : Context) (j : Judgement) (f : Frontier ι) : Prop where
  built : ∀ d ∈ f.drafts, ∀ g ∈ d.agenda, g.Built ctx Tactic.LibraryRule
  drafts : ∀ d ∈ f.drafts, d.Grown j

section

variable {procs : ι → Tactic ι} {ctx : Context} {bound : Nat} {j : Judgement}

open TypedHole.Tactic

theorem Frontier.Grown.step (hp : ∀ l, (procs l).Built ctx LibraryRule) {f f' : Frontier ι}
    (h : f.Grown ctx j) (hs : Step procs ctx bound f f') : f'.Grown ctx j := by
  refine ⟨hs.built hp h.built,fun d hd => ?_⟩
  rcases hs.mem_drafts hd with hd | @⟨d,g,gs,as,a,n,mem,agenda,outcome,alternative,_,_,_⟩
  · exact h.drafts d hd
  · have hg := h.built d mem g (by simp [agenda])
    have hoffered := offered_of_expand hp hg.1 hg.2 outcome a alternative
    exact (h.drafts d mem).choose agenda fun r hr => hoffered.move hr

theorem Frontier.grown_start (hj : j.Scoped) {t : Tactic ι} (ht : t.Built ctx LibraryRule) :
    (start j t).Grown ctx j := by
  refine ⟨fun d hd g hg => ?_,fun d hd => ?_⟩
  · cases List.mem_singleton.1 hd
    cases List.mem_singleton.1 hg
    exact ⟨ht,by simp⟩
  · cases List.mem_singleton.1 hd
    have honly : (⟨[⟨0,j,t,[],0⟩],[],[]⟩ : Draft ι).judgements = [j] := rfl
    refine ⟨fun k hk => ?_,fun hf => absurd rfl hf,fun _ => by simp [honly]⟩
    rw [honly,List.mem_singleton] at hk
    rw [hk]
    exact .refl hj

end

end TypedHole
