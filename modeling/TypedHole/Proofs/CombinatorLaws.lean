import TypedHole.Proofs.Deepening
import TypedHole.Proofs.Lockstep

/-! Laws of the combinators.
Main statement: rearranging a sequence, leaving out what does nothing or what fails first, and a choice with one
member only do not change what a search returns, as long as it ends in time and within the nesting limit
(`search_laws`). -/
namespace TypedHole

variable {ι : Type}

/-- Both results are the same error or have the same derivations, with open goals in the same order if
`ordered` holds. -/
inductive SearchResult.Agrees (ordered : Prop) : SearchResult → SearchResult → Prop
  | error {err : TacticError} : Agrees ordered (.error err) (.error err)
  | ok {ds ds' : List Derivation} (same : List.Forall₂ (Derivation.Agrees ordered) ds ds') :
      Agrees ordered (.ok ds) (.ok ds')

def openings (procs : ι → Tactic ι) (ctx : Context) (limit : Nat) (j : Judgement) (t : Tactic ι) :
    (rounds budget bound : Nat) → List (Nat × Goal ι)
  | 0, _, _ => []
  | rounds + 1, budget, bound =>
    ((Frontier.start j t).passed procs ctx bound limit budget).filterMap (·.goal?.map (bound,·)) ++
      match (Frontier.start j t).explore procs ctx bound limit budget with
      | none => []
      | some (left,f) =>
        match f.verdict j.goal with
        | some _ => []
        | none => openings procs ctx limit j t rounds left (bound + 1)

/-- A search is over before its deadline, and no tactic that it opens up exceeds the nesting limit. -/
structure Unhindered (procs : ι → Tactic ι) (cfg : Config) (ctx : Context) (j : Judgement) (t : Tactic ι) :
    Prop where
  inTime : deepen procs ctx (max 1 cfg.maxSolutions) j t (cfg.timeout * stepsPerMillisecond)
    (cfg.timeout * stepsPerMillisecond) 1 ≠ none
  shallow : ∀ p ∈ openings procs ctx (max 1 cfg.maxSolutions) j t (cfg.timeout * stepsPerMillisecond)
    (cfg.timeout * stepsPerMillisecond) 1, p.2.Shallow procs ctx p.1

variable {procs : ι → Tactic ι} {cfg : Config} {ctx : Context} {bound limit : Nat} {j : Judgement}
  {t t' : Tactic ι} {k k' : List (Tactic ι)} {ordered : Prop}

theorem Derivation.Agrees.eq {d d' : Derivation} (h : d.Agrees ordered d') (ho : ordered) : d = d' := by
  obtain ⟨term,unsolved⟩ := d
  obtain ⟨rfl,-,hj⟩ := h
  rw [show unsolved = d'.unsolved from hj ho]

namespace SearchResult.Agrees

variable {r r' : SearchResult}

theorem eq (h : r.Agrees ordered r') (ho : ordered) : r = r' := by
  cases h with
  | error => rfl
  | ok same =>
    have hds := same.imp fun _ _ (hd : Derivation.Agrees ordered _ _) => hd.eq ho
    rw [List.forall₂_eq_eq_eq] at hds
    rw [hds]

theorem unordered (h : r.Agrees ordered r') : r.Agrees False r' := by
  cases h with
  | error => exact .error
  | ok same => exact .ok (same.imp fun _ _ hd => ⟨hd.1,hd.2.1,False.elim⟩)

end SearchResult.Agrees

theorem Frontier.Trails.verdict {f f' : Frontier ι} (h : f.Trails procs ctx bound k k' ordered f') (goal : Ty) :
    Option.Rel (SearchResult.Agrees ordered) (f.verdict goal) (f'.verdict goal) := by
  obtain ⟨-,-,cut,failure,found⟩ := h
  rw [Frontier.verdict,Frontier.verdict,← cut,← failure]
  generalize f.found = ds at found
  generalize f'.found = ds' at found
  cases found with
  | nil =>
    cases f.cut with
    | true => exact .none
    | false => exact .some .error
  | cons hd hds => exact .some (.ok (.cons hd hds))

theorem mem_openings_of_passed {rounds budget : Nat} {f : Frontier ι} {g : Goal ι}
    (hf : f ∈ (Frontier.start j t).passed procs ctx bound limit budget) (hg : f.goal? = some g) :
    (bound,g) ∈ openings procs ctx limit j t (rounds + 1) budget bound :=
  List.mem_append.2 (.inl (List.mem_filterMap.2 ⟨f,hf,by rw [hg]; rfl⟩))

theorem mem_openings_of_later {rounds budget left : Nat} {f : Frontier ι} {p : Nat × Goal ι}
    (he : (Frontier.start j t).explore procs ctx bound limit budget = some (left,f))
    (hv : f.verdict j.goal = none) (hp : p ∈ openings procs ctx limit j t rounds left (bound + 1)) :
    p ∈ openings procs ctx limit j t (rounds + 1) budget bound := by
  rw [openings,he]
  dsimp only
  rw [hv]
  exact List.mem_append.2 (.inr hp)

/-- When explorations at one depth bound say the same, so do the searches. -/
theorem deepen_agrees {r r' : SearchResult} {rounds rounds' budget budget' : Nat}
    (h : deepen procs ctx limit j t rounds budget bound = some r)
    (h' : deepen procs ctx limit j t' rounds' budget' bound = some r')
    (hs : ∀ p ∈ openings procs ctx limit j t rounds budget bound, p.2.Shallow procs ctx p.1)
    (hs' : ∀ p ∈ openings procs ctx limit j t' rounds' budget' bound, p.2.Shallow procs ctx p.1)
    (same : ∀ {bound budget budget' left left' : Nat} {f f' : Frontier ι},
      (Frontier.start j t).explore procs ctx bound limit budget = some (left,f) →
      (Frontier.start j t').explore procs ctx bound limit budget' = some (left',f') →
      (∀ f ∈ (Frontier.start j t).passed procs ctx bound limit budget, ∀ g, f.goal? = some g →
        g.Shallow procs ctx bound) →
      (∀ f ∈ (Frontier.start j t').passed procs ctx bound limit budget', ∀ g, f.goal? = some g →
        g.Shallow procs ctx bound) →
      Option.Rel (SearchResult.Agrees ordered) (f.verdict j.goal) (f'.verdict j.goal)) :
    r.Agrees ordered r' := by
  induction rounds generalizing rounds' budget budget' bound with
  | zero => cases h
  | succ rounds ih =>
    obtain ⟨more,left,f,hmore,he,hcase⟩ := deepen_eq_some h
    obtain ⟨more',left',f',rfl,he',hcase'⟩ := deepen_eq_some h'
    cases hmore
    have hverdict := same he he' (fun f hf g hg => hs _ (mem_openings_of_passed hf hg))
      fun f hf g hg => hs' _ (mem_openings_of_passed hf hg)
    rcases hcase with hv | ⟨hv,hrest⟩ <;> rcases hcase' with hv' | ⟨hv',hrest'⟩ <;> rw [hv,hv'] at hverdict
    · cases hverdict with
      | some hagrees => exact hagrees
    · cases hverdict
    · cases hverdict
    · exact ih hrest hrest' (fun p hp => hs p (mem_openings_of_later he hv hp))
        fun p hp => hs' p (mem_openings_of_later he' hv' hp)

theorem search_of_inTime (h : Unhindered procs cfg ctx j t) :
    deepen procs ctx (max 1 cfg.maxSolutions) j t (cfg.timeout * stepsPerMillisecond)
      (cfg.timeout * stepsPerMillisecond) 1 = some (search procs cfg ctx j t) := by
  obtain ⟨r,hr⟩ := Option.ne_none_iff_exists'.1 h.inTime
  rw [search,hr]
  rfl

theorem verdict_of_start (hk : Exchange procs ctx bound k k')
    (hg : Goal.SameUpTo procs ctx bound k k' ⟨0,j,t,[],0⟩ ⟨0,j,t',[],0⟩)
    (hu : ordered → k = [] → t.AllOffer procs ctx fun _ r => r.Uniform) (hl : 1 ≤ limit)
    {budget budget' left left' : Nat} {f f' : Frontier ι}
    (he : (Frontier.start j t).explore procs ctx bound limit budget = some (left,f))
    (he' : (Frontier.start j t').explore procs ctx bound limit budget' = some (left',f'))
    (hs : ∀ f ∈ (Frontier.start j t).passed procs ctx bound limit budget, ∀ g, f.goal? = some g →
      g.Shallow procs ctx bound)
    (hs' : ∀ f ∈ (Frontier.start j t').passed procs ctx bound limit budget', ∀ g, f.goal? = some g →
      g.Shallow procs ctx bound) :
    Option.Rel (SearchResult.Agrees ordered) (f.verdict j.goal) (f'.verdict j.goal) := by
  have hstart : (Frontier.start j t).Trails procs ctx bound k k' ordered (Frontier.start j t') :=
    ⟨.cons ⟨rfl,[],.goal hg .nil fun _ => rfl,.refl _,fun _ => rfl⟩ .nil,rfl,rfl,rfl,.nil⟩
  refine (hstart.explore hk he he' hl hs hs' (fun ho hnil => (hu ho hnil).2)
    fun ho hnil d hd g hmem => ?_).verdict j.goal
  cases List.mem_singleton.1 hd
  cases List.mem_singleton.1 hmem
  exact ⟨(hu ho hnil).1,fun _ h => nomatch h⟩

theorem search_agrees (h : Unhindered procs cfg ctx j t) (h' : Unhindered procs cfg ctx j t')
    (hk : ∀ bound, Exchange procs ctx bound k k')
    (hg : ∀ bound, Goal.SameUpTo procs ctx bound k k' ⟨0,j,t,[],0⟩ ⟨0,j,t',[],0⟩)
    (hu : ordered → k = [] → t.AllOffer procs ctx fun _ r => r.Uniform) :
    (search procs cfg ctx j t).Agrees ordered (search procs cfg ctx j t') :=
  deepen_agrees (search_of_inTime h) (search_of_inTime h') h.shallow h'.shallow
    (verdict_of_start (hk _) (hg _) hu (Nat.le_max_left ..))

theorem exchange_refl (bound : Nat) : Exchange procs ctx bound [.idle] [.idle] :=
  .tactics fun _ _ _ => Goal.sameUpTo_refl _

theorem search_eq_of_expansion (h : Unhindered procs cfg ctx j t) (h' : Unhindered procs cfg ctx j t')
    (he : ∀ spent, t.opensWithin procs ctx j spent (Tactic.maxNesting + 1) = true →
      t'.opensWithin procs ctx j spent (Tactic.maxNesting + 1) = true →
      t.expand procs ctx j spent (Tactic.maxNesting + 1) [] =
        t'.expand procs ctx j spent (Tactic.maxNesting + 1) []) :
    search procs cfg ctx j t = search procs cfg ctx j t' := by
  refine SearchResult.Agrees.eq (search_agrees h h' exchange_refl (fun bound => ?_) fun _ hnil => nomatch hnil)
    trivial
  exact ⟨rfl,rfl,rfl,fun hs hs' => .inl (he _ hs hs')⟩

namespace Tactic

variable {spent : Bool} {a b c : Tactic ι}

theorem search_andThen_assoc (h : Unhindered procs cfg ctx j (.andThen (.andThen a b) c))
    (h' : Unhindered procs cfg ctx j (.andThen a (.andThen b c))) :
    search procs cfg ctx j (.andThen (.andThen a b) c) = search procs cfg ctx j (.andThen a (.andThen b c)) := by
  -- The second tactic is opened up in one place less deep, and the third one waits by itself or with it.
  have hk (bound : Nat) : Exchange procs ctx bound [b,c] [.andThen b c] := by
    refine .tactics fun i j d => ⟨rfl,rfl,rfl,fun _ hs => .inl ?_⟩
    have hb : opensWithin procs ctx j (bound ≤ d) 512 b = true := hs
    exact expand_of_opensWithin hb (Nat.le_succ 512) [c]
  refine SearchResult.Agrees.eq (search_agrees h h' hk (fun bound => ⟨rfl,rfl,rfl,fun hs _ => .inr ?_⟩)
    fun _ hnil => nomatch hnil) trivial
  have ha : opensWithin procs ctx j (bound ≤ 0) 511 a = true := hs
  refine ⟨expand procs ctx j (bound ≤ 0) 511 a [],expand_eq_followedBy 511 a [b,c],?_⟩
  rw [← expand_eq_followedBy]
  exact expand_of_opensWithin ha (Nat.le_succ 511) [.andThen b c]

theorem search_andThen_idle (h : Unhindered procs cfg ctx j a)
    (h' : Unhindered procs cfg ctx j (.andThen a .idle)) :
    (search procs cfg ctx j a).Agrees (a.AllOffer procs ctx fun _ r => r.Uniform)
      (search procs cfg ctx j (.andThen a .idle)) := by
  refine search_agrees h h' (fun bound => .idle) (fun bound => ⟨rfl,rfl,rfl,fun _ hs => .inr ?_⟩) fun hu _ => hu
  have ha : opensWithin procs ctx j (bound ≤ 0) 512 a = true := hs
  refine ⟨expand procs ctx j (bound ≤ 0) 512 a [],?_,expand_eq_followedBy 512 a [.idle]⟩
  rw [Expansion.followedBy_nil]
  exact expand_of_opensWithin ha (Nat.le_succ 512) []

theorem search_orElse_fail {e : TacticError} (h : Unhindered procs cfg ctx j (.orElse (.fail e) a))
    (h' : Unhindered procs cfg ctx j a) :
    search procs cfg ctx j (.orElse (.fail e) a) = search procs cfg ctx j a := by
  refine search_eq_of_expansion h h' fun spent hs _ => ?_
  have ha : opensWithin procs ctx j spent 512 a = true := hs
  exact (expand_of_opensWithin ha (Nat.le_succ 512) []).symm

theorem search_choice_singleton (h : Unhindered procs cfg ctx j (.choice [a])) (h' : Unhindered procs cfg ctx j a) :
    search procs cfg ctx j (.choice [a]) = search procs cfg ctx j a := by
  refine search_eq_of_expansion h h' fun spent hs _ => ?_
  have ha : opensWithin procs ctx j spent 512 a = true := (Bool.and_true _).symm.trans hs
  exact (Expansion.all_singleton _).trans (expand_of_opensWithin ha (Nat.le_succ 512) []).symm

theorem search_idle_andThen (h : Unhindered procs cfg ctx j (.andThen .idle a)) (h' : Unhindered procs cfg ctx j a) :
    search procs cfg ctx j (.andThen .idle a) = search procs cfg ctx j a := by
  refine SearchResult.Agrees.eq (deepen_agrees (search_of_inTime h) (search_of_inTime h') h.shallow h'.shallow ?_)
    trivial
  intro bound budget budget' left left' f f' he he' hs hs'
  have hd : (Frontier.start j (.andThen .idle a)).drafts ≠ [] := List.cons_ne_nil _ _
  have hfirst : (Frontier.start j (.andThen .idle a)).advance procs ctx bound = Frontier.start j a := rfl
  cases budget with
  | zero =>
    rw [Frontier.explore_zero hd] at he
    cases he
  | succ budget =>
    rw [Frontier.explore_of_advance hd (Nat.le_max_left ..) hfirst rfl] at he
    refine verdict_of_start (exchange_refl bound) (Goal.sameUpTo_refl _) (fun _ hnil => nomatch hnil)
      (Nat.le_max_left ..) he he' (fun f hf => hs f ?_) hs'
    have hroom : ¬ max 1 cfg.maxSolutions ≤ (Frontier.start j a).found.length :=
      Nat.not_le.2 (Nat.le_max_left ..)
    rw [Frontier.passed_succ hd,hfirst]
    dsimp only
    rw [if_neg hroom]
    exact List.mem_cons_of_mem _ hf

end Tactic

/-- A search that is not hindered returns the same for both ways to group a sequence of three tactics, with and
without a tactic in front that does nothing or fails instead of it, and for a tactic and the choice of just this
one. It returns the same derivations with and without a tactic behind that does nothing, and their open goals are
the same up to order, and in the same order where no rule mixes subgoals with and without tactics of their own. -/
theorem search_laws (procs : ι → Tactic ι) (cfg : Config) (ctx : Context) (j : Judgement) :
    (∀ a b c, Unhindered procs cfg ctx j (.andThen (.andThen a b) c) →
      Unhindered procs cfg ctx j (.andThen a (.andThen b c)) →
      search procs cfg ctx j (.andThen (.andThen a b) c) =
        search procs cfg ctx j (.andThen a (.andThen b c))) ∧
    ∀ a, Unhindered procs cfg ctx j a →
      (Unhindered procs cfg ctx j (.andThen .idle a) →
        search procs cfg ctx j (.andThen .idle a) = search procs cfg ctx j a) ∧
      (∀ e, Unhindered procs cfg ctx j (.orElse (.fail e) a) →
        search procs cfg ctx j (.orElse (.fail e) a) = search procs cfg ctx j a) ∧
      (Unhindered procs cfg ctx j (.choice [a]) →
        search procs cfg ctx j (.choice [a]) = search procs cfg ctx j a) ∧
      (Unhindered procs cfg ctx j (.andThen a .idle) →
        (search procs cfg ctx j a).Agrees False (search procs cfg ctx j (.andThen a .idle)) ∧
        (a.AllOffer procs ctx (fun _ r => r.Uniform) →
          search procs cfg ctx j (.andThen a .idle) = search procs cfg ctx j a)) :=
  ⟨fun _ _ _ h h' => Tactic.search_andThen_assoc h h',fun _ h => ⟨fun h' => Tactic.search_idle_andThen h' h,
    fun _ h' => Tactic.search_orElse_fail h' h,fun h' => Tactic.search_choice_singleton h' h,
    fun h' => ⟨(Tactic.search_andThen_idle h h').unordered,
      fun hu => ((Tactic.search_andThen_idle h h').eq hu).symm⟩⟩⟩

def Tactic.mixed : Tactic Empty :=
  .rule "mixed" fun _ j => .ok [.application "pair" [⟨j,some .pair⟩,⟨{ j with goal := .const "B" },none⟩]]

/-- Open goals change places where a rule mixes its subgoals. -/
theorem search_laws_pair :
    search Empty.elim { timeout := 1 } ⟨[],.empty,{}⟩ .bare (.andThen (.andThen .pair .pair) .leaf) =
      search Empty.elim { timeout := 1 } ⟨[],.empty,{}⟩ .bare (.andThen .pair (.andThen .pair .leaf)) ∧
    search Empty.elim { timeout := 1 } ⟨[],.empty,{}⟩ .bare (.andThen .idle .pair) =
      search Empty.elim { timeout := 1 } ⟨[],.empty,{}⟩ .bare .pair ∧
    search Empty.elim { timeout := 1 } ⟨[],.empty,{}⟩ .bare (.orElse (.fail .noProgress) .pair) =
      search Empty.elim { timeout := 1 } ⟨[],.empty,{}⟩ .bare .pair ∧
    search Empty.elim { timeout := 1 } ⟨[],.empty,{}⟩ .bare (.choice [.pair]) =
      search Empty.elim { timeout := 1 } ⟨[],.empty,{}⟩ .bare .pair ∧
    search Empty.elim { timeout := 1 } ⟨[],.empty,{}⟩ .bare (.andThen .pair .idle) =
      search Empty.elim { timeout := 1 } ⟨[],.empty,{}⟩ .bare .pair ∧
    ∃ ds ds', search Empty.elim { timeout := 1 } ⟨[],.empty,{}⟩ .bare .mixed = .ok ds ∧
      search Empty.elim { timeout := 1 } ⟨[],.empty,{}⟩ .bare (.andThen .mixed .idle) = .ok ds' ∧
      List.Forall₂ (Derivation.Agrees False) ds ds' ∧
      ds.map (·.unsolved.map (·.goal.text)) = [["B","A","A"]] ∧
      ds'.map (·.unsolved.map (·.goal.text)) = [["A","A","B"]] := by
  obtain ⟨hassoc,hsingle⟩ := search_laws Empty.elim { timeout := 1 } ⟨[],.empty,{}⟩ .bare
  obtain ⟨hidle,hfail,hchoice,hbehind⟩ := hsingle .pair ⟨by decide,by decide⟩
  obtain ⟨-,-,-,hmixed⟩ := hsingle .mixed ⟨by decide,by decide⟩
  have huniform : Tactic.pair.AllOffer Empty.elim ⟨[],.empty,{}⟩ fun _ r => r.Uniform :=
    ⟨Tactic.pair_built fun j => .inr (by simp [Refinement.application]),fun l => l.elim⟩
  obtain ⟨ds,hds,hgoals⟩ : ∃ ds, search Empty.elim { timeout := 1 } ⟨[],.empty,{}⟩ .bare .mixed = .ok ds ∧
      ds.map (·.unsolved.map (·.goal.text)) = [["B","A","A"]] := ⟨_,rfl,rfl⟩
  obtain ⟨ds',hds',hgoals'⟩ : ∃ ds', search Empty.elim { timeout := 1 } ⟨[],.empty,{}⟩ .bare
        (.andThen .mixed .idle) = .ok ds' ∧
      ds'.map (·.unsolved.map (·.goal.text)) = [["A","A","B"]] := ⟨_,rfl,rfl⟩
  refine ⟨hassoc _ _ _ ⟨by decide,by decide⟩ ⟨by decide,by decide⟩,hidle ⟨by decide,by decide⟩,
    hfail _ ⟨by decide,by decide⟩,hchoice ⟨by decide,by decide⟩,(hbehind ⟨by decide,by decide⟩).2 huniform,
    ds,ds',hds,hds',?_,hgoals,hgoals'⟩
  have hagrees := (hmixed ⟨by decide,by decide⟩).1
  rw [hds,hds'] at hagrees
  cases hagrees with
  | ok same => exact same

end TypedHole
