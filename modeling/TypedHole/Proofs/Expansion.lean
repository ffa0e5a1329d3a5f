import TypedHole.Proofs.Numbering

/-! What tactics offer.
`Tactic.Built` describes the tactics that are put together from certain rules. Main statement: every
alternative that such a tactic offers is the goal itself or a refinement by one of the rules, and leaves
only such tactics to run (`offered_of_expand`); hence only such tactics are ever on an agenda
(`Frontier.Step.built`). -/
namespace TypedHole

variable {ι : Type}

namespace Expansion

theorem eq_of_all {es : List (Expansion ι)} {as : List (Alternative ι)} (h : (all es).outcome = .ok as) :
    as = (es.filterMap fun e => e.outcome.toOption).flatten := by
  simp only [all] at h
  split at h <;> cases h
  rfl

theorem mem_all {es : List (Expansion ι)} {as : List (Alternative ι)} {a : Alternative ι}
    (h : (all es).outcome = .ok as) (ha : a ∈ as) :
    ∃ e ∈ es, ∃ bs, e.outcome = .ok bs ∧ a ∈ bs := by
  rw [eq_of_all h] at ha
  obtain ⟨bs,hbs,ha⟩ := List.mem_flatten.1 ha
  obtain ⟨e,he,hb⟩ := List.mem_filterMap.1 hbs
  refine ⟨e,he,bs,?_,ha⟩
  cases ho : e.outcome with
  | error err => simp [ho,Except.toOption] at hb
  | ok cs => simpa [ho,Except.toOption] using hb

theorem error_of_all {es : List (Expansion ι)} {err : TacticError} (h : (all es).outcome = .error err) :
    ∀ e ∈ es, ∃ err', e.outcome = .error err' := by
  intro e he
  cases ho : e.outcome with
  | error err' => exact ⟨err',rfl⟩
  | ok bs =>
    have hm : bs ∈ es.filterMap fun e => e.outcome.toOption :=
      List.mem_filterMap.2 ⟨e,he,by simp [ho,Except.toOption]⟩
    simp only [all] at h
    split at h
    next hn _ => simp [hn] at hm
    next => cases h

theorem mem_all_of_mem {es : List (Expansion ι)} {e : Expansion ι} {bs : List (Alternative ι)}
    {a : Alternative ι} (he : e ∈ es) (hb : e.outcome = .ok bs) (ha : a ∈ bs) :
    ∃ as, (all es).outcome = .ok as ∧ a ∈ as := by
  cases ho : (all es).outcome with
  | error err =>
    obtain ⟨err',he'⟩ := error_of_all ho e he
    rw [hb] at he'
    cases he'
  | ok as =>
    refine ⟨as,rfl,?_⟩
    rw [eq_of_all ho]
    exact List.mem_flatten.2 ⟨bs,List.mem_filterMap.2 ⟨e,he,by simp [hb,Except.toOption]⟩,ha⟩

theorem orElse_cases (first : Expansion ι) (second : Unit → Expansion ι) :
    (first.orElse second = first ∧ ∃ as, first.outcome = .ok as ∧ (as = [] → first.cut = true)) ∨
    (first.orElse second = { second () with cut := first.cut || (second ()).cut } ∧
      ∀ as, first.outcome = .ok as → as = [] ∧ first.cut = false) := by
  obtain ⟨outcome,cut⟩ := first
  match outcome, cut with
  | .error err, _ => exact .inr ⟨rfl,fun as h => by cases h⟩
  | .ok (a :: as), _ => exact .inl ⟨rfl,a :: as,rfl,fun h => by cases h⟩
  | .ok [], true => exact .inl ⟨rfl,[],rfl,fun _ => rfl⟩
  | .ok [], false => exact .inr ⟨rfl,fun as h => by cases h; exact ⟨rfl,rfl⟩⟩

end Expansion

namespace Tactic

/-- Tactics put together from certain rules by the combinators, also where a rule hands a tactic to one
of its subgoals. Labels are allowed everywhere: what they stand for is asked of their bodies. -/
inductive Built (ctx : Context) (R : Tactic ι → Prop) : Tactic ι → Prop
  | rule {name : String} {refine : Context → Judgement → Except TacticError (List (Refinement (Tactic ι)))}
      (given : R (.rule name refine))
      (own : ∀ j rs r s t, refine ctx j = .ok rs → r ∈ rs → s ∈ r.subgoals → s.tactic = some t →
        Built ctx R t) : Built ctx R (.rule name refine)
  | andThen {a b : Tactic ι} : Built ctx R a → Built ctx R b → Built ctx R (.andThen a b)
  | orElse {a b : Tactic ι} : Built ctx R a → Built ctx R b → Built ctx R (.orElse a b)
  | choice {ts : List (Tactic ι)} : (∀ t ∈ ts, Built ctx R t) → Built ctx R (.choice ts)
  | idle : Built ctx R .idle
  | fail {e : TacticError} : Built ctx R (.fail e)
  | call {l : ι} : Built ctx R (.call l)
  | withGoal {f : Judgement → Tactic ι} : (∀ j, Built ctx R (f j)) → Built ctx R (.withGoal f)

/-- The rules whose refinements all satisfy a condition at the judgement that they refine. -/
def Offers (ctx : Context) (P : Judgement → Refinement (Tactic ι) → Prop) : Tactic ι → Prop
  | .rule _ refine => ∀ j rs, refine ctx j = .ok rs → ∀ r ∈ rs, P j r
  | _ => False

/-- Every refinement that a tactic, or a label that it may call, can come to offer satisfies a condition. -/
def AllOffer (procs : ι → Tactic ι) (ctx : Context) (P : Judgement → Refinement (Tactic ι) → Prop)
    (t : Tactic ι) : Prop := t.Built ctx (Offers ctx P) ∧ ∀ l, (procs l).Built ctx (Offers ctx P)

theorem Built.mono {ctx : Context} {R S : Tactic ι → Prop} (h : ∀ t, R t → S t) {t : Tactic ι}
    (ht : Built ctx R t) : Built ctx S t := by
  induction ht with
  | rule given _ ih => exact .rule (h _ given) ih
  | andThen _ _ iha ihb => exact .andThen iha ihb
  | orElse _ _ iha ihb => exact .orElse iha ihb
  | choice _ ih => exact .choice ih
  | idle => exact .idle
  | fail => exact .fail
  | call => exact .call
  | withGoal _ ih => exact .withGoal ih

theorem Built.and {ctx : Context} {R S : Tactic ι → Prop} {t : Tactic ι} (ht : Built ctx R t)
    (hs : Built ctx S t) : Built ctx (fun t => R t ∧ S t) t := by
  induction ht with
  | rule given _ ih =>
    cases hs with
    | rule given' own' =>
      exact .rule ⟨given,given'⟩ fun j rs r s t hf hr hm ht =>
        ih j rs r s t hf hr hm ht (own' j rs r s t hf hr hm ht)
  | andThen _ _ iha ihb => cases hs with | andThen ha hb => exact .andThen (iha ha) (ihb hb)
  | orElse _ _ iha ihb => cases hs with | orElse ha hb => exact .orElse (iha ha) (ihb hb)
  | choice _ ih => cases hs with | choice h => exact .choice fun t ht => ih t ht (h t ht)
  | idle => exact .idle
  | fail => exact .fail
  | call => exact .call
  | withGoal _ ih => cases hs with | withGoal h => exact .withGoal fun j => ih j (h j)

theorem Offers.mono {ctx : Context} {P Q : Judgement → Refinement (Tactic ι) → Prop}
    (h : ∀ j r, P j r → Q j r) {t : Tactic ι} (ht : t.Offers ctx P) : t.Offers ctx Q := by
  cases t with
  | rule name refine => exact fun j rs hf r hr => h j r (ht j rs hf r hr)
  | _ => exact ht.elim

theorem Offers.and {ctx : Context} {P Q : Judgement → Refinement (Tactic ι) → Prop} {t : Tactic ι}
    (hp : t.Offers ctx P) (hq : t.Offers ctx Q) : t.Offers ctx fun j r => P j r ∧ Q j r := by
  cases t with
  | rule name refine => exact fun j rs hf r hr => ⟨hp j rs hf r hr,hq j rs hf r hr⟩
  | _ => exact hp.elim

theorem AllOffer.mono {procs : ι → Tactic ι} {ctx : Context}
    {P Q : Judgement → Refinement (Tactic ι) → Prop} (h : ∀ j r, P j r → Q j r) {t : Tactic ι}
    (ht : t.AllOffer procs ctx P) : t.AllOffer procs ctx Q :=
  ⟨ht.1.mono fun _ => Offers.mono h,fun l => (ht.2 l).mono fun _ => Offers.mono h⟩

theorem AllOffer.and {procs : ι → Tactic ι} {ctx : Context}
    {P Q : Judgement → Refinement (Tactic ι) → Prop} {t : Tactic ι} (hp : t.AllOffer procs ctx P)
    (hq : t.AllOffer procs ctx Q) : t.AllOffer procs ctx fun j r => P j r ∧ Q j r :=
  ⟨(hp.1.and hq.1).mono fun _ h => h.1.and h.2,
    fun l => ((hp.2 l).and (hq.2 l)).mono fun _ h => h.1.and h.2⟩

structure Offered (ctx : Context) (R : Tactic ι → Prop) (j : Judgement) (a : Alternative ι) : Prop where
  rest : ∀ t ∈ a.rest, Built ctx R t
  refinement : ∀ r, a.refinement = some r → ∃ name refine rs,
    R (.rule name refine) ∧ refine ctx j = .ok rs ∧ r ∈ rs ∧
      ∀ s ∈ r.subgoals, ∀ t, s.tactic = some t → Built ctx R t

theorem offered_of_expand {procs : ι → Tactic ι} {ctx : Context} {R : Tactic ι → Prop}
    (hp : ∀ l, Built ctx R (procs l)) {j : Judgement} {spent : Bool} {fuel : Nat} {t : Tactic ι}
    {rest : List (Tactic ι)} (ht : Built ctx R t) (hr : ∀ t ∈ rest, Built ctx R t)
    {as : List (Alternative ι)} (h : (expand procs ctx j spent fuel t rest).outcome = .ok as) :
    ∀ a ∈ as, Offered ctx R j a := by
  induction fuel generalizing t rest as with
  | zero => simp [expand] at h
  | succ fuel ih =>
    cases ht with
    | @rule name refine given own =>
      simp only [expand] at h
      split at h
      · cases h
        simp
      · cases hf : refine ctx j with
        | error err => simp [hf,Except.map] at h
        | ok rs =>
          simp only [hf,Except.map,Except.ok.injEq] at h
          subst h
          intro a ha
          obtain ⟨r,hm,rfl⟩ := List.mem_map.1 ha
          refine ⟨hr,fun r' hr' => ?_⟩
          cases hr'
          exact ⟨name,refine,rs,given,hf,hm,fun s hs t hs' => own j rs r s t hf hm hs hs'⟩
    | andThen ha hb => exact ih ha (by simpa using ⟨hb,hr⟩) h
    | @orElse a b ha hb =>
      rcases Expansion.orElse_cases (expand procs ctx j spent fuel a rest)
        (fun _ => expand procs ctx j spent fuel b rest) with ⟨he,-⟩ | ⟨he,-⟩
      · exact ih ha hr (by rwa [expand,he] at h)
      · exact ih hb hr (by rwa [expand,he] at h)
    | choice hts =>
      intro a ha
      obtain ⟨e,he,bs,hbs,ha⟩ := Expansion.mem_all h ha
      obtain ⟨t,ht,rfl⟩ := List.mem_map.1 he
      exact ih (hts t ht) hr hbs a ha
    | idle =>
      cases h
      intro a ha
      cases List.mem_singleton.1 ha
      exact ⟨hr,fun r hr' => by cases hr'⟩
    | fail => cases h
    | call => exact ih (hp _) hr h
    | withGoal hf => exact ih (hf j) hr h

/-- An alternative is among those that a tactic offers. -/
def Yields (procs : ι → Tactic ι) (ctx : Context) (j : Judgement) (t : Tactic ι) (rest : List (Tactic ι))
    (a : Alternative ι) : Prop :=
  ∃ spent fuel as, (expand procs ctx j spent fuel t rest).outcome = .ok as ∧ a ∈ as

namespace Yields

variable {procs : ι → Tactic ι} {ctx : Context} {j : Judgement} {rest : List (Tactic ι)} {a : Alternative ι}

theorem of_rule {name : String}
    {refine : Context → Judgement → Except TacticError (List (Refinement (Tactic ι)))}
    (h : Yields procs ctx j (.rule name refine) rest a) :
    ∃ rs, refine ctx j = .ok rs ∧ ∃ r ∈ rs, a = ⟨some r,rest⟩ := by
  obtain ⟨spent,fuel,as,ho,ha⟩ := h
  cases fuel with
  | zero => cases ho
  | succ fuel =>
    rw [expand] at ho
    split at ho
    next =>
      cases ho
      cases ha
    next =>
      cases hf : refine ctx j with
      | error err => simp [hf,Except.map] at ho
      | ok rs =>
        simp only [hf,Except.map,Except.ok.injEq] at ho
        subst ho
        obtain ⟨r,hr,rfl⟩ := List.mem_map.1 ha
        exact ⟨rs,rfl,r,hr,rfl⟩

theorem of_andThen {b c : Tactic ι} (h : Yields procs ctx j (.andThen b c) rest a) :
    Yields procs ctx j b (c :: rest) a := by
  obtain ⟨spent,fuel,as,ho,ha⟩ := h
  cases fuel with
  | zero => cases ho
  | succ fuel => exact ⟨spent,fuel,as,ho,ha⟩

theorem of_orElse {b c : Tactic ι} (h : Yields procs ctx j (.orElse b c) rest a) :
    Yields procs ctx j b rest a ∨ Yields procs ctx j c rest a := by
  obtain ⟨spent,fuel,as,ho,ha⟩ := h
  cases fuel with
  | zero => cases ho
  | succ fuel =>
    rw [expand] at ho
    rcases Expansion.orElse_cases (expand procs ctx j spent fuel b rest)
      (fun _ => expand procs ctx j spent fuel c rest) with ⟨he,-⟩ | ⟨he,-⟩
    · exact .inl ⟨spent,fuel,as,by rwa [he] at ho,ha⟩
    · exact .inr ⟨spent,fuel,as,by rwa [he] at ho,ha⟩

theorem of_idle (h : Yields procs ctx j .idle rest a) : a = ⟨none,rest⟩ := by
  obtain ⟨spent,fuel,as,ho,ha⟩ := h
  cases fuel with
  | zero => cases ho
  | succ fuel =>
    cases ho
    exact List.mem_singleton.1 ha

theorem of_choice {ts : List (Tactic ι)} (h : Yields procs ctx j (.choice ts) rest a) :
    ∃ t ∈ ts, Yields procs ctx j t rest a := by
  obtain ⟨spent,fuel,as,ho,ha⟩ := h
  cases fuel with
  | zero => cases ho
  | succ fuel =>
    obtain ⟨e,he,bs,hbs,hab⟩ := Expansion.mem_all ho ha
    obtain ⟨t,ht,rfl⟩ := List.mem_map.1 he
    exact ⟨t,ht,spent,fuel,bs,hbs,hab⟩

theorem of_call {l : ι} (h : Yields procs ctx j (.call l) rest a) : Yields procs ctx j (procs l) rest a := by
  obtain ⟨spent,fuel,as,ho,ha⟩ := h
  cases fuel with
  | zero => cases ho
  | succ fuel => exact ⟨spent,fuel,as,ho,ha⟩

theorem of_withGoal {f : Judgement → Tactic ι} (h : Yields procs ctx j (.withGoal f) rest a) :
    Yields procs ctx j (f j) rest a := by
  obtain ⟨spent,fuel,as,ho,ha⟩ := h
  cases fuel with
  | zero => cases ho
  | succ fuel => exact ⟨spent,fuel,as,ho,ha⟩

end Yields
end Tactic

def Goal.Built (ctx : Context) (R : Tactic ι → Prop) (g : Goal ι) : Prop :=
  g.tactic.Built ctx R ∧ ∀ t ∈ g.rest, t.Built ctx R

theorem Goal.built_of_schedule {ctx : Context} {R : Tactic ι → Prop} {i depth : Nat}
    {s : Subgoal (Tactic ι)} {rest : List (Tactic ι)} {g : Goal ι}
    (h : Draft.schedule i s rest depth = .inl g) (hrest : ∀ t ∈ rest, t.Built ctx R)
    (hown : ∀ t, s.tactic = some t → t.Built ctx R) : g.Built ctx R := by
  obtain ⟨-,-,-,⟨ht,hr⟩ | ⟨-,hr⟩⟩ := Draft.schedule_inl h
  · rw [Goal.Built,hr]
    exact ⟨hown _ ht,hrest⟩
  · rw [hr] at hrest
    exact List.forall_mem_cons.1 hrest

theorem Tactic.Offered.subgoal {ctx : Context} {R : Tactic ι → Prop} {j : Judgement} {a : Alternative ι}
    (h : Offered ctx R j a) {s : Subgoal (Tactic ι)} (hs : s ∈ a.subgoals j) :
    ∀ t, s.tactic = some t → t.Built ctx R := by
  intro t ht
  cases hr : a.refinement with
  | none =>
    simp only [Alternative.subgoals,hr,List.mem_singleton] at hs
    rw [hs] at ht
    cases ht
  | some r =>
    simp only [Alternative.subgoals,hr] at hs
    obtain ⟨_,_,_,_,_,_,hown⟩ := h.refinement r hr
    exact hown s hs t ht

theorem Draft.built_of_choose {ctx : Context} {R : Tactic ι → Prop} {d : Draft ι} {g : Goal ι}
    {a : Alternative ι} {n : Nat} (ha : Tactic.Offered ctx R g.judgement a) {g' : Goal ι}
    (hg : g' ∈ (d.choose g a n).agenda) : g'.Built ctx R ∨ g' ∈ d.agenda := by
  rw [choose_agenda] at hg
  rcases List.mem_append.1 hg with hg | hg
  · obtain ⟨x,hx,hg⟩ := List.mem_filterMap.1 hg
    obtain ⟨p,hp,rfl⟩ := List.mem_map.1 hx
    have hsub : p.2 ∈ a.subgoals g.judgement := by
      rw [← Alternative.parts_subgoals a g n]
      exact List.mem_map_of_mem hp
    exact .inl (Goal.built_of_schedule (Sum.getLeft?_eq_some_iff.1 hg) ha.rest (ha.subgoal hsub))
  · exact .inr hg

/-- A step puts only goals on the agenda on which tactics built from the given rules are to run. -/
theorem Frontier.Step.built {procs : ι → Tactic ι} {ctx : Context} {bound : Nat} {R : Tactic ι → Prop}
    (hp : ∀ l, (procs l).Built ctx R) {f f' : Frontier ι} (hs : Step procs ctx bound f f')
    (h : ∀ d ∈ f.drafts, ∀ g ∈ d.agenda, g.Built ctx R) :
    ∀ d ∈ f'.drafts, ∀ g ∈ d.agenda, g.Built ctx R := by
  intro d hd
  rcases hs.mem_drafts hd with hd | ⟨mem,agenda,outcome,alternative,_,_,_⟩
  · exact h d hd
  · have hgs := h _ mem
    rw [agenda] at hgs
    obtain ⟨⟨ht,hr⟩,hrest⟩ := List.forall_mem_cons.1 hgs
    intro g hg
    exact (Draft.built_of_choose (Tactic.offered_of_expand hp ht hr outcome _ alternative) hg).elim id
      (hrest g)

end TypedHole
