import TypedHole.Proofs.JudgementGrowth

/-! What a search can reach.
Moves of the library lead from a judgement to others, and write names on the way. Main statement: a search
meets no judgements but those, and its terms have no variables but those names (`Tactic.reached`). -/
namespace TypedHole

variable {ι : Type}

namespace Term

mutual

def vars : Term → List Name
  | var x => [x]
  | hole _ => []
  | app f a => f.vars ++ a.vars
  | lam _ b => b.vars
  | case s as => s.vars ++ varsOfAlts as
  | lamCase as => varsOfAlts as

def varsOfAlts : List (Alt Term) → List Name
  | [] => []
  | ⟨_,_,b⟩ :: as => b.vars ++ varsOfAlts as

end

theorem mem_vars_bind {fill : Nat → Term} {x : Name} (t : Term) :
    x ∈ (t.bind fill).vars → x ∈ t.vars ∨ ∃ i, x ∈ (fill i).vars := by
  refine induct (P := fun t => x ∈ (t.bind fill).vars → x ∈ t.vars ∨ ∃ i, x ∈ (fill i).vars)
    (Q := fun as => x ∈ varsOfAlts (bindAlts fill as) → x ∈ varsOfAlts as ∨ ∃ i, x ∈ (fill i).vars)
    ?var ?app ?lam ?case ?lamCase ?hole ?nil ?cons t
  case var => exact fun _ h => .inl h
  case hole => exact fun i h => .inr ⟨i,h⟩
  case lam => exact fun _ _ hb h => hb h
  case lamCase => exact fun _ has h => has h
  case nil => exact fun h => .inl h
  all_goals
    simp only [bind,bindAlts,vars,varsOfAlts,List.mem_append]
    grind

@[simp] theorem vars_shift (n : Nat) (t : Term) : (t.shift n).vars = t.vars := by
  refine induct (P := fun t => (t.shift n).vars = t.vars)
    (Q := fun as => varsOfAlts (bindAlts (fun i => hole (n + i)) as) = varsOfAlts as)
    ?_ ?_ ?_ ?_ ?_ ?_ ?_ ?_ t <;> intros <;> simp_all [shift,bind,bindAlts,vars,varsOfAlts]

theorem mem_vars_follow {s : Solution} {x : Name} {n : Nat} {t : Term} (h : x ∈ (follow s n t).vars) :
    x ∈ t.vars ∨ ∃ p ∈ s, x ∈ p.2.vars := by
  induction n generalizing t with
  | zero => exact .inl h
  | succ n ih =>
    refine (mem_vars_bind t h).imp_right fun ⟨i,hi⟩ => ?_
    split at hi
    next u hu =>
      rcases ih hi with hx | hs
      · obtain ⟨s₁,s₂,rfl,-⟩ := List.lookup_eq_some_iff.1 hu
        exact ⟨(i,u),by simp,hx⟩
      · exact hs
    next => cases hi

@[simp] theorem vars_apply (f : Term) (as : List Term) : (f.apply as).vars = f.vars ++ as.flatMap vars := by
  induction as generalizing f with
  | nil => simp
  | cons a as ih => simp [ih,vars,List.append_assoc]

end Term

namespace Tactic

variable {ctx : Context} {j : Judgement}

/-- The judgements that moves of the library lead to, one after the other. -/
inductive Reachable (ι : Type) (ctx : Context) (j : Judgement) : Judgement → Prop
  | start : Reachable ι ctx j j
  | move {k : Judgement} {r : Refinement (Tactic ι)} {s : Subgoal (Tactic ι)} (reached : Reachable ι ctx j k)
      (move : Move ctx k r) (mem : s ∈ r.subgoals) : Reachable ι ctx j s.judgement

def Writes (ι : Type) (ctx : Context) (j : Judgement) (x : Name) : Prop :=
  ∃ k, ∃ r : Refinement (Tactic ι), Reachable ι ctx j k ∧ Move ctx k r ∧ x ∈ r.extract.vars

end Tactic

open TypedHole.Tactic

/-- A draft with no judgements and no variables but those that can be reached. -/
structure Draft.Reached (ctx : Context) (j : Judgement) (d : Draft ι) : Prop where
  judgements : ∀ k ∈ d.judgements, Reachable ι ctx j k
  fills : ∀ p ∈ d.fills, ∀ x ∈ p.2.vars, Writes ι ctx j x

structure Derivation.Reached (ι : Type) (ctx : Context) (j : Judgement) (d : Derivation) : Prop where
  unsolved : ∀ k ∈ d.unsolved, Reachable ι ctx j k
  term : ∀ x ∈ d.term.vars, Writes ι ctx j x

section

variable {ctx : Context} {j : Judgement} {d : Draft ι} {g : Goal ι} {gs : List (Goal ι)} {a : Alternative ι}
  {n : Nat}

theorem Draft.Reached.choose (h : d.Reached ctx j) (hd : d.agenda = g :: gs)
    (ha : ∀ r, a.refinement = some r → Move ctx g.judgement r) :
    (({ d with agenda := gs } : Draft ι).choose g a n).Reached ctx j := by
  have hfirst : d.judgements = g.judgement :: ({ d with agenda := gs } : Draft ι).judgements := by
    simp [Draft.judgements,hd]
  obtain ⟨hg,hrest⟩ := List.forall_mem_cons.1 (hfirst ▸ h.judgements)
  have hperm := Draft.judgements_choose { d with agenda := gs } g a n
  cases hr : a.refinement with
  | none =>
    refine ⟨fun k hk => ?_,fun p hp => ?_⟩
    · have hk := hperm.mem_iff.1 hk
      rw [Alternative.subgoals,hr] at hk
      exact h.judgements k (hfirst ▸ hk)
    · rw [Draft.choose_fills_none hr] at hp
      exact h.fills p hp
  | some r =>
    have hmove := ha r hr
    refine ⟨fun k hk => ?_,fun p hp => ?_⟩
    · rcases List.mem_append.1 (hperm.mem_iff.1 hk) with hk | hk
      · rw [Alternative.subgoals,hr] at hk
        obtain ⟨s,hs,rfl⟩ := List.mem_map.1 hk
        exact .move hg hmove hs
      · exact hrest k hk
    · rw [Draft.choose_fills_some hr] at hp
      rcases List.mem_cons.1 hp with rfl | hp
      · intro x hx
        rw [Term.vars_shift] at hx
        exact ⟨g.judgement,r,hg,hmove,hx⟩
      · exact h.fills p hp

theorem Draft.Reached.finish (h : d.Reached ctx j) : (d.finish 0).Reached ι ctx j := by
  refine ⟨fun k hk => h.judgements k (List.mem_append.2 (.inr hk)),fun x hx => ?_⟩
  rcases Term.mem_vars_follow hx with hx | ⟨p,hp,hx⟩
  · cases hx
  · exact h.fills p hp x hx

structure Frontier.Reached (ctx : Context) (j : Judgement) (f : Frontier ι) : Prop where
  built : ∀ d ∈ f.drafts, ∀ g ∈ d.agenda, g.Built ctx LibraryRule
  drafts : ∀ d ∈ f.drafts, d.Reached ctx j
  found : ∀ d ∈ f.found, d.Reached ι ctx j

theorem Frontier.Reached.step {procs : ι → Tactic ι} {bound : Nat} (hp : ∀ l, (procs l).Built ctx LibraryRule)
    {f f' : Frontier ι} (h : f.Reached ctx j) (hs : Step procs ctx bound f f') : f'.Reached ctx j := by
  refine ⟨hs.built hp h.built,fun d hd => ?drafts,fun y hy => ?found⟩
  case drafts =>
    rcases hs.mem_drafts hd with hd | @⟨d,g,gs,as,a,n,mem,agenda,outcome,alternative,_,_,_⟩
    · exact h.drafts d hd
    · have hg := h.built d mem g (by simp [agenda])
      have hoffered := offered_of_expand hp hg.1 hg.2 outcome a alternative
      exact (h.drafts d mem).choose agenda fun r hr => hoffered.move hr
  case found =>
    rcases hs.mem_found hy with hy | ⟨d,hd,-,rfl⟩
    · exact h.found y hy
    · exact (h.drafts d hd).finish

theorem Frontier.reached_start {t : Tactic ι} (ht : t.Built ctx LibraryRule) : (start j t).Reached ctx j := by
  refine ⟨fun d hd g hg => ?_,fun d hd => ?_,nofun⟩
  · cases List.mem_singleton.1 hd
    cases List.mem_singleton.1 hg
    exact ⟨ht,by simp⟩
  · cases List.mem_singleton.1 hd
    refine ⟨fun k hk => ?_,nofun⟩
    cases List.mem_singleton.1 hk
    exact .start

end

/-- A run of a tactic from the library meets only judgements that moves lead to, and writes only names that
moves write. -/
theorem Tactic.reached {κ : Type} {ctx : Context} {own : κ → Tactic (Label κ)}
    (hown : ∀ l, (own l).Built ctx LibraryRule) {t : Tactic (Label κ)} (ht : t.Built ctx LibraryRule)
    (j : Judgement) :
    (∀ bound limit budget f,
      (f ∈ (Frontier.start j t).passed (bodies own) ctx bound limit budget ∨
        ∃ left, (Frontier.start j t).explore (bodies own) ctx bound limit budget = some (left,f)) →
      f.Reached ctx j) ∧
    ∀ cfg ds, search (bodies own) cfg ctx j t = .ok ds → ∀ d ∈ ds, d.Reached (Label κ) ctx j := by
  have hreached (bound limit budget : Nat) (f : Frontier (Label κ))
      (hf : f ∈ (Frontier.start j t).passed (bodies own) ctx bound limit budget ∨
        ∃ left, (Frontier.start j t).explore (bodies own) ctx bound limit budget = some (left,f)) :
      f.Reached ctx j :=
    Frontier.forall_reached (fun _ _ h hs => h.step (bodies_built hown) hs) (Frontier.reached_start ht) hf
  refine ⟨hreached,fun cfg ds h d hd => ?_⟩
  obtain ⟨bound,budget,left,f,he,rfl⟩ := found_of_search h
  exact (hreached _ _ _ _ (.inr ⟨left,he⟩)).found d hd

end TypedHole
