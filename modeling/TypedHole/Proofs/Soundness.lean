import TypedHole.Proofs.OpenGoals
import TypedHole.Proofs.RuleTyping

/-! Soundness of the search.
The terms of all drafts have the type of the goal that the search started from, when each hole stands for
the judgement under which the log has it. Sound refinements keep that up (`Frontier.Step.typed`). Main
statement: whatever a tactic made from the library finds is well typed (`search_sound`). -/
namespace TypedHole

variable {ι : Type}

structure Frontier.Typed (types : TypeTable) (log : HoleLog) (j : Judgement) (f : Frontier ι) : Prop where
  drafts : ∀ d ∈ f.drafts, HasType types (log.lookup ·) j.hypothesis.types d.term j.goal
  found : ∀ d ∈ f.found, HasType types (log.lookup ·) j.hypothesis.types d.term j.goal

theorem HoleLog.lookup_append {log new : HoleLog} {i : Nat} {j : Judgement} (h : log.lookup i = some j) :
    (log ++ new).lookup i = some j := by
  rw [List.lookup_append,h]
  rfl

theorem Draft.typed_choose {types : TypeTable} {log log' : HoleLog} {next m n : Nat} {Γ : Scope} {t : Ty}
    {d : Draft ι} {g : Goal ι} {gs : List (Goal ι)} {a : Alternative ι}
    (h : HasType types (log.lookup ·) Γ d.term t) (hn : d.Numbered m) (hd : d.agenda = g :: gs)
    (hm : m ≤ n) (ha : ∀ r, a.refinement = some r → r.Sound types g.judgement)
    (hg : log.lookup g.hole = some g.judgement)
    (hold : ∀ i j, log.lookup i = some j → log'.lookup i = some j) (hl : log'.Below next)
    (hnew : ∀ p ∈ a.created n, p ∈ log') :
    HasType types (log'.lookup ·) Γ ({ d with agenda := gs }.choose g a n).term t := by
  cases hr : a.refinement with
  | none =>
    rw [Numbered.term_choose_none hr]
    exact h.congr fun i _ => hold i
  | some r =>
    rw [hn.term_choose hd hm hr]
    refine h.plug hg ((ha r hr).shift fun i j hj => ?_) hold
    obtain ⟨s,hs,rfl⟩ := Option.map_eq_some_iff.1 hj
    obtain ⟨hi,he⟩ := List.getElem?_eq_some_iff.1 hs
    refine hl.lookup (hnew _ ?_)
    rw [Alternative.created,hr]
    exact List.mem_mapIdx.2 ⟨i,hi,by rw [he]⟩

namespace Frontier

variable {procs : ι → Tactic ι} {ctx : Context} {bound : Nat} {P : Judgement → Refinement (Tactic ι) → Prop}
  {ordered : Prop} {log : HoleLog} {j : Judgement} {f f' : Frontier ι}

theorem Step.typed (hp : ∀ l, (procs l).Built ctx (Tactic.Offers ctx P))
    (hS : ∀ j r, P j r → r.Sound ctx.types j) (hs : Step procs ctx bound f f') (h : f.Tracked ctx P ordered log)
    (ht : f.Typed ctx.types log j) :
    f'.Typed ctx.types (log ++ f.created procs ctx bound) j := by
  have hold : ∀ i k, log.lookup i = some k → (log ++ f.created procs ctx bound).lookup i = some k :=
    fun _ _ => HoleLog.lookup_append
  have hdrafts : ∀ d ∈ f.drafts, HasType ctx.types ((log ++ f.created procs ctx bound).lookup ·)
      j.hypothesis.types d.term j.goal := fun d hd => (ht.drafts d hd).congr fun i _ => hold i
  refine ⟨fun d hd => ?_,fun y hy => ?_⟩
  · rcases hs.mem_drafts hd with hd | @⟨d,g,gs,as,a,n,mem,agenda,outcome,alternative,next,_,created⟩
    · exact hdrafts d hd
    · have hg := h.paired.below.lookup ((h.paired.drafts d mem).1 g (by simp [agenda]))
      exact Draft.typed_choose (ht.drafts _ mem) (h.numbered _ mem) agenda next
        (fun r hr => hS _ r (h.offered hp mem agenda outcome alternative hr)) hg hold
        (hs.below h.paired.below) fun p hp => by simp [created p hp]
  · rcases hs.mem_found hy with hy | ⟨d,hd,-,rfl⟩
    · exact (ht.found y hy).congr fun i _ => hold i
    · exact hdrafts d hd

theorem Run.typed {t : Tactic ι} (ht : t.AllOffer procs ctx P)
    (hP : ∀ j r, P j r → r.InOrder ∧ (ordered → r.Uniform)) (hS : ∀ j r, P j r → r.Sound ctx.types j)
    {limit : Nat} {fs : List (Frontier ι)} (r : Run procs ctx bound limit fs (start j t) f) :
    f.Typed ctx.types (Frontier.log procs ctx bound j fs) j := by
  have hstep (past : List (Frontier ι)) (f f' : Frontier ι)
      (h : f.Tracked ctx P ordered (Frontier.log procs ctx bound j past) ∧
        f.Typed ctx.types (Frontier.log procs ctx bound j past) j)
      (hs : Step procs ctx bound f f') :
      f'.Tracked ctx P ordered (Frontier.log procs ctx bound j (past ++ [f])) ∧
        f'.Typed ctx.types (Frontier.log procs ctx bound j (past ++ [f])) j := by
    rw [log_append]
    exact ⟨hs.tracked ht.2 hP h.1,hs.typed ht.2 hS h.1 h.2⟩
  have hstart : (start j t).Typed ctx.types (Frontier.log procs ctx bound j []) j := by
    refine ⟨fun d hd => ?_,fun d hd => by cases hd⟩
    cases List.mem_singleton.1 hd
    exact .hole (by simp [Frontier.log]) rfl
  exact (r.invariant hstep ⟨tracked_start procs bound ht.1,hstart⟩).2

end Frontier

/-- The term of a derivation has the type of the judgement that it was derived for. Its holes stand for
the open goals, in their order. -/
structure Derivation.Sound (types : TypeTable) (j : Judgement) (d : Derivation) : Prop where
  nodup : d.term.holes.Nodup
  length : d.term.holes.length = d.unsolved.length
  typed : HasType types (fun i => (d.term.holes.zip d.unsolved).lookup i) j.hypothesis.types d.term j.goal

theorem lookup_zip {log : HoleLog} {is : List Nat} {js : List Judgement}
    (h : List.Forall₂ (fun i j => log.lookup i = some j) is js) {i : Nat} (hi : i ∈ is) :
    (is.zip js).lookup i = log.lookup i := by
  induction h with
  | nil => cases hi
  | @cons i' j' is js hj _ ih =>
    rw [List.zip_cons_cons,List.lookup_cons]
    by_cases he : i = i'
    · simp [he,hj]
    · rw [beq_eq_false_iff_ne.2 he]
      exact ih ((List.mem_cons.1 hi).resolve_left he)

theorem Derivation.Matches.sound {types : TypeTable} {log : HoleLog} {j : Judgement} {d : Derivation}
    (h : d.Matches True log) (ht : HasType types (log.lookup ·) j.hypothesis.types d.term j.goal) :
    d.Sound types j := by
  refine ⟨h.nodup,h.length,ht.congr fun i hi k hk => ?_⟩
  rw [lookup_zip (h.order trivial) hi]
  exact hk

namespace Tactic

/-- Refinements by the library keep holes in order, are uniform and sound. -/
theorem allOffer_of_built {procs : ι → Tactic ι} {ctx : Context} {t : Tactic ι}
    (ht : t.Built ctx LibraryRule) (hp : ∀ l, (procs l).Built ctx LibraryRule) :
    t.AllOffer procs ctx fun j r => r.InOrder ∧ r.Uniform ∧ r.Sound ctx.types j := by
  have hR (u : Tactic ι) (hu : u.LibraryRule) :
      u.Offers ctx fun j r => r.InOrder ∧ r.Uniform ∧ r.Sound ctx.types j :=
    hu.moves.mono fun j r hm => ⟨hm.inOrder,hm.uniform,hm.sound⟩
  exact ⟨ht.mono hR,fun l => (hp l).mono hR⟩

end Tactic

/-- A tactic made from the rules of the library, the automatic tactic and labels of one's own finds only
derivations whose terms have the type of the goal. -/
theorem search_sound {κ : Type} (ctx : Context) (own : κ → Tactic (Tactic.Label κ))
    (hown : ∀ l, (own l).Built ctx Tactic.LibraryRule) (t : Tactic (Tactic.Label κ))
    (ht : t.Built ctx Tactic.LibraryRule) (j : Judgement) :
    (∀ bound limit budget left f,
      (Frontier.start j t).explore (Tactic.bodies own) ctx bound limit budget = some (left,f) →
        ∀ d ∈ f.found, d.Sound ctx.types j) ∧
    ∀ cfg ds, search (Tactic.bodies own) cfg ctx j t = .ok ds → ∀ d ∈ ds, d.Sound ctx.types j := by
  have hrun (bound limit budget left : Nat) (f : Frontier (Tactic.Label κ))
      (he : (Frontier.start j t).explore (Tactic.bodies own) ctx bound limit budget = some (left,f)) :
      ∀ d ∈ f.found, d.Sound ctx.types j := by
    intro d hd
    have hall := Tactic.allOffer_of_built ht (Tactic.bodies_built hown)
    have hpair := (Frontier.explore_run he).paired hall fun _ _ h => ⟨h.1,fun _ : True => h.2.1⟩
    have htyped := (Frontier.explore_run he).typed hall (fun _ _ h => ⟨h.1,fun _ : True => h.2.1⟩)
      fun _ _ h => h.2.2
    exact ((hpair.found d hd).matches hpair.below).sound (htyped.found d hd)
  refine ⟨hrun,fun cfg ds h d hd => ?_⟩
  obtain ⟨bound,budget,left,f,he,rfl⟩ := found_of_search h
  exact hrun _ _ _ _ _ he d hd

def TypeTable.nat : TypeTable where
  datatypes := [⟨"N",[],[⟨"Z",[]⟩,⟨"S",[.const "N"]⟩]⟩]

/-- The function that is asked for is written up to the branch of zero, which stays open. -/
theorem search_sound_nat :
    ∃ d, search (Tactic.bodies Empty.elim) { extensions := .none } ⟨[],.empty,.nat⟩
        { goal := .arrow (.const "N") (.const "N"), hypothesis := .empty }
        (.andThen Tactic.destructLambdaCase (.orElse Tactic.assumption .idle)) = .ok [d] ∧
      d.term = .lamCase [⟨"Z",[],.hole 1⟩,⟨"S",["n"],.var "n"⟩] ∧
      d.Sound .nat { goal := .arrow (.const "N") (.const "N"), hypothesis := .empty } := by
  have ht : (Tactic.andThen Tactic.destructLambdaCase
      (.orElse Tactic.assumption .idle) : Tactic (Tactic.Label Empty)).Built
        ⟨[],.empty,.nat⟩ Tactic.LibraryRule :=
    .andThen Tactic.LibraryRule.destructLambdaCase.built
      (.orElse Tactic.LibraryRule.assumption.built .idle)
  obtain ⟨d,hsearch,hterm⟩ : ∃ d, search (Tactic.bodies Empty.elim) { extensions := .none }
      ⟨[],.empty,.nat⟩ { goal := .arrow (.const "N") (.const "N"), hypothesis := .empty }
      (.andThen Tactic.destructLambdaCase (.orElse Tactic.assumption .idle)) = .ok [d] ∧
      d.term = .lamCase [⟨"Z",[],.hole 1⟩,⟨"S",["n"],.var "n"⟩] := ⟨_,rfl,rfl⟩
  exact ⟨d,hsearch,hterm,
    (search_sound ⟨[],.empty,.nat⟩ Empty.elim (fun l => l.elim) _ ht _).2 _ _ hsearch d (by simp)⟩

end TypedHole
