import Mathlib.Data.Finset.Card
import TypedHole.Proofs.Growth

/-! Filling to the end.
Solutions are followed from hole to hole, so the term that is filled does not tell whether this ends. It does where no
chain of solutions comes back, as in a search, where a solution mentions only holes set aside after its own hole. Main
statement: acyclic solutions fill every term completely, and those of a draft are acyclic
(`Frontier.solutions_complete`). -/
namespace TypedHole
namespace Term

mutual

/-- A term and what it becomes when solved holes are replaced, with no bound on how far solutions are followed. -/
inductive Unfolds (s : Solution) : Term → Term → Prop
  | var {x : Name} : Unfolds s (.var x) (.var x)
  | app {f a g b : Term} (fn : Unfolds s f g) (arg : Unfolds s a b) : Unfolds s (.app f a) (.app g b)
  | lam {xs : List Name} {b c : Term} (body : Unfolds s b c) : Unfolds s (.lam xs b) (.lam xs c)
  | case {t u : Term} {as bs : List (Alt Term)} (scrutinee : Unfolds s t u) (alts : UnfoldsAlts s as bs) :
      Unfolds s (.case t as) (.case u bs)
  | lamCase {as bs : List (Alt Term)} (alts : UnfoldsAlts s as bs) : Unfolds s (.lamCase as) (.lamCase bs)
  | solved {i : Nat} {t u : Term} (solution : s.lookup i = some t) (rest : Unfolds s t u) : Unfolds s (.hole i) u
  | unsolved {i : Nat} (missing : s.lookup i = none) : Unfolds s (.hole i) (.hole i)

inductive UnfoldsAlts (s : Solution) : List (Alt Term) → List (Alt Term) → Prop
  | nil : UnfoldsAlts s [] []
  | cons {c : Name} {xs : List Name} {b d : Term} {as bs : List (Alt Term)} (body : Unfolds s b d)
      (rest : UnfoldsAlts s as bs) : UnfoldsAlts s (⟨c,xs,b⟩ :: as) (⟨c,xs,d⟩ :: bs)

end

namespace Solution

/-- Some rank decreases from each solved hole to the solved holes in its solution. -/
def Acyclic (s : Solution) : Prop :=
  ∃ rank : Nat → Nat, ∀ i u, s.lookup i = some u → ∀ k ∈ u.holes, (s.lookup k).isSome = true → rank k < rank i

def Unsolved (s : Solution) (t : Term) : Prop := ∀ i ∈ t.holes, s.lookup i = none

def Parts (s p q : Solution) : Prop := ∀ i u, s.lookup i = some u ↔ p.lookup i = some u ∨ q.lookup i = some u

/-- Two parts of solutions are applied in turn until no hole is solved. -/
inductive InTurn (s : Solution) : Solution → Solution → Term → Term → Prop
  | done {p q : Solution} {t : Term} (unsolved : s.Unsolved t) : InTurn s p q t t
  | turn {p q : Solution} {t u : Term} (solved : ¬ s.Unsolved t) (rest : InTurn s q p (t.instantiate p) u) :
      InTurn s p q t u

/-- Solutions fill a term: replacing solved holes ends, and nothing is left to replace, whether all solutions are
applied or two parts in turn. -/
structure Fills (s : Solution) (t : Term) : Prop where
  ends : ∀ u, Unfolds s t u ↔ u = t.instantiate s
  unsolved : s.Unsolved (t.instantiate s)
  holes : (t.instantiate s).holes = t.holes.flatMap fun i => ((hole i).instantiate s).holes
  again : (t.instantiate s).instantiate s = t.instantiate s
  inTurn : ∀ p q, s.Parts p q → ∀ u, s.InTurn p q t u ↔ u = t.instantiate s

end Solution

variable {s p q : Solution} {t u : Term} {n : Nat}

/-! Chains of solutions. -/

theorem Within.mono (h : Within s n t) : Within s (n + 1) t := by
  induction n generalizing t with
  | zero => exact within_of_unsolved 1 h
  | succ n ih => exact fun i hi u hu => ih (h i hi u hu)

theorem within_iff : Within s n t ↔ ∀ i ∈ t.holes, Within s n (hole i) := by
  cases n <;> simp [Within,holes]

theorem Within.of_lookup (h : Within s n (hole i)) (hu : s.lookup i = some u) : Within s n u := by
  cases n with
  | zero =>
    have hnone := h i (by simp [holes])
    rw [hu] at hnone
    cases hnone
  | succ n => exact (h i (by simp [holes]) u hu).mono

theorem follow_succ (h : Within s n t) : follow s (n + 1) t = follow s n t := by
  induction n generalizing t with
  | zero => exact follow_of_unsolved 1 h
  | succ n ih =>
    refine bind_congr t fun i hi => ?_
    cases hu : s.lookup i with
    | none => rfl
    | some u => exact ih (h i hi u hu)

theorem Within.unsolved (h : Within s n t) : s.Unsolved (follow s n t) := by
  induction n generalizing t with
  | zero => exact h
  | succ n ih =>
    intro k hk
    rw [follow,holes_bind] at hk
    obtain ⟨i,hi,hk⟩ := List.mem_flatMap.1 hk
    cases hu : s.lookup i with
    | none =>
      rw [hu] at hk
      cases List.mem_singleton.1 hk
      exact hu
    | some u =>
      rw [hu] at hk
      exact ih (h i hi u hu) k hk

namespace Solution

def below (s : Solution) (rank : Nat → Nat) (i : Nat) : Nat :=
  ((s.map (·.1)).toFinset.filter fun k => rank k < rank i).card

variable {rank : Nat → Nat} {i k : Nat}

theorem mem_solved (h : (s.lookup k).isSome = true) : k ∈ (s.map (·.1)).toFinset := by
  obtain ⟨p,hp,hk⟩ := List.lookup_isSome_iff.1 h
  exact List.mem_toFinset.2 (List.mem_map.2 ⟨p,hp,(eq_of_beq hk).symm⟩)

theorem below_lt_below (h : (s.lookup k).isSome = true) (hlt : rank k < rank i) : s.below rank k < s.below rank i := by
  refine Finset.card_lt_card (Finset.ssubset_iff_of_subset ?_ |>.2 ⟨k,?_,?_⟩)
  · exact Finset.monotone_filter_right _ fun j _ hj => Nat.lt_trans hj hlt
  · exact Finset.mem_filter.2 ⟨mem_solved h,hlt⟩
  · exact fun hk => Nat.lt_irrefl _ (Finset.mem_filter.1 hk).2

theorem below_lt_length (h : (s.lookup i).isSome = true) : s.below rank i < s.length := by
  have hcard : (s.map (·.1)).toFinset.card ≤ s.length := by simpa using List.toFinset_card_le (s.map (·.1))
  refine Nat.lt_of_lt_of_le (Finset.card_lt_card ?_) hcard
  exact Finset.filter_ssubset.2 ⟨i,mem_solved h,Nat.lt_irrefl _⟩

/-- Chains of acyclic solutions have no more links than there are solutions. -/
theorem Acyclic.within (h : s.Acyclic) (t : Term) : Within s s.length t := by
  obtain ⟨rank,hrank⟩ := h
  -- the number of solved holes below a rank is bounded, whatever the ranks are
  have hbelow (n : Nat) (t : Term) (ht : ∀ i ∈ t.holes, (s.lookup i).isSome = true → s.below rank i < n) :
      Within s n t := by
    induction n generalizing t with
    | zero => exact fun i hi => Option.not_isSome_iff_eq_none.1 fun hs => Nat.not_lt_zero _ (ht i hi hs)
    | succ n ih =>
      intro i hi u hu
      refine ih u fun k hk hs => ?_
      have hlt := below_lt_below hs (hrank i u hu k hk hs)
      have hle := Nat.le_of_lt_succ (ht i hi (hu ▸ rfl))
      exact Nat.lt_of_lt_of_le hlt hle
  exact hbelow _ t fun i _ => below_lt_length

theorem Parts.left (h : s.Parts p q) {i : Nat} {u : Term} (hu : p.lookup i = some u) : s.lookup i = some u :=
  (h i u).2 (.inl hu)

theorem Parts.symm (h : s.Parts p q) : s.Parts q p := fun i u => (h i u).trans or_comm

theorem Parts.acyclic (h : s.Parts p q) (hs : s.Acyclic) : p.Acyclic := by
  obtain ⟨rank,hrank⟩ := hs
  refine ⟨rank,fun i u hu k hk hsome => hrank i u (h.left hu) k hk ?_⟩
  obtain ⟨v,hv⟩ := Option.isSome_iff_exists.1 hsome
  exact Option.isSome_iff_exists.2 ⟨v,h.left hv⟩

end Solution

/-! Equations for filling. -/

theorem follow_eq_bind (s : Solution) (n : Nat) (t : Term) : follow s n t = t.bind fun i => follow s n (hole i) := by
  cases n with
  | zero => exact (bind_hole t).symm
  | succ n => rfl

theorem instantiate_eq_bind (s : Solution) (t : Term) :
    t.instantiate s = t.bind fun i => (hole i).instantiate s := follow_eq_bind s s.length t

theorem instantiate_of_unsolved (h : s.Unsolved t) : t.instantiate s = t := follow_of_unsolved _ h

theorem instantiate_unsolved {i : Nat} (h : s.lookup i = none) : (hole i).instantiate s = hole i :=
  instantiate_of_unsolved fun k hk => by
    cases List.mem_singleton.1 hk
    exact h

section

variable (hs : s.Acyclic)
include hs

theorem instantiate_solved {i : Nat} (h : s.lookup i = some u) : (hole i).instantiate s = u.instantiate s := by
  have hwithin := hs.within (hole i)
  rw [instantiate,instantiate]
  generalize s.length = n at hwithin
  cases n with
  | zero =>
    have hnone := hwithin i (by simp [holes])
    rw [h] at hnone
    cases hnone
  | succ n =>
    have hu : Within s n u := hwithin i (by simp [holes]) u h
    rw [follow_succ hu,follow,bind,h]

theorem unsolved_instantiate (t : Term) : s.Unsolved (t.instantiate s) := (hs.within t).unsolved

end

/-! Filling with no bound. -/

theorem unfolds_bind {f : Nat → Term} (t : Term) (h : ∀ i ∈ t.holes, Unfolds s (hole i) (f i)) :
    Unfolds s t (t.bind f) := by
  refine induct (P := fun t => (∀ i ∈ t.holes, Unfolds s (hole i) (f i)) → Unfolds s t (t.bind f))
    (Q := fun as => (∀ i ∈ holesAlts as, Unfolds s (hole i) (f i)) → UnfoldsAlts s as (bindAlts f as))
    ?var ?app ?lam ?case ?lamCase ?hole ?nil ?cons t h
  case var => exact fun x _ => .var
  case app =>
    intro g a hg ha h
    exact .app (hg fun i hi => h i (List.mem_append.2 (.inl hi))) (ha fun i hi => h i (List.mem_append.2 (.inr hi)))
  case lam => exact fun xs b hb h => .lam (hb h)
  case case =>
    intro t as ht has h
    exact .case (ht fun i hi => h i (List.mem_append.2 (.inl hi))) (has fun i hi => h i (List.mem_append.2 (.inr hi)))
  case lamCase => exact fun as has h => .lamCase (has h)
  case hole => exact fun i h => h i (List.mem_singleton.2 rfl)
  case nil => exact fun _ => .nil
  case cons =>
    intro c xs b as hb has h
    exact .cons (hb fun i hi => h i (List.mem_append.2 (.inl hi))) (has fun i hi => h i (List.mem_append.2 (.inr hi)))

theorem Within.unfolds (h : Within s n t) : Unfolds s t (follow s n t) := by
  induction n generalizing t with
  | zero =>
    have hbind := unfolds_bind t fun i hi => Unfolds.unsolved (h i hi)
    rwa [bind_hole] at hbind
  | succ n ih =>
    refine unfolds_bind t fun i hi => ?_
    cases hu : s.lookup i with
    | none => exact .unsolved hu
    | some u => exact .solved hu (ih (h i hi u hu))

mutual

theorem Unfolds.eq_instantiate (hs : s.Acyclic) : ∀ {t u : Term}, Unfolds s t u → u = t.instantiate s
  | _, _, .var => by rw [instantiate_eq_bind,bind]
  | _, _, .app fn arg => by
    rw [instantiate_eq_bind,bind,← instantiate_eq_bind,← instantiate_eq_bind,fn.eq_instantiate hs,
      arg.eq_instantiate hs]
  | _, _, .lam body => by rw [instantiate_eq_bind,bind,← instantiate_eq_bind,body.eq_instantiate hs]
  | _, _, .case scrutinee alts => by
    rw [instantiate_eq_bind,bind,← instantiate_eq_bind,scrutinee.eq_instantiate hs,alts.eq_bindAlts hs]
  | _, _, .lamCase alts => by rw [instantiate_eq_bind,bind,alts.eq_bindAlts hs]
  | _, _, .solved solution rest => by rw [instantiate_solved hs solution,rest.eq_instantiate hs]
  | _, _, .unsolved missing => (instantiate_unsolved missing).symm

theorem UnfoldsAlts.eq_bindAlts (hs : s.Acyclic) : ∀ {as bs : List (Alt Term)}, UnfoldsAlts s as bs →
    bs = bindAlts (fun i => (hole i).instantiate s) as
  | _, _, .nil => rfl
  | _, _, .cons body rest => by
    rw [bindAlts,← instantiate_eq_bind,body.eq_instantiate hs,rest.eq_bindAlts hs]

end

/-! Solutions in two parts. -/

/-- Filling with a part first makes no difference. -/
theorem instantiate_part (hs : s.Acyclic) (h : s.Parts p q) (t : Term) :
    (t.instantiate p).instantiate s = t.instantiate s := by
  have hpart (n : Nat) (t : Term) (ht : Within p n t) : (follow p n t).instantiate s = t.instantiate s := by
    induction n generalizing t with
    | zero => rfl
    | succ n ih =>
      rw [follow,instantiate_eq_bind,bind_bind,instantiate_eq_bind s t]
      refine bind_congr t fun i hi => ?_
      cases hu : p.lookup i with
      | none => rfl
      | some u =>
        rw [instantiate_solved hs (h.left hu),← ih u (ht i hi u hu),instantiate_eq_bind]
  exact hpart _ t ((h.acyclic hs).within t)

theorem Within.instantiate_part (hs : s.Acyclic) (h : s.Parts p q) (ht : Within s n t) :
    Within s n (t.instantiate p) := by
  have hpart (m : Nat) (t : Term) (hm : Within p m t) (ht : Within s n t) : Within s n (follow p m t) := by
    induction m generalizing t with
    | zero => exact ht
    | succ m ih =>
      refine within_iff.2 fun k hk => ?_
      rw [follow,holes_bind] at hk
      obtain ⟨i,hi,hk⟩ := List.mem_flatMap.1 hk
      have hhole := within_iff.1 ht i hi
      cases hu : p.lookup i with
      | none =>
        rw [hu] at hk
        cases List.mem_singleton.1 hk
        exact hhole
      | some u =>
        rw [hu] at hk
        exact within_iff.1 (ih u (hm i hi u hu) (hhole.of_lookup (h.left hu))) k hk
  exact hpart _ t ((h.acyclic hs).within t) ht

/-- Where one part has nothing to replace, filling with the other one takes a link off every chain. -/
theorem Within.take_turn (hs : s.Acyclic) (h : s.Parts p q) (hq : q.Unsolved t) (ht : Within s (n + 1) t) :
    Within s n (t.instantiate p) := by
  refine within_iff.2 fun k hk => ?_
  rw [instantiate_eq_bind,holes_bind] at hk
  obtain ⟨i,hi,hk⟩ := List.mem_flatMap.1 hk
  cases hu : p.lookup i with
  | none =>
    rw [instantiate_unsolved hu] at hk
    cases List.mem_singleton.1 hk
    refine within_of_unsolved n fun j hj => ?_
    cases List.mem_singleton.1 hj
    refine Option.eq_none_iff_forall_ne_some.2 fun u hsome => ?_
    rcases (h k u).1 hsome with hp | hq'
    · rw [hu] at hp
      cases hp
    · rw [hq k hi] at hq'
      cases hq'
  | some u =>
    rw [instantiate_solved (h.acyclic hs) hu] at hk
    exact within_iff.1 ((ht i hi u (h.left hu)).instantiate_part hs h) k hk

theorem Within.inTurn (hs : s.Acyclic) (h : s.Parts p q) (hq : q.Unsolved t) (ht : Within s n t) :
    s.InTurn p q t (t.instantiate s) := by
  induction n generalizing p q t with
  | zero =>
    rw [instantiate_of_unsolved ht]
    exact .done ht
  | succ n ih =>
    by_cases hun : s.Unsolved t
    · rw [instantiate_of_unsolved hun]
      exact .done hun
    -- after a turn its own part has nothing to replace, so the parts change places
    · have hrest := ih h.symm (unsolved_instantiate (h.acyclic hs) t) (ht.take_turn hs h hq)
      rw [Term.instantiate_part hs h] at hrest
      exact .turn hun hrest

theorem Solution.InTurn.eq_instantiate (hs : s.Acyclic) (h : s.Parts p q) (hturn : s.InTurn p q t u) :
    u = t.instantiate s := by
  induction hturn with
  | done unsolved => exact (instantiate_of_unsolved unsolved).symm
  | turn _ _ ih => rw [ih h.symm,Term.instantiate_part hs h]

theorem inTurn_iff (hs : s.Acyclic) (h : s.Parts p q) (t u : Term) : s.InTurn p q t u ↔ u = t.instantiate s := by
  refine ⟨fun hturn => hturn.eq_instantiate hs h,fun heq => ?_⟩
  rw [heq]
  by_cases hun : s.Unsolved t
  · rw [instantiate_of_unsolved hun]
    exact .done hun
  · have hrest := ((hs.within t).instantiate_part hs h).inTurn hs h.symm (unsolved_instantiate (h.acyclic hs) t)
    rw [Term.instantiate_part hs h] at hrest
    exact .turn hun hrest

theorem Solution.Acyclic.fills (hs : s.Acyclic) (t : Term) : s.Fills t where
  ends u := ⟨fun h => h.eq_instantiate hs,fun h => h ▸ (hs.within t).unfolds⟩
  unsolved := unsolved_instantiate hs t
  holes := by
    rw [instantiate_eq_bind,holes_bind]
  again := instantiate_of_unsolved (unsolved_instantiate hs t)
  inTurn _ _ h := inTurn_iff hs h t

theorem Staged.nodup (h : Staged s) : (s.map (·.1)).Nodup := by
  induction s with
  | nil => exact .nil
  | cons p s ih =>
    refine List.nodup_cons.2 ⟨fun hp => ?_,ih h.2.2⟩
    obtain ⟨q,hq,heq⟩ := List.mem_map.1 hp
    have hnone := List.lookup_eq_none_iff.1 (h.1 p.1 List.mem_cons_self) q hq
    simp [heq] at hnone

end Term

/-! Solutions in a search. -/

variable {ι : Type}

/-- Each solution of a draft mentions only holes set aside after the hole that it solves. -/
def Draft.Ascends (d : Draft ι) : Prop := ∀ p ∈ d.fills, ∀ k ∈ p.2.holes, p.1 < k

theorem Draft.Numbered.acyclic {next : Nat} {d : Draft ι} (h : d.Numbered next) (ha : d.Ascends) :
    Term.Solution.Acyclic d.fills := by
  refine ⟨fun i => next - i,fun i u hu k hk hsome => ?_⟩
  have hmem : (i,u) ∈ d.fills := by
    obtain ⟨before,after,hfills,-⟩ := List.lookup_eq_some_iff.1 hu
    simp [hfills]
  have hik : i < k := ha (i,u) hmem k hk
  have hkn : k < next := by
    refine Nat.lt_of_not_le fun hle => ?_
    rw [h.fresh k hle] at hsome
    cases hsome
  exact Nat.sub_lt_sub_left (Nat.lt_trans hik hkn) hik

namespace Frontier

variable {procs : ι → Tactic ι} {ctx : Context} {bound : Nat} {f f' : Frontier ι}

theorem Step.ascends (hs : Step procs ctx bound f f') (hn : ∀ d ∈ f.drafts, d.Numbered f.next)
    (h : ∀ d ∈ f.drafts, d.Ascends) : ∀ d ∈ f'.drafts, d.Ascends := by
  intro d hd
  rcases hs.mem_drafts hd with hd | hd
  · exact h d hd
  cases hd with
  | @intro d g gs as a n mem agenda _ _ next _ _ =>
    cases hr : a.refinement with
    | none =>
      rw [Draft.Ascends,Draft.choose_fills_none hr]
      exact h d mem
    | some r =>
      rw [Draft.Ascends,Draft.choose_fills_some hr]
      refine List.forall_mem_cons.2 ⟨fun k hk => ?_,h d mem⟩
      have hg : g.hole < f.next := (hn d mem).below g (by simp [agenda])
      have hk : n ≤ k := (Draft.Numbered.lt_of_mem_shift hk).1
      exact Nat.lt_of_lt_of_le hg (Nat.le_trans next hk)

/-- Acyclic solutions fill every term completely. In a search the solutions of every draft that comes up are acyclic:
no hole is solved twice, and a solution mentions only holes set aside after its own. -/
theorem solutions_complete (procs : ι → Tactic ι) (ctx : Context) (bound limit : Nat) (j : Judgement) (t : Tactic ι) :
    (∀ s : Term.Solution, s.Acyclic → ∀ u, s.Fills u) ∧
    ∀ budget f, (f ∈ (start j t).passed procs ctx bound limit budget ∨
        ∃ left, (start j t).explore procs ctx bound limit budget = some (left,f)) →
      ∀ d ∈ f.drafts, Term.Solution.Acyclic d.fills ∧ (d.fills.map (·.1)).Nodup ∧ d.Ascends := by
  refine ⟨fun s hs u => hs.fills u,fun budget f hf => ?_⟩
  have hstep (f f' : Frontier ι) (h : (∀ d ∈ f.drafts, d.Numbered f.next) ∧ ∀ d ∈ f.drafts, d.Ascends)
      (hs : Step procs ctx bound f f') :
      (∀ d ∈ f'.drafts, d.Numbered f'.next) ∧ ∀ d ∈ f'.drafts, d.Ascends :=
    ⟨hs.numbered h.1,hs.ascends h.1 h.2⟩
  have hstart : ∀ d ∈ (start j t).drafts, d.Ascends := by
    intro d hd
    cases List.mem_singleton.1 hd
    nofun
  obtain ⟨hnumbered,hascends⟩ := forall_reached hstep ⟨start_numbered,hstart⟩ hf
  exact fun d hd => ⟨(hnumbered d hd).acyclic (hascends d hd),(hnumbered d hd).staged.nodup,hascends d hd⟩

/-- When the first part of a pair of leaves is solved, the second one is the only hole that is left. -/
theorem solutions_complete_pair : ∃ f d,
    f ∈ (start .bare (.andThen .pair .leaf)).passed Empty.elim ⟨[],.empty,{}⟩ 2 9 3 ∧ d ∈ f.drafts ∧
      Term.Solution.Acyclic d.fills ∧
      Term.Unfolds d.fills (.hole 0) (.app (.app (.var "pair") (.var "x")) (.hole 2)) := by
  obtain ⟨f,d,hf,hd,hfills⟩ : ∃ f d,
      f ∈ (start .bare (.andThen .pair .leaf)).passed Empty.elim ⟨[],.empty,{}⟩ 2 9 3 ∧ d ∈ f.drafts ∧
        d.fills = [(1,.var "x"),(0,.app (.app (.var "pair") (.hole 1)) (.hole 2))] :=
    ⟨_,_,.tail _ (.tail _ (.head _)),.head _,rfl⟩
  obtain ⟨hall,hdrafts⟩ := solutions_complete Empty.elim ⟨[],.empty,{}⟩ 2 9 .bare (.andThen .pair .leaf)
  have hacyclic := (hdrafts 3 f (.inl hf) d hd).1
  refine ⟨f,d,hf,hd,hacyclic,((hall d.fills hacyclic (.hole 0)).ends _).2 ?_⟩
  rw [hfills]
  rfl

end Frontier

end TypedHole
