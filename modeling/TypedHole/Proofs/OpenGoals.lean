import Mathlib.Data.List.Forall2
import TypedHole.Proofs.Library

/-! Holes and open goals.
A log of a run notes every hole that is set aside together with the judgement it stands for. Drafts are
paired with the log as long as the holes of their term are those of the goals left open and those on the
agenda. Every step keeps drafts paired (`Frontier.Step.paired`), so the holes of a derivation are those
of its open goals (`Frontier.Run.paired`). Main statement: so it is for every derivation that a search
returns (`search_matches`). -/
namespace TypedHole

variable {ι : Type}

/-- All holes of a run on a judgement that has passed certain frontiers. The first hole stands for the
judgement itself. -/
def Frontier.log (procs : ι → Tactic ι) (ctx : Context) (bound : Nat) (j : Judgement)
    (fs : List (Frontier ι)) : HoleLog := (0,j) :: fs.flatMap (·.created procs ctx bound)

/-- The holes of a term are the listed ones, in their order if `ordered` holds, and there is no repetition. -/
structure Term.HasHoles (ordered : Prop) (t : Term) (ids : List Nat) : Prop where
  nodup : t.holes.Nodup
  perm : t.holes.Perm ids
  order : ordered → t.holes = ids

/-- The goals of a draft stand in the log. Those left open and those on the agenda make up the holes of
its term. -/
def Draft.Paired (ordered : Prop) (log : HoleLog) (d : Draft ι) : Prop :=
  (∀ g ∈ d.agenda, (g.hole,g.judgement) ∈ log) ∧
    ∃ ids, List.Forall₂ (fun i j => (i,j) ∈ log) ids d.unsolved ∧
      d.term.HasHoles ordered (ids ++ d.agenda.map (·.hole))

def Derivation.Paired (ordered : Prop) (log : HoleLog) (d : Derivation) : Prop :=
  ∃ ids, List.Forall₂ (fun i j => (i,j) ∈ log) ids d.unsolved ∧ d.term.HasHoles ordered ids

/-- Every hole is logged once, and under a number below `next`. -/
def HoleLog.Below (next : Nat) (log : HoleLog) : Prop :=
  (log.map (·.1)).Nodup ∧ ∀ p ∈ log, p.1 < next

namespace HoleLog

theorem Below.lookup {next : Nat} {log : HoleLog} (h : log.Below next) {i : Nat} {j : Judgement}
    (hi : (i,j) ∈ log) : log.lookup i = some j := by
  obtain ⟨hn,-⟩ := h
  induction log with
  | nil => simp at hi
  | cons p log ih =>
    obtain ⟨hp,hn⟩ := List.nodup_cons.1 hn
    rcases List.mem_cons.1 hi with rfl | hi
    · simp
    · have hne : (i == p.1) = false :=
        beq_eq_false_iff_ne.2 fun e => hp (List.mem_map.2 ⟨(i,j),hi,e⟩)
      rw [List.lookup_cons,hne]
      exact ih hi hn

end HoleLog

namespace Alternative

theorem created_keys (a : Alternative ι) (next : Nat) :
    ∃ k, (a.created next).map (·.1) = List.range' next k ∧ k ≤ a.width := by
  cases hr : a.refinement with
  | none => exact ⟨0,by simp [created,hr],Nat.zero_le _⟩
  | some r =>
    refine ⟨r.subgoals.length,List.ext_getElem (by simp [created,hr]) fun i hi _ => ?_,?_⟩
    · simp [created,hr]
    · rw [width_some hr]
      exact Nat.le_max_left ..

theorem createdAll_keys (d : Draft ι) (g : Goal ι) (as : List (Alternative ι)) (next : Nat) :
    ((createdAll as next).map (·.1)).Nodup ∧
      ∀ p ∈ createdAll as next, next ≤ p.1 ∧ p.1 < (d.chooseAll g as next).2 := by
  induction as generalizing next with
  | nil => simp [createdAll]
  | cons a as ih =>
    obtain ⟨k,hk,hw⟩ := a.created_keys next
    obtain ⟨hn,hb⟩ := ih (next + a.width)
    have hle : next + a.width ≤ (d.chooseAll g as (next + a.width)).2 := d.le_chooseAll g as _
    have ha : ∀ p ∈ a.created next, next ≤ p.1 ∧ p.1 < next + a.width := by
      intro p hp
      have hp : p.1 ∈ List.range' next k := hk ▸ List.mem_map_of_mem hp
      have := List.mem_range'_1.1 hp
      omega
    rw [createdAll,Draft.chooseAll_cons]
    refine ⟨?_,fun p hp => ?_⟩
    · rw [List.map_append]
      refine List.nodup_append.2 ⟨hk ▸ List.nodup_range' ..,hn,fun x hx y hy e => ?_⟩
      obtain ⟨p,hp,rfl⟩ := List.mem_map.1 hx
      obtain ⟨q,hq,rfl⟩ := List.mem_map.1 hy
      have := ha p hp
      have := hb q hq
      omega
    · rcases List.mem_append.1 hp with hp | hp
      · have := ha p hp
        dsimp only
        omega
      · have := hb p hp
        dsimp only
        omega

theorem mem_created_of_mem_parts {a : Alternative ι} {g : Goal ι} {n : Nat}
    {p : Nat × Subgoal (Tactic ι)} (h : p ∈ a.parts g n) :
    (p.1,p.2.judgement) = (g.hole,g.judgement) ∨ (p.1,p.2.judgement) ∈ a.created n := by
  cases hr : a.refinement with
  | none =>
    left
    simp only [parts,hr,List.mem_singleton] at h
    rw [h]
  | some r =>
    right
    simp only [parts,hr] at h
    obtain ⟨i,hi,rfl⟩ := List.mem_mapIdx.1 h
    simp only [created,hr]
    exact List.mem_mapIdx.2 ⟨i,hi,rfl⟩

end Alternative

theorem flatMap_replace {k : Nat} {xs ys zs : List Nat} (hx : k ∉ xs) (hz : k ∉ zs) :
    (xs ++ k :: zs).flatMap (fun i => if i = k then ys else [i]) = xs ++ (ys ++ zs) := by
  have hkeep : ∀ {l : List Nat}, k ∉ l → l.flatMap (fun i => if i = k then ys else [i]) = l := by
    intro l hl
    induction l with
    | nil => rfl
    | cons i l ih =>
      have hi : i ≠ k := fun e => hl (by simp [e])
      rw [List.flatMap_cons,if_neg hi,ih fun h => hl (by simp [h])]
      rfl
  rw [List.flatMap_append,List.flatMap_cons,if_pos rfl,hkeep hx,hkeep hz]

namespace Draft

variable {m n : Nat} {d : Draft ι} {g : Goal ι} {gs : List (Goal ι)} {a : Alternative ι}

theorem holes_choose (h : d.Numbered m) (hd : d.agenda = g :: gs) (hm : m ≤ n)
    (ha : ∀ r, a.refinement = some r → r.InOrder) :
    ({ d with agenda := gs }.choose g a n).term.holes =
      d.term.holes.flatMap fun i => if i = g.hole then (a.parts g n).map (·.1) else [i] := by
  cases hr : a.refinement with
  | none =>
    rw [Numbered.term_choose_none hr]
    have hp : (a.parts g n).map (·.1) = [g.hole] := by simp [Alternative.parts,hr]
    rw [hp,← List.flatMap_singleton' d.term.holes,List.flatMap_assoc]
    refine List.flatMap_congr fun i _ => ?_
    by_cases hi : i = g.hole <;> simp [hi]
  | some r =>
    rw [h.term_choose hd hm hr,Term.holes_plug,Term.holes_shift,ha r hr,Alternative.parts_some hr,
      List.range'_eq_map_range]

/-- The parts that stay open come first when all parts have a tactic of their own or none has. -/
theorem filter_staysOpen_append {ps : List (Nat × Subgoal (Tactic ι))} {rest : List (Tactic ι)}
    (h : (∀ p ∈ ps, p.2.tactic.isSome) ∨ ∀ p ∈ ps, p.2.tactic = none) :
    ps.filter (·.2.staysOpen rest) ++ ps.filter (fun p => !p.2.staysOpen rest) = ps := by
  rcases h with h | h
  · have hf : ∀ p ∈ ps, p.2.staysOpen rest = false := by
      intro p hp
      obtain ⟨t,ht⟩ := Option.isSome_iff_exists.1 (h p hp)
      simp [Subgoal.staysOpen,ht]
    rw [List.filter_eq_nil_iff.2 fun p hp => by simp [hf p hp],
      List.filter_eq_self.2 fun p hp => by simp [hf p hp]]
    rfl
  · have hf : ∀ p ∈ ps, p.2.staysOpen rest = rest.isEmpty := by
      intro p hp
      simp [Subgoal.staysOpen,h p hp]
    cases hr : rest.isEmpty with
    | true =>
      rw [List.filter_eq_self.2 fun p hp => by rw [hf p hp,hr],
        List.filter_eq_nil_iff.2 fun p hp => by simp [hf p hp,hr],List.append_nil]
    | false =>
      rw [List.filter_eq_nil_iff.2 fun p hp => by simp [hf p hp,hr],
        List.filter_eq_self.2 fun p hp => by simp [hf p hp,hr]]
      rfl

theorem uniform_parts (ha : ∀ r, a.refinement = some r → r.Uniform) :
    (∀ p ∈ a.parts g n, p.2.tactic.isSome) ∨ ∀ p ∈ a.parts g n, p.2.tactic = none := by
  cases hr : a.refinement with
  | none =>
    right
    intro p hp
    simp only [Alternative.parts,hr,List.mem_singleton] at hp
    rw [hp]
  | some r =>
    have hsub : ∀ p ∈ a.parts g n, p.2 ∈ r.subgoals := by
      intro p hp
      rcases Alternative.mem_parts hp with ⟨h,-⟩ | ⟨r',h,hm⟩
      · rw [hr] at h
        cases h
      · rw [hr] at h
        cases h
        exact hm
    exact (ha r hr).imp (fun h p hp => h _ (hsub p hp)) fun h p hp => h _ (hsub p hp)

theorem Paired.mono {ordered : Prop} {log log' : HoleLog} (h : d.Paired ordered log)
    (hl : ∀ p ∈ log, p ∈ log') : d.Paired ordered log' := by
  obtain ⟨hg,ids,hids,hh⟩ := h
  exact ⟨fun g hm => hl _ (hg g hm),ids,hids.imp fun _ _ => hl _,hh⟩

theorem Paired.choose {ordered : Prop} {log log' : HoleLog} (h : d.Paired ordered log)
    (hn : d.Numbered m) (hd : d.agenda = g :: gs) (hm : m ≤ n)
    (ha : ∀ r, a.refinement = some r → r.InOrder ∧ (ordered → r.Uniform))
    (hold : ∀ p ∈ log, p ∈ log') (hnew : ∀ p ∈ a.created n, p ∈ log') :
    ({ d with agenda := gs }.choose g a n).Paired ordered log' := by
  obtain ⟨hgoals,ids,hids,hh⟩ := h
  rw [hd] at hgoals hh
  have hparts : ∀ p ∈ a.parts g n, (p.1,p.2.judgement) ∈ log' := by
    intro p hp
    rcases Alternative.mem_created_of_mem_parts hp with e | hc
    · exact e ▸ hold _ (hgoals g (by simp))
    · exact hnew _ hc
  -- The hole of the goal occurs once among the holes of the term; the parts replace it.
  obtain ⟨hpn,hpb⟩ := hn.parts_holes (a := a) hd hm
  have hlist : (ids ++ g.hole :: gs.map (·.hole)).Nodup := hh.perm.nodup hh.nodup
  have hfresh : g.hole ∉ ids ∧ g.hole ∉ gs.map (·.hole) := by
    have := List.nodup_append.1 hlist
    exact ⟨fun hi => this.2.2 _ hi _ (by simp) rfl,(List.nodup_cons.1 this.2.1).1⟩
  have hholes := holes_choose hn hd hm fun r hr => (ha r hr).1
  have hperm : (({ d with agenda := gs } : Draft ι).choose g a n).term.holes.Perm
      (ids ++ ((a.parts g n).map (·.1) ++ gs.map (·.hole))) := by
    rw [hholes,← flatMap_replace hfresh.1 hfresh.2]
    exact hh.perm.flatMap_right _
  have hnodup : (ids ++ ((a.parts g n).map (·.1) ++ gs.map (·.hole))).Nodup := by
    refine List.nodup_append.2 ⟨(List.nodup_append.1 hlist).1,hpn,fun i hi k hk e => ?_⟩
    subst e
    rcases List.mem_append.1 hk with hk | hk
    · have him : i < m := hn.term_below i (hh.perm.mem_iff.2 (by simp [hi]))
      cases hr : a.refinement with
      | none =>
        have : i = g.hole := by simpa [Alternative.parts,hr] using hk
        exact hfresh.1 (this ▸ hi)
      | some r =>
        rw [Alternative.parts_some hr] at hk
        have := (List.mem_range'_1.1 hk).1
        omega
    · exact (List.nodup_append.1 hlist).2.2 i hi i (by simp [hk]) rfl
  have hagenda : (({ d with agenda := gs } : Draft ι).choose g a n).agenda.map (·.hole) =
      ((a.parts g n).filter fun p => !p.2.staysOpen a.rest).map (·.1) ++ gs.map (·.hole) := by
    rw [choose_agenda,List.map_append,holes_scheduleAll]
  refine ⟨fun g' hg' => ?_,ids ++ ((a.parts g n).filter (·.2.staysOpen a.rest)).map (·.1),?_,
    hperm.nodup_iff.2 hnodup,?_,fun ho => ?_⟩
  · rw [choose_agenda] at hg'
    rcases List.mem_append.1 hg' with hg' | hg'
    · obtain ⟨x,hx,hg'⟩ := List.mem_filterMap.1 hg'
      obtain ⟨p,hp,rfl⟩ := List.mem_map.1 hx
      obtain ⟨hi,hj,-,-⟩ := schedule_inl (Sum.getLeft?_eq_some_iff.1 hg')
      rw [hi,hj]
      exact hparts p hp
    · exact hold _ (hgoals g' (by simpa using .inr hg'))
  · rw [choose_unsolved,open_scheduleAll]
    refine List.rel_append (hids.imp fun _ _ => hold _) ?_
    rw [List.forall₂_map_left_iff,List.forall₂_map_right_iff,List.forall₂_same]
    exact fun p hp => hparts p (List.mem_of_mem_filter hp)
  · rw [hagenda,List.append_assoc]
    refine hperm.trans (List.Perm.append_left ids ?_)
    rw [← List.append_assoc,← List.map_append]
    exact List.Perm.append_right _ ((List.filter_append_perm _ _).map _).symm
  · rw [hagenda,List.append_assoc,← List.append_assoc (List.map _ _) (List.map _ _),← List.map_append,
      filter_staysOpen_append (uniform_parts fun r hr => (ha r hr).2 ho),hholes,hh.order ho]
    exact flatMap_replace hfresh.1 hfresh.2

end Draft

namespace HoleLog

theorem Below.append {m n : Nat} {log new : HoleLog} (h : log.Below m) (hn : (new.map (·.1)).Nodup)
    (hb : ∀ p ∈ new, m ≤ p.1 ∧ p.1 < n) (hm : m ≤ n) : HoleLog.Below n (log ++ new) := by
  refine ⟨?_,fun p hp => ?_⟩
  · rw [List.map_append]
    refine List.nodup_append.2 ⟨h.1,hn,fun x hx y hy e => ?_⟩
    obtain ⟨p,hp,rfl⟩ := List.mem_map.1 hx
    obtain ⟨q,hq,rfl⟩ := List.mem_map.1 hy
    have := h.2 p hp
    have := (hb q hq).1
    omega
  · rcases List.mem_append.1 hp with hp | hp
    · exact Nat.lt_of_lt_of_le (h.2 p hp) hm
    · exact (hb p hp).2

end HoleLog

namespace Frontier

structure Paired (ordered : Prop) (log : HoleLog) (f : Frontier ι) : Prop where
  below : log.Below f.next
  drafts : ∀ d ∈ f.drafts, d.Paired ordered log
  found : ∀ d ∈ f.found, d.Paired ordered log

/-- What is known about a frontier when every refinement that can be offered satisfies a condition. -/
structure Tracked (ctx : Context) (P : Judgement → Refinement (Tactic ι) → Prop) (ordered : Prop)
    (log : HoleLog) (f : Frontier ι) : Prop where
  numbered : ∀ d ∈ f.drafts, d.Numbered f.next
  built : ∀ d ∈ f.drafts, ∀ g ∈ d.agenda, g.Built ctx (Tactic.Offers ctx P)
  paired : f.Paired ordered log

theorem tracked_start (procs : ι → Tactic ι) {ctx : Context} (bound : Nat)
    {P : Judgement → Refinement (Tactic ι) → Prop} {ordered : Prop} {j : Judgement} {t : Tactic ι}
    (ht : t.Built ctx (Tactic.Offers ctx P)) :
    (start j t).Tracked ctx P ordered (log procs ctx bound j []) where
  numbered d hd := by
    cases List.mem_singleton.1 hd
    exact .start _ rfl
  built d hd g hg := by
    cases List.mem_singleton.1 hd
    cases List.mem_singleton.1 hg
    exact ⟨ht,fun t ht => by cases ht⟩
  paired := by
    refine ⟨by simp [HoleLog.Below,log,start],fun d hd => ?_,fun d hd => by cases hd⟩
    cases List.mem_singleton.1 hd
    refine ⟨by simp [log],[],.nil,?_,?_,fun _ => ?_⟩ <;>
      simp [Draft.term,Term.instantiate,Term.follow,Term.holes]

variable {procs : ι → Tactic ι} {ctx : Context} {bound : Nat} {P : Judgement → Refinement (Tactic ι) → Prop}
  {ordered : Prop} {log : HoleLog} {f f' : Frontier ι}

theorem Tracked.offered (h : f.Tracked ctx P ordered log) (hp : ∀ l, (procs l).Built ctx (Tactic.Offers ctx P))
    {d : Draft ι} {g : Goal ι} {gs : List (Goal ι)} {as : List (Alternative ι)} (hd : d ∈ f.drafts)
    (ha : d.agenda = g :: gs) (ho : (g.expansion procs ctx bound).outcome = .ok as)
    {a : Alternative ι} (hm : a ∈ as) {r : Refinement (Tactic ι)} (hr : a.refinement = some r) :
    P g.judgement r := by
  obtain ⟨ht,hrest⟩ := h.built d hd g (by simp [ha])
  obtain ⟨_,_,rs,hR,hrs,hmem,-⟩ := (Tactic.offered_of_expand hp ht hrest ho a hm).refinement r hr
  exact hR _ rs hrs r hmem

theorem Step.below (hs : Step procs ctx bound f f') (h : log.Below f.next) :
    HoleLog.Below f'.next (log ++ f.created procs ctx bound) := by
  cases hs with
  | finished hd ha =>
    rw [record_next]
    simpa [created,goal?_of_nil hd ha] using h
  | failed hd ha ho => simpa [created,goal?_of_cons hd ha,ho] using h
  | @opened d ds g gs as hd ha ho =>
    obtain ⟨hnew,hrange⟩ := Alternative.createdAll_keys { d with agenda := gs } g as f.next
    have hc : f.created procs ctx bound = Alternative.createdAll as f.next := by
      simp [created,goal?_of_cons hd ha,ho]
    rw [hc]
    exact h.append hnew hrange (Draft.le_chooseAll ..)

/-- A step keeps a frontier paired with the log, extended by the holes that the step creates. -/
theorem Step.paired (hp : ∀ l, (procs l).Built ctx (Tactic.Offers ctx P))
    (hP : ∀ j r, P j r → r.InOrder ∧ (ordered → r.Uniform)) (hs : Step procs ctx bound f f')
    (h : f.Tracked ctx P ordered log) : f'.Paired ordered (log ++ f.created procs ctx bound) := by
  have hmono : ∀ p ∈ log, p ∈ log ++ f.created procs ctx bound := fun p hp => by simp [hp]
  have hdrafts : ∀ d ∈ f.drafts, d.Paired ordered (log ++ f.created procs ctx bound) :=
    fun d hd => (h.paired.drafts d hd).mono hmono
  refine ⟨hs.below h.paired.below,fun d hd => ?_,fun y hy => ?_⟩
  · rcases hs.mem_drafts hd with hd | ⟨mem,agenda,outcome,alternative,next,_,created⟩
    · exact hdrafts d hd
    · exact (h.paired.drafts _ mem).choose (h.numbered _ mem) agenda next
        (fun r hr => hP _ r (h.offered hp mem agenda outcome alternative hr)) hmono
        fun p hp => by simp [created p hp]
  · rcases hs.mem_found hy with hy | ⟨d,hd,agenda,rfl⟩
    · obtain ⟨ids,hids,hh⟩ := h.paired.found y hy
      exact ⟨ids,hids.imp fun _ _ => hmono _,hh⟩
    · obtain ⟨-,ids,hids,hh⟩ := hdrafts d hd
      rw [agenda,List.map_nil,List.append_nil] at hh
      exact ⟨ids,hids,hh⟩

theorem Step.tracked (hp : ∀ l, (procs l).Built ctx (Tactic.Offers ctx P))
    (hP : ∀ j r, P j r → r.InOrder ∧ (ordered → r.Uniform)) (hs : Step procs ctx bound f f')
    (h : f.Tracked ctx P ordered log) :
    f'.Tracked ctx P ordered (log ++ f.created procs ctx bound) :=
  ⟨hs.numbered h.numbered,hs.built hp h.built,hs.paired hp hP h⟩

theorem log_append (procs : ι → Tactic ι) (ctx : Context) (bound : Nat) (j : Judgement)
    (fs : List (Frontier ι)) (f : Frontier ι) :
    Frontier.log procs ctx bound j (fs ++ [f]) =
      Frontier.log procs ctx bound j fs ++ f.created procs ctx bound := by
  simp [Frontier.log]

theorem Run.paired {t : Tactic ι} (ht : t.AllOffer procs ctx P)
    (hP : ∀ j r, P j r → r.InOrder ∧ (ordered → r.Uniform)) {limit : Nat} {j : Judgement}
    {fs : List (Frontier ι)} (r : Run procs ctx bound limit fs (start j t) f) :
    f.Paired ordered (Frontier.log procs ctx bound j fs) := by
  have hstep (past : List (Frontier ι)) (f f' : Frontier ι)
      (h : f.Tracked ctx P ordered (Frontier.log procs ctx bound j past))
      (hs : Step procs ctx bound f f') :
      f'.Tracked ctx P ordered (Frontier.log procs ctx bound j (past ++ [f])) := by
    rw [log_append]
    exact hs.tracked ht.2 hP h
  exact (r.invariant hstep (tracked_start procs bound ht.1)).paired

end Frontier

/-- The holes of a derivation's term stand for its open goals, each hole for the judgement under which
the log has it; from left to right if `ordered` holds. -/
structure Derivation.Matches (ordered : Prop) (log : HoleLog) (d : Derivation) : Prop where
  nodup : d.term.holes.Nodup
  length : d.term.holes.length = d.unsolved.length
  bijection : ∃ ids, ids.Perm d.term.holes ∧ List.Forall₂ (fun i j => log.lookup i = some j) ids d.unsolved
  order : ordered → List.Forall₂ (fun i j => log.lookup i = some j) d.term.holes d.unsolved
  closed : d.unsolved = [] ↔ d.term.holes = []

theorem Derivation.Paired.matches {ordered : Prop} {log : HoleLog} {next : Nat} {d : Derivation}
    (h : d.Paired ordered log) (hl : log.Below next) : d.Matches ordered log := by
  obtain ⟨ids,hids,hh⟩ := h
  have hlook : List.Forall₂ (fun i j => log.lookup i = some j) ids d.unsolved :=
    hids.imp fun _ _ => hl.lookup
  have hlen : d.term.holes.length = d.unsolved.length := hh.perm.length_eq.trans hlook.length_eq
  refine ⟨hh.nodup,hlen,⟨ids,hh.perm.symm,hlook⟩,fun ho => hh.order ho ▸ hlook,?_⟩
  rw [← List.length_eq_zero_iff,← hlen,List.length_eq_zero_iff]

/-- The rules of the library and those that apply a head to new holes keep holes in order, and whenever
all rules do so, the holes of each derivation that a search returns match its open goals. -/
theorem search_matches {procs : ι → Tactic ι} {ctx : Context} {t : Tactic ι} :
    (∀ t : Tactic ι, t.LibraryRule → t.Offers ctx fun _ r => r.InOrder ∧ r.Uniform) ∧
    (∀ name refine,
      (∀ j rs, refine ctx j = .ok rs → ∀ r ∈ rs, ∃ head goals, r = .application head goals) →
        (Tactic.rule (ι := ι) name refine).Offers ctx fun _ r => r.InOrder) ∧
    (t.AllOffer procs ctx (fun _ r => r.InOrder) → ∀ cfg j ds, search procs cfg ctx j t = .ok ds →
      ∃ bound budget left f,
        (Frontier.start j t).explore procs ctx bound (max 1 cfg.maxSolutions) budget = some (left,f) ∧
        f.found = ds ∧
        ∀ d ∈ ds, d.Matches (t.AllOffer procs ctx fun _ r => r.Uniform)
          (Frontier.log procs ctx bound j
            ((Frontier.start j t).passed procs ctx bound (max 1 cfg.maxSolutions) budget))) := by
  refine ⟨fun t ht => ht.offers,fun name refine happ => ?_,fun ht cfg j ds h => ?_⟩
  · intro j rs hf r hr
    obtain ⟨head,goals,rfl⟩ := happ j rs hf r hr
    exact Refinement.inOrder_application head goals
  · have hboth : t.AllOffer procs ctx fun _ r =>
        r.InOrder ∧ (t.AllOffer procs ctx (fun _ r => r.Uniform) → r.Uniform) := by
      by_cases hu : t.AllOffer procs ctx fun _ r => r.Uniform
      · exact (ht.and hu).mono fun _ _ h => ⟨h.1,fun _ => h.2⟩
      · exact ht.mono fun _ _ h => ⟨h,fun hu' => absurd hu' hu⟩
    obtain ⟨bound,budget,left,f,he,hds⟩ := found_of_search h
    refine ⟨bound,budget,left,f,he,hds,fun d hd => ?_⟩
    have hpair := (Frontier.explore_run he).paired hboth fun _ _ h => h
    exact (hpair.found d (hds ▸ hd)).matches hpair.below

def Tactic.pair : Tactic Empty :=
  .rule "pair" fun _ j => .ok [.application "pair" [⟨j,none⟩,⟨j,none⟩]]

theorem Tactic.pair_built {ctx : Context} {P : Judgement → Refinement (Tactic Empty) → Prop}
    (h : ∀ j, P j (.application "pair" [⟨j,none⟩,⟨j,none⟩])) : Tactic.pair.Built ctx (Offers ctx P) := by
  refine .rule (fun j rs hf r hr => ?_) fun j rs r s t hf hr hs ht => ?_
  · cases hf
    cases List.mem_singleton.1 hr
    exact h j
  · cases hf
    cases List.mem_singleton.1 hr
    have hn : s.tactic = none := by
      rcases List.mem_pair.1 hs with rfl | rfl <;> rfl
    rw [hn] at ht
    cases ht

def Judgement.bare : Judgement where
  goal := .const "A"
  hypothesis := .empty

theorem search_matches_pair :
    ∃ bound budget left f,
      (Frontier.start .bare (.andThen .pair .pair)).explore Empty.elim ⟨[],.empty,{}⟩ bound 8 budget =
        some (left,f) ∧
      f.found.map (·.unsolved.length) = [4] ∧
      ∀ d ∈ f.found, d.Matches True
        (Frontier.log Empty.elim ⟨[],.empty,{}⟩ bound .bare
          ((Frontier.start .bare (.andThen .pair .pair)).passed Empty.elim ⟨[],.empty,{}⟩ bound 8
            budget)) := by
  have offers {P : Judgement → Refinement (Tactic Empty) → Prop}
      (h : ∀ j, P j (.application "pair" [⟨j,none⟩,⟨j,none⟩])) :
      (Tactic.andThen .pair .pair).AllOffer Empty.elim ⟨[],.empty,{}⟩ P :=
    ⟨.andThen (Tactic.pair_built h) (Tactic.pair_built h),fun l => l.elim⟩
  obtain ⟨bound,budget,left,f,he,hf,hm⟩ :=
    (search_matches (t := .andThen .pair .pair)).2.2 (offers fun j => Refinement.inOrder_application _ _)
      { extensions := .none } .bare _ rfl
  have uniform := offers (P := fun _ r => r.Uniform) fun j => .inr (by simp [Refinement.application])
  refine ⟨bound,budget,left,f,he,by rw [hf]; rfl,fun d hd => ?_⟩
  have h := hm d (hf ▸ hd)
  exact { h with order := fun _ => h.order uniform }

end TypedHole
