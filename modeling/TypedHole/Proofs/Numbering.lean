import TypedHole.Proofs.Exploration
import TypedHole.Proofs.Filling

/-! How holes are numbered during a run.
A draft is numbered below a bound when its solutions are staged and its agenda holds distinct unsolved
holes, all below the bound. Main statements: a step leaves only older drafts and alternatives for the
first goal of one of them (`Frontier.Step.mem_drafts`), and it keeps all drafts numbered below the next
free number (`Frontier.Step.numbered`). -/
namespace TypedHole

variable {ι : Type}

/-- Holes, each with the judgement it was set aside for. -/
abbrev HoleLog := List (Nat × Judgement)

def Subgoal.staysOpen {τ : Type} (s : Subgoal τ) (rest : List τ) : Bool :=
  s.tactic.isNone && rest.isEmpty

namespace Alternative

def width (a : Alternative ι) : Nat := (a.refinement.map (·.width)).getD 0

/-- The goals that an alternative leaves, each with its hole. New holes are numbered from `next` on. -/
def parts (a : Alternative ι) (g : Goal ι) (next : Nat) : List (Nat × Subgoal (Tactic ι)) :=
  match a.refinement with
  | none => [(g.hole,⟨g.judgement,none⟩)]
  | some r => r.subgoals.mapIdx fun i s => (next + i,s)

def created (a : Alternative ι) (next : Nat) : HoleLog :=
  match a.refinement with
  | none => []
  | some r => r.subgoals.mapIdx fun i s => (next + i,s.judgement)

/-- The new holes of several alternatives, each numbered after those before it. -/
def createdAll : List (Alternative ι) → Nat → HoleLog
  | [], _ => []
  | a :: as, next => a.created next ++ createdAll as (next + a.width)

def subgoals (a : Alternative ι) (j : Judgement) : List (Subgoal (Tactic ι)) :=
  match a.refinement with
  | none => [⟨j,none⟩]
  | some r => r.subgoals

def depth (a : Alternative ι) (above : Nat) : Nat :=
  match a.refinement with
  | none => above
  | some _ => above + 1

theorem width_some {a : Alternative ι} {r : Refinement (Tactic ι)} (h : a.refinement = some r) :
    a.width = r.width := by simp [width,h]

theorem parts_some {a : Alternative ι} {g : Goal ι} {n : Nat} {r : Refinement (Tactic ι)}
    (h : a.refinement = some r) : (a.parts g n).map (·.1) = List.range' n r.subgoals.length := by
  refine List.ext_getElem (by simp [parts,h]) fun i hi _ => ?_
  simp [parts,h]

theorem parts_subgoals (a : Alternative ι) (g : Goal ι) (n : Nat) :
    (a.parts g n).map (·.2) = a.subgoals g.judgement := by
  cases h : a.refinement <;>
    simp [parts,subgoals,h,List.mapIdx_eq_zipIdx_map,Function.comp_def]

theorem mem_parts {a : Alternative ι} {g : Goal ι} {n : Nat} {p : Nat × Subgoal (Tactic ι)}
    (h : p ∈ a.parts g n) : (a.refinement = none ∧ p = (g.hole,⟨g.judgement,none⟩)) ∨
      ∃ r, a.refinement = some r ∧ p.2 ∈ r.subgoals := by
  cases hr : a.refinement with
  | none => exact .inl ⟨rfl,by simpa [parts,hr] using h⟩
  | some r =>
    simp only [parts,hr] at h
    obtain ⟨i,hi,rfl⟩ := List.mem_mapIdx.1 h
    exact .inr ⟨r,rfl,List.getElem_mem hi⟩

end Alternative

namespace Draft

/-- The term of a draft, with holes where something is still to be written. -/
def term (d : Draft ι) : Term := (Term.hole 0).instantiate d.fills

def scheduleAll (rest : List (Tactic ι)) (depth : Nat) (ps : List (Nat × Subgoal (Tactic ι))) :
    List (Goal ι ⊕ Judgement) := ps.map fun p => schedule p.1 p.2 rest depth

theorem choose_agenda (d : Draft ι) (g : Goal ι) (a : Alternative ι) (next : Nat) :
    (d.choose g a next).agenda =
      (scheduleAll a.rest (a.depth g.depth) (a.parts g next)).filterMap Sum.getLeft? ++ d.agenda := by
  cases h : a.refinement <;>
    simp [choose,enter,h,scheduleAll,Alternative.parts,Alternative.depth,List.mapIdx_eq_zipIdx_map,
      Function.comp_def]

theorem choose_unsolved (d : Draft ι) (g : Goal ι) (a : Alternative ι) (next : Nat) :
    (d.choose g a next).unsolved =
      d.unsolved ++ (scheduleAll a.rest (a.depth g.depth) (a.parts g next)).filterMap Sum.getRight? := by
  cases h : a.refinement <;>
    simp [choose,enter,h,scheduleAll,Alternative.parts,Alternative.depth,List.mapIdx_eq_zipIdx_map,
      Function.comp_def]

theorem choose_fills_none {d : Draft ι} {g : Goal ι} {a : Alternative ι} {next : Nat}
    (h : a.refinement = none) : (d.choose g a next).fills = d.fills := by
  simp [choose,enter,h]

theorem choose_fills_some {d : Draft ι} {g : Goal ι} {a : Alternative ι} {next : Nat}
    {r : Refinement (Tactic ι)} (h : a.refinement = some r) :
    (d.choose g a next).fills = (g.hole,r.extract.shift next) :: d.fills := by
  simp [choose,enter,h]

theorem chooseAll_cons (d : Draft ι) (g : Goal ι) (a : Alternative ι) (as : List (Alternative ι))
    (next : Nat) : d.chooseAll g (a :: as) next =
      (d.choose g a next :: (d.chooseAll g as (next + a.width)).1,
        (d.chooseAll g as (next + a.width)).2) := rfl

theorem le_chooseAll (d : Draft ι) (g : Goal ι) (as : List (Alternative ι)) (next : Nat) :
    next ≤ (d.chooseAll g as next).2 := by
  induction as generalizing next with
  | nil => exact Nat.le_refl _
  | cons a as ih => exact Nat.le_trans (Nat.le_add_right ..) (ih _)

theorem mem_chooseAll {d d' : Draft ι} {g : Goal ι} {as : List (Alternative ι)} {next : Nat}
    (h : d' ∈ (d.chooseAll g as next).1) : ∃ a ∈ as, ∃ n, next ≤ n ∧
      n + a.width ≤ (d.chooseAll g as next).2 ∧ d' = d.choose g a n ∧
        ∀ p ∈ a.created n, p ∈ Alternative.createdAll as next := by
  induction as generalizing next with
  | nil => simp [Draft.chooseAll] at h
  | cons a as ih =>
    rw [chooseAll_cons] at h
    rcases List.mem_cons.1 h with rfl | h
    · exact ⟨a,by simp,next,Nat.le_refl _,le_chooseAll ..,rfl,fun p hp => List.mem_append.2 (.inl hp)⟩
    · obtain ⟨b,hb,n,hn,hroom,rfl,hc⟩ := ih h
      exact ⟨b,by simp [hb],n,Nat.le_trans (Nat.le_add_right ..) hn,hroom,rfl,
        fun p hp => List.mem_append.2 (.inr (hc p hp))⟩

theorem schedule_inl {i : Nat} {s : Subgoal (Tactic ι)} {rest : List (Tactic ι)} {depth : Nat}
    {g : Goal ι} (h : schedule i s rest depth = .inl g) :
    g.hole = i ∧ g.judgement = s.judgement ∧ g.depth = depth ∧
      (s.tactic = some g.tactic ∧ g.rest = rest ∨ s.tactic = none ∧ rest = g.tactic :: g.rest) := by
  simp only [schedule] at h
  split at h
  next hs => cases h; exact ⟨rfl,rfl,rfl,.inl ⟨hs,rfl⟩⟩
  next hs => cases h; exact ⟨rfl,rfl,rfl,.inr ⟨hs,rfl⟩⟩
  next => cases h

theorem schedule_of_staysOpen (s : Subgoal (Tactic ι)) (rest : List (Tactic ι)) (i depth : Nat) :
    if s.staysOpen rest then schedule i s rest depth = .inr s.judgement
    else ∃ g, schedule i s rest depth = .inl g ∧ g.hole = i := by
  obtain ⟨j,t⟩ := s
  cases t <;> cases rest <;> simp [Subgoal.staysOpen,schedule]

theorem open_scheduleAll (rest : List (Tactic ι)) (depth : Nat) (ps : List (Nat × Subgoal (Tactic ι))) :
    (scheduleAll rest depth ps).filterMap Sum.getRight? =
      (ps.filter (·.2.staysOpen rest)).map (·.2.judgement) := by
  induction ps with
  | nil => rfl
  | cons p ps ih =>
    have hp := schedule_of_staysOpen p.2 rest p.1 depth
    simp only [scheduleAll,List.map_cons,List.filterMap_cons,List.filter_cons] at ih ⊢
    split at hp
    next ho => simpa [hp,ho] using ih
    next ho =>
      obtain ⟨g,hg,-⟩ := hp
      simpa [hg,ho] using ih

theorem holes_scheduleAll (rest : List (Tactic ι)) (depth : Nat) (ps : List (Nat × Subgoal (Tactic ι))) :
    ((scheduleAll rest depth ps).filterMap Sum.getLeft?).map (·.hole) =
      (ps.filter fun p => !p.2.staysOpen rest).map (·.1) := by
  induction ps with
  | nil => rfl
  | cons p ps ih =>
    have hp := schedule_of_staysOpen p.2 rest p.1 depth
    simp only [scheduleAll,List.map_cons,List.filterMap_cons,List.filter_cons] at ih ⊢
    split at hp
    next ho => simpa [hp,ho] using ih
    next ho =>
      obtain ⟨g,hg,hi⟩ := hp
      simpa [hg,ho,hi] using ih

theorem holes_scheduleAll_sublist (rest : List (Tactic ι)) (depth : Nat)
    (ps : List (Nat × Subgoal (Tactic ι))) :
    (((scheduleAll rest depth ps).filterMap Sum.getLeft?).map (·.hole)).Sublist (ps.map (·.1)) := by
  rw [holes_scheduleAll]
  exact List.filter_sublist.map _

theorem mem_chooseAll_of_mem {d : Draft ι} {g : Goal ι} {as : List (Alternative ι)} {a : Alternative ι}
    (ha : a ∈ as) (next : Nat) : ∃ n, next ≤ n ∧ d.choose g a n ∈ (d.chooseAll g as next).1 := by
  induction as generalizing next with
  | nil => cases ha
  | cons b as ih =>
    rw [chooseAll_cons]
    rcases List.mem_cons.1 ha with rfl | ha
    · exact ⟨next,Nat.le_refl _,by simp⟩
    · obtain ⟨n,hle,hn⟩ := ih ha (next + b.width)
      exact ⟨n,Nat.le_trans (Nat.le_add_right ..) hle,by simp [hn]⟩

end Draft

def Goal.unnumbered (g : Goal ι) : Goal ι := { g with hole := 0 }

namespace Draft

def scheduled (rest : List (Tactic ι)) (depth : Nat) (ss : List (Subgoal (Tactic ι))) : List (Goal ι) :=
  ss.filterMap fun s => (schedule 0 s rest depth).getLeft?

theorem scheduled_cons_inr {s : Subgoal (Tactic ι)} {rest : List (Tactic ι)} {depth : Nat} {j : Judgement}
    (h : schedule 0 s rest depth = .inr j) (ss : List (Subgoal (Tactic ι))) :
    scheduled rest depth (s :: ss) = scheduled rest depth ss := by
  simp [scheduled,h]

theorem scheduled_cons_inl {s : Subgoal (Tactic ι)} {rest : List (Tactic ι)} {depth : Nat} {g : Goal ι}
    (h : schedule 0 s rest depth = .inl g) (ss : List (Subgoal (Tactic ι))) :
    scheduled rest depth (s :: ss) = g :: scheduled rest depth ss := by
  simp [scheduled,h]

theorem unnumbered_scheduleAll (rest : List (Tactic ι)) (depth : Nat)
    (ps : List (Nat × Subgoal (Tactic ι))) :
    ((scheduleAll rest depth ps).filterMap Sum.getLeft?).map Goal.unnumbered =
      scheduled rest depth (ps.map (·.2)) := by
  have hone (i : Nat) (s : Subgoal (Tactic ι)) :
      (schedule i s rest depth).getLeft?.map Goal.unnumbered = (schedule 0 s rest depth).getLeft? := by
    obtain ⟨j,t⟩ := s
    cases t <;> cases rest <;> rfl
  simp only [scheduleAll,scheduled,List.map_filterMap,List.filterMap_map,Function.comp_def,hone]

end Draft

def Alternative.goals (a : Alternative ι) (g : Goal ι) : List (Goal ι) :=
  Draft.scheduled a.rest (a.depth g.depth) (a.subgoals g.judgement)

namespace Draft

theorem unnumbered_choose (d : Draft ι) (g : Goal ι) (a : Alternative ι) (next : Nat) :
    (d.choose g a next).agenda.map Goal.unnumbered = a.goals g ++ d.agenda.map Goal.unnumbered := by
  rw [choose_agenda,List.map_append,unnumbered_scheduleAll,Alternative.parts_subgoals,Alternative.goals]

/-- The solutions of a draft are staged, and its agenda holds distinct unsolved holes; all holes are
numbered below `next`. -/
structure Numbered (next : Nat) (d : Draft ι) : Prop where
  staged : Term.Staged d.fills
  fresh : ∀ i, next ≤ i → d.fills.lookup i = none
  distinct : (d.agenda.map (·.hole)).Nodup
  below : ∀ g ∈ d.agenda, g.hole < next
  unsolved : ∀ g ∈ d.agenda, d.fills.lookup g.hole = none
  term_below : ∀ i ∈ d.term.holes, i < next

namespace Numbered

theorem mono {m n : Nat} {d : Draft ι} (h : Numbered m d) (hm : m ≤ n) : Numbered n d where
  staged := h.staged
  fresh i hi := h.fresh i (Nat.le_trans hm hi)
  distinct := h.distinct
  below g hg := Nat.lt_of_lt_of_le (h.below g hg) hm
  unsolved := h.unsolved
  term_below i hi := Nat.lt_of_lt_of_le (h.term_below i hi) hm

theorem start (g : Goal ι) (h : g.hole = 0) : Numbered 1 ⟨[g],[],[]⟩ where
  staged := trivial
  fresh _ _ := rfl
  distinct := by simp
  below := by simp [h]
  unsolved := by simp
  term_below := by simp [term,Term.instantiate,Term.follow,Term.holes]

variable {m n : Nat} {d : Draft ι} {g : Goal ι} {gs : List (Goal ι)} {a : Alternative ι}

theorem hole_not_mem (h : Numbered m d) (hd : d.agenda = g :: gs) : g.hole ∉ gs.map (·.hole) := by
  have := h.distinct
  rw [hd] at this
  exact (List.nodup_cons.1 this).1

theorem lt_of_mem_shift {r : Refinement (Tactic ι)} {i : Nat} (hi : i ∈ (r.extract.shift n).holes) :
    n ≤ i ∧ i < n + r.width := by
  rw [Term.holes_shift] at hi
  obtain ⟨k,hk,rfl⟩ := List.mem_map.1 hi
  have := Term.lt_holeBound hk
  have hw : r.extract.holeBound ≤ r.width := Nat.le_max_right ..
  omega

theorem staged_cons (h : Numbered m d) (hd : d.agenda = g :: gs) (hm : m ≤ n)
    (r : Refinement (Tactic ι)) : Term.Staged ((g.hole,r.extract.shift n) :: d.fills) := by
  have hg : g.hole < m := h.below g (by simp [hd])
  refine ⟨fun i hi => ?_,fun hi => ?_,h.staged⟩
  · rcases List.mem_cons.1 hi with rfl | hi
    · exact h.unsolved g (by simp [hd])
    · exact h.fresh i (Nat.le_trans hm (lt_of_mem_shift hi).1)
  · have := (lt_of_mem_shift hi).1
    omega

theorem term_choose (h : Numbered m d) (hd : d.agenda = g :: gs) (hm : m ≤ n)
    {r : Refinement (Tactic ι)} (ha : a.refinement = some r) :
    ({ d with agenda := gs }.choose g a n).term = d.term.plug g.hole (r.extract.shift n) := by
  rw [term,choose_fills_some ha]
  exact Term.instantiate_cons (h.staged_cons hd hm r) _

theorem term_choose_none (ha : a.refinement = none) :
    ({ d with agenda := gs }.choose g a n).term = d.term := by
  rw [term,choose_fills_none ha]
  rfl

/-- New goals have new holes; a goal that is passed on keeps its hole. -/
theorem parts_holes (h : Numbered m d) (hd : d.agenda = g :: gs) (hm : m ≤ n) :
    ((a.parts g n).map (·.1) ++ gs.map (·.hole)).Nodup ∧
      ∀ i ∈ (a.parts g n).map (·.1), i < n + a.width ∧
        ({ d with agenda := gs }.choose g a n).fills.lookup i = none := by
  have hg : g.hole < m := h.below g (by simp [hd])
  have hgs : ∀ k ∈ gs.map (·.hole), k < m := by
    intro k hk
    obtain ⟨g',hg',rfl⟩ := List.mem_map.1 hk
    exact h.below g' (by simp [hd,hg'])
  have hdist := h.distinct
  rw [hd] at hdist
  cases hr : a.refinement with
  | none =>
    refine ⟨by simpa [Alternative.parts,hr] using hdist,fun i hi => ?_⟩
    have hi : i = g.hole := by simpa [Alternative.parts,hr] using hi
    rw [choose_fills_none hr,hi]
    exact ⟨by omega,h.unsolved g (by simp [hd])⟩
  | some r =>
    rw [Alternative.parts_some hr]
    refine ⟨List.nodup_append.2 ⟨List.nodup_range' ..,(List.nodup_cons.1 hdist).2,?_⟩,fun i hi => ?_⟩
    · intro i hi k hk e
      have := (List.mem_range'_1.1 hi).1
      have := hgs k hk
      omega
    · obtain ⟨hl,hu⟩ := List.mem_range'_1.1 hi
      have hw : r.subgoals.length ≤ r.width := Nat.le_max_left ..
      have ha := Alternative.width_some hr
      rw [choose_fills_some hr,Term.lookup_cons,if_neg (by omega)]
      exact ⟨by omega,h.fresh i (by omega)⟩

theorem choose (h : Numbered m d) (hd : d.agenda = g :: gs) (hm : m ≤ n) (a : Alternative ι) :
    Numbered (n + a.width) ({ d with agenda := gs }.choose g a n) := by
  obtain ⟨hdist,hnew⟩ := h.parts_holes (a := a) hd hm
  have hg : g.hole < m := h.below g (by simp [hd])
  have hsub := holes_scheduleAll_sublist a.rest (a.depth g.depth) (a.parts g n)
  have hold : ∀ g' ∈ gs, g'.hole < m ∧
      ({ d with agenda := gs }.choose g a n).fills.lookup g'.hole = none := by
    intro g' hg'
    have hl := h.below g' (by simp [hd,hg'])
    have hu := h.unsolved g' (by simp [hd,hg'])
    have hne : g'.hole ≠ g.hole := fun e =>
      h.hole_not_mem hd (e ▸ List.mem_map_of_mem hg')
    cases hr : a.refinement with
    | none => rw [choose_fills_none hr]; exact ⟨hl,hu⟩
    | some r => rw [choose_fills_some hr,Term.lookup_cons,if_neg hne]; exact ⟨hl,hu⟩
  have hmem : ∀ g' ∈ ({ d with agenda := gs }.choose g a n).agenda,
      g'.hole ∈ (a.parts g n).map (·.1) ∨ g' ∈ gs := by
    intro g' hg'
    rw [choose_agenda] at hg'
    rcases List.mem_append.1 hg' with hg' | hg'
    · exact .inl (hsub.subset (List.mem_map_of_mem hg'))
    · exact .inr hg'
  refine ⟨?_,fun i hi => ?_,?_,fun g' hg' => ?_,fun g' hg' => ?_,fun i hi => ?_⟩
  · cases hr : a.refinement with
    | none => rw [choose_fills_none hr]; exact h.staged
    | some r => rw [choose_fills_some hr]; exact h.staged_cons hd hm r
  · cases hr : a.refinement with
    | none => rw [choose_fills_none hr]; exact h.fresh i (by omega)
    | some r =>
      rw [choose_fills_some hr,Term.lookup_cons,if_neg (by omega)]
      exact h.fresh i (by omega)
  · rw [choose_agenda,List.map_append]
    exact hdist.sublist (hsub.append_right _)
  · rcases hmem g' hg' with hg' | hg'
    · exact (hnew _ hg').1
    · have := (hold g' hg').1
      omega
  · rcases hmem g' hg' with hg' | hg'
    · exact (hnew _ hg').2
    · exact (hold g' hg').2
  · cases hr : a.refinement with
    | none =>
      rw [term_choose_none hr] at hi
      have := h.term_below i hi
      omega
    | some r =>
      rw [h.term_choose hd hm hr,Term.holes_plug] at hi
      obtain ⟨k,hk,hi⟩ := List.mem_flatMap.1 hi
      have hk := h.term_below k hk
      have ha := Alternative.width_some hr
      split at hi
      · have := (lt_of_mem_shift hi).2
        omega
      · have := List.mem_singleton.1 hi
        omega

end Numbered
end Draft

namespace Frontier

variable {procs : ι → Tactic ι} {ctx : Context} {bound : Nat} {f f' : Frontier ι}

def created (procs : ι → Tactic ι) (ctx : Context) (bound : Nat) (f : Frontier ι) : HoleLog :=
  match f.goal? with
  | none => []
  | some g => match (g.expansion procs ctx bound).outcome with
    | .error _ => []
    | .ok as => Alternative.createdAll as f.next

/-- The drafts that a step can put on a frontier: alternatives for the first goal of an older draft, with
new holes of their own. -/
inductive Chosen (procs : ι → Tactic ι) (ctx : Context) (bound : Nat) (f f' : Frontier ι) : Draft ι → Prop
  | intro {d : Draft ι} {g : Goal ι} {gs : List (Goal ι)} {as : List (Alternative ι)} {a : Alternative ι}
      {n : Nat} (mem : d ∈ f.drafts) (agenda : d.agenda = g :: gs)
      (outcome : (g.expansion procs ctx bound).outcome = .ok as) (alternative : a ∈ as)
      (next : f.next ≤ n) (room : n + a.width ≤ f'.next)
      (created : ∀ p ∈ a.created n, p ∈ f.created procs ctx bound) :
      Chosen procs ctx bound f f' ({ d with agenda := gs }.choose g a n)

theorem Step.next_le (hs : Step procs ctx bound f f') : f.next ≤ f'.next := by
  cases hs with
  | @finished d ds =>
    have hn := record_next { f with drafts := ds } (d.finish 0)
    exact Nat.le_of_eq hn.symm
  | failed => exact Nat.le_refl _
  | opened => exact Draft.le_chooseAll ..

/-- Every draft after a step is an older one or has just been chosen. -/
theorem Step.mem_drafts (hs : Step procs ctx bound f f') {d : Draft ι} (h : d ∈ f'.drafts) :
    d ∈ f.drafts ∨ Chosen procs ctx bound f f' d := by
  cases hs with
  | finished hd _ =>
    rw [record_drafts] at h
    exact .inl (by simp [hd,h])
  | failed hd _ _ => exact .inl (by simp [hd,h])
  | @opened d₀ ds g gs as hd ha ho =>
    rcases List.mem_append.1 h with h | h
    · obtain ⟨a,hm,n,hn,hroom,rfl,hc⟩ := Draft.mem_chooseAll h
      have hcreated : f.created procs ctx bound = Alternative.createdAll as f.next := by
        simp [created,goal?_of_cons hd ha,ho]
      exact .inr (.intro (by simp [hd]) ha ho hm hn hroom (by rwa [hcreated]))
    · exact .inl (by simp [hd,h])

theorem Step.mem_found (hs : Step procs ctx bound f f') {y : Derivation} (h : y ∈ f'.found) :
    y ∈ f.found ∨ ∃ d ∈ f.drafts, d.agenda = [] ∧ y = d.finish 0 := by
  cases hs with
  | @finished d ds hd ha =>
    rw [record] at h
    split at h
    · exact .inl h
    · rcases List.mem_append.1 h with h | h
      · exact .inl h
      · exact .inr ⟨d,by simp [hd],ha,List.mem_singleton.1 h⟩
  | failed => exact .inl h
  | opened => exact .inl h

/-- A step keeps the drafts numbered below the next free number. -/
theorem Step.numbered (hs : Step procs ctx bound f f') (h : ∀ d ∈ f.drafts, d.Numbered f.next) :
    ∀ d ∈ f'.drafts, d.Numbered f'.next := by
  intro d hd
  rcases hs.mem_drafts hd with hd | ⟨mem,agenda,_,_,next,room,_⟩
  · exact (h d hd).mono hs.next_le
  · exact ((h _ mem).choose agenda next _).mono room

end Frontier
end TypedHole
