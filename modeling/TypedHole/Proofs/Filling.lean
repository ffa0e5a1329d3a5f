import TypedHole.Tactic

/-! Filling holes one after the other.
Solutions listed newest first are staged when no hole is solved twice and every solution mentions only
holes that are still unsolved at its time. Main statement: under a staged list the last solution can be
put in place at the end (`instantiate_cons`). -/
namespace TypedHole
namespace Term

/-- Puts a term in place of one hole. -/
def plug (t : Term) (k : Nat) (u : Term) : Term := t.bind fun i => if i = k then u else hole i

/-- Forgets how holes are numbered. -/
def blank (t : Term) : Term := t.bind fun _ => hole 0

theorem bind_congr {f g : Nat → Term} (t : Term) (h : ∀ i ∈ t.holes, f i = g i) :
    t.bind f = t.bind g := by
  refine induct (P := fun t => (∀ i ∈ t.holes, f i = g i) → t.bind f = t.bind g)
    (Q := fun as => (∀ i ∈ holesAlts as, f i = g i) → bindAlts f as = bindAlts g as)
    ?_ ?_ ?_ ?_ ?_ ?_ ?_ ?_ t h <;> intros <;> simp_all [bind,bindAlts,holes,holesAlts,or_imp]

theorem bind_eq_self {f : Nat → Term} (t : Term) (h : ∀ i ∈ t.holes, f i = hole i) : t.bind f = t := by
  rw [bind_congr t h,bind_hole]

@[simp] theorem holes_apply (t : Term) (as : List Term) :
    (t.apply as).holes = t.holes ++ as.flatMap holes := by
  induction as generalizing t with
  | nil => simp
  | cons a as ih => simp [ih,holes]

theorem holes_plug (t : Term) (k : Nat) (u : Term) :
    (t.plug k u).holes = t.holes.flatMap fun i => if i = k then u.holes else [i] := by
  rw [plug,holes_bind]
  congr 1
  funext i
  split <;> rfl

theorem holes_shift (n : Nat) (t : Term) : (t.shift n).holes = t.holes.map (n + ·) := by
  rw [shift,holes_bind,List.map_eq_flatMap]
  rfl

@[simp] theorem holes_blank (t : Term) : t.blank.holes = t.holes.map fun _ => 0 := by
  rw [blank,holes_bind,List.map_eq_flatMap]
  rfl

theorem blank_of_closed {t : Term} (h : t.holes = []) : t.blank = t :=
  bind_eq_self t fun i hi => by simp [h] at hi

theorem lt_holeBound {t : Term} {i : Nat} (h : i ∈ t.holes) : i < t.holeBound := by
  rw [holeBound]
  generalize t.holes = is at h
  induction is with
  | nil => simp at h
  | cons k ks ih =>
    rcases List.mem_cons.1 h with rfl | h
    · exact Nat.le_max_left ..
    · exact Nat.lt_of_lt_of_le (ih h) (Nat.le_max_right ..)

/-- Solutions listed newest first, each of a hole that none of the others has touched. -/
def Staged : Solution → Prop
  | [] => True
  | (k,u) :: s => (∀ i ∈ k :: u.holes, s.lookup i = none) ∧ k ∉ u.holes ∧ Staged s

/-- No chain of solutions that starts in the term has more links than the given number. -/
def Within (s : Solution) : Nat → Term → Prop
  | 0, t => ∀ i ∈ t.holes, s.lookup i = none
  | n + 1, t => ∀ i ∈ t.holes, ∀ u, s.lookup i = some u → Within s n u

theorem within_of_unsolved {s : Solution} {t : Term} (n : Nat)
    (h : ∀ i ∈ t.holes, s.lookup i = none) : Within s n t := by
  cases n with
  | zero => exact h
  | succ n =>
    intro i hi u hu
    rw [h i hi] at hu
    cases hu

theorem follow_of_unsolved {s : Solution} {t : Term} (n : Nat)
    (h : ∀ i ∈ t.holes, s.lookup i = none) : follow s n t = t := by
  cases n with
  | zero => rfl
  | succ n =>
    refine bind_eq_self t fun i hi => ?_
    rw [h i hi]

theorem lookup_cons (s : Solution) (k i : Nat) (u : Term) :
    List.lookup i ((k,u) :: s) = if i = k then some u else s.lookup i := by
  by_cases h : i = k
  · simp [h]
  · simp [List.lookup_cons,h,beq_eq_false_iff_ne.2 h]

theorem Staged.unsolved {s : Solution} {k : Nat} {u : Term} (h : Staged ((k,u) :: s)) :
    ∀ i ∈ u.holes, List.lookup i ((k,u) :: s) = none := by
  intro i hi
  have hk : i ≠ k := fun e => h.2.1 (e ▸ hi)
  rw [lookup_cons,if_neg hk]
  exact h.1 i (by simp [hi])

theorem Within.cons {s : Solution} {k : Nat} {u : Term} (hs : Staged ((k,u) :: s)) {n : Nat} {t : Term}
    (h : Within s n t) : Within ((k,u) :: s) (n + 1) t := by
  induction n generalizing t with
  | zero =>
    intro i hi v hv
    rw [lookup_cons,h i hi] at hv
    split at hv
    · cases hv
      exact hs.unsolved
    · cases hv
  | succ n ih =>
    intro i hi v hv
    rw [lookup_cons] at hv
    split at hv
    · cases hv
      exact within_of_unsolved _ hs.unsolved
    · exact ih (h i hi v hv)

theorem Staged.within {s : Solution} (h : Staged s) (t : Term) : Within s s.length t := by
  induction s with
  | nil => exact fun _ _ => rfl
  | cons p s ih => exact (ih h.2.2).cons h

theorem follow_cons {s : Solution} {k : Nat} {u : Term} (hs : Staged ((k,u) :: s)) {n : Nat} {t : Term}
    (h : Within s n t) : follow ((k,u) :: s) (n + 1) t = (follow s n t).plug k u := by
  induction n generalizing t with
  | zero =>
    refine bind_congr t fun i hi => ?_
    rw [lookup_cons,h i hi]
    by_cases hk : i = k
    · simp [hk,follow]
    · simp [hk]
  | succ n ih =>
    -- A hole is filled by the new solution, by an old one, or not at all.
    rw [follow,follow,plug,bind_bind]
    refine bind_congr t fun i hi => ?_
    rw [lookup_cons]
    by_cases hk : i = k
    · subst hk
      rw [hs.1 i (by simp)]
      simpa [bind] using follow_of_unsolved (n + 1) hs.unsolved
    · rw [if_neg hk]
      cases hv : s.lookup i with
      | none => simp [bind,hk]
      | some v => exact ih (h i hi v hv)

/-- The last solution can be put in place when all others are. -/
theorem instantiate_cons {s : Solution} {k : Nat} {u : Term} (hs : Staged ((k,u) :: s)) (t : Term) :
    instantiate ((k,u) :: s) t = (instantiate s t).plug k u :=
  follow_cons hs (hs.2.2.within t)

end Term
end TypedHole
