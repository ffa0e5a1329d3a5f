import TypedHole.Proofs.Exhaustion

/-! What waits behind a tactic.
Opening a tactic up hands on what waits behind it and does not look at it (`Tactic.expand_append`). Main
statement: a nesting limit that is not exceeded does not show (`Tactic.expand_of_opensWithin`). -/
namespace TypedHole

variable {ι : Type}

/-- An alternative with more tactics to run behind those that wait. -/
def Alternative.followedBy (a : Alternative ι) (k : List (Tactic ι)) : Alternative ι :=
  { a with rest := a.rest ++ k }

theorem Alternative.followedBy_nil (a : Alternative ι) : a.followedBy [] = a := by
  simp [followedBy]

namespace Expansion

def followedBy (e : Expansion ι) (k : List (Tactic ι)) : Expansion ι where
  outcome := e.outcome.map fun as => as.map (·.followedBy k)
  cut := e.cut

/-- Whether an expansion stands, with no need of another one in its place. -/
def stands (e : Expansion ι) : Bool :=
  match e.outcome with
  | .error _ => false
  | .ok as => !as.isEmpty || e.cut

variable {e : Expansion ι} {k : List (Tactic ι)}

theorem followedBy_of_error {err : TacticError} (h : e.outcome = .error err) :
    (e.followedBy k).outcome = .error err := by
  rw [followedBy,h]
  rfl

theorem followedBy_of_ok {as : List (Alternative ι)} (h : e.outcome = .ok as) :
    (e.followedBy k).outcome = .ok (as.map (·.followedBy k)) := by
  rw [followedBy,h]
  rfl

theorem followedBy_nil (e : Expansion ι) : e.followedBy [] = e := by
  have h : (fun a : Alternative ι => a.followedBy []) = id := funext Alternative.followedBy_nil
  obtain ⟨outcome,cut⟩ := e
  cases outcome <;> simp [followedBy,h,Except.map]

theorem stands_followedBy (e : Expansion ι) (k : List (Tactic ι)) : (e.followedBy k).stands = e.stands := by
  obtain ⟨outcome,cut⟩ := e
  cases outcome <;> simp [followedBy,stands,Except.map]

theorem orElse_eq (first : Expansion ι) (second : Unit → Expansion ι) : first.orElse second =
    if first.stands then first else { second () with cut := first.cut || (second ()).cut } := by
  obtain ⟨outcome,cut⟩ := first
  match outcome, cut with
  | .error err, _ => rfl
  | .ok (a :: as), _ => rfl
  | .ok [], true => rfl
  | .ok [], false => rfl

theorem followedBy_orElse (first : Expansion ι) (second : Unit → Expansion ι) (k : List (Tactic ι)) :
    (first.orElse second).followedBy k = (first.followedBy k).orElse fun _ => (second ()).followedBy k := by
  rw [orElse_eq,orElse_eq,stands_followedBy]
  split <;> rfl

theorem error?_followedBy (e : Expansion ι) (k : List (Tactic ι)) : (e.followedBy k).error? = e.error? := by
  cases ho : e.outcome <;> simp [error?,followedBy,ho,Except.map]

theorem all_eq (es : List (Expansion ι)) : all es =
    ⟨match es.filterMap fun e => e.outcome.toOption, es.filterMap error? with
      | [], err :: _ => .error err
      | _, _ => .ok (es.filterMap fun e => e.outcome.toOption).flatten,es.any (·.cut)⟩ := rfl

theorem all_singleton (e : Expansion ι) : all [e] = e := by
  obtain ⟨outcome,cut⟩ := e
  cases outcome <;> simp [all,Except.toOption]

theorem followedBy_all (es : List (Expansion ι)) (k : List (Tactic ι)) :
    (all es).followedBy k = all (es.map (·.followedBy k)) := by
  have hfound : ((es.map (·.followedBy k)).filterMap fun e => e.outcome.toOption) =
      (es.filterMap fun e => e.outcome.toOption).map (·.map (·.followedBy k)) := by
    rw [List.filterMap_map,List.map_filterMap]
    congr 1
    funext e
    cases ho : e.outcome <;> simp [followedBy,ho,Except.map,Except.toOption]
  have herrors : (es.map (·.followedBy k)).filterMap error? = es.filterMap error? := by
    rw [List.filterMap_map]
    congr 1
    funext e
    exact error?_followedBy e k
  have hcut : (es.map (·.followedBy k)).any (·.cut) = es.any (·.cut) := by
    rw [List.any_map]
    rfl
  rw [all_eq,all_eq,hfound,herrors,hcut,followedBy,Expansion.mk.injEq,eq_self,and_true]
  cases es.filterMap fun e => e.outcome.toOption with
  | nil => cases es.filterMap error? <;> rfl
  | cons as found => simp [Except.map,List.map_flatten]

end Expansion

namespace Tactic

variable {procs : ι → Tactic ι} {ctx : Context} {j : Judgement} {spent : Bool}

theorem expand_append (fuel : Nat) (t : Tactic ι) (rest k : List (Tactic ι)) :
    expand procs ctx j spent fuel t (rest ++ k) = (expand procs ctx j spent fuel t rest).followedBy k := by
  induction fuel generalizing t rest with
  | zero => rfl
  | succ fuel ih =>
    cases t with
    | idle | fail => rfl
    | andThen a b => exact ih a (b :: rest)
    | orElse a b =>
      rw [expand,expand,ih a rest,ih b rest,Expansion.followedBy_orElse]
    | choice ts =>
      rw [expand,expand,Expansion.followedBy_all,List.map_map]
      exact congrArg Expansion.all (List.map_congr_left fun t _ => ih t rest)
    | call l => exact ih (procs l) rest
    | withGoal f => exact ih (f j) rest
    | rule name refine =>
      rw [expand,expand]
      split
      · rfl
      · cases refine ctx j <;> simp [Expansion.followedBy,Alternative.followedBy,Except.map]

theorem expand_eq_followedBy (fuel : Nat) (t : Tactic ι) (k : List (Tactic ι)) :
    expand procs ctx j spent fuel t k = (expand procs ctx j spent fuel t []).followedBy k :=
  expand_append fuel t [] k

variable (procs ctx j spent) in
/-- Whether a tactic is opened up without exceeding a nesting limit. A tactic to fall back on counts only
where it is opened up. -/
def opensWithin : Nat → Tactic ι → Bool
  | 0, _ => false
  | limit + 1, t =>
    match t with
    | idle | fail _ | rule _ _ => true
    | andThen a _ => opensWithin limit a
    | orElse a b =>
      opensWithin limit a && ((expand procs ctx j spent limit a []).stands || opensWithin limit b)
    | choice ts => ts.all fun t => opensWithin limit t
    | call l => opensWithin limit (procs l)
    | withGoal f => opensWithin limit (f j)

/-- A nesting limit that is not exceeded does not show. -/
theorem expand_of_opensWithin {limit fuel : Nat} {t : Tactic ι}
    (h : opensWithin procs ctx j spent limit t = true) (hf : limit ≤ fuel) (rest : List (Tactic ι)) :
    expand procs ctx j spent fuel t rest = expand procs ctx j spent limit t rest := by
  induction limit generalizing fuel t rest with
  | zero => cases h
  | succ limit ih =>
    obtain ⟨fuel,rfl⟩ := Nat.exists_eq_add_of_lt hf
    replace hf : limit ≤ limit + fuel := Nat.le_add_right ..
    cases t with
    | idle | fail | rule => rfl
    | andThen a b => exact ih h hf (b :: rest)
    | orElse a b =>
      obtain ⟨ha,hb⟩ := Bool.and_eq_true_iff.1 h
      rw [expand,expand,Expansion.orElse_eq,Expansion.orElse_eq,ih ha hf rest]
      -- The tactic to fall back on is opened up only where the first one does not stand.
      split
      next => rfl
      next hstands =>
        rw [expand_eq_followedBy,Expansion.stands_followedBy] at hstands
        rw [ih ((Bool.or_eq_true_iff.1 hb).resolve_left hstands) hf rest]
    | choice ts =>
      exact congrArg Expansion.all (List.map_congr_left fun t ht => ih (List.all_eq_true.1 h t ht) hf rest)
    | call l => exact ih h hf rest
    | withGoal f => exact ih h hf rest

end Tactic

end TypedHole
