import TypedHole.Proofs.Deepening
import TypedHole.Proofs.Library
import TypedHole.Run

/-! Deadlines.
A search looks at the clock before each step, and nothing but the looks decides whether it gives up.
`Frontier.Watched` and `Searches` follow it look by look, with no bound on its steps other than the deadline.
Main statements: the budget of the program is such a deadline (`searches_deepen`), a later deadline keeps all
answers (`Searches.later`), and so a deadline replaces an answer or leaves it as it is (`search_deadline`). -/
namespace TypedHole

variable {ι : Type}

theorem runTactic_ok_iff {procs : ι → Tactic ι} {cfg : Config} {ctx : Context} {j : Judgement}
    {t : Tactic ι} : (∃ res, runTactic procs cfg ctx j t = .ok res) ↔
      ∃ ds, search procs cfg ctx j t = .ok ds := by
  constructor
  · rintro ⟨res,h⟩
    obtain ⟨ds,hds,-⟩ := Tactic.bind_eq_ok h
    exact ⟨ds,hds⟩
  · rintro ⟨ds,hds⟩
    have hrank : rank ds ≠ [] := by
      intro hnil
      have hlen : (rank ds).length = ds.length := List.length_mergeSort ds
      rw [hnil] at hlen
      exact ne_nil_of_search hds (List.length_eq_zero_iff.1 hlen.symm)
    obtain ⟨best,rest,hbest⟩ := List.exists_cons_of_ne_nil hrank
    rw [runTactic,hds]
    simp [bind,Except.bind,RunResult.ofDerivations,hbest]

/-- What the looks at the clock show, counted over a whole search: whether the time is up. -/
def Deadline : Type := Nat → Prop

namespace Deadline

def never : Deadline := fun _ => False

def ofBudget (steps : Nat) : Deadline := fun n => steps ≤ n

/-- The clock is read once to set the deadline, and then at every look. -/
def ofReadings (clock : Nat → Nat) (timeout : Nat) : Deadline := fun n => clock 0 + timeout ≤ clock (n + 1)

def Early (d : Deadline) (n : Nat) : Prop := ∀ k < n, ¬ d k

/-- Whenever the time is up for the later deadline it has been up for the other one. -/
def Later (d d' : Deadline) : Prop := ∀ n, d' n → ∃ m ≤ n, d m

theorem later_never (d : Deadline) : d.Later never := fun _ h => h.elim

theorem later_ofBudget {m n : Nat} (h : m ≤ n) : (ofBudget m).Later (ofBudget n) :=
  fun k hk => ⟨k,Nat.le_refl k,Nat.le_trans h hk⟩

variable {d d' : Deadline} {n : Nat}

theorem early_zero (d : Deadline) : d.Early 0 := fun k hk => absurd hk (Nat.not_lt_zero k)

theorem Early.succ (h : d.Early n) (hn : ¬ d n) : d.Early (n + 1) := by
  intro k hk
  rcases Nat.lt_succ_iff_lt_or_eq.1 hk with hlt | rfl
  · exact h k hlt
  · exact hn

theorem Early.later (h : d.Early n) : (ofBudget n).Later d :=
  fun k hk => ⟨k,Nat.le_refl k,Nat.le_of_not_lt fun hlt => h k hlt hk⟩

theorem early_ofBudget {m : Nat} (h : n ≤ m) : (ofBudget m).Early n :=
  fun _ hk hup => Nat.not_lt.2 (Nat.le_trans h hup) hk

theorem Later.not (h : d.Later d') (early : d.Early n) (hn : ¬ d n) : ¬ d' n := by
  intro hd
  obtain ⟨m,hm,hdm⟩ := h n hd
  exact early.succ hn m (Nat.lt_succ_of_le hm) hdm

end Deadline

variable (procs : ι → Tactic ι) (ctx : Context) (bound limit : Nat)

/-- An exploration that looks at the clock before each step, from the look with a given number on. The result
comes with the number of the next look; there is none when the time is up. -/
inductive Frontier.Watched (d : Deadline) : Nat → Frontier ι → Option (Nat × Frontier ι) → Prop
  | exhausted {n : Nat} {f : Frontier ι} (drafts : f.drafts = []) : Watched d n f (some (n,f))
  | late {n : Nat} {f : Frontier ι} (drafts : f.drafts ≠ []) (up : d n) : Watched d n f none
  | full {n : Nat} {f : Frontier ι} (drafts : f.drafts ≠ []) (early : ¬ d n)
      (enough : limit ≤ (f.advance procs ctx bound).found.length) :
      Watched d n f (some (n + 1,f.advance procs ctx bound))
  | more {n : Nat} {f : Frontier ι} {x : Option (Nat × Frontier ι)} (drafts : f.drafts ≠ []) (early : ¬ d n)
      (few : (f.advance procs ctx bound).found.length < limit)
      (rest : Watched d (n + 1) (f.advance procs ctx bound) x) : Watched d n f x

/-- A search that tries depth bounds one after the other, from the look with a given number and from a given
bound on. Without a result the time is up. -/
inductive Searches (j : Judgement) (t : Tactic ι) (d : Deadline) : Nat → Nat → Option SearchResult → Prop
  | late {n bound : Nat} (run : (Frontier.start j t).Watched procs ctx bound limit d n none) :
      Searches j t d n bound none
  | answer {n n' bound : Nat} {f : Frontier ι} {r : SearchResult}
      (run : (Frontier.start j t).Watched procs ctx bound limit d n (some (n',f)))
      (verdict : f.verdict j.goal = some r) : Searches j t d n bound (some r)
  | deeper {n n' bound : Nat} {f : Frontier ι} {x : Option SearchResult}
      (run : (Frontier.start j t).Watched procs ctx bound limit d n (some (n',f)))
      (verdict : f.verdict j.goal = none) (rest : Searches j t d n' (bound + 1) x) : Searches j t d n bound x

def Searched (cfg : Config) (j : Judgement) (t : Tactic ι) (d : Deadline) (r : SearchResult) : Prop :=
  ∃ x, Searches procs ctx (max 1 cfg.maxSolutions) j t d 0 1 x ∧ r = x.getD (.error (.timeout cfg.timeout))

def Ran (cfg : Config) (j : Judgement) (t : Tactic ι) (d : Deadline) (r : Except TacticError RunResult) : Prop :=
  ∃ s, Searched procs ctx cfg j t d s ∧ r = s >>= RunResult.ofDerivations j.goal

variable {procs ctx bound limit} {d d' : Deadline}

theorem Frontier.start_drafts_ne_nil (j : Judgement) (t : Tactic ι) : (Frontier.start j t).drafts ≠ [] :=
  List.cons_ne_nil _ _

namespace Frontier

variable {n : Nat} {f : Frontier ι}

/-- An exploration with a budget is one whose deadline comes after so many steps. -/
theorem watched_explore (budget n : Nat) (f : Frontier ι) :
    f.Watched procs ctx bound limit (.ofBudget (n + budget)) n
      ((f.explore procs ctx bound limit budget).map fun p => (n + budget - p.1,p.2)) := by
  induction budget generalizing n f with
  | zero =>
    by_cases hd : f.drafts = []
    · rw [explore_of_empty hd]
      exact .exhausted hd
    · rw [explore_zero hd]
      exact .late hd (Nat.le_refl n)
  | succ budget ih =>
    by_cases hd : f.drafts = []
    · have hn : n + (budget + 1) - (budget + 1) = n := by omega
      rw [explore_of_empty hd,Option.map_some,hn]
      exact .exhausted hd
    · have early : ¬ Deadline.ofBudget (n + (budget + 1)) n := by
        rw [Deadline.ofBudget]
        omega
      rw [explore_succ hd]
      dsimp only
      split
      next enough =>
        have hn : n + (budget + 1) - budget = n + 1 := by omega
        rw [Option.map_some,hn]
        exact .full hd early enough
      next few =>
        have hrest := ih (n + 1) (f.advance procs ctx bound)
        have hn : n + 1 + budget = n + (budget + 1) := by omega
        rw [hn] at hrest
        exact .more hd early (Nat.lt_of_not_le few) hrest

theorem left_le_of_explore {budget left : Nat} {f' : Frontier ι}
    (h : f.explore procs ctx bound limit budget = some (left,f')) : left ≤ budget := by
  induction budget generalizing f with
  | zero =>
    by_cases hd : f.drafts = []
    · rw [explore_of_empty hd] at h
      cases h
      exact Nat.le_refl _
    · simp [explore_zero hd] at h
  | succ budget ih =>
    by_cases hd : f.drafts = []
    · rw [explore_of_empty hd] at h
      cases h
      exact Nat.le_refl _
    · rw [explore_succ hd] at h
      dsimp only at h
      split at h
      next =>
        cases h
        exact Nat.le_succ _
      next => exact Nat.le_succ_of_le (ih h)

theorem left_lt_of_explore {budget left : Nat} {f' : Frontier ι} (hd : f.drafts ≠ [])
    (h : f.explore procs ctx bound limit budget = some (left,f')) : left < budget := by
  cases budget with
  | zero => simp [explore_zero hd] at h
  | succ budget =>
    rw [explore_succ hd] at h
    dsimp only at h
    split at h
    next =>
      cases h
      exact Nat.lt_succ_self _
    next => exact Nat.lt_succ_of_le (left_le_of_explore h)

namespace Watched

/-- What the looks show decides about an exploration. -/
theorem unique {x y : Option (Nat × Frontier ι)} (h : f.Watched procs ctx bound limit d n x)
    (h' : f.Watched procs ctx bound limit d n y) : x = y := by
  induction h with
  | exhausted drafts =>
    cases h' with
    | exhausted => rfl
    | late hd | full hd | more hd => exact absurd drafts hd
  | late drafts up =>
    cases h' with
    | exhausted hd => exact absurd hd drafts
    | late => rfl
    | full _ early | more _ early => exact absurd up early
  | full drafts early enough =>
    cases h' with
    | exhausted hd => exact absurd hd drafts
    | late _ up => exact absurd up early
    | full => rfl
    | more _ _ few => exact absurd few (Nat.not_lt.2 enough)
  | more drafts early few _ ih =>
    cases h' with
    | exhausted hd => exact absurd hd drafts
    | late _ up => exact absurd up early
    | full _ _ enough => exact absurd few (Nat.not_lt.2 enough)
    | more _ _ _ rest => exact ih rest

theorem later {x : Option (Nat × Frontier ι)} (h : f.Watched procs ctx bound limit d n x)
    (hd : d.Later d') (early : d.Early n) {n' : Nat} {f' : Frontier ι} (hx : x = some (n',f')) :
    f.Watched procs ctx bound limit d' n x ∧ d.Early n' := by
  induction h with
  | exhausted drafts =>
    cases hx
    exact ⟨.exhausted drafts,early⟩
  | late => cases hx
  | full drafts hn enough =>
    cases hx
    exact ⟨.full drafts (hd.not early hn) enough,early.succ hn⟩
  | more drafts hn few _ ih =>
    obtain ⟨hrest,hearly⟩ := ih (early.succ hn) hx
    exact ⟨.more drafts (hd.not early hn) few hrest,hearly⟩

theorem exists_of_up {k : Nat} (up : d k) (hk : n ≤ k) (f : Frontier ι) :
    ∃ x, f.Watched procs ctx bound limit d n x ∧ ∀ n' f', x = some (n',f') → n' ≤ k := by
  obtain ⟨m,hm⟩ := Nat.exists_eq_add_of_le hk
  induction m generalizing n f with
  | zero =>
    by_cases hd : f.drafts = []
    · exact ⟨_,.exhausted hd,fun n' f' hx => by cases hx; exact hk⟩
    · cases hm
      exact ⟨none,.late hd up,fun n' f' hx => by cases hx⟩
  | succ m ih =>
    by_cases hd : f.drafts = []
    · exact ⟨_,.exhausted hd,fun n' f' hx => by cases hx; exact hk⟩
    by_cases hn : d n
    · exact ⟨none,.late hd hn,fun n' f' hx => by cases hx⟩
    by_cases hl : limit ≤ (f.advance procs ctx bound).found.length
    · exact ⟨_,.full hd hn hl,fun n' f' hx => by cases hx; omega⟩
    · obtain ⟨x,hrest,hx⟩ := ih (n := n + 1) (by omega) (f.advance procs ctx bound) (by omega)
      exact ⟨x,.more hd hn (Nat.lt_of_not_le hl) hrest,hx⟩

theorem lt_of_some {n' : Nat} {f' : Frontier ι} (h : f.Watched procs ctx bound limit d n (some (n',f')))
    (hd : f.drafts ≠ []) : n < n' := by
  have hle {m : Nat} {f : Frontier ι} {x : Option (Nat × Frontier ι)}
      (h : f.Watched procs ctx bound limit d m x) : x = some (n',f') → m ≤ n' := by
    induction h with
    | exhausted => rintro ⟨⟩; exact Nat.le_refl _
    | late => rintro ⟨⟩
    | full => rintro ⟨⟩; exact Nat.le_succ _
    | more _ _ _ _ ih => exact fun hx => Nat.le_of_succ_le (ih hx)
  cases h with
  | exhausted hnil => exact absurd hnil hd
  | full => exact Nat.lt_succ_self n
  | more _ _ _ rest => exact hle rest rfl

end Watched

end Frontier

section

variable {j : Judgement} {t : Tactic ι} {n : Nat}

/-- Trying depth bounds with a budget is a search whose deadline comes after so many steps: there are always
rounds left for another bound. -/
theorem searches_deepen {rounds budget : Nat} (h : budget ≤ rounds) (n bound : Nat) :
    Searches procs ctx limit j t (.ofBudget (n + budget)) n bound
      (deepen procs ctx limit j t rounds budget bound) := by
  induction rounds generalizing budget n bound with
  | zero =>
    cases Nat.le_zero.1 h
    exact .late (.late (Frontier.start_drafts_ne_nil j t) (Nat.le_refl n))
  | succ rounds ih =>
    have hrun : (Frontier.start j t).Watched procs ctx bound limit (.ofBudget (n + budget)) n _ :=
      Frontier.watched_explore budget n _
    rw [deepen]
    cases he : (Frontier.start j t).explore procs ctx bound limit budget with
    | none =>
      rw [he] at hrun
      exact .late hrun
    | some p =>
      obtain ⟨left,f⟩ := p
      rw [he] at hrun
      dsimp only
      cases hv : f.verdict j.goal with
      | some r => exact .answer hrun hv
      | none =>
        have hlt : left < budget := Frontier.left_lt_of_explore (Frontier.start_drafts_ne_nil j t) he
        have hrest := ih (Nat.le_of_lt_succ (Nat.lt_of_lt_of_le hlt h)) (n + budget - left) (bound + 1)
        have hn : n + budget - left + left = n + budget := by omega
        rw [hn] at hrest
        exact .deeper hrun hv hrest

namespace Searches

theorem unique {x y : Option SearchResult} (h : Searches procs ctx limit j t d n bound x)
    (h' : Searches procs ctx limit j t d n bound y) : x = y := by
  induction h with
  | late run =>
    cases h' with
    | late => rfl
    | answer run' | deeper run' => cases run.unique run'
  | answer run verdict =>
    cases h' with
    | late run' => cases run.unique run'
    | answer run' verdict' =>
      cases run.unique run'
      exact verdict.symm.trans verdict'
    | deeper run' verdict' =>
      cases run.unique run'
      cases verdict.symm.trans verdict'
  | deeper run verdict _ ih =>
    cases h' with
    | late run' => cases run.unique run'
    | answer run' verdict' =>
      cases run.unique run'
      cases verdict.symm.trans verdict'
    | deeper run' _ rest =>
      cases run.unique run'
      exact ih rest

theorem later {x : Option SearchResult} (h : Searches procs ctx limit j t d n bound x) (hd : d.Later d')
    (early : d.Early n) {r : SearchResult} (hx : x = some r) : Searches procs ctx limit j t d' n bound x := by
  induction h with
  | late => cases hx
  | answer run verdict => exact .answer (run.later hd early rfl).1 verdict
  | deeper run verdict _ ih =>
    obtain ⟨hrun,hearly⟩ := run.later hd early rfl
    exact .deeper hrun verdict (ih hearly hx)

theorem exists_of_up {k : Nat} (up : d k) (hn : n ≤ k) (bound : Nat) :
    ∃ x, Searches procs ctx limit j t d n bound x := by
  obtain ⟨m,hm⟩ : ∃ m, k - n < m := ⟨_,Nat.lt_succ_self _⟩
  induction m generalizing n bound with
  | zero => omega
  | succ m ih =>
    obtain ⟨x,hrun,hx⟩ : ∃ x, (Frontier.start j t).Watched procs ctx bound limit d n x ∧
      ∀ n' f', x = some (n',f') → n' ≤ k := Frontier.Watched.exists_of_up up hn _
    cases x with
    | none => exact ⟨none,.late hrun⟩
    | some p =>
      obtain ⟨n',f⟩ := p
      cases hv : f.verdict j.goal with
      | some r => exact ⟨some r,.answer hrun hv⟩
      | none =>
        have hlt : n < n' := hrun.lt_of_some (Frontier.start_drafts_ne_nil j t)
        have hle : n' ≤ k := hx n' f rfl
        obtain ⟨x,hrest⟩ := ih hle (bound + 1) (by omega)
        exact ⟨x,.deeper hrun hv hrest⟩

end Searches

variable {cfg : Config} {r r' : SearchResult}

theorem searched_search : Searched procs ctx cfg j t (.ofBudget (cfg.timeout * stepsPerMillisecond))
    (search procs cfg ctx j t) := by
  have h : Searches procs ctx (max 1 cfg.maxSolutions) j t
      (.ofBudget (0 + cfg.timeout * stepsPerMillisecond)) 0 1 _ := searches_deepen (Nat.le_refl _) 0 1
  rw [Nat.zero_add] at h
  exact ⟨_,h,rfl⟩

theorem Searched.unique (h : Searched procs ctx cfg j t d r) (h' : Searched procs ctx cfg j t d r') :
    r = r' := by
  obtain ⟨x,hx,rfl⟩ := h
  obtain ⟨y,hy,rfl⟩ := h'
  rw [hx.unique hy]

theorem Searched.later (h : Searched procs ctx cfg j t d r) (hd : d.Later d') (timeout : Nat) :
    r = .error (.timeout cfg.timeout) ∨ Searched procs ctx { cfg with timeout } j t d' r := by
  obtain ⟨x,hx,rfl⟩ := h
  cases x with
  | none => exact .inl rfl
  | some r => exact .inr ⟨some r,hx.later hd d.early_zero rfl,rfl⟩

theorem Ran.unique {r r' : Except TacticError RunResult} (h : Ran procs ctx cfg j t d r)
    (h' : Ran procs ctx cfg j t d r') : r = r' := by
  obtain ⟨s,hs,rfl⟩ := h
  obtain ⟨s',hs',rfl⟩ := h'
  rw [hs.unique hs']

theorem Ran.later {r : Except TacticError RunResult} (h : Ran procs ctx cfg j t d r) (hd : d.Later d')
    (timeout : Nat) :
    r = .error (.timeout cfg.timeout) ∨ Ran procs ctx { cfg with timeout } j t d' r := by
  obtain ⟨s,hs,rfl⟩ := h
  rcases hs.later hd timeout with rfl | hs
  · exact .inl rfl
  · exact .inr ⟨s,hs,rfl⟩

theorem ran_runTactic : Ran procs ctx cfg j t (.ofBudget (cfg.timeout * stepsPerMillisecond))
    (runTactic procs cfg ctx j t) := ⟨_,searched_search,rfl⟩

section

variable {timeout : Nat} (ht : cfg.timeout ≤ timeout)
include ht

theorem search_of_timeout_le (hne : search procs cfg ctx j t ≠ .error (.timeout cfg.timeout)) :
    search procs { cfg with timeout } ctx j t = search procs cfg ctx j t := by
  have hlater := Deadline.later_ofBudget (Nat.mul_le_mul_right stepsPerMillisecond ht)
  exact searched_search.unique ((searched_search.later hlater timeout).resolve_left hne)

theorem runTactic_of_timeout_le (hne : runTactic procs cfg ctx j t ≠ .error (.timeout cfg.timeout)) :
    runTactic procs { cfg with timeout } ctx j t = runTactic procs cfg ctx j t := by
  have hlater := Deadline.later_ofBudget (Nat.mul_le_mul_right stepsPerMillisecond ht)
  exact ran_runTactic.unique ((ran_runTactic.later hlater timeout).resolve_left hne)

end

/-- A search that finds derivations of a certain kind, whatever its configuration is, unless the time is up before
some number of steps. -/
def AnswersIn (procs : ι → Tactic ι) (ctx : Context) (j : Judgement) (t : Tactic ι)
    (Q : List Derivation → Prop) (steps : Nat) : Prop :=
  ∀ (cfg : Config) (d : Deadline), d.Early steps → ∃ ds, Q ds ∧ Searched procs ctx cfg j t d (.ok ds)

namespace AnswersIn

variable {Q : List Derivation → Prop} {steps : Nat}

theorem of_search
    (h : ∀ cfg : Config, n ≤ cfg.timeout → ∃ ds, Q ds ∧ TypedHole.search procs cfg ctx j t = .ok ds) :
    AnswersIn procs ctx j t Q (n * stepsPerMillisecond) := by
  intro cfg d early
  obtain ⟨ds,hq,hds⟩ := h { cfg with timeout := n } (Nat.le_refl n)
  have hbudget : Searched procs ctx { cfg with timeout := n } j t (.ofBudget (n * stepsPerMillisecond)) (.ok ds) :=
    hds ▸ searched_search
  exact ⟨ds,hq,(hbudget.later early.later cfg.timeout).resolve_left nofun⟩

theorem searched (h : AnswersIn procs ctx j t Q steps) (hr : Searched procs ctx cfg j t d r) :
    r = .error (.timeout cfg.timeout) ∨ ∃ ds, Q ds ∧ r = .ok ds := by
  refine (hr.later d.later_never cfg.timeout).imp_right fun hnever => ?_
  obtain ⟨ds,hq,hds⟩ := h cfg .never fun _ _ hup => hup
  exact ⟨ds,hq,hnever.unique hds⟩

theorem search (h : AnswersIn procs ctx j t Q steps) (hs : steps ≤ cfg.timeout * stepsPerMillisecond) :
    ∃ ds, Q ds ∧ TypedHole.search procs cfg ctx j t = .ok ds := by
  obtain ⟨ds,hq,hds⟩ := h cfg _ (Deadline.early_ofBudget hs)
  exact ⟨ds,hq,searched_search.unique hds⟩

end AnswersIn

/-- A search and a run of a tactic work under the deadline that the budget of the program sets. Whatever the
looks at the clock show, there is just one thing to return once the time is up at some look, and it is the
timeout with the configured duration or what would be returned without any deadline. An answer, be it an error
that a tactic calls a timeout, is still returned under every later deadline, and under every larger budget. -/
theorem search_deadline (procs : ι → Tactic ι) (cfg : Config) (ctx : Context) (j : Judgement) (t : Tactic ι) :
    Searched procs ctx cfg j t (.ofBudget (cfg.timeout * stepsPerMillisecond)) (search procs cfg ctx j t) ∧
    Ran procs ctx cfg j t (.ofBudget (cfg.timeout * stepsPerMillisecond)) (runTactic procs cfg ctx j t) ∧
    (∀ d : Deadline,
      ((∃ n, d n) → (∃ r, Searched procs ctx cfg j t d r) ∧ ∃ r, Ran procs ctx cfg j t d r) ∧
      (∀ r r', Searched procs ctx cfg j t d r → Searched procs ctx cfg j t d r' → r = r') ∧
      (∀ r r', Ran procs ctx cfg j t d r → Ran procs ctx cfg j t d r' → r = r') ∧
      (∀ r, Searched procs ctx cfg j t d r →
        r = .error (.timeout cfg.timeout) ∨ Searched procs ctx cfg j t .never r) ∧
      (∀ r, Ran procs ctx cfg j t d r →
        r = .error (.timeout cfg.timeout) ∨ Ran procs ctx cfg j t .never r) ∧
      ∀ d', d.Later d' →
        (∀ r, Searches procs ctx (max 1 cfg.maxSolutions) j t d 0 1 (some r) →
          Searches procs ctx (max 1 cfg.maxSolutions) j t d' 0 1 (some r)) ∧
        (∀ r, Searched procs ctx cfg j t d r → r ≠ .error (.timeout cfg.timeout) →
          Searched procs ctx cfg j t d' r) ∧
        ∀ r, Ran procs ctx cfg j t d r → r ≠ .error (.timeout cfg.timeout) → Ran procs ctx cfg j t d' r) ∧
    ∀ timeout, cfg.timeout ≤ timeout →
      (search procs cfg ctx j t ≠ .error (.timeout cfg.timeout) →
        search procs { cfg with timeout } ctx j t = search procs cfg ctx j t) ∧
      (runTactic procs cfg ctx j t ≠ .error (.timeout cfg.timeout) →
        runTactic procs { cfg with timeout } ctx j t = runTactic procs cfg ctx j t) := by
  refine ⟨searched_search,ran_runTactic,fun d => ⟨?_,fun r r' h h' => h.unique h',fun r r' h h' => h.unique h',
    fun r h => h.later d.later_never cfg.timeout,fun r h => h.later d.later_never cfg.timeout,
    fun d' hd => ⟨fun r h => h.later hd d.early_zero rfl,fun r h hr => (h.later hd cfg.timeout).resolve_left hr,
      fun r h hr => (h.later hd cfg.timeout).resolve_left hr⟩⟩,fun timeout ht =>
        ⟨search_of_timeout_le ht,runTactic_of_timeout_le ht⟩⟩
  rintro ⟨n,up⟩
  obtain ⟨x,hx⟩ := Searches.exists_of_up up (Nat.zero_le n) 1 (j := j) (t := t)
  exact ⟨⟨_,x,hx,rfl⟩,_,_,⟨x,hx,rfl⟩,rfl⟩

end

theorem search_deadline_pair :
    (∃ r, Searched Empty.elim ⟨[],.empty,{}⟩ { timeout := 1 } .bare .pairOfLeaves
        (.ofReadings (fun n => n / 2) 1) r ∧
      (r = .error (.timeout 1) ∨
        Searched Empty.elim ⟨[],.empty,{}⟩ { timeout := 1 } .bare .pairOfLeaves .never r)) ∧
    (∃ ds, search Empty.elim { timeout := 1 } ⟨[],.empty,{}⟩ .bare .pairOfLeaves = .ok ds ∧
      Searched Empty.elim ⟨[],.empty,{}⟩ { timeout := 1 } .bare .pairOfLeaves .never (.ok ds) ∧
      search Empty.elim { timeout := 60 } ⟨[],.empty,{}⟩ .bare .pairOfLeaves = .ok ds) ∧
    ∃ res, runTactic Empty.elim { timeout := 1 } ⟨[],.empty,{}⟩ .bare .pairOfLeaves = .ok res ∧
      Ran Empty.elim ⟨[],.empty,{}⟩ { timeout := 1 } .bare .pairOfLeaves .never (.ok res) ∧
      runTactic Empty.elim { timeout := 60 } ⟨[],.empty,{}⟩ .bare .pairOfLeaves = .ok res := by
  obtain ⟨hs,hr,hd,hmore⟩ := search_deadline Empty.elim { timeout := 1 } ⟨[],.empty,{}⟩ .bare .pairOfLeaves
  obtain ⟨ds,hds⟩ : ∃ ds, search Empty.elim { timeout := 1 } ⟨[],.empty,{}⟩ .bare .pairOfLeaves = .ok ds :=
    ⟨_,rfl⟩
  obtain ⟨res,hres⟩ := runTactic_ok_iff.2 ⟨ds,hds⟩
  obtain ⟨hsearch,hrun⟩ := hmore 60 (by decide)
  rw [hds] at hs hsearch
  rw [hres] at hr hrun
  obtain ⟨-,-,-,hnever,hnever',-⟩ := hd (.ofBudget (1 * stepsPerMillisecond))
  refine ⟨?_,⟨ds,hds,(hnever _ hs).resolve_left nofun,hsearch nofun⟩,
    ⟨res,hres,(hnever' _ hr).resolve_left nofun,hrun nofun⟩⟩
  obtain ⟨hup,-,-,hreplaced,-⟩ := hd (.ofReadings (fun n => n / 2) 1)
  obtain ⟨⟨r,hr⟩,-⟩ := hup ⟨1,show 0 / 2 + 1 ≤ (1 + 1) / 2 by decide⟩
  exact ⟨r,hr,hreplaced r hr⟩

end TypedHole
