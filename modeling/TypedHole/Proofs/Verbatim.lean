import TypedHole.Proofs.Continuation
import TypedHole.Proofs.Finiteness
import TypedHole.Proofs.Ranking

/-! Hypotheses used as they are.
The first alternative of the automatic tactic takes the entry of least name that has the type of the goal. What is
found first stays first in rank when it is as good as can be (`rank_head`). Main statement: the automatic tactic
answers with this entry (`auto_verbatim`). -/
namespace TypedHole

variable {ι : Type}

/-- An entry that is the goal as it stands, other than the definition that is being written. -/
def Judgement.Verbatim (j : Judgement) (e : Entry) : Prop :=
  e ∈ j.hypothesis.entries ∧ e.ty = j.goal ∧ e.provenance ≠ .recursive

theorem Term.size_pos (t : Term) : 1 ≤ t.size := by
  cases t <;> simp only [size] <;> omega

theorem rank_head (x : Name) (ds : List Derivation) :
    ∃ rest, rank (⟨.var x,[]⟩ :: ds) = ⟨.var x,[]⟩ :: rest := by
  obtain ⟨best,rest,hrank⟩ : ∃ best rest, rank (⟨.var x,[]⟩ :: ds) = best :: rest := by
    refine List.exists_cons_of_ne_nil fun hnil => ?_
    have hperm := rank_perm (⟨.var x,[]⟩ :: ds)
    rw [hnil] at hperm
    exact List.cons_ne_nil _ _ hperm.nil_eq.symm
  obtain ⟨before,after,hds,-,hfirst,-⟩ := rank_eq_cons hrank
  cases before with
  | nil =>
    cases hds
    exact ⟨rest,hrank⟩
  | cons d before =>
    cases hds
    have hsize := best.term.size_pos
    have hless := hfirst ⟨.var x,[]⟩ (by simp)
    rcases Prod.Lex.toLex_lt_toLex.1 hless with hlt | ⟨-,hlt⟩
    · exact absurd hlt (Nat.not_lt_zero _)
    · exact absurd hsize (Nat.not_le.2 hlt)

theorem Expansion.all_cons_ok {e : Expansion ι} {as : List (Alternative ι)} (h : e.outcome = .ok as)
    (es : List (Expansion ι)) : ∃ more, (all (e :: es)).outcome = .ok (as ++ more) := by
  refine ⟨(es.filterMap fun e => e.outcome.toOption).flatten,?_⟩
  rw [all_eq]
  simp [h,Except.toOption]

namespace Frontier

variable {procs : ι → Tactic ι} {ctx : Context} {bound limit : Nat} {j : Judgement} {t : Tactic ι}

theorem found_of_first {x : Name} {more : List (Alternative ι)} (hl : 1 ≤ limit)
    (h : ((Goal.root j t).expansion procs ctx bound).outcome = .ok (⟨some (.closed (.var x)),[]⟩ :: more))
    {budget left : Nat} {f : Frontier ι}
    (he : (start j t).explore procs ctx bound limit budget = some (left,f)) :
    ∃ others, f.found = ⟨.var x,[]⟩ :: others := by
  rcases hx : (Goal.root j t).expansion procs ctx bound with ⟨outcome,cut⟩
  rw [hx] at h
  subst h
  have hadvance := advance_of_ok (f := start j t) rfl rfl hx
  rw [Draft.chooseAll_cons] at hadvance
  -- The first visit opens up the goal, the second one records what its first alternative is.
  cases budget with
  | zero => cases he
  | succ budget =>
    rw [explore_of_advance (List.cons_ne_nil _ _) hl hadvance rfl] at he
    have hfound := (explore_run he).found
    cases budget with
    | zero => cases he
    | succ budget =>
      rw [passed_succ (List.cons_ne_nil _ _),derived_cons_some (derived?_of_nil rfl rfl),foldl_addNew] at hfound
      rw [hfound]
      exact ⟨_,rfl⟩

end Frontier

namespace Tactic

theorem auto_tries_verbatim {κ : Type} (own : κ → Tactic (Label κ)) (ctx : Context) {j : Judgement} {e : Entry}
    (h : j.Verbatim e) {bound : Nat} (hb : 0 < bound) :
    ∃ least more, j.Verbatim least ∧ (∀ e', j.Verbatim e' → least.name ≤ e'.name) ∧
      ((Goal.root j auto).expansion (bodies own) ctx bound).outcome =
        .ok (⟨some (.closed (.var least.name)),[]⟩ :: more) := by
  have hmem (e : Entry) : e ∈ j.hypothesis.entries.filter (fun e => e.ty == j.goal && e.provenance != .recursive) ↔
      j.Verbatim e := by
    simp [Judgement.Verbatim]
  have hsorted := j.hypothesis.sorted.filter fun e => e.ty == j.goal && e.provenance != .recursive
  cases hentries : j.hypothesis.entries.filter fun e => e.ty == j.goal && e.provenance != .recursive with
  | nil =>
    rw [← hmem,hentries] at h
    cases h
  | cons least rest =>
    rw [hentries] at hsorted
    simp only [hentries,List.mem_cons] at hmem
    have hspent : decide (bound ≤ 0) = false := decide_eq_false (Nat.not_le.2 hb)
    have hassumption : (expand (bodies own) ctx j (bound ≤ 0) 511 assumption []).outcome =
        .ok ((least :: rest).map fun e => ⟨some (.closed (.var e.name)),[]⟩) := by
      rw [hspent,assumption,expand,hentries]
      simp [someOf,Except.map]
    obtain ⟨more,hmore⟩ := Expansion.all_cons_ok hassumption (([andThen intros (call .auto),
      andThen split (call .auto),andThen homomorphismAny (call .auto),andThen destructAny (call .auto),
      andThen apply (call .auto)] : List (Tactic (Label κ))).map fun t =>
        expand (bodies own) ctx j (bound ≤ 0) 511 t [])
    refine ⟨least,_,(hmem least).1 (.inl rfl),fun e' he' => ?_,hmore⟩
    rcases (hmem e').2 he' with rfl | he'
    · exact String.le_refl _
    · exact String.not_lt.1 (String.lt_asymm (List.rel_of_pairwise_cons hsorted he'))

end Tactic

/-- A tactic whose first alternative is a variable answers with it, as soon as the first bound is exhausted. -/
theorem answersIn_of_first {procs : ι → Tactic ι} {ctx : Context} {j : Judgement} {t : Tactic ι} {x : Name}
    {more : List (Alternative ι)} {steps : Nat} (hsteps : (Frontier.start j t).ExhaustedIn procs ctx 1 steps)
    (h : ((Goal.root j t).expansion procs ctx 1).outcome = .ok (⟨some (.closed (.var x)),[]⟩ :: more)) :
    AnswersIn procs ctx j t (fun ds => ∃ others, RunResult.ofDerivations j.goal ds = .ok ⟨.var x,others⟩) steps := by
  intro cfg d early
  obtain ⟨left,f,he,-⟩ := hsteps.explore (max 1 cfg.maxSolutions)
  obtain ⟨others,hfound⟩ := Frontier.found_of_first (Nat.le_max_left ..) h he
  have hverdict : f.verdict j.goal = some (.ok f.found) := Frontier.verdict_of_found (by simp [hfound])
  have hrun : (Frontier.start j t).Watched procs ctx 1 (max 1 cfg.maxSolutions) d 0 (some (0 + steps - left,f)) :=
    Frontier.watched_of_explore he (by rwa [Nat.zero_add])
  obtain ⟨rest,hrank⟩ := rank_head x others
  refine ⟨f.found,⟨(rest.filter (·.unsolved.isEmpty)).map (·.term),?_⟩,_,.answer hrun hverdict,rfl⟩
  simp only [RunResult.ofDerivations,hfound,hrank]

/-- Where entries other than the definition being written have exactly the type of the goal, the automatic command
answers with the one of least name, whatever else there is, unless it runs out of time. There are a number of
steps that suffice for it, and if the time is not up before that it answers. -/
theorem auto_verbatim (ctx : Context) {j : Judgement} {e : Entry} (h : j.Verbatim e) :
    ∃ least, j.Verbatim least ∧ (∀ e', j.Verbatim e' → least.name ≤ e'.name) ∧
      (∀ cfg binding, Command.auto.invoke cfg ctx j binding = .error (.timeout cfg.timeout) ∨
        ∃ others, Command.auto.invoke cfg ctx j binding = .ok ⟨.var least.name,others⟩) ∧
      (∀ cfg d r, Ran (Tactic.bodies Empty.elim) ctx cfg j Tactic.auto d r →
        r = .error (.timeout cfg.timeout) ∨ ∃ others, r = .ok ⟨.var least.name,others⟩) ∧
      ∃ steps,
        (∀ cfg binding, steps ≤ cfg.timeout * stepsPerMillisecond →
          ∃ others, Command.auto.invoke cfg ctx j binding = .ok ⟨.var least.name,others⟩) ∧
        ∀ cfg (d : Deadline), d.Early steps →
          ∃ others, Ran (Tactic.bodies Empty.elim) ctx cfg j Tactic.auto d (.ok ⟨.var least.name,others⟩) := by
  obtain ⟨least,more,hleast,hmin,hfirst⟩ := Tactic.auto_tries_verbatim Empty.elim ctx h Nat.zero_lt_one
  obtain ⟨steps,hsteps⟩ : ∃ steps,
      (Frontier.start j Tactic.auto).ExhaustedIn (Tactic.bodies Empty.elim) ctx 1 steps := by
    have hroot : (Goal.root j (Tactic.auto : Tactic (Tactic.Label Empty))).OfCommand := .automatic (.inl ⟨rfl,rfl⟩)
    rw [← Tactic.bodiesWith_argument]
    exact (Ends.of_command hroot).exhausted_start
  have hanswers := answersIn_of_first hsteps hfirst
  have hany (cfg : Config) (d : Deadline) (r : Except TacticError RunResult)
      (hr : Ran (Tactic.bodies Empty.elim) ctx cfg j Tactic.auto d r) :
      r = .error (.timeout cfg.timeout) ∨ ∃ others, r = .ok ⟨.var least.name,others⟩ := by
    obtain ⟨s,hs,rfl⟩ := hr
    rcases hanswers.searched hs with rfl | ⟨ds,⟨others,hok⟩,rfl⟩
    · exact .inl rfl
    · exact .inr ⟨others,hok⟩
  refine ⟨least,hleast,hmin,fun cfg binding => hany cfg _ _ ⟨_,searched_search,rfl⟩,hany,steps,
    fun cfg binding hle => ?_,fun cfg d early => ?_⟩
  · obtain ⟨ds,⟨others,hok⟩,hds⟩ := hanswers.search hle
    have hinvoke : Command.auto.invoke cfg ctx j binding =
        search (Tactic.bodies Empty.elim) cfg ctx j Tactic.auto >>= RunResult.ofDerivations j.goal := rfl
    rw [hds] at hinvoke
    exact ⟨others,hinvoke.trans hok⟩
  · obtain ⟨ds,⟨others,hok⟩,hds⟩ := hanswers cfg d early
    exact ⟨others,.ok ds,hds,hok.symm⟩

def Judgement.natsKnown : Judgement where
  goal := .const "N"
  hypothesis := .ofList [⟨"y",.const "N",.user⟩,⟨"x",.const "N",.argument "f" 0⟩,⟨"f",.const "N",.recursive⟩]

theorem auto_verbatim_nat : ∃ others,
    Command.auto.invoke { timeout := 1 } ⟨[],.empty,.nat⟩ .natsKnown none = .ok ⟨.var "x",others⟩ := by
  have hentries : Judgement.natsKnown.hypothesis.entries =
    [⟨"f",.const "N",.recursive⟩,⟨"x",.const "N",.argument "f" 0⟩,⟨"y",.const "N",.user⟩] := rfl
  have hx : Judgement.natsKnown.Verbatim ⟨"x",.const "N",.argument "f" 0⟩ := ⟨by simp [hentries],rfl,nofun⟩
  obtain ⟨least,⟨hmem,-,hprov⟩,hmin,hinvoke,-⟩ := auto_verbatim ⟨[],.empty,.nat⟩ hx
  have hleast : least.name = "x" := by
    have hle := hmin _ hx
    simp only [hentries,List.mem_cons,List.not_mem_nil,or_false] at hmem
    rcases hmem with rfl | rfl | rfl
    · cases hprov rfl
    · rfl
    · exact absurd hle (by decide)
  obtain ⟨res,hres⟩ : ∃ res, runTactic (Tactic.bodies Empty.elim) { timeout := 1 } ⟨[],.empty,.nat⟩ .natsKnown
    Tactic.auto = .ok res := runTactic_ok_iff.2 ⟨_,rfl⟩
  rcases hinvoke { timeout := 1 } none with hnone | hsome
  · cases hres.symm.trans hnone
  · rwa [hleast] at hsome

end TypedHole
