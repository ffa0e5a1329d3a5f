import Mathlib.Data.Nat.Find
import TypedHole.Proofs.Applicability
import TypedHole.Proofs.AutoRuns

/-! Finiteness of the searches of commands.
Opening up a tactic goes no deeper than its combinators are nested (`Tactic.Nests`), and the automatic tactic,
whose body calls itself, comes to a rule before it does so again. Every goal that comes up for a command is
nested within the limit and leaves only goals that are nearer to the depth bound (`Goal.OfCommand.handOut`).
Main statement: each depth bound is exhausted after finitely many steps, so that a search without an answer
finds nothing within any bound and never runs out of bounds to try (`command_finishes`). -/
namespace TypedHole

section

variable {ι : Type}

/-- How many combinators within one another are opened up, at most, until a rule or nothing more is to be done
for a goal. -/
inductive Tactic.Nests (procs : ι → Tactic ι) (j : Judgement) : Nat → Tactic ι → Prop
  | rule {n : Nat} {name : String}
      {refine : Context → Judgement → Except TacticError (List (Refinement (Tactic ι)))} :
      Nests procs j n (.rule name refine)
  | idle {n : Nat} : Nests procs j n .idle
  | fail {n : Nat} {e : TacticError} : Nests procs j n (.fail e)
  | andThen {n : Nat} {a b : Tactic ι} (first : Nests procs j n a) : Nests procs j (n + 1) (.andThen a b)
  | orElse {n : Nat} {a b : Tactic ι} (first : Nests procs j n a) (fallback : Nests procs j n b) :
      Nests procs j (n + 1) (.orElse a b)
  | choice {n : Nat} {ts : List (Tactic ι)} (tactics : ∀ t ∈ ts, Nests procs j n t) :
      Nests procs j (n + 1) (.choice ts)
  | call {n : Nat} {l : ι} (body : Nests procs j n (procs l)) : Nests procs j (n + 1) (.call l)
  | withGoal {n : Nat} {f : Judgement → Tactic ι} (chosen : Nests procs j n (f j)) :
      Nests procs j (n + 1) (.withGoal f)

namespace Tactic.Nests

variable {procs : ι → Tactic ι} {j : Judgement} {n : Nat} {t : Tactic ι}

theorem mono (h : Nests procs j n t) {m : Nat} (hm : n ≤ m) : Nests procs j m t := by
  induction h generalizing m with
  | rule => exact .rule
  | idle => exact .idle
  | fail => exact .fail
  | andThen _ ih => match m, hm with | m + 1, hm => exact .andThen (ih (Nat.le_of_succ_le_succ hm))
  | orElse _ _ iha ihb =>
    match m, hm with
    | m + 1, hm => exact .orElse (iha (Nat.le_of_succ_le_succ hm)) (ihb (Nat.le_of_succ_le_succ hm))
  | choice _ ih =>
    match m, hm with | m + 1, hm => exact .choice fun t ht => ih t ht (Nat.le_of_succ_le_succ hm)
  | call _ ih => match m, hm with | m + 1, hm => exact .call (ih (Nat.le_of_succ_le_succ hm))
  | withGoal _ ih => match m, hm with | m + 1, hm => exact .withGoal (ih (Nat.le_of_succ_le_succ hm))

theorem expand_eq (h : Nests procs j n t) (ctx : Context) (spent : Bool) {fuel fuel' : Nat} (hf : n ≤ fuel)
    (hf' : n ≤ fuel') (rest : List (Tactic ι)) :
    expand procs ctx j spent (fuel + 1) t rest = expand procs ctx j spent (fuel' + 1) t rest := by
  induction h generalizing fuel fuel' rest with
  | rule => rfl
  | idle => rfl
  | fail => rfl
  | andThen _ ih =>
    match fuel, fuel', hf, hf' with
    | fuel + 1, fuel' + 1, hf, hf' => exact ih (Nat.le_of_succ_le_succ hf) (Nat.le_of_succ_le_succ hf') _
  | @orElse n a b _ _ iha ihb =>
    match fuel, fuel', hf, hf' with
    | fuel + 1, fuel' + 1, hf, hf' =>
      have ha := iha (Nat.le_of_succ_le_succ hf) (Nat.le_of_succ_le_succ hf') rest
      have hb := ihb (Nat.le_of_succ_le_succ hf) (Nat.le_of_succ_le_succ hf') rest
      exact congrArg₂ (fun e e' => Expansion.orElse e fun _ => e') ha hb
  | @choice n ts _ ih =>
    match fuel, fuel', hf, hf' with
    | fuel + 1, fuel' + 1, hf, hf' =>
      exact congrArg Expansion.all (List.map_congr_left fun t ht =>
        ih t ht (Nat.le_of_succ_le_succ hf) (Nat.le_of_succ_le_succ hf') rest)
  | call _ ih =>
    match fuel, fuel', hf, hf' with
    | fuel + 1, fuel' + 1, hf, hf' => exact ih (Nat.le_of_succ_le_succ hf) (Nat.le_of_succ_le_succ hf') _
  | withGoal _ ih =>
    match fuel, fuel', hf, hf' with
    | fuel + 1, fuel' + 1, hf, hf' => exact ih (Nat.le_of_succ_le_succ hf) (Nat.le_of_succ_le_succ hf') _

end Tactic.Nests

theorem Tactic.LibraryRule.of_yields {procs : ι → Tactic ι} {ctx : Context} {j : Judgement} {t : Tactic ι}
    {rest : List (Tactic ι)} {a : Alternative ι} (h : LibraryRule t) (hy : Yields procs ctx j t rest a) :
    ∃ r, a = ⟨some r,rest⟩ ∧ Move ctx j r := by
  have hm : t.Offers ctx (Move ctx) := h.moves
  cases t with
  | rule =>
    obtain ⟨rs,hf,r,hr,rfl⟩ := hy.of_rule
    exact ⟨r,rfl,hm j rs hf r hr⟩
  | _ => exact hm.elim

theorem Tactic.LibraryRule.nests {procs : ι → Tactic ι} {j : Judgement} {t : Tactic ι} (h : LibraryRule t)
    (n : Nat) : Nests procs j n t := by
  have hm : t.Offers ⟨[],.empty,{}⟩ (Move ⟨[],.empty,{}⟩) := h.moves
  cases t with
  | rule => exact .rule
  | _ => exact hm.elim

theorem Tactic.nests_keep {procs : ι → Tactic ι} {j : Judgement} (x : Name) : Nests procs j 1 (keep x) :=
  .orElse ((LibraryRule.assume x).nests 0) .idle

end

open TypedHole.Tactic

section

variable {κ : Type} {pass : Judgement → Ty → Judgement} {own : κ → Tactic (Label κ)} {ctx : Context}
  {bound limit : Nat} {g : Goal (Label κ)} {a : Alternative (Label κ)}

theorem Tactic.nests_auto (j : Judgement) : Nests (bodiesWith pass own) j 5 auto := by
  have destructs : Nests (bodiesWith pass own) j 2 destructAny := .withGoal <| .choice fun t ht => by
    obtain ⟨e,-,rfl⟩ := List.mem_map.1 ht
    exact (LibraryRule.destruct e.name).nests 0
  have homomorphisms : Nests (bodiesWith pass own) j 2 homomorphismAny := .withGoal <| .choice fun t ht => by
    obtain ⟨e,-,rfl⟩ := List.mem_map.1 ht
    exact (LibraryRule.homomorphism e.name).nests 0
  refine .call (.choice ?_)
  simp only [List.mem_cons,List.not_mem_nil,or_false,forall_eq_or_imp,forall_eq]
  exact ⟨LibraryRule.assumption.nests 3,.andThen (LibraryRule.intros.nests 2),.andThen .rule,
    .andThen homomorphisms,.andThen destructs,.andThen .rule⟩

/-- A goal that comes up when a command runs: one for the automatic tactic or a field that it keeps, or a goal
for a single rule of the library or a field that this rule keeps. -/
inductive Goal.OfCommand (g : Goal (Label κ)) : Prop
  | automatic (automatic : g.Automatic)
  | rule (tactic : LibraryRule g.tactic) (rest : g.rest = [])
  | kept {x : Name} (tactic : g.tactic = keep x) (rest : g.rest = [])

theorem Goal.OfCommand.nests (h : g.OfCommand) :
    Nests (bodiesWith pass own) g.judgement maxNesting g.tactic := by
  cases h with
  | automatic h =>
    rcases h with hauto | ⟨x,hkeep,-⟩
    · rw [hauto.tactic]
      exact (nests_auto g.judgement).mono (by decide)
    · rw [hkeep]
      exact (nests_keep x).mono (by decide)
  | rule tactic => exact tactic.nests _
  | @kept x tactic =>
    rw [tactic]
    exact (nests_keep x).mono (by decide)

theorem Goal.OfCommand.handOut (h : g.OfCommand) {as : List (Alternative (Label κ))}
    (outcome : (g.expansion (bodiesWith pass own) ctx bound).outcome = .ok as) (mem : a ∈ as)
    {g' : Goal (Label κ)} (hg : .inl g' ∈ a.handOut g) : g'.OfCommand ∧ g'.measure bound < g.measure bound := by
  cases h with
  | automatic h =>
    obtain ⟨g₁,heq,hauto,hlt⟩ := h.handOut outcome mem _ hg
    cases heq
    exact ⟨.automatic hauto,hlt⟩
  | rule tactic rest =>
    have hyields : Yields (bodiesWith pass own) ctx g.judgement g.tactic [] a :=
      ⟨_,_,as,by rwa [Goal.expansion,rest] at outcome,mem⟩
    obtain ⟨r,rfl,hmove⟩ := tactic.of_yields hyields
    have hdepth : g.depth < bound := Nat.lt_of_not_le fun hle => by
      cases Goal.refinement_of_spent outcome hle _ mem
    obtain ⟨s,hs,hg⟩ := List.mem_map.1 hg
    obtain ⟨-,-,hbelow,⟨hown,hrest⟩ | ⟨-,hrest⟩⟩ := Draft.schedule_inl hg
    · rcases hmove.tactic with hnone | hkeep
      · rw [hnone s hs] at hown
        cases hown
      · obtain ⟨x,hx⟩ := hkeep s hs
        refine ⟨.kept (Option.some.inj (hown.symm.trans hx)) hrest,?_⟩
        have hlevel : g'.depth = g.depth + 1 := hbelow
        rw [Goal.measure,Goal.measure,hrest,hlevel]
        simp only [List.length_nil]
        omega
    · cases hrest
  | @kept x tactic rest =>
    have hyields : Yields (bodiesWith pass own) ctx g.judgement (keep x) [] a :=
      ⟨_,_,as,by rwa [Goal.expansion,tactic,rest] at outcome,mem⟩
    -- the field is taken, or its goal stays open
    rcases hyields.of_keep with rfl | rfl
    · cases hg
    · cases List.mem_singleton.1 hg

theorem Frontier.Step.ofCommand {f f' : Frontier (Label κ)} (hs : Step (bodiesWith pass own) ctx bound f f')
    (h : ∀ d ∈ f.drafts, ∀ g ∈ d.agenda.map Goal.unnumbered, g.OfCommand) :
    ∀ d ∈ f'.drafts, ∀ g ∈ d.agenda.map Goal.unnumbered, g.OfCommand := by
  intro d hd
  rcases hs.mem_drafts hd with hd | @⟨d,g,gs,as,a,n,mem,agenda,outcome,alternative,_,_,_⟩
  · exact h d hd
  · have hgs := h _ mem
    rw [agenda] at hgs
    obtain ⟨hg,hrest⟩ := List.forall_mem_cons.1 hgs
    intro g' hg'
    rw [Draft.unnumbered_choose] at hg'
    rcases List.mem_append.1 hg' with hg' | hg'
    · exact (hg.handOut outcome alternative (Alternative.mem_goals hg')).1
    · exact hrest g' hg'

theorem Command.ofCommand_root {c : Command} {binding : Option Name} {t : Tactic (Label κ)}
    (h : c.tactic binding = .ok t) (j : Judgement) : (Goal.root j t).OfCommand := by
  cases c with
  | auto =>
    cases h
    exact .automatic (.inl ⟨rfl,rfl⟩)
  | intros =>
    cases h
    exact .rule .intros rfl
  | destruct =>
    cases binding <;> cases h
    exact .rule (.destruct _) rfl
  | homomorphism =>
    cases binding <;> cases h
    exact .rule (.homomorphism _) rfl
  | destructLambdaCase =>
    cases h
    exact .rule .destructLambdaCase rfl
  | homomorphismLambdaCase =>
    cases h
    exact .rule .homomorphismLambdaCase rfl

theorem Ends.of_command (h : g.OfCommand) : Ends (bodiesWith pass own) ctx bound [g] :=
  .of_measure (P := Goal.OfCommand) (Goal.measure bound)
    (fun _ hg _ outcome _ mem _ hg' => hg.handOut outcome mem hg') _
    fun _ hg => List.mem_singleton.1 hg ▸ h

end

section

variable {ι : Type} {procs : ι → Tactic ι} {ctx : Context} {limit : Nat} {j : Judgement} {t : Tactic ι}

/-- Under a deadline that leaves time for the budget an exploration goes as it goes with the budget. -/
theorem Frontier.watched_of_explore {bound budget left n : Nat} {f f' : Frontier ι}
    (h : f.explore procs ctx bound limit budget = some (left,f')) {d : Deadline} (early : d.Early (n + budget)) :
    f.Watched procs ctx bound limit d n (some (n + budget - left,f')) := by
  have hrun : f.Watched procs ctx bound limit (.ofBudget (n + budget)) n _ := watched_explore budget n f
  rw [h] at hrun
  have hbefore : (Deadline.ofBudget (n + budget)).Early n := Deadline.early_ofBudget (Nat.le_add_right n budget)
  exact (hrun.later early.later hbefore rfl).1

theorem searches_of_explored {r : SearchResult} {m bound : Nat}
    (vain : ∀ b, bound ≤ b → b < bound + m → ∃ budget left f,
      (Frontier.start j t).explore procs ctx b limit budget = some (left,f) ∧ f.verdict j.goal = none)
    (last : ∃ budget left f, (Frontier.start j t).explore procs ctx (bound + m) limit budget = some (left,f) ∧
      f.verdict j.goal = some r) (n : Nat) :
    ∃ steps, ∀ d : Deadline, d.Early steps → Searches procs ctx limit j t d n bound (some r) := by
  induction m generalizing bound n with
  | zero =>
    obtain ⟨budget,left,f,he,hv⟩ := last
    exact ⟨n + budget,fun d early => .answer (Frontier.watched_of_explore he early) hv⟩
  | succ m ih =>
    obtain ⟨budget,left,f,he,hv⟩ := vain bound (Nat.le_refl _) (by omega)
    have hm : bound + (m + 1) = bound + 1 + m := by omega
    rw [hm] at vain last
    obtain ⟨steps,hsteps⟩ := ih (fun b hb => vain b (Nat.le_of_succ_le hb)) last (n + budget - left)
    refine ⟨max (n + budget) steps,fun d early => ?_⟩
    have hbudget : d.Early (n + budget) := fun k hk => early k (Nat.lt_of_lt_of_le hk (Nat.le_max_left ..))
    have hrest : d.Early steps := fun k hk => early k (Nat.lt_of_lt_of_le hk (Nat.le_max_right ..))
    exact .deeper (Frontier.watched_of_explore he hbudget) hv (hsteps d hrest)

/-- A search all of whose bounds are finite answers, given the time, or else deepens without end. -/
theorem answers_or_deepens (h : ∀ bound, (Frontier.start j t).Finishes procs ctx bound limit) :
    (∃ r steps, ∀ d : Deadline, d.Early steps → Searches procs ctx limit j t d 0 1 (some r)) ∨
    ∀ bound, 1 ≤ bound → ∃ budget left f,
      (Frontier.start j t).explore procs ctx bound limit budget = some (left,f) ∧ f.verdict j.goal = none := by
  classical
  by_cases hanswer : ∃ m, ∃ budget left f r,
    (Frontier.start j t).explore procs ctx (1 + m) limit budget = some (left,f) ∧ f.verdict j.goal = some r
  · obtain ⟨budget,left,f,r,he,hv⟩ := Nat.find_spec hanswer
    refine .inl ⟨r,searches_of_explored (fun b hb hlt => ?_) ⟨budget,left,f,he,hv⟩ 0⟩
    obtain ⟨m,rfl⟩ := Nat.exists_eq_add_of_le hb
    obtain ⟨budget,left,f,he⟩ := h (1 + m)
    cases hv : f.verdict j.goal with
    | none => exact ⟨budget,left,f,he,hv⟩
    | some r => exact absurd ⟨budget,left,f,r,he,hv⟩ (Nat.find_min hanswer (Nat.lt_of_add_lt_add_left hlt))
  · refine .inr fun b hb => ?_
    obtain ⟨m,rfl⟩ := Nat.exists_eq_add_of_le hb
    obtain ⟨budget,left,f,he⟩ := h (1 + m)
    cases hv : f.verdict j.goal with
    | none => exact ⟨budget,left,f,he,hv⟩
    | some r => exact absurd ⟨m,budget,left,f,r,he,hv⟩ hanswer

end

/-- For every command, judgement and depth bound the frontier is empty after finitely many visits, and an
exploration with as many steps ends, by then with an empty frontier unless it has found enough. Every goal that
is ever on an agenda is opened up within the limit on nesting, so that a greater limit would make no difference.
Hence, given enough steps, the search answers, or else it explores every depth bound to its end, finds nothing
there and cuts a branch off. -/
theorem command_finishes {κ : Type} (own : κ → Tactic (Label κ)) (ctx : Context) (j : Judgement) (c : Command)
    (binding : Option Name) (t : Tactic (Label κ)) (h : c.tactic binding = .ok t) :
    (∀ bound,
      (∃ steps, (Frontier.start j t).ExhaustedIn (bodies own) ctx bound steps ∧
        ∀ limit, ∃ left f, (Frontier.start j t).explore (bodies own) ctx bound limit steps = some (left,f) ∧
          (f.found.length < limit → f.drafts = [])) ∧
      ∀ limit budget f,
        (f ∈ (Frontier.start j t).passed (bodies own) ctx bound limit budget ∨
          ∃ left, (Frontier.start j t).explore (bodies own) ctx bound limit budget = some (left,f)) →
        ∀ d ∈ f.drafts, ∀ g ∈ d.agenda, Nests (bodies own) g.judgement maxNesting g.tactic ∧
          ∀ nesting, maxNesting ≤ nesting → g.tactic.expand (bodies own) ctx g.judgement (bound ≤ g.depth)
            (nesting + 1) g.rest = g.expansion (bodies own) ctx bound) ∧
    ∀ limit,
      (∃ r steps,
        (∀ d : Deadline, d.Early steps → Searches (bodies own) ctx limit j t d 0 1 (some r)) ∧
        ∀ budget, steps ≤ budget → deepen (bodies own) ctx limit j t budget budget 1 = some r) ∨
      ∀ bound, 1 ≤ bound → ∃ budget left f,
        (Frontier.start j t).explore (bodies own) ctx bound limit budget = some (left,f) ∧
          f.found = [] ∧ f.cut = true := by
  rw [← bodiesWith_argument]
  have hroot : (Goal.root j t).OfCommand := Command.ofCommand_root h j
  have hexhausted (bound : Nat) :
      ∃ steps, (Frontier.start j t).ExhaustedIn (bodiesWith Judgement.argument own) ctx bound steps :=
    (Ends.of_command hroot).exhausted_start
  refine ⟨fun bound => ⟨?_,fun limit budget f hf d hd g hg => ?_⟩,fun limit => ?_⟩
  · obtain ⟨steps,hsteps⟩ := hexhausted bound
    exact ⟨steps,hsteps,hsteps.explore⟩
  · have hstart : ∀ d ∈ (Frontier.start j t).drafts, ∀ g ∈ d.agenda.map Goal.unnumbered, g.OfCommand := by
      intro d hd g hg
      cases List.mem_singleton.1 hd
      cases List.mem_singleton.1 hg
      exact hroot
    have hgoal : g.unnumbered.OfCommand := Frontier.forall_reached (fun _ _ h hs => hs.ofCommand h) hstart hf
      d hd _ (List.mem_map_of_mem hg)
    have hnests : Nests (bodiesWith Judgement.argument own) g.judgement maxNesting g.tactic := hgoal.nests
    exact ⟨hnests,fun nesting hle => hnests.expand_eq ctx _ hle (Nat.le_refl _) g.rest⟩
  · have hfinishes (bound : Nat) :
        (Frontier.start j t).Finishes (bodiesWith Judgement.argument own) ctx bound limit :=
      (hexhausted bound).elim fun _ hsteps => hsteps.finishes
    rcases answers_or_deepens hfinishes with ⟨r,steps,hr⟩ | hdeepens
    · refine .inl ⟨r,steps,hr,fun budget hle => ?_⟩
      have hanswer := hr (.ofBudget budget) fun k hk hup => Nat.not_lt.2 (Nat.le_trans hle hup) hk
      have hbudget : Searches (bodiesWith Judgement.argument own) ctx limit j t (.ofBudget (0 + budget)) 0 1 _ :=
        searches_deepen (Nat.le_refl budget) 0 1
      rw [Nat.zero_add] at hbudget
      exact hbudget.unique hanswer
    · refine .inr fun bound hb => ?_
      obtain ⟨budget,left,f,he,hv⟩ := hdeepens bound hb
      exact ⟨budget,left,f,he,Frontier.verdict_eq_none hv,Frontier.cut_of_verdict hv⟩

theorem command_finishes_nat :
    (∃ steps, (Frontier.start .natFunction auto).ExhaustedIn (bodies Empty.elim) ⟨[],.empty,.nat⟩ 4 steps ∧
      ∃ left f, (Frontier.start .natFunction auto).explore (bodies Empty.elim) ⟨[],.empty,.nat⟩ 4 8 steps =
        some (left,f) ∧ (f.found.length < 8 → f.drafts = [])) ∧
    Nests (bodies Empty.elim) .natFunction maxNesting auto ∧
    ∃ steps, (Frontier.start .natFunction (destruct "x")).ExhaustedIn (bodies Empty.elim)
      ⟨[],.empty,.nat⟩ 2 steps := by
  obtain ⟨hauto,-⟩ := command_finishes Empty.elim ⟨[],.empty,.nat⟩ .natFunction .auto none auto rfl
  obtain ⟨hsplit,-⟩ := command_finishes Empty.elim ⟨[],.empty,.nat⟩ .natFunction .destruct (some "x")
    (destruct "x") rfl
  obtain ⟨⟨steps,hsteps,hexplore⟩,hnests⟩ := hauto 4
  obtain ⟨⟨steps',hsteps',-⟩,-⟩ := hsplit 2
  have hstart : Frontier.start .natFunction auto ∈
      (Frontier.start .natFunction auto).passed (bodies Empty.elim) ⟨[],.empty,.nat⟩ 4 8 1 :=
    List.mem_cons_self
  exact ⟨⟨steps,hsteps,hexplore 8⟩,
    (hnests 8 1 _ (.inl hstart) _ (List.mem_singleton_self _) _ (List.mem_singleton_self _)).1,steps',hsteps'⟩

end TypedHole
