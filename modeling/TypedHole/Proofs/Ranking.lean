import Mathlib.Data.Prod.Lex
import TypedHole.Proofs.Applicability
import TypedHole.Proofs.Simulation

/-! Ranking.
Derivations are ranked by a stable sort, which keeps those of the same rank in the order of the search
(`filter_rank`). Main statement: the extract is the first of the best derivations, and beside it are the complete
terms of all others, by size (`runTactic_ranking`). -/
namespace TypedHole

/-- What derivations are ranked by: the number of goals left open, then the size of the term. -/
def Derivation.key (d : Derivation) : Nat ×ₗ Nat := toLex (d.unsolved.length,d.term.size)

theorem Derivation.ranksBefore_iff {d e : Derivation} : d.ranksBefore e = true ↔ d.key ≤ e.key := by
  rw [key,key,Prod.Lex.toLex_le_toLex]
  simp [ranksBefore]

theorem Derivation.unsolved_le_of_key_le {d e : Derivation} (h : d.key ≤ e.key) :
    d.unsolved.length ≤ e.unsolved.length := by
  rcases Prod.Lex.toLex_le_toLex.1 h with hlt | ⟨heq,-⟩
  · exact hlt.le
  · exact heq.le

theorem Derivation.size_le_of_key_le {d e : Derivation} (hd : d.unsolved = []) (he : e.unsolved = [])
    (h : d.key ≤ e.key) : d.term.size ≤ e.term.size := by
  rcases Prod.Lex.toLex_le_toLex.1 h with hlt | ⟨-,hle⟩
  · simp [hd,he] at hlt
  · exact hle

theorem Derivation.ranksBefore_trans (a b c : Derivation) (hab : a.ranksBefore b = true)
    (hbc : b.ranksBefore c = true) : a.ranksBefore c = true := by
  rw [ranksBefore_iff] at hab hbc ⊢
  exact hab.trans hbc

theorem Derivation.ranksBefore_total (a b : Derivation) : (a.ranksBefore b || b.ranksBefore a) = true := by
  rw [Bool.or_eq_true,ranksBefore_iff,ranksBefore_iff]
  exact le_total a.key b.key

theorem rank_perm (ds : List Derivation) : (rank ds).Perm ds := List.mergeSort_perm ds _

theorem rank_pairwise (ds : List Derivation) : (rank ds).Pairwise fun d e => d.key ≤ e.key := by
  have hsorted := List.pairwise_mergeSort Derivation.ranksBefore_trans Derivation.ranksBefore_total ds
  exact hsorted.imp Derivation.ranksBefore_iff.1

theorem filter_rank {p : Derivation → Bool} (h : ∀ d e, p d = true → p e = true → d.key = e.key)
    (ds : List Derivation) : (rank ds).filter p = ds.filter p := by
  have hequal : (ds.filter p).Pairwise fun d e => d.ranksBefore e = true :=
    List.pairwise_of_forall_mem_list fun d hd e he =>
      Derivation.ranksBefore_iff.2 (h d e (List.mem_filter.1 hd).2 (List.mem_filter.1 he).2).le
  have hsub : (ds.filter p).Sublist (rank ds) := List.sublist_mergeSort Derivation.ranksBefore_trans
    Derivation.ranksBefore_total hequal List.filter_sublist
  have hfilter := hsub.filter p
  rw [List.filter_filter] at hfilter
  simp only [Bool.and_self] at hfilter
  exact (hfilter.eq_of_length ((rank_perm ds).symm.filter p).length_eq).symm

/-- The best derivation is the first one that none surpasses, and the others keep their order as far as they are
of the same rank. -/
theorem rank_eq_cons {ds rest : List Derivation} {best : Derivation} (h : rank ds = best :: rest) :
    ∃ before after, ds = before ++ best :: after ∧ rest.Perm (before ++ after) ∧
      (∀ d ∈ before, best.key < d.key) ∧ (∀ d ∈ after, best.key ≤ d.key) ∧
      ∀ p : Derivation → Bool, (∀ d e, p d = true → p e = true → d.key = e.key) →
        rest.filter p = (before ++ after).filter p := by
  have hmin : ∀ d ∈ ds, best.key ≤ d.key := by
    intro d hd
    have hsorted := rank_pairwise ds
    rw [h] at hsorted
    have hmem := (rank_perm ds).mem_iff.2 hd
    rw [h] at hmem
    rcases List.mem_cons.1 hmem with rfl | hmem
    · exact le_rfl
    · exact List.rel_of_pairwise_cons hsorted hmem
  have hfirst : ds.filter (fun d => d.key = best.key) = best :: rest.filter fun d => d.key = best.key := by
    rw [← filter_rank (fun d e hd he => by simp_all),h]
    simp
  obtain ⟨before,after,rfl,hbefore,-,-⟩ := List.filter_eq_cons_iff.1 hfirst
  have hless : ∀ d ∈ before, best.key < d.key := fun d hd =>
    lt_of_le_of_ne (hmin d (by simp [hd])) fun he => hbefore d hd (by simp [he])
  refine ⟨before,after,rfl,?_,hless,fun d hd => hmin d (by simp [hd]),fun p hp => ?_⟩
  · have hperm := (rank_perm (before ++ best :: after))
    rw [h] at hperm
    exact (hperm.trans List.perm_middle).cons_inv
  · have hfilter := filter_rank hp (before ++ best :: after)
    rw [h,List.filter_append] at hfilter
    rw [List.filter_append]
    by_cases hbest : p best = true
    · have hnone : before.filter p = [] := List.filter_eq_nil_iff.2 fun d hd hpd =>
        (hless d hd).ne (hp best d hbest hpd)
      rw [List.filter_cons_of_pos hbest,List.filter_cons_of_pos hbest,hnone] at hfilter
      rw [hnone]
      exact List.tail_eq_of_cons_eq hfilter
    · rwa [List.filter_cons_of_neg hbest,List.filter_cons_of_neg hbest] at hfilter

def Derivation.complete (ds : List Derivation) : List Term := (ds.map (·.term)).filter (·.holes.isEmpty)

section

variable {ds : List Derivation}

theorem Derivation.complete_eq (h : ∀ d ∈ ds, d.unsolved = [] ↔ d.term.holes = []) :
    complete ds = (ds.filter (·.unsolved.isEmpty)).map (·.term) := by
  rw [complete,List.filter_map]
  refine congrArg _ (List.filter_congr fun d hd => ?_)
  rw [Bool.eq_iff_iff,List.isEmpty_iff]
  exact List.isEmpty_iff.trans (h d hd).symm

theorem Derivation.filter_complete (h : ∀ d ∈ ds, d.unsolved = [] ↔ d.term.holes = []) (n : Nat) :
    (complete ds).filter (·.size = n) =
      (ds.filter fun d => d.unsolved.isEmpty && d.term.size = n).map (·.term) := by
  rw [complete_eq h,List.filter_map,List.filter_filter]
  refine congrArg _ (List.filter_congr fun d _ => ?_)
  rw [Bool.and_comm]
  rfl

end

/-- A result that takes one derivation as its extract, from among those found before and after it. -/
structure RunResult.Selects (before : List Derivation) (best : Derivation) (after : List Derivation)
    (res : RunResult) : Prop where
  extract : res.extract = best.term
  first : ∀ d ∈ before, best.key < d.key
  least : ∀ d ∈ after, best.key ≤ d.key
  others : res.others.Perm (Derivation.complete (before ++ after))
  sorted : res.others.Pairwise fun s t => s.size ≤ t.size
  stable : ∀ n, res.others.filter (·.size = n) =
    (Derivation.complete (before ++ after)).filter (·.size = n)
  distinct : (res.extract :: res.others).Nodup
  alone : res.extract.holes ≠ [] → res.others = []

/-- From distinct terms, whose holes are their open goals, the best is selected. -/
theorem RunResult.selects_of_ofDerivations {goal : Ty} {ds : List Derivation} {res : RunResult}
    (h : ofDerivations goal ds = .ok res) (hclosed : ∀ d ∈ ds, d.unsolved = [] ↔ d.term.holes = [])
    (hdistinct : (ds.map (·.term)).Nodup) :
    ∃ before best after, ds = before ++ best :: after ∧ res.Selects before best after := by
  cases hrank : rank ds with
  | nil =>
    rw [ofDerivations,hrank] at h
    cases h
  | cons best rest =>
    rw [ofDerivations,hrank] at h
    cases h
    have hsorted := rank_pairwise ds
    have hperm := rank_perm ds
    obtain ⟨before,after,rfl,hrest,hfirst,hleast,hstable⟩ := rank_eq_cons hrank
    rw [hrank] at hsorted hperm
    obtain ⟨hbest,hsorted⟩ := List.pairwise_cons.1 hsorted
    have hclosed_rest : ∀ d ∈ rest, d.unsolved = [] ↔ d.term.holes = [] :=
      fun d hd => hclosed d (hperm.subset (List.mem_cons_of_mem _ hd))
    have hclosed_others : ∀ d ∈ before ++ after, d.unsolved = [] ↔ d.term.holes = [] :=
      fun d hd => hclosed_rest d (hrest.mem_iff.2 hd)
    have hothers : (rest.filter (·.unsolved.isEmpty)).map (·.term) = Derivation.complete rest :=
      (Derivation.complete_eq hclosed_rest).symm
    refine ⟨before,best,after,rfl,rfl,hfirst,hleast,hothers ▸ (hrest.map _).filter _,?_,fun n => ?_,?_,
      fun hhole => ?_⟩
    · rw [List.pairwise_map]
      refine (hsorted.filter _).imp_of_mem fun hd he hle => ?_
      have hd := (List.mem_filter.1 hd).2
      have he := (List.mem_filter.1 he).2
      exact Derivation.size_le_of_key_le (List.isEmpty_iff.1 hd) (List.isEmpty_iff.1 he) hle
    · rw [hothers,Derivation.filter_complete hclosed_rest,Derivation.filter_complete hclosed_others]
      refine congrArg _ (hstable _ fun d e hd he => ?_)
      simp only [Bool.and_eq_true,List.isEmpty_iff,decide_eq_true_eq] at hd he
      rw [Derivation.key,Derivation.key,hd.1,hd.2,he.1,he.2]
    · rw [hothers]
      refine List.Nodup.sublist (List.filter_sublist.cons_cons best.term) ?_
      exact (hperm.map (·.term)).nodup_iff.2 hdistinct
    · refine List.map_eq_nil_iff.2 (List.filter_eq_nil_iff.2 fun d hd hnil => hhole ?_)
      refine (hclosed best (by simp)).1 (List.length_eq_zero_iff.1 ?_)
      have hle := Derivation.unsolved_le_of_key_le (hbest d hd)
      rwa [List.isEmpty_iff.1 hnil,List.length_nil,Nat.le_zero] at hle

theorem nodup_firstOfEach (ds : List Derivation) : ((firstOfEach ds).map (·.term)).Nodup := by
  induction ds with
  | nil => exact .nil
  | cons d ds ih =>
    rw [firstOfEach,List.map_cons,List.nodup_cons]
    refine ⟨fun hmem => ?_,ih.sublist (List.filter_sublist.map _)⟩
    obtain ⟨e,he,hterm⟩ := List.mem_map.1 hmem
    simpa [hterm] using (List.mem_filter.1 he).2

theorem nodup_of_search {ι : Type} {procs : ι → Tactic ι} {cfg : Config} {ctx : Context} {j : Judgement}
    {t : Tactic ι} {ds : List Derivation} (h : search procs cfg ctx j t = .ok ds) :
    (ds.map (·.term)).Nodup := by
  obtain ⟨bound,budget,left,f,he,rfl⟩ := found_of_search h
  rw [(Frontier.explore_run he).found,foldl_addNew]
  exact nodup_firstOfEach _

/-- When a search by library rules returns derivations, its result has the term of the first one with the fewest
open goals and, among these, the smallest term. Beside it are the terms of the others that have no hole, by size,
those of the same size in the order of the search. All of these terms are distinct, and there are none beside an
extract that has a hole. -/
theorem runTactic_ranking {κ : Type} (own : κ → Tactic (Tactic.Label κ)) {ctx : Context}
    (hown : ∀ l, (own l).Built ctx Tactic.LibraryRule) {t : Tactic (Tactic.Label κ)}
    (ht : t.Built ctx Tactic.LibraryRule) {cfg : Config} {j : Judgement} {ds : List Derivation}
    (h : search (Tactic.bodies own) cfg ctx j t = .ok ds) :
    ∃ before best after res, ds = before ++ best :: after ∧
      runTactic (Tactic.bodies own) cfg ctx j t = .ok res ∧ res.Selects before best after := by
  obtain ⟨res,hrun⟩ := runTactic_ok_iff.2 ⟨ds,h⟩
  have hres : RunResult.ofDerivations j.goal ds = .ok res := by
    rw [runTactic,h] at hrun
    exact hrun
  have hclosed : ∀ d ∈ ds, d.unsolved = [] ↔ d.term.holes = [] := by
    obtain ⟨bound,budget,left,f,he,rfl⟩ := found_of_search h
    intro d hd
    have hpair := (Frontier.explore_run he).paired (Tactic.allOffer_of_built ht (Tactic.bodies_built hown))
      fun _ _ h => ⟨h.1,fun _ : True => h.2.1⟩
    exact ((hpair.found d hd).matches hpair.below).closed
  obtain ⟨before,best,after,hds,hselects⟩ :=
    RunResult.selects_of_ofDerivations hres hclosed (nodup_of_search h)
  exact ⟨before,best,after,res,hds,hrun,hselects⟩

def Judgement.natKnown : Judgement where
  goal := .const "N"
  hypothesis := .ofList [⟨"x",.const "N",.user⟩]

/-- A split that leaves two goals open and a successor that leaves one open stay behind zero. -/
theorem runTactic_ranking_nat :
    runTactic (Tactic.bodies Empty.elim) { timeout := 1 } ⟨[],.empty,.nat⟩ .natKnown
      (.choice [Tactic.destruct "x",Tactic.split,Tactic.assumption]) = .ok ⟨.var "Z",[.var "x"]⟩ := by
  have ht : (Tactic.choice [Tactic.destruct "x",Tactic.split,Tactic.assumption] :
      Tactic (Tactic.Label Empty)).Built ⟨[],.empty,.nat⟩ Tactic.LibraryRule := by
    refine .choice fun t ht => ?_
    simp only [List.mem_cons,List.not_mem_nil,or_false] at ht
    rcases ht with rfl | rfl | rfl
    · exact (Tactic.LibraryRule.destruct "x").built
    · exact Tactic.LibraryRule.split.built
    · exact Tactic.LibraryRule.assumption.built
  obtain ⟨d₁,d₂,d₃,d₄,hsearch,hkeys,hterms,hholes⟩ : ∃ d₁ d₂ d₃ d₄, search (Tactic.bodies Empty.elim) { timeout := 1 }
        ⟨[],.empty,.nat⟩ .natKnown (.choice [Tactic.destruct "x",Tactic.split,Tactic.assumption]) =
          .ok [d₁,d₂,d₃,d₄] ∧
      [d₁.key,d₂.key,d₃.key,d₄.key] = [toLex (2,5),toLex (0,1),toLex (1,3),toLex (0,1)] ∧
      [d₂.term,d₄.term] = [.var "Z",.var "x"] ∧ [d₁.term.holes,d₃.term.holes] = [[1,2],[3]] :=
    ⟨_,_,_,_,rfl,rfl,rfl,rfl⟩
  simp only [List.cons.injEq,and_true] at hkeys hterms hholes
  obtain ⟨h₁,h₂,h₃,h₄⟩ := hkeys
  obtain ⟨hzero,hx⟩ := hterms
  obtain ⟨hcase,hsucc⟩ := hholes
  obtain ⟨before,best,after,⟨extract,others⟩,hds,hrun,hselects⟩ :=
    runTactic_ranking Empty.elim (fun l => l.elim) ht hsearch
  -- Zero is the first derivation that is not surpassed by any other.
  rcases before with _ | ⟨a,_ | ⟨b,_ | ⟨c,before⟩⟩⟩
  · cases hds
    have := hselects.least d₂ (by simp)
    rw [h₁,h₂] at this
    exact absurd this (by decide)
  · cases hds
    obtain rfl : extract = .var "Z" := hselects.extract.trans hzero
    have hcomplete : Derivation.complete [d₁,d₃,d₄] = [.var "x"] := by
      simp [Derivation.complete,hx,hcase,hsucc,Term.holes]
    obtain rfl : others = [.var "x"] := List.perm_singleton.1 (hcomplete ▸ hselects.others)
    exact hrun
  · cases hds
    have := hselects.first d₂ (by simp)
    rw [h₂,h₃] at this
    exact absurd this (by decide)
  · have hlast : d₄.key = best.key ∧ d₂ = b := by
      cases before with
      | nil => cases hds; exact ⟨rfl,rfl⟩
      | cons d before => simp at hds
    have := hselects.first b (by simp)
    rw [← hlast.1,← hlast.2,h₂,h₄] at this
    exact absurd this (by decide)

end TypedHole
