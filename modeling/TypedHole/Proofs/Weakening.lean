import TypedHole.Proofs.AutoRuns

/-! More hypotheses.
A judgement that knows more has a pool that offers more. Main statement: whatever the automatic tactic solves
within a depth bound it solves within the same bound when more is known (`auto_weakening`). -/
namespace TypedHole

open TypedHole.Tactic

theorem Judgement.pool_within {j k : Judgement} (hdestructed : k.destructed = j.destructed)
    (hentries : ∀ e ∈ j.hypothesis.entries, e ∈ k.hypothesis.entries) : j.pool.Within k.pool := by
  have hsub : splittable j ⊆ splittable k := by
    intro e he
    have hsplit := mem_splittable.1 he
    have hsame : k.isDestructed e.name = j.isDestructed e.name := by
      rw [isDestructed,isDestructed,hdestructed]
    exact mem_splittable.2 ⟨hentries e hsplit.1,hsplit.2.1,hsame ▸ hsplit.2.2⟩
  have hnodup : (splittable j).Nodup :=
    ((List.Nodup.of_map Entry.name j.hypothesis.nodup_names).filter _).filter _
  refine ⟨?_,?_⟩
  · rintro t ⟨e,he,hr,rfl⟩
    exact mem_usable (hentries e he) hr
  · have hle : (splittable j : Multiset Entry) ≤ splittable k := Multiset.coe_le.2 (hnodup.subperm hsub)
    exact Multiset.map_le_map hle

/-- Where the automatic tactic finds a closed derivation for a judgement, within some depth bound, it finds one
within the same bound for every judgement with the same goal and the same names split on that has all its
entries and others. -/
theorem auto_weakening {κ : Type} (own : κ → Tactic (Label κ)) (ctx : Context) (bound limit limit' : Nat)
    (hl : 0 < limit') (j k : Judgement) (hj : j.Scoped)
    (hgoal : k.goal = j.goal) (hdestructed : k.destructed = j.destructed)
    (hentries : ∀ e ∈ j.hypothesis.entries, e ∈ k.hypothesis.entries)
    (h : Solves (bodies own) ctx bound limit j auto) : Solves (bodies own) ctx bound limit' k auto := by
  have hk : k.Scoped := by
    intro x hx
    rw [Judgement.isDestructed,hdestructed] at hx
    obtain ⟨e,he,rfl⟩ := List.mem_map.1 (hj x hx)
    exact List.mem_map_of_mem (hentries e he)
  rw [← bodiesWith_argument] at h ⊢
  have hsolvable := h.solvable .argument hj
  have hwithin := Judgement.pool_within hdestructed hentries
  have hmore := hsolvable.mono (fun _ _ => Pool.Within.settled) le_rfl hwithin
  rw [← hgoal] at hmore
  exact hmore.solves .argument hk hl

/-- A part of a pair, with another value known whose name the field of the pair had before. -/
theorem auto_weakening_pair :
    ∃ k : Judgement, k.hypothesis.entries = [⟨"a",.const "B",.global⟩,⟨"p",.const "P",.user⟩] ∧
      Solves (bodies Empty.elim) ⟨[],.empty,.pair⟩ 2 1 .ofPair auto ∧
      Solves (bodies Empty.elim) ⟨[],.empty,.pair⟩ 2 5 k auto := by
  have h : Solves (bodies Empty.elim) ⟨[],.empty,.pair⟩ 2 1 .ofPair auto :=
    ⟨100,_,_,rfl,_,List.mem_cons_self,rfl⟩
  refine ⟨Judgement.ofPair.withEntries [⟨"a",.const "B",.global⟩],rfl,h,?_⟩
  refine auto_weakening Empty.elim _ 2 1 5 (by decide) .ofPair _ ?_ rfl rfl ?_ h
  · intro x hx
    cases hx
  · decide

end TypedHole
