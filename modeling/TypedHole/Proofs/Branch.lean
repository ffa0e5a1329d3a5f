import TypedHole.Proofs.Scope
import TypedHole.Tactic.CaseSplit

/-! What a branch of a case split knows.
Main statements: a branch loses nothing that was known (`Tactic.mem_branch_of_mem`), gains nothing but the
fields of its constructor (`Tactic.mem_branch`), and knows these with the types that they have there
(`Tactic.types_branch`). -/
namespace TypedHole
namespace Tactic

variable {j : Judgement} {scrutinee : Option Name} {goal : Ty} {c : Constructor}

theorem length_binders (j : Judgement) (scrutinee : Option Name) (goal : Ty) (c : Constructor) :
    (branch j scrutinee goal c).binders.length = c.fields.length := NameSupply.length_freshList ..

theorem nodup_binders (j : Judgement) (scrutinee : Option Name) (goal : Ty) (c : Constructor) :
    (branch j scrutinee goal c).binders.Nodup := NameSupply.nodup_freshList ..

theorem not_mem_binders {e : Entry} (h : e ∈ j.hypothesis.entries) :
    e.name ∉ (branch j scrutinee goal c).binders :=
  fun hb => NameSupply.freshList_not_mem _ _ _ hb (List.mem_map_of_mem h)

theorem branch_goal (j : Judgement) (scrutinee : Option Name) (goal : Ty) (c : Constructor) :
    (branch j scrutinee goal c).judgement.goal = goal := by
  cases scrutinee <;> rfl

theorem branch_isTop (j : Judgement) (scrutinee : Option Name) (goal : Ty) (c : Constructor) :
    (branch j scrutinee goal c).judgement.isTop = false := by
  cases scrutinee <;> rfl

theorem hypothesis_branch (j : Judgement) (scrutinee : Option Name) (goal : Ty) (c : Constructor) :
    (branch j scrutinee goal c).judgement.hypothesis =
      j.hypothesis.extend (fieldEntries scrutinee c (branch j scrutinee goal c).binders) := by
  cases scrutinee <;> rfl

theorem fieldEntries_bindings (scrutinee : Option Name) (c : Constructor) (xs : List Name) :
    (fieldEntries scrutinee c xs).map (fun e => (e.name,e.ty)) = xs.zip c.fields := by
  simp [fieldEntries,List.mapIdx_eq_zipIdx_map,Function.comp_def]

theorem fieldEntries_names (j : Judgement) (scrutinee : Option Name) (goal : Ty) (c : Constructor) :
    (fieldEntries scrutinee c (branch j scrutinee goal c).binders).map (·.name) =
      (branch j scrutinee goal c).binders := by
  have hpairs := congrArg (List.map Prod.fst)
    (fieldEntries_bindings scrutinee c (branch j scrutinee goal c).binders)
  rw [List.map_map] at hpairs
  exact hpairs.trans (List.map_fst_zip (Nat.le_of_eq (length_binders ..)))

theorem new_fieldEntries (j : Judgement) (scrutinee : Option Name) (goal : Ty) (c : Constructor) :
    ∀ e ∈ fieldEntries scrutinee c (branch j scrutinee goal c).binders, e.name ∉ j.hypothesis.names := by
  intro e he hin
  obtain ⟨a,ha,hname⟩ := List.mem_map.1 hin
  have hbinder := List.mem_map_of_mem (f := (·.name)) he
  rw [fieldEntries_names,← hname] at hbinder
  exact not_mem_binders ha hbinder

theorem mem_branch {e : Entry} (h : e ∈ (branch j scrutinee goal c).judgement.hypothesis.entries) :
    e ∈ j.hypothesis.entries ∨ ∃ i, e.provenance = .field scrutinee c.name i := by
  rw [hypothesis_branch] at h
  refine (Hypothesis.mem_extend h).imp_right fun h => ?_
  obtain ⟨i,hi,rfl⟩ := List.mem_mapIdx.1 h
  exact ⟨i,rfl⟩

theorem mem_branch_of_mem {e : Entry} (h : e ∈ j.hypothesis.entries) :
    e ∈ (branch j scrutinee goal c).judgement.hypothesis.entries := by
  rw [hypothesis_branch]
  exact Hypothesis.mem_extend_of_mem (new_fieldEntries j scrutinee goal c) h

/-- A branch knows what has been known and its fields, each once. -/
theorem perm_branch (j : Judgement) (scrutinee : Option Name) (goal : Ty) (c : Constructor) :
    (branch j scrutinee goal c).judgement.hypothesis.entries.Perm
      (j.hypothesis.entries ++ fieldEntries scrutinee c (branch j scrutinee goal c).binders) := by
  rw [hypothesis_branch]
  refine Hypothesis.perm_extend ?_ (new_fieldEntries j scrutinee goal c)
  rw [fieldEntries_names]
  exact nodup_binders ..

theorem find?_branch {x : Name} {e : Entry} (h : j.hypothesis.find? x = some e) :
    (branch j scrutinee goal c).judgement.hypothesis.find? x = some e := by
  have hname : e.name = x := by simpa using List.find?_some h
  have hmem : e ∈ (branch j scrutinee goal c).judgement.hypothesis.entries :=
    mem_branch_of_mem (List.mem_of_find?_eq_some h)
  exact hname ▸ Hypothesis.find?_of_mem hmem

/-- An entry that is found in a branch by what no field has comes from outside. -/
theorem findProvenance?_branch {e : Entry} {q : Provenance} (hq : ∀ i, q ≠ .field scrutinee c.name i)
    (h : (branch j scrutinee goal c).judgement.hypothesis.findProvenance? (· == q) = some e) :
    e ∈ j.hypothesis.entries ∧ e.provenance = q := by
  have hp : e.provenance = q := by simpa using List.find?_some h
  exact ⟨(mem_branch (List.mem_of_find?_eq_some h)).resolve_right fun ⟨i,hi⟩ => hq i (hp.symm.trans hi),hp⟩

theorem findProvenance?_outside {e : Entry} {q : Provenance} (hq : ∀ i, q ≠ .field scrutinee c.name i)
    (h : (branch j scrutinee goal c).judgement.hypothesis.findProvenance? (· == q) = some e) :
    j.hypothesis.findProvenance? (· == q) = some e := by
  obtain ⟨he,hp⟩ := findProvenance?_branch hq h
  obtain ⟨-,-,hmin⟩ := Hypothesis.findProvenance?_eq_some_iff.1 h
  exact Hypothesis.findProvenance?_eq_some_iff.2 ⟨he,by simp [hp],fun a ha => hmin a (mem_branch_of_mem ha)⟩

theorem findProvenance?_branch_eq (j : Judgement) (scrutinee : Option Name) (goal : Ty) (c : Constructor)
    {q : Provenance} (hq : ∀ i, q ≠ .field scrutinee c.name i) :
    (branch j scrutinee goal c).judgement.hypothesis.findProvenance? (· == q) =
      j.hypothesis.findProvenance? (· == q) := by
  refine Option.ext fun e => ⟨findProvenance?_outside hq,fun he => ?_⟩
  obtain ⟨hmem,hp,hmin⟩ := Hypothesis.findProvenance?_eq_some_iff.1 he
  refine Hypothesis.findProvenance?_eq_some_iff.2 ⟨mem_branch_of_mem hmem,hp,fun a ha hpa => hmin a ?_ hpa⟩
  exact (mem_branch ha).resolve_right fun ⟨i,hi⟩ => hq i ((beq_iff_eq.1 hpa).symm.trans hi)

theorem types_branch (j : Judgement) (scrutinee : Option Name) (goal : Ty) (c : Constructor) :
    (branch j scrutinee goal c).judgement.hypothesis.types =
      j.hypothesis.types.bindAll ((branch j scrutinee goal c).binders.zip c.fields) := by
  rw [hypothesis_branch,Hypothesis.types_extend,fieldEntries_bindings]

theorem types_binder {p : Name × Ty} (hp : p ∈ (branch j scrutinee goal c).binders.zip c.fields) :
    (branch j scrutinee goal c).judgement.hypothesis.types p.1 = some p.2 := by
  have hnames : ((branch j scrutinee goal c).binders.zip c.fields).map (·.1) =
      (branch j scrutinee goal c).binders := List.map_fst_zip (Nat.le_of_eq (length_binders ..))
  have hnodup := nodup_binders j scrutinee goal c
  rw [← hnames] at hnodup
  rw [types_branch]
  exact Scope.bindAll_of_mem hnodup hp

theorem find?_binder {p : Name × Ty} (hp : p ∈ (branch j scrutinee goal c).binders.zip c.fields) :
    ∃ e, (branch j scrutinee goal c).judgement.hypothesis.find? p.1 = some e ∧ e.ty = p.2 :=
  Option.map_eq_some_iff.1 (types_binder hp)

end Tactic
end TypedHole
