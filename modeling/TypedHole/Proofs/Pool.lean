import Mathlib.Data.Multiset.MapFold
import TypedHole.Proofs.JudgementGrowth

/-! Judgements without their names.
What the automatic tactic can do at a judgement depends only on the types of the entries that it may use
and of those that it may split; both together are the pool of the judgement. Main statements: how the pool
changes with introduced arguments (`Tactic.pool_introduced`), in a branch (`Tactic.pool_branch`) and in an
argument (`Passing.argument`). -/
namespace TypedHole

/-- The types that may be used, and those that may be split as often as they are listed. -/
structure Pool where
  usable : Set Ty
  splittable : Multiset Ty

namespace Pool

def add (P : Pool) (ts : List Ty) : Pool := ⟨P.usable ∪ {t | t ∈ ts},P.splittable + ts⟩

def unpack (P : Pool) (s : Ty) (ts : List Ty) : Pool :=
  (⟨P.usable,P.splittable.erase s⟩ : Pool).add ts

def settled (P : Pool) : Pool := ⟨P.usable,0⟩

def Within (P Q : Pool) : Prop := P.usable ⊆ Q.usable ∧ P.splittable ≤ Q.splittable

variable {P Q R : Pool}

theorem Within.refl (P : Pool) : P.Within P := ⟨Set.Subset.refl _,le_rfl⟩

theorem Within.add (h : P.Within Q) (ts : List Ty) : (P.add ts).Within (Q.add ts) :=
  ⟨Set.union_subset_union_left _ h.1,Multiset.add_le_add_iff_right.2 h.2⟩

theorem Within.unpack (h : P.Within Q) (s : Ty) (ts : List Ty) : (P.unpack s ts).Within (Q.unpack s ts) :=
  Within.add (P := ⟨P.usable,P.splittable.erase s⟩) (Q := ⟨Q.usable,Q.splittable.erase s⟩)
    ⟨h.1,Multiset.erase_le_erase s h.2⟩ ts

theorem Within.settled (h : P.Within Q) : P.settled.Within Q.settled := ⟨h.1,le_rfl⟩

end Pool

namespace Judgement

/-- What a judgement has to offer. The definition being written may not be used. -/
def pool (j : Judgement) : Pool where
  usable := {t | ∃ e ∈ j.hypothesis.entries, e.provenance ≠ .recursive ∧ e.ty = t}
  splittable := (Tactic.splittable j).map (·.ty)

variable {j : Judgement} {e : Entry}

theorem mem_usable (he : e ∈ j.hypothesis.entries) (hr : e.provenance ≠ .recursive) :
    e.ty ∈ j.pool.usable := ⟨e,he,hr,rfl⟩

theorem mem_splittable_pool {t : Ty} :
    t ∈ j.pool.splittable ↔ ∃ e ∈ Tactic.splittable j, e.ty = t := by
  simp [pool]

theorem usable_of_splittable {t : Ty} (h : t ∈ j.pool.splittable) : t ∈ j.pool.usable := by
  obtain ⟨e,he,rfl⟩ := mem_splittable_pool.1 h
  have hmem := Tactic.mem_splittable.1 he
  refine mem_usable hmem.1 fun hr => ?_
  have hlocal := hmem.2.1
  rw [hr] at hlocal
  cases hlocal

theorem pool_withEntries (hj : j.Scoped) {es : List Entry} (hn : (es.map (·.name)).Nodup)
    (hnew : ∀ e ∈ es, e.name ∉ j.hypothesis.names) (hlocal : ∀ e ∈ es, e.provenance.isLocal = true) :
    (j.withEntries es).pool = j.pool.add (es.map (·.ty)) := by
  have hperm : (j.withEntries es).hypothesis.entries.Perm (j.hypothesis.entries ++ es) :=
    Hypothesis.perm_extend hn hnew
  have husable : (j.withEntries es).pool.usable = j.pool.usable ∪ {t | t ∈ es.map (·.ty)} := by
    ext t
    have hother : ∀ e ∈ es, e.provenance ≠ .recursive := by
      intro e he hr
      have := hlocal e he
      rw [hr] at this
      cases this
    simp only [pool,Set.mem_ofPred_eq,Set.mem_union,hperm.mem_iff,List.mem_append,List.mem_map]
    grind
  have hsplittable : (Tactic.splittable (j.withEntries es)).Perm (Tactic.splittable j ++ es) := by
    have hfilter := (hperm.filter (·.provenance.isLocal)).filter fun e => !j.isDestructed e.name
    have hes : (es.filter (·.provenance.isLocal)).filter (fun e => !j.isDestructed e.name) = es := by
      rw [List.filter_eq_self.2 hlocal,List.filter_eq_self]
      intro e he
      have hnot : ¬ j.isDestructed e.name = true := fun hd => hnew e he (hj e.name hd)
      simpa using hnot
    rwa [List.filter_append,List.filter_append,hes] at hfilter
  have hmultiset : (j.withEntries es).pool.splittable = j.pool.splittable + (es.map (·.ty) : List Ty) := by
    have := Multiset.coe_eq_coe.2 (hsplittable.map (·.ty))
    rwa [List.map_append] at this
  show (⟨(j.withEntries es).pool.usable,(j.withEntries es).pool.splittable⟩ : Pool) = _
  rw [husable,hmultiset]
  rfl

/-- An entry that has been split leaves the pool once. -/
theorem pool_withDestructed (he : e ∈ Tactic.splittable j) :
    (j.withDestructed e.name).pool = ⟨j.pool.usable,j.pool.splittable.erase e.ty⟩ := by
  have hentries : j.hypothesis.entries.Nodup := List.Nodup.of_map Entry.name j.hypothesis.nodup_names
  have hnodup : (Tactic.splittable j).Nodup := (hentries.filter _).filter _
  have hsame {a : Entry} (ha : a ∈ Tactic.splittable j) : a.name = e.name ↔ a = e := by
    refine ⟨fun hname => ?_,fun heq => by rw [heq]⟩
    have hfind := Hypothesis.find?_of_mem (Tactic.mem_splittable.1 ha).1
    rw [hname,Hypothesis.find?_of_mem (Tactic.mem_splittable.1 he).1] at hfind
    exact (Option.some.inj hfind).symm
  have hlist : Tactic.splittable (j.withDestructed e.name) = (Tactic.splittable j).erase e := by
    rw [hnodup.erase_eq_filter]
    show (j.locals.filter fun a => !(j.withDestructed e.name).isDestructed a.name) = _
    rw [Tactic.splittable,List.filter_filter]
    refine List.filter_congr fun a ha => ?_
    have hdestructed := isDestructed_withDestructed j e.name a.name
    by_cases hd : j.isDestructed a.name = true
    · simp [hd,hdestructed.2 (.inr hd)]
    · have hsplit : a ∈ Tactic.splittable j := List.mem_filter.2 ⟨ha,by simpa using hd⟩
      by_cases hae : a = e
      · simp [hae,(isDestructed_withDestructed j e.name e.name).2 (.inl rfl)]
      · have hnot : ¬ (j.withDestructed e.name).isDestructed a.name = true := fun h =>
          (hdestructed.1 h).elim (fun hname => hae ((hsame hsplit).1 hname)) hd
        simp [hae,hd,hnot]
  have hmem : e ∈ (Tactic.splittable j : Multiset Entry) := he
  have hsplittable : (j.withDestructed e.name).pool.splittable = j.pool.splittable.erase e.ty := by
    have := Multiset.map_erase_of_mem (·.ty) (Tactic.splittable j : Multiset Entry) hmem
    rw [Multiset.coe_erase,← hlist] at this
    exact this
  show (⟨j.pool.usable,(j.withDestructed e.name).pool.splittable⟩ : Pool) = _
  rw [hsplittable]

end Judgement

namespace Tactic

variable {j : Judgement} {e : Entry} {c : Constructor}

theorem pool_introduced (hj : j.Scoped) : (introduced j).pool = j.pool.add j.goal.domains := by
  have hnames := introducedEntries_names j
  have htypes : (introducedEntries j).map (·.ty) = j.goal.domains := by
    have hlen : (introducedNames j).length = j.goal.domains.length := NameSupply.length_freshList ..
    rw [introducedEntries,List.map_map]
    exact List.map_snd_zip (Nat.le_of_eq hlen.symm)
  have hnodup : ((introducedEntries j).map (·.name)).Nodup := hnames ▸ NameSupply.nodup_freshList ..
  have hnew := new_introducedEntries j
  have hlocal : ∀ e ∈ introducedEntries j, e.provenance.isLocal = true := by
    intro e he
    obtain ⟨p,-,rfl⟩ := List.mem_map.1 he
    rfl
  have hsub : (j.subgoal j.goal.result).Scoped := hj
  rw [introduced,Judgement.pool_withEntries hsub hnodup hnew hlocal,htypes]
  rfl

theorem inScope_introduced (hj : j.Scoped) : (introduced j).Scoped :=
  ((Judgement.grown_subgoal hj j.goal.result).withEntries (new_introducedEntries j)).inScope

/-- In a branch the fields join the pool in place of the scrutinee. -/
theorem pool_branch (hj : j.Scoped) (he : e ∈ splittable j) (goal : Ty) (c : Constructor) :
    (branch j (some e.name) goal c).judgement.pool = j.pool.unpack e.ty c.fields := by
  have hnames := fieldEntries_names j (some e.name) goal c
  have htypes := congrArg (List.map Prod.snd)
    (fieldEntries_bindings (some e.name) c (branch j (some e.name) goal c).binders)
  rw [List.map_map,List.map_snd_zip (Nat.le_of_eq (length_binders ..).symm)] at htypes
  have hnodup : ((fieldEntries (some e.name) c (branch j (some e.name) goal c).binders).map
      (·.name)).Nodup := by
    rw [hnames]
    exact nodup_binders ..
  have hnew := new_fieldEntries j (some e.name) goal c
  have hlocal : ∀ a ∈ fieldEntries (some e.name) c (branch j (some e.name) goal c).binders,
      a.provenance.isLocal = true := by
    intro a ha
    obtain ⟨i,hi,rfl⟩ := List.mem_mapIdx.1 ha
    rfl
  have hsub : (j.subgoal goal).Scoped := hj
  have hinner := Judgement.pool_withEntries hsub hnodup hnew hlocal
  have hmem : e ∈ splittable ((j.subgoal goal).withEntries
      (fieldEntries (some e.name) c (branch j (some e.name) goal c).binders)) := by
    have hsplit := mem_splittable.1 he
    exact mem_splittable.2 ⟨Hypothesis.mem_extend_of_mem hnew hsplit.1,hsplit.2⟩
  have hpool := Judgement.pool_withDestructed hmem
  rw [hinner] at hpool
  refine hpool.trans ?_
  have hsplittable : e.ty ∈ j.pool.splittable := Judgement.mem_splittable_pool.2 ⟨e,he,rfl⟩
  show (⟨_,(j.pool.splittable + _).erase e.ty⟩ : Pool) = ⟨_,j.pool.splittable.erase e.ty + _⟩
  rw [Multiset.erase_add_left_pos _ hsplittable]
  show (⟨j.pool.usable ∪ {t | t ∈ _},_⟩ : Pool) = ⟨j.pool.usable ∪ {t | t ∈ c.fields},_⟩
  rw [← htypes]
  rfl

theorem inScope_branch (hj : j.Scoped) (he : e ∈ splittable j) (goal : Ty) (c : Constructor) :
    (branch j (some e.name) goal c).judgement.Scoped := by
  refine (grown_branch hj (fun x hx => ?_) goal c).inScope
  cases hx
  exact List.mem_map_of_mem (mem_splittable.1 he).1

end Tactic

/-- How a way to make judgements for arguments shows in the pool. -/
structure Passing (pass : Judgement → Ty → Judgement) (inner : Pool → Pool) : Prop where
  goal : ∀ j t, (pass j t).goal = t
  inScope : ∀ j t, j.Scoped → (pass j t).Scoped
  pool : ∀ j t, (pass j t).pool = inner j.pool

namespace Passing

theorem argument : Passing Judgement.argument Pool.settled where
  goal j t := (j.argument_fields t).2
  inScope j t hj := (Judgement.grown_argument hj t).inScope
  pool j t := by
    have hsame : (j.argument t).hypothesis = j.hypothesis := (j.argument_fields t).1
    have hnil : Tactic.splittable (j.argument t) = [] := by
      refine List.eq_nil_iff_forall_not_mem.2 fun e he => ?_
      have hsplit := Tactic.mem_splittable.1 he
      rw [hsame] at hsplit
      exact hsplit.2.2 (Judgement.isDestructed_argument (List.mem_filter.2 ⟨hsplit.1,hsplit.2.1⟩))
    rw [Judgement.pool,Judgement.pool,hsame,hnil]
    rfl

theorem subgoal : Passing Judgement.subgoal id where
  goal _ _ := rfl
  inScope _ _ hj := hj
  pool _ _ := rfl

end Passing
end TypedHole
