import TypedHole.Proofs.Growth
import TypedHole.Proofs.RuleTyping

/-! The terms of case splits.
What grows from a case split is a case split again, whose alternatives have grown from the branches
(`Tactic.alts_splitOn`). Main statement: a homomorphic split grows into one that applies each constructor
to its fields and to recursive calls (`Grows.rebuilt`). -/
namespace TypedHole

variable {ι : Type}

theorem forall_of_forall₂ {α β : Type} {R : α → β → Prop} {Q : β → Prop} {xs : List α} {ys : List β}
    (h : List.Forall₂ R xs ys) (hq : ∀ x y, R x y → Q y) : ∀ y ∈ ys, Q y := by
  induction h with
  | nil => simp
  | cons hxy _ ih => exact List.forall_mem_cons.2 ⟨hq _ _ hxy,ih⟩

theorem exists_forall_of_list {α : Type} {P : α → Nat → Prop} (xs : List α)
    (h : ∀ x ∈ xs, ∃ n, ∀ m, n ≤ m → P x m) : ∃ n, ∀ m, n ≤ m → ∀ x ∈ xs, P x m := by
  induction xs with
  | nil => exact ⟨0,by simp⟩
  | cons x xs ih =>
    obtain ⟨n,hn⟩ := h x (by simp)
    obtain ⟨k,hk⟩ := ih fun y hy => h y (by simp [hy])
    exact ⟨max n k,fun m hm => List.forall_mem_cons.2
      ⟨hn m (Nat.le_trans (Nat.le_max_left ..) hm),hk m (Nat.le_trans (Nat.le_max_right ..) hm)⟩⟩

theorem Term.bind_apply (fill : Nat → Term) (t : Term) (as : List Term) :
    (t.apply as).bind fill = (t.bind fill).apply (as.map (·.bind fill)) := by
  induction as generalizing t with
  | nil => rfl
  | cons a as ih => exact ih (.app t a)

namespace Derivation

/-- What fills the holes of a partial term. -/
def filling (us : List Derivation) (i : Nat) : Term := (us[i]?.map (·.term)).getD (.hole 0)

theorem filling_append (pre : List Derivation) {vs ws : List Derivation} {i : Nat} (hi : i < vs.length) :
    filling (pre ++ (vs ++ ws)) (pre.length + i) = filling vs i := by
  rw [filling,filling,List.getElem?_append_right (Nat.le_add_right ..),Nat.add_sub_cancel_left,
    List.getElem?_append_left hi]

theorem plug_application {head : Name} {ss : List (Subgoal (Tactic ι))} {us : List Derivation}
    (h : us.length = ss.length) :
    (plug (Refinement.application head ss).extract us).term =
      (Term.var head).apply (us.map (·.term)) := by
  simp only [plug,Refinement.application,Term.bind_apply,Term.bind,List.map_map]
  congr 1
  refine List.ext_getElem (by simp [h]) fun i hi hi' => ?_
  simp only [List.length_map,List.length_range] at hi
  simp [Term.bind,h ▸ hi]

end Derivation

namespace Tactic

variable {R : Subgoal (Tactic ι) → Derivation → Prop}

def Filled (R : Subgoal (Tactic ι) → Derivation → Prop) (ctor : Name) (binders : List Name)
    (body : Refinement (Tactic ι)) (alt : Alt Term) : Prop :=
  alt.ctor = ctor ∧ alt.binders = binders ∧
    ∃ vs, List.Forall₂ R body.subgoals vs ∧ alt.body = (Derivation.plug body.extract vs).term

/-- Alternatives that stand side by side are filled each on its own. -/
theorem alts_joinAlts {as : List (Alt (Refinement (Tactic ι)))} (h : ∀ a ∈ as, a.body.InOrder)
    (pre : List Derivation) {us : List Derivation} (hu : List.Forall₂ R (joinAlts pre.length as).2 us) :
    List.Forall₂ (fun a alt => Filled R a.ctor a.binders a.body alt) as
      (Term.bindAlts (Derivation.filling (pre ++ us)) (joinAlts pre.length as).1) := by
  induction as generalizing pre us with
  | nil => exact .nil
  | cons a as ih =>
    obtain ⟨c,xs,r⟩ := a
    have hr : r.extract.holes = List.range r.subgoals.length := h ⟨c,xs,r⟩ (by simp)
    obtain ⟨vs,ws,rfl,hvs,hws⟩ := forall₂_append_left hu
    refine .cons ⟨rfl,rfl,vs,hvs,?_⟩ ?_
    · rw [Term.shift,Term.bind_bind,Derivation.plug]
      refine Term.bind_congr _ fun i hi => ?_
      rw [hr,List.mem_range,hvs.length_eq] at hi
      exact Derivation.filling_append pre hi
    · have hnext : pre.length + r.subgoals.length = (pre ++ vs).length := by
        rw [List.length_append,hvs.length_eq]
      rw [hnext] at hws ⊢
      rw [← List.append_assoc]
      exact ih (fun a ha => h a (by simp [ha])) (pre ++ vs) hws

theorem alts_splitOn (wrap : List (Alt Term) → Term)
    (hw : ∀ f as, (wrap as).bind f = wrap (Term.bindAlts f as)) {j : Judgement} {scrutinee : Option Name}
    {goal : Ty} {cs : List Constructor} {body : Branch → Refinement (Tactic ι)}
    (hb : ∀ b, (body b).InOrder) {us : List Derivation}
    (hu : List.Forall₂ R (splitOn wrap j scrutinee goal cs body).subgoals us) :
    ∃ alts, (Derivation.plug (splitOn wrap j scrutinee goal cs body).extract us).term = wrap alts ∧
      List.Forall₂ (fun c alt => let b := branch j scrutinee goal c
        Filled R c.name b.binders (body b) alt) cs alts := by
  refine ⟨_,hw _ _,?_⟩
  have halts := alts_joinAlts (fun a ha => ?_) [] hu
  · exact List.forall₂_map_left_iff.1 halts
  · obtain ⟨c,-,rfl⟩ := List.mem_map.1 ha
    exact hb _

def keep (x : Name) : Tactic ι := orElse (assume x) idle

def Rebuilt (j : Judgement) (scrutinee : Option Name) (field : Name × Ty) (t : Term) : Prop :=
  t = .var field.1 ∨
    field.2 = j.goal ∧ recursiveCall? j scrutinee field.1 field.2 = some t

/-- What becomes of a field in the end: a recursive call where one can be formed, and otherwise the field. -/
def rebuilt (j : Judgement) (scrutinee : Option Name) (field : Name × Ty) : Term :=
  (if field.2 = j.goal then recursiveCall? j scrutinee field.1 field.2 else none).getD (.var field.1)

theorem rebuildField_rebuilt (j : Judgement) (scrutinee : Option Name) (field : Name × Ty) :
    (rebuildField (ι := ι) scrutinee j field.1 field.2 = .term (rebuilt j scrutinee field) ∧ field.2 = j.goal ∧
      recursiveCall? j scrutinee field.1 field.2 = some (rebuilt j scrutinee field)) ∨
    (rebuildField (ι := ι) scrutinee j field.1 field.2 = .goal ⟨j.subgoal field.2,some (keep field.1)⟩ ∧
      rebuilt j scrutinee field = .var field.1) := by
  rcases rebuildField_cases (ι := ι) scrutinee j field.1 field.2 with ⟨t,ht,hg,hc⟩ | hgoal
  · have hrebuilt : rebuilt j scrutinee field = t := by rw [rebuilt,if_pos hg,hc,Option.getD_some]
    exact .inl ⟨hrebuilt ▸ ht,hg,hrebuilt ▸ hc⟩
  · refine .inr ⟨hgoal,?_⟩
    rw [rebuildField] at hgoal
    split at hgoal
    next => cases hgoal
    next hnone => rw [rebuilt,hnone,Option.getD_none]

theorem rebuilt_rebuilt (j : Judgement) (scrutinee : Option Name) (field : Name × Ty) :
    Rebuilt j scrutinee field (rebuilt j scrutinee field) := by
  rcases rebuildField_rebuilt (ι := Empty) j scrutinee field with ⟨-,hcall⟩ | ⟨-,hkept⟩
  · exact .inr hcall
  · exact .inl hkept

theorem terms_rebuild {j : Judgement} {scrutinee : Option Name} {fields : List (Name × Ty)}
    (pre : List Derivation) {us : List Derivation}
    (hu : List.Forall₂ R (Part.subgoals (fields.map fun p => rebuildField scrutinee j p.1 p.2)) us)
    (hR : ∀ p ∈ fields, ∀ u, R ⟨j.subgoal p.2,some (keep p.1)⟩ u → u.term = .var p.1) :
    (Part.terms (ι := ι) pre.length (fields.map fun p => rebuildField scrutinee j p.1 p.2)).map
        (·.bind (Derivation.filling (pre ++ us))) = fields.map (rebuilt j scrutinee) := by
  induction fields generalizing pre us with
  | nil => rfl
  | cons p fields ih =>
    have hR' : ∀ p ∈ fields, ∀ u, R ⟨j.subgoal p.2,some (keep p.1)⟩ u → u.term = .var p.1 :=
      fun p hp => hR p (by simp [hp])
    rw [List.map_cons] at hu ⊢
    rcases rebuildField_rebuilt (ι := ι) j scrutinee p with ⟨ht,-,hc⟩ | ⟨hg,hkept⟩
    · rw [ht] at hu ⊢
      have hself : (rebuilt j scrutinee p).bind (Derivation.filling (pre ++ us)) = rebuilt j scrutinee p :=
        Term.bind_eq_self _ fun i hi => by simp [recursiveCall?_holes hc] at hi
      exact congrArg₂ List.cons hself (ih pre hu hR')
    · rw [hg] at hu ⊢
      obtain ⟨u,us,hu₁,hus,rfl⟩ := List.forall₂_cons_left_iff.1 hu
      refine congrArg₂ List.cons ?_ ?_
      · have hfirst : Derivation.filling (pre ++ ([u] ++ us)) (pre.length + 0) = Derivation.filling [u] 0 :=
          Derivation.filling_append pre (by simp)
        exact (hfirst.trans (hR p (by simp) u hu₁)).trans hkept.symm
      · have hlen : pre.length + 1 = (pre ++ [u]).length := by simp
        have hsplit : pre ++ u :: us = (pre ++ [u]) ++ us := by simp
        rw [hlen,hsplit]
        exact ih (pre ++ [u]) hus hR'

theorem plug_rebuild {b : Branch} {scrutinee : Option Name} {us : List Derivation}
    (hu : List.Forall₂ R (rebuild scrutinee b).subgoals us)
    (hR : ∀ p ∈ b.binders.zip b.ctor.fields, ∀ u,
      R ⟨b.judgement.subgoal p.2,some (keep p.1)⟩ u → u.term = .var p.1) :
    (Derivation.plug (rebuild (ι := ι) scrutinee b).extract us).term = (Term.var b.ctor.name).apply
      ((b.binders.zip b.ctor.fields).map (rebuilt b.judgement scrutinee)) :=
  (Term.bind_apply _ (Term.var b.ctor.name) _).trans (congrArg _ (terms_rebuild [] hu hR))

theorem expand_keep {procs : ι → Tactic ι} {ctx : Context} {j : Judgement} {x : Name} {e : Entry}
    (he : j.hypothesis.find? x = some e) (ht : e.ty = j.goal) (spent : Bool) (rest : List (Tactic ι)) :
    expand procs ctx j spent (maxNesting + 1) (keep x) rest =
      if spent then ⟨.ok [],true⟩ else ⟨.ok [⟨some (.closed (.var x)),rest⟩],false⟩ := by
  have hfuel : maxNesting = 511 + 1 := rfl
  rw [hfuel]
  cases spent
  · simp [keep,assume,lookup,expand,he,ht,Expansion.orElse,Except.map,bind,Except.bind,pure,Except.pure]
  · rfl

end Tactic

namespace Tactic.Yields

variable {procs : ι → Tactic ι} {ctx : Context} {j : Judgement} {rest : List (Tactic ι)} {a : Alternative ι}
  {x : Name}

theorem of_assume (h : Yields procs ctx j (assume x) rest a) : a = ⟨some (.closed (.var x)),rest⟩ := by
  obtain ⟨rs,hf,r,hr,rfl⟩ := h.of_rule
  obtain ⟨e,-,hf⟩ := bind_eq_ok hf
  split at hf
  next =>
    cases hf
    rw [List.mem_singleton.1 hr]
  next => cases hf

theorem of_keep (h : Yields procs ctx j (keep x) rest a) :
    a = ⟨some (.closed (.var x)),rest⟩ ∨ a = ⟨none,rest⟩ :=
  h.of_orElse.imp of_assume of_idle

theorem of_destruct (h : Yields procs ctx j (destruct x) rest a) :
    ∃ e cs, j.hypothesis.find? x = some e ∧ ctx.types.constructors? e.ty = some cs ∧
      a = ⟨some (splitOn (.case (.var x)) j (some x) j.goal cs openBranch),rest⟩ := by
  obtain ⟨rs,hf,r,hr,rfl⟩ := h.of_rule
  obtain ⟨e,he,hf⟩ := bind_eq_ok hf
  obtain ⟨cs,hc,hf⟩ := bind_eq_ok hf
  cases hf
  cases List.mem_singleton.1 hr
  exact ⟨e,cs,lookup_eq_ok he,constructorsFor_eq_ok hc,rfl⟩

theorem of_homomorphism (h : Yields procs ctx j (homomorphism x) rest a) :
    ∃ e cs, j.hypothesis.find? x = some e ∧ e.ty = j.goal ∧ ctx.types.constructors? e.ty = some cs ∧
      a = ⟨some (splitOn (.case (.var x)) j (some x) j.goal cs (rebuild (some x))),rest⟩ := by
  obtain ⟨rs,hf,r,hr,rfl⟩ := h.of_rule
  obtain ⟨e,he,hf⟩ := bind_eq_ok hf
  split at hf
  next => cases hf
  next ht =>
    obtain ⟨cs,hc,hf⟩ := bind_eq_ok hf
    cases hf
    cases List.mem_singleton.1 hr
    exact ⟨e,cs,lookup_eq_ok he,Decidable.not_not.1 ht,constructorsFor_eq_ok hc,rfl⟩

end Tactic.Yields

def Subgoal.Kept (s : Subgoal (Tactic ι)) (d : Derivation) : Prop :=
  ∀ x e, s.tactic = some (.keep x) → s.judgement.hypothesis.find? x = some e → e.ty = s.judgement.goal →
    d = ⟨.var x,[]⟩

namespace Grows

variable {procs : ι → Tactic ι} {ctx : Context} {bound : Nat} {g : Goal ι} {p : Growth}

theorem keep {xs : List (Goal ι ⊕ Judgement)} {ps : List Growth}
    (h : Grows procs ctx bound (.inl g :: xs) (p :: ps)) {x : Name}
    {e : Entry} (ht : g.tactic = .keep x) (he : g.judgement.hypothesis.find? x = some e)
    (hg : e.ty = g.judgement.goal) : p.derivation = ⟨.var x,[]⟩ := by
  cases h with
  | @node _ as a _ qs _ outcome mem parts _ =>
    rw [Goal.expansion,ht,Tactic.expand_keep he hg] at outcome
    split at outcome
    next =>
      cases outcome
      cases mem
    next =>
      cases outcome
      cases List.mem_singleton.1 mem
      cases parts
      rfl

theorem kept {ss : List (Subgoal (Tactic ι))} {rest : List (Tactic ι)} {depth : Nat} {qs : List Growth}
    (h : Grows procs ctx bound (ss.map fun s => Draft.schedule 0 s rest depth) qs) :
    List.Forall₂ Subgoal.Kept ss (qs.map (·.derivation)) := by
  induction ss generalizing qs with
  | nil =>
    cases h
    exact .nil
  | cons s ss ih =>
    have hsplit : Grows procs ctx bound ([Draft.schedule 0 s rest depth] ++
        ss.map fun s => Draft.schedule 0 s rest depth) qs := h
    obtain ⟨us,vs,rfl,hus,hvs⟩ := hsplit.of_append
    obtain ⟨q,rfl⟩ := List.length_eq_one_iff.1 hus.length
    refine .cons (fun x e ht he hg => ?_) (ih hvs)
    obtain ⟨j,t⟩ := s
    cases ht
    exact hus.keep (x := x) rfl he hg

end Grows

namespace Tactic

def Rebuilds (j : Judgement) (scrutinee : Option Name) (goal : Ty) (c : Constructor) (alt : Alt Term) : Prop :=
  let b := branch j scrutinee goal c
  alt.ctor = c.name ∧ alt.binders = b.binders ∧ ∃ args, alt.body = (Term.var c.name).apply args ∧
    List.Forall₂ (Rebuilt b.judgement scrutinee) (b.binders.zip c.fields) args

/-- The alternative that a homomorphic split ends up with for a constructor. -/
def rebuiltAlt (j : Judgement) (scrutinee : Option Name) (goal : Ty) (c : Constructor) : Alt Term :=
  let b := branch j scrutinee goal c
  ⟨c.name,b.binders,(Term.var c.name).apply ((b.binders.zip c.fields).map (rebuilt b.judgement scrutinee))⟩

theorem rebuilds_rebuiltAlt (j : Judgement) (scrutinee : Option Name) (goal : Ty) (c : Constructor) :
    Rebuilds j scrutinee goal c (rebuiltAlt j scrutinee goal c) :=
  ⟨rfl,rfl,_,rfl,List.forall₂_map_right_iff.2 (List.forall₂_same.2 fun _ _ => rebuilt_rebuilt ..)⟩

end Tactic

section

variable {procs : ι → Tactic ι} {ctx : Context} {bound : Nat} {g : Goal ι} {a : Alternative ι} {qs : List Growth}
  {j : Judgement} {scrutinee : Option Name} {goal : Ty} {cs : List Constructor}

theorem Grows.rebuiltAlts (h : Grows procs ctx bound (a.handOut g) qs) (wrap : List (Alt Term) → Term)
    (hw : ∀ f as, (wrap as).bind f = wrap (Term.bindAlts f as))
    (ha : a.refinement = some (Tactic.splitOn wrap j scrutinee goal cs (Tactic.rebuild scrutinee))) :
    (Growth.node a qs).derivation.term = wrap (cs.map (Tactic.rebuiltAlt j scrutinee goal)) := by
  simp only [Alternative.handOut,Alternative.subgoals,ha] at h
  obtain ⟨alts,hterm,halts⟩ := Tactic.alts_splitOn wrap hw (Tactic.inOrder_rebuild scrutinee) h.kept
  have hrebuilt : List.Forall₂ (fun c alt => Tactic.rebuiltAlt j scrutinee goal c = alt) cs alts := by
    refine halts.imp fun c alt hfilled => ?_
    obtain ⟨hctor,hbinders,vs,hvs,hbody⟩ := hfilled
    have hplug := Tactic.plug_rebuild hvs fun p hp u hu => by
      obtain ⟨e,he,ht⟩ := Tactic.find?_binder hp
      rw [hu p.1 e rfl he ht]
    obtain ⟨ctor,binders,body⟩ := alt
    cases hctor
    cases hbinders
    cases hbody
    exact congrArg _ hplug.symm
  rw [← List.forall₂_map_left_iff,List.forall₂_eq_eq_eq] at hrebuilt
  rw [hrebuilt]
  simpa only [Growth.node,Alternative.extract,ha] using hterm

/-- A homomorphic split grows into alternatives that rebuild their constructors. -/
theorem Grows.rebuilt (h : Grows procs ctx bound (a.handOut g) qs) (wrap : List (Alt Term) → Term)
    (hw : ∀ f as, (wrap as).bind f = wrap (Term.bindAlts f as))
    (ha : a.refinement = some (Tactic.splitOn wrap j scrutinee goal cs (Tactic.rebuild scrutinee))) :
    ∃ alts, (Growth.node a qs).derivation.term = wrap alts ∧
      List.Forall₂ (Tactic.Rebuilds j scrutinee goal) cs alts :=
  ⟨_,h.rebuiltAlts wrap hw ha,List.forall₂_map_right_iff.2 (List.forall₂_same.2 fun _ _ =>
    Tactic.rebuilds_rebuiltAlt ..)⟩

end

end TypedHole
