import TypedHole.Proofs.Checked
import TypedHole.Proofs.Reachable
import TypedHole.Proofs.Resolution

/-! Judgements whose types make sense.
Main statement: the types of a judgement at a hole of a loaded program make sense, and so do those of all
judgements that a search reaches from it, which have no other type variables (`types_formed`). -/
namespace TypedHole

open TypedHole.Tactic (bind_eq_ok)

namespace Judgement

def vars (j : Judgement) : List Name := j.goal.vars ++ j.hypothesis.entries.flatMap (·.ty.vars)

/-- The goal and all entries have types that pass the check. -/
structure Checked (types : TypeTable) (j : Judgement) : Prop where
  goal : types.check j.goal = .ok ()
  entries : ∀ e ∈ j.hypothesis.entries, types.check e.ty = .ok ()

structure Formed (types : TypeTable) (V : List Name) (j : Judgement) : Prop where
  goal : types.Formed V j.goal
  entries : ∀ e ∈ j.hypothesis.entries, types.Formed V e.ty

variable {types : TypeTable} {V : List Name} {j : Judgement}

theorem formed_iff : j.Formed types V ↔ j.Checked types ∧ j.vars ⊆ V := by
  constructor
  · intro h
    refine ⟨⟨h.goal.check,fun e he => (h.entries e he).check⟩,?_⟩
    refine List.append_subset.2 ⟨h.goal.vars_subset,fun x hx => ?_⟩
    obtain ⟨e,he,hx⟩ := List.mem_flatMap.1 hx
    exact (h.entries e he).vars_subset hx
  · intro ⟨h,hv⟩
    obtain ⟨hgoal,hentries⟩ := List.append_subset.1 hv
    refine ⟨TypeTable.formed_iff.2 ⟨h.goal,hgoal⟩,fun e he => TypeTable.formed_iff.2 ⟨h.entries e he,?_⟩⟩
    exact fun x hx => hentries (List.mem_flatMap.2 ⟨e,he,hx⟩)

theorem Formed.subgoal (h : j.Formed types V) {t : Ty} (ht : types.Formed V t) : (j.subgoal t).Formed types V :=
  ⟨ht,h.entries⟩

theorem Formed.withEntries (h : j.Formed types V) {es : List Entry} (hes : ∀ e ∈ es, types.Formed V e.ty) :
    (j.withEntries es).Formed types V :=
  ⟨h.goal,fun e he => (Hypothesis.mem_extend he).elim (h.entries e) (hes e)⟩

theorem Formed.argument (h : j.Formed types V) {t : Ty} (ht : types.Formed V t) :
    (j.argument t).Formed types V := by
  obtain ⟨hhyp,hgoal⟩ := j.argument_fields t
  exact ⟨by rwa [hgoal],by rw [hhyp]; exact h.entries⟩

end Judgement

namespace Tactic

variable {ι : Type} {ctx : Context} {V : List Name} {j : Judgement}

theorem formed_branch (h : j.Formed ctx.types V) {goal : Ty} (hgoal : ctx.types.Formed V goal) {c : Constructor}
    (hc : ∀ u ∈ c.fields, ctx.types.Formed V u) (scrutinee : Option Name) :
    (branch j scrutinee goal c).judgement.Formed ctx.types V := by
  refine ⟨by rwa [branch_goal],fun e he => ?_⟩
  rw [hypothesis_branch] at he
  rcases Hypothesis.mem_extend he with he | he
  · exact h.entries e he
  · have hpair := List.mem_map_of_mem (f := fun e => (e.name,e.ty)) he
    rw [fieldEntries_bindings] at hpair
    exact hc e.ty (List.of_mem_zip hpair).2

theorem SplitBody.formed (hf : ctx.types.FieldsFormed) (h : j.Formed ctx.types V) {scrutinee : Option Name}
    {source goal : Ty} {body : Branch → Refinement (Tactic ι)} (fits : SplitBody scrutinee source goal body)
    (hsource : ctx.types.Formed V source) (hgoal : ctx.types.Formed V goal) {cs : List Constructor}
    (hcs : ctx.types.constructors? source = some cs) {wrap : List (Alt Term) → Term} {s : Subgoal (Tactic ι)}
    (hs : s ∈ (splitOn wrap j scrutinee goal cs body).subgoals) : s.judgement.Formed ctx.types V := by
  obtain ⟨c,hc,hs⟩ := mem_splitOn.1 hs
  have hfields := hf.of_constructors? hsource hcs c hc
  have hbranch := formed_branch h hgoal hfields scrutinee
  cases fits with
  | openBranch =>
    rw [List.mem_singleton.1 hs]
    exact hbranch
  | rebuild =>
    obtain ⟨x,t,hx,rfl⟩ := subgoal_of_rebuild hs
    exact hbranch.subgoal (hfields t (List.of_mem_zip hx).2)

/-- A move of the library introduces no types but those of arguments, fields and results. -/
theorem Move.formed (hf : ctx.types.FieldsFormed) (h : j.Formed ctx.types V) {r : Refinement (Tactic ι)}
    (hm : Move ctx j r) {s : Subgoal (Tactic ι)} (hs : s ∈ r.subgoals) : s.judgement.Formed ctx.types V := by
  have harguments {head : Name} {ts : List Ty} (hts : ∀ t ∈ ts, ctx.types.Formed V t)
      (hs : s ∈ (argumentsOf j head ts).subgoals) : s.judgement.Formed ctx.types V := by
    obtain ⟨t,ht,rfl⟩ := List.mem_map.1 hs
    exact h.argument (hts t ht)
  cases hm with
  | entry => cases hs
  | @lam names entries domains names_eq entries_eq =>
    rw [List.mem_singleton.1 hs]
    refine (h.subgoal h.goal.result).withEntries fun e he => ?_
    rw [entries_eq] at he
    obtain ⟨⟨x,t⟩,hx,rfl⟩ := List.mem_map.1 he
    exact h.goal.domains t (List.of_mem_zip hx).2
  | constructor ctors mem => exact harguments (hf.of_constructors? h.goal ctors _ mem) hs
  | function mem => exact harguments (h.entries _ mem).domains hs
  | case found ctors fits =>
    exact fits.formed hf h (h.entries _ (find?_eq_some found).1) h.goal ctors hs
  | lamCase goal ctors fits =>
    obtain ⟨hdom,hcod⟩ := TypeTable.Formed.arrow_iff.1 (goal ▸ h.goal)
    exact fits.formed hf h hdom hcod ctors hs

theorem Reachable.formed (hf : ctx.types.FieldsFormed) (h : j.Formed ctx.types V) {k : Judgement}
    (hk : Reachable ι ctx j k) : k.Formed ctx.types V := by
  induction hk with
  | start => exact h
  | move _ move mem ih => exact move.formed hf ih mem

end Tactic

/-! Where a search starts. -/

namespace Pat

variable {types : TypeTable} {V : List Name}

mutual

theorem formed_entries (hf : types.FieldsFormed) : ∀ {p : Pat} {t : Ty} {pr : Provenance} {es : List Entry},
    p.entries types t pr = .ok es → types.Formed V t → ∀ e ∈ es, types.Formed V e.ty
  | .var x _, t, pr, es, h, ht => by
    cases h
    simpa using ht
  | .wildcard _, t, pr, es, h, ht => by
    cases h
    exact nofun
  | .ctor c args _, t, pr, es, h, ht => by
    simp only [entries] at h
    split at h
    next => cases h
    next cs hcs =>
      split at h
      next => cases h
      next con hcon =>
        split at h
        next =>
          have hcon := hf.of_constructors? ht hcs con (List.mem_of_find?_eq_some hcon)
          exact formed_entriesOfFields hf h hcon
        next => cases h

theorem formed_entriesOfFields (hf : types.FieldsFormed) {c : Name} :
    ∀ {ps : List Pat} {ts : List Ty} {i : Nat} {es : List Entry},
      entriesOfFields types c ps ts i = .ok es → (∀ t ∈ ts, types.Formed V t) → ∀ e ∈ es, types.Formed V e.ty
  | [], ts, i, es, h, hts => by
    cases h
    exact nofun
  | p :: ps, [], i, es, h, hts => by
    cases h
    exact nofun
  | p :: ps, t :: ts, i, es, h, hts => by
    rw [entriesOfFields] at h
    obtain ⟨es₁,h₁,h⟩ := bind_eq_ok h
    obtain ⟨es₂,h₂,h⟩ := bind_eq_ok h
    cases h
    obtain ⟨ht,hts⟩ := List.forall_mem_cons.1 hts
    exact List.forall_mem_append.2 ⟨formed_entries hf h₁ ht,formed_entriesOfFields hf h₂ hts⟩

end

end Pat

namespace Program.Checked

variable {p : Program}

theorem signature? (hp : p.Checked) {x : Name} {t : Ty} (h : p.signature? x = some t) :
    p.types.check t = .ok () := by
  obtain ⟨pre,post,hsig,-⟩ := List.lookup_eq_some_iff.1 h
  exact hp.signatures (x,t) (hsig ▸ by simp)

theorem entry_of_methods (hp : p.Checked) {a : Entry} (ha : a ∈ p.methods.entries) :
    p.types.check a.ty = .ok () := by
  obtain ⟨c,hc,m,hm,i,hi,rfl⟩ := mem_methods ha
  have hmethod := TypeTable.formed_of_check (hp.methods c hc m hm)
  have hinstance := TypeTable.formed_of_check (hp.instances i hi)
  refine (hmethod.subst (W := m.2.vars ++ i.ty.vars) fun x hx => ?_).check
  by_cases hparam : x = c.param
  · rw [hparam]
    simpa using hinstance.mono (List.subset_append_right ..)
  · have hvar : p.types.Formed (m.2.vars ++ i.ty.vars) (.var x) := .var (List.mem_append.2 (.inl hx))
    simpa [List.lookup_cons,beq_eq_false_iff_ne.2 hparam] using hvar

theorem entry_of_patternEntries (hp : p.Checked) {pats : List Pat} {t : Ty} (ht : p.types.check t = .ok ())
    {es : List Entry} (h : p.patternEntries pats t.domains = .ok es) {a : Entry} (ha : a ∈ es) :
    p.types.check a.ty = .ok () := by
  obtain ⟨ess,hess,hes⟩ := bind_eq_ok h
  cases hes
  obtain ⟨es,hes,ha⟩ := List.mem_flatten.1 ha
  obtain ⟨⟨q,u⟩,hq,h⟩ := mem_of_mapM_eq_ok hess hes
  have hu := (TypeTable.formed_of_check ht).domains u (List.of_mem_zip hq).2
  exact (Pat.formed_entries hp.fields h hu a ha).check

theorem entry_of_bindings (hp : p.Checked) {e : Equation} {place : Span} {bs : List Entry}
    (h : p.bindings? e place = some bs) {a : Entry} (ha : a ∈ bs) : p.types.check a.ty = .ok () := by
  have hothers (ha : a ∈ p.others e) : p.types.check a.ty = .ok () := by
    obtain ⟨b,hb,rfl⟩ := List.mem_map.1 ha
    exact hp.signatures b (List.mem_of_mem_filter hb)
  rcases bindings?_eq_some h with ⟨-,rfl⟩ | ⟨t,es,hsig,hes,rfl⟩
  · exact hothers ha
  · have ht := hp.signature? hsig
    simp only [List.mem_append,List.mem_singleton] at ha
    rcases ha with ((ha | rfl) | ha) | ha
    · exact hothers ha
    · exact ht
    · exact hp.entry_of_patternEntries ht hes ha
    · obtain ⟨⟨x,u⟩,hx,rfl⟩ := List.mem_map.1 ha
      have hu : u ∈ t.domains := List.mem_of_mem_drop (List.of_mem_zip hx).2
      exact ((TypeTable.formed_of_check ht).domains u hu).check

theorem resultAfter (hp : p.Checked) {x : Name} {t : Ty} (h : p.signature? x = some t) (n : Nat) :
    p.types.check (Program.resultAfter t n) = .ok () :=
  have ht := TypeTable.formed_of_check (hp.signature? h)
  (TypeTable.Formed.arrows (fun d hd => ht.domains d (List.mem_of_mem_drop hd)) ht.result).check

theorem goal (hp : p.Checked) {h : HoleSite} (hh : h ∈ p.holes) {t : Ty} (hg : p.goal? h = some t) :
    p.types.check t = .ok () := by
  simp only [goal?] at hg
  split at hg
  next hgiven =>
    cases hg
    exact hp.given h hh t hgiven
  next =>
    obtain ⟨u,hu,rfl⟩ := Option.map_eq_some_iff.1 hg
    exact hp.resultAfter hu _
  next =>
    split at hg
    next hu =>
      split at hg
      next =>
        cases hg
        exact hp.resultAfter hu _
      next => cases hg
    next => cases hg
  next => cases hg

theorem resolve (hp : p.Checked) {s : Source} {index : Nat} {r : Resolved} (hr : p.resolve s index = .ok r) :
    r.judgement.Checked p.types ∧ r.context.types = p.types := by
  obtain ⟨h,e,bs,hh,hat⟩ := resolvedAt_of_resolve hr
  refine ⟨⟨hp.goal (List.mem_of_getElem? hh) hat.goal,fun a ha => ?_⟩,hat.types⟩
  rw [hat.hypothesis] at ha
  rcases Hypothesis.mem_union_withProvenance ha with ha | ⟨b,hb,rfl⟩
  · exact hp.entry_of_methods ha
  · rcases Hypothesis.mem_extend hb with hb | hb
    · cases hb
    · have hty := hp.entry_of_bindings hat.bindings hb
      exact hty

end Program.Checked

/-- The types of a judgement at a hole make sense, and so do those of all judgements that any tactic from the
library reaches from there; these have no type variables of their own. -/
theorem types_formed {s : Source} {p : Program} (hload : Program.load s = .ok p) {index : Nat} {r : Resolved}
    (hr : p.resolve s index = .ok r) :
    r.judgement.Checked p.types ∧
    ∀ (κ : Type) (own : κ → Tactic (Tactic.Label κ)), (∀ l, (own l).Built r.context Tactic.LibraryRule) →
      ∀ t : Tactic (Tactic.Label κ), t.Built r.context Tactic.LibraryRule →
    (∀ bound limit budget f,
      (f ∈ (Frontier.start r.judgement t).passed (Tactic.bodies own) r.context bound limit budget ∨
        ∃ left, (Frontier.start r.judgement t).explore (Tactic.bodies own) r.context bound limit budget =
          some (left,f)) →
      (∀ d ∈ f.drafts, ∀ k ∈ d.judgements, k.Checked p.types ∧ k.vars ⊆ r.judgement.vars) ∧
      ∀ d ∈ f.found, ∀ k ∈ d.unsolved, k.Checked p.types ∧ k.vars ⊆ r.judgement.vars) ∧
    ∀ cfg ds, search (Tactic.bodies own) cfg r.context r.judgement t = .ok ds →
      ∀ d ∈ ds, ∀ k ∈ d.unsolved, k.Checked p.types ∧ k.vars ⊆ r.judgement.vars := by
  obtain ⟨m,-,-,hm⟩ := Program.load_eq_ok hload
  have hp := Program.checked_of_ofModule hm
  obtain ⟨hroot,htypes⟩ := hp.resolve hr
  refine ⟨hroot,fun κ own hown t ht => ?_⟩
  have hformed : r.judgement.Formed r.context.types r.judgement.vars :=
    Judgement.formed_iff.2 ⟨htypes ▸ hroot,fun _ hx => hx⟩
  have hk {k : Judgement} (hk : Tactic.Reachable (Tactic.Label κ) r.context r.judgement k) :
      k.Checked p.types ∧ k.vars ⊆ r.judgement.vars := by
    have := hk.formed (htypes ▸ hp.fields) hformed
    rw [htypes] at this
    exact Judgement.formed_iff.1 this
  obtain ⟨hreached,hsearch⟩ := Tactic.reached hown ht r.judgement
  refine ⟨fun bound limit budget f hf => ?_,fun cfg ds h d hd k hu => hk ((hsearch cfg ds h d hd).unsolved k hu)⟩
  have := hreached bound limit budget f hf
  exact ⟨fun d hd k hu => hk ((this.drafts d hd).judgements k hu),
    fun d hd k hu => hk ((this.found d hd).unsolved k hu)⟩

def Source.unboxing : Source := ⟨0,"unboxing","data B a = B a\nget : B a -> a\nget b = _\n"⟩

def Program.unboxing : Program where
  module := ⟨[.datatype ⟨"B",["a"],[⟨"B",[.var "a"]⟩]⟩,
    .signature "get" (.arrow (.app (.const "B") (.var "a")) (.var "a")),
    .equation ⟨"get",[.var "b" ⟨0,34,35⟩],.hole "_" ⟨0,38,39⟩,⟨0,30,39⟩⟩]⟩
  types := { datatypes := [⟨"B",["a"],[⟨"B",[.var "a"]⟩]⟩] }
  signatures := [("get",.arrow (.app (.const "B") (.var "a")) (.var "a"))]

theorem Source.tokens_unboxing : Source.unboxing.tokens =
    ([⟨.keyword,"data",0,4,true⟩,⟨.ident,"B",5,6,false⟩,⟨.ident,"a",7,8,false⟩,⟨.symbol,"=",9,10,false⟩,
      ⟨.ident,"B",11,12,false⟩,⟨.ident,"a",13,14,false⟩,⟨.ident,"get",15,18,true⟩,
      ⟨.symbol,":",19,20,false⟩,⟨.ident,"B",21,22,false⟩,⟨.ident,"a",23,24,false⟩,
      ⟨.symbol,"->",25,27,false⟩,⟨.ident,"a",28,29,false⟩,⟨.ident,"get",30,33,true⟩,
      ⟨.ident,"b",34,35,false⟩,⟨.symbol,"=",36,37,false⟩,⟨.ident,"_",38,39,false⟩],.complete) := by
  decide +kernel

theorem Program.load_unboxing : Program.load .unboxing = .ok .unboxing := by
  rw [load,Parser.runOn,Source.tokens_unboxing]
  rfl

/-- All judgements on the way to the content of a box are about the type of the content. -/
theorem types_formed_unboxing :
    ∃ r, Program.load .unboxing = .ok .unboxing ∧ Program.unboxing.resolve .unboxing 0 = .ok r ∧
      r.judgement.Checked Program.unboxing.types ∧
      ∀ bound limit budget,
        ∀ f ∈ (Frontier.start r.judgement Tactic.auto).passed (Tactic.bodies Empty.elim) r.context bound limit
          budget, ∀ d ∈ f.drafts, ∀ k ∈ d.judgements, k.Checked Program.unboxing.types ∧ ∀ x ∈ k.vars, x = "a" := by
  obtain ⟨r,hr,hvars⟩ : ∃ r, Program.unboxing.resolve .unboxing 0 = .ok r ∧ ∀ x ∈ r.judgement.vars, x = "a" :=
    ⟨_,rfl,by decide⟩
  obtain ⟨hroot,hreached⟩ := types_formed Program.load_unboxing hr
  refine ⟨r,Program.load_unboxing,hr,hroot,fun bound limit budget f hf d hd k hk => ?_⟩
  obtain ⟨hchecked,hsub⟩ :=
    ((hreached Empty Empty.elim nofun _ .call).1 bound limit budget f (.inl hf)).1 d hd k hk
  exact ⟨hchecked,fun x hx => hvars x (hsub hx)⟩

end TypedHole
