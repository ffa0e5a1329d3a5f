import TypedHole.Program.Resolve
import TypedHole.Proofs.Loading
import TypedHole.Proofs.Scope

/-! What is known at the hole of an equation.
The provenance of an entry tells which parameter of the equation it is, and the definition being written
is there unless a parameter has its name. Main statement: the judgement at a bare right-hand side knows its
equation (`Program.Loaded.knows`). -/
namespace TypedHole

open TypedHole.Tactic (bind_eq_ok)

/-- The last position of a variable among patterns. -/
def Pat.LastAt (ps : List Pat) (x : Name) (i : Nat) : Prop :=
  (∃ s, ps[i]? = some (.var x s)) ∧ ∀ k s, i < k → ps[k]? ≠ some (.var x s)

/-- The entries of a judgement at the right-hand side of an equation with a signature. -/
structure Judgement.Knows (j : Judgement) (e : Equation) (t : Ty) : Prop where
  few : e.pats.length ≤ t.domains.length
  recursive : ∀ a ∈ j.hypothesis.entries, a.provenance = .recursive →
    a.name = e.name ∧ a.ty = t ∧ e.name ∉ Pat.varsOfList e.pats
  argument : ∀ a ∈ j.hypothesis.entries, ∀ i, a.provenance = .argument e.name i → Pat.LastAt e.pats a.name i
  parameter : ∀ x s, .var x s ∈ e.pats →
    ∃ a i, j.hypothesis.find? x = some a ∧ a.provenance = .argument e.name i

def Provenance.OfPattern : Provenance → Prop
  | user | field .. => True
  | _ => False

namespace Pat

mutual

theorem entries_eq_ok {types : TypeTable} : ∀ {p : Pat} {t : Ty} {pr : Provenance} {es : List Entry},
    p.entries types t pr = .ok es → pr.OfPattern →
      es.map (·.name) = p.vars ∧ ∀ a ∈ es, a.provenance.OfPattern
  | .var x _, t, pr, es, h, hp => by
    cases h
    simpa [vars] using hp
  | .wildcard _, t, pr, es, h, hp => by
    cases h
    simp [vars]
  | .ctor c args _, t, pr, es, h, hp => by
    simp only [entries] at h
    split at h
    next => cases h
    split at h
    next => cases h
    split at h
    next hl => exact entriesOfFields_eq_ok h hl
    next => cases h

theorem entriesOfFields_eq_ok {types : TypeTable} {c : Name} :
    ∀ {ps : List Pat} {ts : List Ty} {i : Nat} {es : List Entry},
      entriesOfFields types c ps ts i = .ok es → ps.length = ts.length →
        es.map (·.name) = varsOfList ps ∧ ∀ a ∈ es, a.provenance.OfPattern
  | [], ts, i, es, h, hl => by
    cases h
    simp [varsOfList]
  | p :: ps, [], i, es, h, hl => by cases hl
  | p :: ps, t :: ts, i, es, h, hl => by
    rw [entriesOfFields] at h
    obtain ⟨es₁,h₁,h⟩ := bind_eq_ok h
    obtain ⟨es₂,h₂,h⟩ := bind_eq_ok h
    cases h
    obtain ⟨hn₁,hp₁⟩ := entries_eq_ok h₁ trivial
    obtain ⟨hn₂,hp₂⟩ := entriesOfFields_eq_ok h₂ (Nat.succ.inj hl)
    rw [List.map_append,hn₁,hn₂]
    exact ⟨rfl,fun a ha => (List.mem_append.1 ha).elim (hp₁ a) (hp₂ a)⟩

end

end Pat

theorem Program.patternEntries_eq_ok {p : Program} {pats : List Pat} {doms : List Ty} {es : List Entry}
    (h : p.patternEntries pats doms = .ok es) (hl : pats.length ≤ doms.length) :
    es.map (·.name) = Pat.varsOfList pats ∧ ∀ a ∈ es, a.provenance.OfPattern := by
  rw [patternEntries] at h
  obtain ⟨ess,hess,hes⟩ := bind_eq_ok h
  clear h
  cases hes
  induction pats generalizing doms ess with
  | nil =>
    cases hess
    simp [Pat.varsOfList]
  | cons q pats ih =>
    cases doms with
    | nil => cases hl
    | cons t doms =>
      rw [List.zip_cons_cons,List.mapM_cons] at hess
      obtain ⟨es,hes,hess⟩ := bind_eq_ok hess
      obtain ⟨ess,hrest,hess⟩ := bind_eq_ok hess
      cases hess
      obtain ⟨hn₁,hp₁⟩ := Pat.entries_eq_ok hes trivial
      obtain ⟨hn₂,hp₂⟩ := ih (Nat.le_of_succ_le_succ hl) ess hrest
      rw [List.flatten_cons,List.map_append,hn₁,hn₂]
      exact ⟨rfl,fun a ha => (List.mem_append.1 ha).elim (hp₁ a) (hp₂ a)⟩

theorem Program.mem_patternEntries {p : Program} {pats : List Pat} {doms : List Ty} {es : List Entry}
    (h : p.patternEntries pats doms = .ok es) {a : Entry} (ha : a ∈ es) :
    a.name ∈ Pat.varsOfList pats ∧ a.provenance.OfPattern := by
  obtain ⟨ess,hess,hes⟩ := bind_eq_ok h
  cases hes
  obtain ⟨es,hes,ha⟩ := List.mem_flatten.1 ha
  obtain ⟨⟨q,u⟩,hq,hentries⟩ := mem_of_mapM_eq_ok hess hes
  obtain ⟨hnames,hprovenance⟩ := Pat.entries_eq_ok hentries trivial
  have hname : a.name ∈ es.map (·.name) := List.mem_map_of_mem ha
  rw [hnames] at hname
  exact ⟨Pat.mem_varsOfList.2 ⟨q,(List.of_mem_zip hq).1,hname⟩,hprovenance a ha⟩

/-! Which parameter a variable is. -/

namespace Pat

variable {α : Type}

theorem LastAt.succ {ps : List Pat} {x : Name} {i : Nat} (h : LastAt ps x i) (p : Pat) :
    LastAt (p :: ps) x (i + 1) := by
  refine ⟨h.1,fun k s hk => ?_⟩
  cases k with
  | zero => cases hk
  | succ k => exact h.2 k s (Nat.lt_of_succ_lt_succ hk)

def marks (mark : Nat → α) (ps : List Pat) : List (Name × α) :=
  (ps.mapIdx fun i p => match p with
    | .var x _ => some (x,mark i)
    | _ => none).filterMap id

@[simp] theorem marks_var (mark : Nat → α) (x : Name) (s : Span) (ps : List Pat) :
    marks mark (.var x s :: ps) = (x,mark 0) :: marks (fun i => mark (i + 1)) ps := by
  simp [marks,List.mapIdx_cons]

@[simp] theorem marks_wildcard (mark : Nat → α) (s : Span) (ps : List Pat) :
    marks mark (.wildcard s :: ps) = marks (fun i => mark (i + 1)) ps := by
  simp [marks,List.mapIdx_cons]

@[simp] theorem marks_ctor (mark : Nat → α) (c : Name) (args : List Pat) (s : Span) (ps : List Pat) :
    marks mark (.ctor c args s :: ps) = marks (fun i => mark (i + 1)) ps := by
  simp [marks,List.mapIdx_cons]

theorem mem_marks (mark : Nat → α) {ps : List Pat} {x : Name} {s : Span} (h : .var x s ∈ ps) :
    x ∈ (marks mark ps).map (·.1) := by
  induction ps generalizing mark with
  | nil => cases h
  | cons p ps ih =>
    rcases List.mem_cons.1 h with rfl | hps
    · simp
    · cases p with
      | var => simpa using Or.inr (ih _ hps)
      | wildcard => simpa using ih _ hps
      | ctor => simpa using ih _ hps

/-- Of several patterns with one variable the last one counts. -/
theorem lastAt_of_lookup {mark : Nat → α} {ps : List Pat} {x : Name} {a : α}
    (h : (lastOfEach (marks mark ps)).lookup x = some a) : ∃ i, a = mark i ∧ LastAt ps x i := by
  induction ps generalizing mark with
  | nil => cases h
  | cons p ps ih =>
    have hlater (h : (lastOfEach (marks (fun i => mark (i + 1)) ps)).lookup x = some a) :
        ∃ i, a = mark i ∧ LastAt (p :: ps) x i := by
      obtain ⟨i,hi,hl⟩ := ih h
      exact ⟨i + 1,hi,hl.succ p⟩
    cases p with
    | wildcard => exact hlater (by simpa using h)
    | ctor => exact hlater (by simpa using h)
    | var y s =>
      rw [marks_var,lastOfEach] at h
      split at h
      next => exact hlater h
      next hnone =>
        rw [List.lookup_cons] at h
        split at h
        next hxy =>
          cases h
          cases eq_of_beq hxy
          refine ⟨0,rfl,⟨s,rfl⟩,fun k s' hk hps => hnone ?_⟩
          obtain ⟨k,rfl⟩ := Nat.exists_eq_succ_of_ne_zero (Nat.ne_of_gt hk)
          have hmem : .var x s' ∈ ps := List.mem_of_getElem? hps
          obtain ⟨q,hq,hqx⟩ := List.mem_map.1 (mem_marks (fun i => mark (i + 1)) hmem)
          exact List.any_eq_true.2 ⟨q,hq,by simp [hqx]⟩
        next => exact hlater h

end Pat

theorem lookup_lastOfEach_isSome {α : Type} {xs : List (Name × α)} {x : Name} (h : x ∈ xs.map (·.1)) :
    ((lastOfEach xs).lookup x).isSome = true := by
  induction xs with
  | nil => cases h
  | cons p xs ih =>
    obtain ⟨y,a⟩ := p
    rw [lastOfEach]
    split
    next hany =>
      refine ih ((List.mem_cons.1 h).elim (fun hx => ?_) id)
      obtain ⟨q,hq,hqy⟩ := List.any_eq_true.1 hany
      exact List.mem_map.2 ⟨q,hq,(eq_of_beq hqy).trans hx.symm⟩
    next =>
      rw [List.lookup_cons]
      split
      next => rfl
      next hxy => exact ih ((List.mem_cons.1 h).resolve_left fun hx => by simp [hx] at hxy)

namespace Program

theorem resolve_eq_ok {p : Program} {s : Source} {index : Nat} {r : Resolved} {h : HoleSite}
    (hr : p.resolve s index = .ok r) (hh : p.holes[index]? = some h) :
    (p.holeFacts h).judgement? = some (r.judgement,r.context) ∧ r.span = h.span := by
  rw [resolve,holeFacts?,hh] at hr
  simp only [Option.map_some] at hr
  split at hr
  next => cases hr
  next j c hj =>
    cases hr
    exact ⟨hj,rfl⟩

def others (p : Program) (e : Equation) : List Entry :=
  (p.signatures.filter fun (x,_) => x != e.name).map fun (x,t) => ⟨x,t,.global⟩

/-- What is in scope of an equation: other definitions, and if it has a signature, itself, the variables of its
patterns and the binders of the lambdas around the place. -/
theorem bindings?_eq_some {p : Program} {e : Equation} {place : Span} {bs : List Entry}
    (h : p.bindings? e place = some bs) :
    p.signature? e.name = none ∧ bs = p.others e ∨
      ∃ t es, p.signature? e.name = some t ∧ p.patternEntries e.pats t.domains = .ok es ∧
        bs = p.others e ++ [⟨e.name,t,.recursive⟩] ++ es ++
          ((e.rhs.lambdasAround place).1.zip (t.domains.drop e.pats.length)).map fun (x,u) => ⟨x,u,.user⟩ := by
  simp only [bindings?] at h
  split at h
  next hsig =>
    cases h
    exact .inl ⟨hsig,rfl⟩
  next t hsig =>
    split at h
    next => cases h
    next es hes =>
      cases h
      exact .inr ⟨t,es,hsig,hes,rfl⟩

/-- A judgement at a hole: its goal, and the bindings in scope of the equation around it. -/
structure ResolvedAt (p : Program) (h : HoleSite) (e : Equation) (bs : List Entry) (r : Resolved) : Prop where
  span : r.span = h.span
  goal : p.goal? h = some r.judgement.goal
  enclosing : p.module.enclosingEquation? h.span = some e
  bindings : p.bindings? e h.span = some bs
  hypothesis : r.judgement.hypothesis =
    p.methods.union ((Hypothesis.ofList bs).withProvenance (p.module.argumentsAt h.span))
  types : r.context.types = p.types

theorem resolvedAt_of_resolve {p : Program} {s : Source} {index : Nat} {r : Resolved}
    (hr : p.resolve s index = .ok r) :
    ∃ h e bs, p.holes[index]? = some h ∧ p.ResolvedAt h e bs r := by
  obtain ⟨h,hh⟩ : ∃ h, p.holes[index]? = some h := by
    cases hh : p.holes[index]? with
    | some h => exact ⟨h,rfl⟩
    | none =>
      rw [resolve,holeFacts?,hh] at hr
      cases hr
  obtain ⟨hj,hspan⟩ := resolve_eq_ok hr hh
  obtain ⟨goal,hgoal,hj⟩ := Option.bind_eq_some_iff.1 hj
  obtain ⟨bs,hbs,hj⟩ := Option.bind_eq_some_iff.1 hj
  obtain ⟨e,he,hbs⟩ := Option.bind_eq_some_iff.1 hbs
  obtain ⟨hj,hc⟩ := Prod.mk.inj (Option.some.inj hj)
  refine ⟨h,e,bs,hh,hspan,?_,he,hbs,?_,?_⟩
  · rw [← hj]
    exact hgoal
  · rw [← hj]
    rfl
  · rw [← hc]

theorem mem_methods {p : Program} {a : Entry} (h : a ∈ p.methods.entries) :
    ∃ c ∈ p.classes, ∃ m ∈ c.methods, ∃ i ∈ p.instances,
      a = ⟨m.1,m.2.subst [(c.param,i.ty)],.method c.name i.ty⟩ := by
  rcases Hypothesis.mem_extend h with h | h
  · cases h
  · obtain ⟨i,hi,h⟩ := List.mem_flatMap.1 h
    split at h
    next c hc =>
      obtain ⟨m,hm,rfl⟩ := List.mem_map.1 h
      exact ⟨c,List.mem_of_find?_eq_some hc,m,hm,i,hi,rfl⟩
    next => cases h

theorem provenance_methods {p : Program} {a : Entry} (h : a ∈ p.methods.entries) :
    ∃ c t, a.provenance = .method c t := by
  obtain ⟨c,-,m,-,i,-,rfl⟩ := mem_methods h
  exact ⟨_,_,rfl⟩

variable {key : Nat} {p : Program} {pre post : List Decl} {e : Equation} {t : Ty} {x : Name} {sp : Span}

theorem Loaded.argumentsAt (h : p.Loaded key) (he : e ∈ p.module.equations) (hrhs : e.rhs = .hole x sp) :
    p.module.argumentsAt sp = lastOfEach (Pat.marks (Provenance.argument e.name) e.pats) := by
  rw [Module.argumentsAt,h.topHoleEquation?_hole he hrhs]
  rfl

/-- The bindings in scope at a bare right-hand side: other definitions, the definition itself and the
variables of its patterns. -/
structure Scoped (e : Equation) (t : Ty) (others es : List Entry) : Prop where
  others : ∀ a ∈ others, a.provenance = .global
  names : es.map (·.name) = Pat.varsOfList e.pats
  bound : ∀ a ∈ es, a.provenance.OfPattern

theorem Loaded.bindings (h : p.Loaded key) (hdecls : p.module.decls = pre ++ .equation e :: post)
    (hsig : .signature e.name t ∈ pre) (hrhs : e.rhs = .hole x sp) {bs : List Entry}
    (hb : p.bindings? e sp = some bs) :
    ∃ others es, bs = others ++ [⟨e.name,t,.recursive⟩] ++ es ∧ Scoped e t others es := by
  obtain ⟨ht,hl⟩ := h.checked pre post e t hdecls hsig
  rcases bindings?_eq_some hb with ⟨hnone,-⟩ | ⟨u,es,hu,hes,rfl⟩
  · cases hnone.symm.trans ht
  · cases hu.symm.trans ht
    obtain ⟨hnames,hprov⟩ := patternEntries_eq_ok hes hl
    refine ⟨p.others e,es,by simp [hrhs,Expr.lambdasAround],fun a ha => ?_,hnames,hprov⟩
    obtain ⟨q,-,rfl⟩ := List.mem_map.1 ha
    rfl

theorem Loaded.resolved (h : p.Loaded key) (hdecls : p.module.decls = pre ++ .equation e :: post)
    (hsig : .signature e.name t ∈ pre) (hrhs : e.rhs = .hole x sp) {s : Source} {index : Nat} {r : Resolved}
    (hsite : p.holes[index]? = some ⟨sp,none⟩) (hr : p.resolve s index = .ok r) :
    ∃ others es, Scoped e t others es ∧ r.context.types = p.types ∧ r.judgement.hypothesis =
        p.methods.union ((Hypothesis.ofList (others ++ [⟨e.name,t,.recursive⟩] ++ es)).withProvenance
          (lastOfEach (Pat.marks (Provenance.argument e.name) e.pats))) := by
  have he : e ∈ p.module.equations := by simp [Module.equations,hdecls]
  obtain ⟨site,e',bs,hsite',hat⟩ := resolvedAt_of_resolve hr
  cases hsite'.symm.trans hsite
  cases hat.enclosing.symm.trans (h.enclosingEquation?_hole he hrhs)
  obtain ⟨others,es,rfl,hscoped⟩ := h.bindings hdecls hsig hrhs hat.bindings
  refine ⟨others,es,hscoped,hat.types,?_⟩
  rw [hat.hypothesis,h.argumentsAt he hrhs]

end Program

namespace Program.Scoped

variable {e : Equation} {t : Ty} {others es : List Entry} {methods : Hypothesis} {a : Entry}

theorem cases_of_mem (h : Scoped e t others es)
    (ha : a ∈ (Hypothesis.ofList (others ++ [⟨e.name,t,.recursive⟩] ++ es)).entries) :
    a.provenance = .global ∨ a = ⟨e.name,t,.recursive⟩ ∨ a ∈ es := by
  rcases Hypothesis.mem_extend ha with ha | ha
  · cases ha
  rcases List.mem_append.1 ha with ha | ha
  · rcases List.mem_append.1 ha with ha | ha
    · exact .inl (h.others a ha)
    · exact .inr (.inl (List.mem_singleton.1 ha))
  · exact .inr (.inr ha)

/-- A parameter with the name of the definition hides it. -/
theorem not_mem_vars (h : Scoped e t others es) (ha : ⟨e.name,t,.recursive⟩ ∈
    (Hypothesis.ofList (others ++ [⟨e.name,t,.recursive⟩] ++ es)).entries) :
    e.name ∉ Pat.varsOfList e.pats := by
  intro hvar
  rw [← h.names] at hvar
  obtain ⟨b,hb,hfind⟩ := Hypothesis.find?_extend_of_mem
    (h := Hypothesis.ofList (others ++ [⟨e.name,t,.recursive⟩])) hvar
  have hfind' := Hypothesis.find?_of_mem ha
  rw [Hypothesis.ofList,Hypothesis.extend_append] at hfind'
  cases hfind.symm.trans hfind'
  exact h.bound _ hb

end Program.Scoped

theorem Hypothesis.mem_union_withProvenance {methods : Hypothesis} {bs : List Entry}
    {ps : List (Name × Provenance)} {a : Entry}
    (h : a ∈ (methods.union ((ofList bs).withProvenance ps)).entries) :
    a ∈ methods.entries ∨ ∃ b ∈ (ofList bs).entries,
      a = { b with provenance := (ps.lookup b.name).getD b.provenance } := by
  refine (mem_extend h).imp_right fun h => ?_
  obtain ⟨b,hb,rfl⟩ := List.mem_map.1 h
  exact ⟨b,hb,rfl⟩

theorem Hypothesis.find?_withProvenance (h : Hypothesis) (ps : List (Name × Provenance)) (x : Name) :
    (h.withProvenance ps).find? x =
      (h.find? x).map fun b => { b with provenance := (ps.lookup b.name).getD b.provenance } := by
  simp only [find?,withProvenance,List.find?_map]
  rfl

theorem Hypothesis.find?_union_of_eq_some {h k : Hypothesis} {x : Name} {a : Entry} (ha : k.find? x = some a) :
    (h.union k).find? x = some a := by
  have hname : a.name = x := by simpa using List.find?_some ha
  obtain ⟨b,hb,hfind⟩ := find?_extend_of_mem (h := h)
    (List.mem_map.2 ⟨a,List.mem_of_find?_eq_some ha,hname⟩)
  have hbname : b.name = x := by simpa using List.find?_some hfind
  cases ha.symm.trans (hbname ▸ find?_of_mem hb)
  exact hfind

theorem Hypothesis.find?_union_withProvenance (methods : Hypothesis) {h : Hypothesis}
    (ps : List (Name × Provenance)) {x : Name} {b : Entry} (hb : h.find? x = some b) :
    (methods.union (h.withProvenance ps)).find? x =
      some { b with provenance := (ps.lookup b.name).getD b.provenance } :=
  find?_union_of_eq_some (by rw [find?_withProvenance,hb]; rfl)

namespace Program

variable {key : Nat} {p : Program} {pre post : List Decl} {e : Equation} {t : Ty} {x : Name} {sp : Span}

/-- The judgement at a bare right-hand side knows its equation. -/
theorem Loaded.knows (h : p.Loaded key) (hdecls : p.module.decls = pre ++ .equation e :: post)
    (hsig : .signature e.name t ∈ pre) (hrhs : e.rhs = .hole x sp) {s : Source} {index : Nat} {r : Resolved}
    (hsite : p.holes[index]? = some ⟨sp,none⟩) (hr : p.resolve s index = .ok r) :
    r.judgement.Knows e t ∧ r.context.types = p.types := by
  obtain ⟨others,es,hscoped,htypes,hhyp⟩ := h.resolved hdecls hsig hrhs hsite hr
  have hentry (a : Entry) (ha : a ∈ r.judgement.hypothesis.entries) :
      (∃ c u, a.provenance = .method c u) ∨
        (∃ i, a.provenance = .argument e.name i ∧ Pat.LastAt e.pats a.name i) ∨
        a ∈ (Hypothesis.ofList (others ++ [⟨e.name,t,.recursive⟩] ++ es)).entries := by
    rw [hhyp] at ha
    rcases Hypothesis.mem_union_withProvenance ha with ha | ⟨b,hb,rfl⟩
    · exact .inl (provenance_methods ha)
    right
    cases hl : (lastOfEach (Pat.marks (Provenance.argument e.name) e.pats)).lookup b.name with
    | none => exact .inr hb
    | some q =>
      obtain ⟨i,rfl,hi⟩ := Pat.lastAt_of_lookup hl
      exact .inl ⟨i,rfl,hi⟩
  have hfew := (h.checked pre post e t hdecls hsig).2
  refine ⟨⟨hfew,fun a ha hp => ?recursive,fun a ha i hp => ?argument,fun y s hy => ?parameter⟩,htypes⟩
  case recursive =>
    rcases hentry a ha with ⟨c,u,hm⟩ | ⟨i,hi,-⟩ | ha
    · cases hp.symm.trans hm
    · cases hp.symm.trans hi
    rcases hscoped.cases_of_mem ha with hg | rfl | hmem
    · cases hp.symm.trans hg
    · exact ⟨rfl,rfl,hscoped.not_mem_vars ha⟩
    · exact (hp ▸ hscoped.bound a hmem).elim
  case argument =>
    rcases hentry a ha with ⟨c,u,hm⟩ | ⟨k,hk,hl⟩ | ha
    · cases hp.symm.trans hm
    · cases hp.symm.trans hk
      exact hl
    rcases hscoped.cases_of_mem ha with hg | rfl | hmem
    · cases hp.symm.trans hg
    · cases hp
    · exact (hp ▸ hscoped.bound a hmem).elim
  case parameter =>
    have hvar : y ∈ (others ++ [(⟨e.name,t,.recursive⟩ : Entry)] ++ es).map (·.name) := by
      rw [List.map_append,hscoped.names]
      exact List.mem_append.2 (.inr (Pat.mem_varsOfList.2 ⟨_,hy,by simp [Pat.vars]⟩))
    obtain ⟨q,hq⟩ := Option.isSome_iff_exists.1
      (lookup_lastOfEach_isSome (Pat.mem_marks (Provenance.argument e.name) hy))
    obtain ⟨i,rfl,-⟩ := Pat.lastAt_of_lookup hq
    obtain ⟨b,-,hb⟩ := Hypothesis.find?_extend_of_mem (h := .empty) hvar
    have hname : b.name = y := by simpa using List.find?_some hb
    refine ⟨_,i,by rw [hhyp]; exact Hypothesis.find?_union_withProvenance p.methods _ hb,?_⟩
    rw [hname,hq]
    rfl

end Program

end TypedHole
