import TypedHole.Proofs.Checked
import TypedHole.Proofs.Resolution

/-! Scope of a hole in its source.
The variables of an equation's patterns and the binders of all lambdas around a hole are in scope there, and
an inner one hides those further out that have its name. Types are known of patterns and of lambdas at the
head of the right-hand side, as far as the signature goes. Main statement: the judgement at a hole has for a
name the innermost binder of that name, if the type of this binder is known (`scope_lexical`). -/
namespace TypedHole

open TypedHole.Tactic (bind_eq_ok)

/-- Names that are bound one after the other, each with its type if that is known. -/
abbrev Binders := List (Name × Option Ty)

namespace Binders

/-- The innermost binder of a name comes last. -/
def Innermost (B : Binders) (x : Name) (t : Option Ty) : Prop :=
  ∃ outer inner, B = outer ++ (x,t) :: inner ∧ x ∉ inner.map (·.1)

def typed (bs : List (Name × Ty)) : Binders := bs.map fun b => (b.1,some b.2)

def untyped (xs : List Name) : Binders := xs.map fun x => (x,none)

def ofLambda (xs : List Name) (doms : List Ty) : Binders := xs.mapIdx fun i x => (x,doms[i]?)

def known (B : Binders) : List (Name × Ty) := B.filterMap fun b => b.2.map (b.1,·)

@[simp] theorem known_append (B B' : Binders) : known (B ++ B') = B.known ++ B'.known :=
  List.filterMap_append

@[simp] theorem known_typed (bs : List (Name × Ty)) : (typed bs).known = bs := by
  simp [known,typed,List.filterMap_map]

@[simp] theorem known_untyped (xs : List Name) : (untyped xs).known = [] := by
  simp [known,untyped,List.filterMap_map]

@[simp] theorem known_ofLambda (xs : List Name) (doms : List Ty) : (ofLambda xs doms).known = xs.zip doms := by
  induction xs generalizing doms with
  | nil => rfl
  | cons x xs ih =>
    cases doms with
    | nil => simpa [known,ofLambda,List.mapIdx_cons] using ih []
    | cons d doms => simpa [known,ofLambda,List.mapIdx_cons] using ih doms

theorem mem_known {B : Binders} {x : Name} {t : Ty} : (x,t) ∈ B.known ↔ (x,some t) ∈ B := by
  simp [known,List.mem_filterMap]

theorem Innermost.known {B : Binders} {x : Name} {t : Ty} (h : B.Innermost x (some t)) :
    ∃ outer inner, B.known = outer ++ (x,t) :: inner ∧ x ∉ inner.map (·.1) := by
  obtain ⟨outer,inner,rfl,hx⟩ := h
  refine ⟨Binders.known outer,Binders.known inner,by simp [Binders.known],fun hin => hx ?_⟩
  obtain ⟨⟨y,u⟩,hy,rfl⟩ := List.mem_map.1 hin
  exact List.mem_map.2 ⟨_,mem_known.1 hy,rfl⟩

end Binders

/-! Variables of patterns. -/

namespace Pat

mutual

/-- The variables of a pattern with the types that they have in a value of a type. -/
inductive Binds (types : TypeTable) : Pat → Ty → List (Name × Ty) → Prop
  | var {x : Name} {s : Span} {t : Ty} : Binds types (.var x s) t [(x,t)]
  | wildcard {s : Span} {t : Ty} : Binds types (.wildcard s) t []
  | ctor {c : Name} {args : List Pat} {s : Span} {t : Ty} {cs : List Constructor} {con : Constructor}
      {bs : List (Name × Ty)} (ctors : types.constructors? t = some cs)
      (found : cs.find? (·.name == c) = some con) (length : args.length = con.fields.length)
      (fields : BindsAll types args con.fields bs) : Binds types (.ctor c args s) t bs

/-- The variables of several patterns; types may be left over. -/
inductive BindsAll (types : TypeTable) : List Pat → List Ty → List (Name × Ty) → Prop
  | nil {ts : List Ty} : BindsAll types [] ts []
  | cons {p : Pat} {ps : List Pat} {t : Ty} {ts : List Ty} {bs bs' : List (Name × Ty)}
      (first : Binds types p t bs) (rest : BindsAll types ps ts bs') :
      BindsAll types (p :: ps) (t :: ts) (bs ++ bs')

end

mutual

theorem binds_iff {types : TypeTable} : ∀ {p : Pat} {t : Ty} {pr : Provenance} {es : List Entry}
    {bs : List (Name × Ty)}, p.entries types t pr = .ok es →
      (Binds types p t bs ↔ bs = es.map fun a => (a.name,a.ty))
  | .var x s, t, pr, es, bs, h => by
    cases h
    exact ⟨fun hb => by cases hb; rfl,fun hb => hb ▸ .var⟩
  | .wildcard s, t, pr, es, bs, h => by
    cases h
    exact ⟨fun hb => by cases hb; rfl,fun hb => hb ▸ .wildcard⟩
  | .ctor c args s, t, pr, es, bs, h => by
    simp only [entries] at h
    split at h
    next => cases h
    next cs hcs =>
      split at h
      next => cases h
      next con hcon =>
        split at h
        next hl =>
          have hfields : BindsAll types args con.fields bs ↔ _ := bindsAll_iff h hl
          refine ⟨fun hb => ?_,fun hb => .ctor hcs hcon hl (hfields.2 hb)⟩
          cases hb with
          | ctor ctors found _ fields =>
            cases hcs.symm.trans ctors
            cases hcon.symm.trans found
            exact hfields.1 fields
        next => cases h

theorem bindsAll_iff {types : TypeTable} {c : Name} : ∀ {ps : List Pat} {ts : List Ty} {i : Nat}
    {es : List Entry} {bs : List (Name × Ty)}, entriesOfFields types c ps ts i = .ok es →
      ps.length = ts.length → (BindsAll types ps ts bs ↔ bs = es.map fun a => (a.name,a.ty))
  | [], ts, i, es, bs, h, hl => by
    cases h
    exact ⟨fun hb => by cases hb; rfl,fun hb => hb ▸ .nil⟩
  | p :: ps, [], i, es, bs, h, hl => by cases hl
  | p :: ps, t :: ts, i, es, bs, h, hl => by
    rw [entriesOfFields] at h
    obtain ⟨es₁,h₁,h⟩ := bind_eq_ok h
    obtain ⟨es₂,h₂,h⟩ := bind_eq_ok h
    cases h
    refine ⟨fun hb => ?_,fun hb => ?_⟩
    · cases hb with
      | cons first rest =>
        rw [(binds_iff h₁).1 first,(bindsAll_iff h₂ (Nat.succ.inj hl)).1 rest,List.map_append]
    · rw [hb,List.map_append]
      exact .cons ((binds_iff h₁).2 rfl) ((bindsAll_iff h₂ (Nat.succ.inj hl)).2 rfl)

end

end Pat

theorem Program.bindsAll_iff {p : Program} {pats : List Pat} {doms : List Ty} {es : List Entry}
    (h : p.patternEntries pats doms = .ok es) {bs : List (Name × Ty)} :
    Pat.BindsAll p.types (pats.take doms.length) doms bs ↔ bs = es.map fun a => (a.name,a.ty) := by
  obtain ⟨ess,hess,hes⟩ := bind_eq_ok h
  clear h
  cases hes
  induction pats generalizing doms ess bs with
  | nil =>
    cases hess
    rw [List.take_nil]
    exact ⟨fun hb => by cases hb; rfl,fun hb => hb ▸ .nil⟩
  | cons q pats ih =>
    cases doms with
    | nil =>
      cases hess
      exact ⟨fun hb => by cases hb; rfl,fun hb => hb ▸ .nil⟩
    | cons t doms =>
      rw [List.zip_cons_cons,List.mapM_cons] at hess
      obtain ⟨es,hes,hess⟩ := bind_eq_ok hess
      obtain ⟨ess,hrest,hess⟩ := bind_eq_ok hess
      cases hess
      rw [List.flatten_cons,List.map_append,List.length_cons,List.take_succ_cons]
      refine ⟨fun hb => ?_,fun hb => ?_⟩
      · cases hb with
        | cons first rest => rw [(Pat.binds_iff hes).1 first,(ih ess hrest).1 rest]
      · rw [hb]
        exact .cons ((Pat.binds_iff hes).2 rfl) ((ih ess hrest).2 rfl)

/-! Binders of lambdas. -/

namespace Expr

/-- A hole of an expression that takes arguments of the listed types, with the binders of all lambdas around
it, outermost first. The lambdas at the head bind the arguments; of other binders no type is known. -/
inductive HoleAt (sp : Span) : List Ty → Binders → Expr → Prop
  | hole {doms : List Ty} {x : Name} : HoleAt sp doms [] (.hole x sp)
  | lam {doms : List Ty} {xs : List Name} {b : Expr} {s : Span} {B : Binders}
      (body : HoleAt sp (doms.drop xs.length) B b) : HoleAt sp doms (.ofLambda xs doms ++ B) (.lam xs b s)
  | fn {doms : List Ty} {f a : Expr} {s : Span} {B : Binders} (part : HoleAt sp [] B f) :
      HoleAt sp doms B (.app f a s)
  | arg {doms : List Ty} {f a : Expr} {s : Span} {B : Binders} (part : HoleAt sp [] B a) :
      HoleAt sp doms B (.app f a s)
  | lhs {doms : List Ty} {op : Name} {l r : Expr} {s : Span} {B : Binders} (part : HoleAt sp [] B l) :
      HoleAt sp doms B (.binary op l r s)
  | rhs {doms : List Ty} {op : Name} {l r : Expr} {s : Span} {B : Binders} (part : HoleAt sp [] B r) :
      HoleAt sp doms B (.binary op l r s)
  | ann {doms : List Ty} {e : Expr} {t : Ty} {s : Span} {B : Binders} (part : HoleAt sp [] B e) :
      HoleAt sp doms B (.ann e t s)

theorem exists_holeAt {e : Expr} {n : Node} (hn : n ∈ e.nodes) {h : HoleSite} (hh : n.holeSite? = some h)
    (doms : List Ty) : ∃ B, e.HoleAt h.span doms B := by
  induction e generalizing doms with
  | var | number =>
    cases List.mem_singleton.1 hn
    cases hh
  | hole =>
    cases List.mem_singleton.1 hn
    cases hh
    exact ⟨[],.hole⟩
  | app f a s ihf iha =>
    rcases List.mem_cons.1 hn with rfl | hn
    · cases hh
    rcases List.mem_append.1 hn with hn | hn
    · exact (ihf hn []).imp fun _ => .fn
    · exact (iha hn []).imp fun _ => .arg
  | binary op l r s ihl ihr =>
    rcases List.mem_cons.1 hn with rfl | hn
    · cases hh
    rcases List.mem_append.1 hn with hn | hn
    · exact (ihl hn []).imp fun _ => .lhs
    · exact (ihr hn []).imp fun _ => .rhs
  | lam xs b s ih =>
    rcases List.mem_cons.1 hn with rfl | hn
    · cases hh
    obtain ⟨B,hB⟩ := ih hn (doms.drop xs.length)
    exact ⟨_,.lam hB⟩
  | ann e t s ih =>
    rcases List.mem_cons.1 hn with rfl | hn
    · -- an annotated hole is a site itself
      cases e with
      | hole =>
        cases hh
        exact ⟨[],.ann .hole⟩
      | _ => cases hh
    · exact (ih hn []).imp fun _ => .ann

variable {sp : Span} {doms : List Ty} {B : Binders} {e : Expr} {key lo hi : Nat}

theorem HoleAt.within (h : e.HoleAt sp doms B) (hn : e.Nested key lo hi) :
    sp.Within key e.span.start e.span.stop := by
  have part {e' : Expr} {s : Span} (ih : sp.Within key e'.span.start e'.span.stop)
      (hn : e'.Nested key s.start s.stop) : sp.Within key s.start s.stop :=
    ih.mono hn.span.start hn.span.stop
  induction h generalizing lo hi with
  | hole => exact ⟨hn.1.source,Nat.le_refl _,hn.1.nonempty,Nat.le_refl _⟩
  | lam _ ih => exact part (ih hn.2) hn.2
  | fn _ ih => exact part (ih hn.2.1) hn.2.1
  | arg _ ih => exact part (ih hn.2.2) (hn.2.1.behind hn.2.2)
  | lhs _ ih => exact part (ih hn.2.1) hn.2.1
  | rhs _ ih => exact part (ih hn.2.2) (hn.2.1.behind hn.2.2)
  | ann _ ih => exact part (ih hn.2) hn.2

theorem zip_append_drop (xs ys : List Name) (doms : List Ty) :
    (xs ++ ys).zip doms = xs.zip doms ++ ys.zip (doms.drop xs.length) := by
  induction xs generalizing doms with
  | nil => rfl
  | cons x xs ih =>
    cases doms with
    | nil => simp
    | cons d doms => simp [ih]

theorem HoleAt.known (h : e.HoleAt sp doms B) (hn : e.Nested key lo hi) :
    B.known = (e.lambdasAround sp).1.zip doms := by
  have part {B : Binders} {xs : List Name} (ih : B.known = xs.zip []) : B.known = [] :=
    ih.trans List.zip_nil_right
  induction h generalizing lo hi with
  | hole => rfl
  | @lam doms xs b s B body ih =>
    have hwithin := body.within hn.2
    have hcontains : b.span.contains sp = true := by
      simp [Span.contains,hwithin.source,hn.2.span.source,hwithin.start,hwithin.stop]
    rw [lambdasAround,if_pos hcontains,Binders.known_append,Binders.known_ofLambda,ih hn.2,zip_append_drop]
  | fn _ ih => exact part (ih hn.2.1)
  | arg _ ih => exact part (ih hn.2.2)
  | lhs _ ih => exact part (ih hn.2.1)
  | rhs _ ih => exact part (ih hn.2.2)
  | ann _ ih => exact part (ih hn.2)

end Expr

namespace Program

/-- The binders around a hole of an equation, outermost first: the variables of its patterns, and the binders
of the lambdas. Types are known as far as there are domains of a signature to take. -/
inductive BindersAt (p : Program) (e : Equation) (sp : Span) : Binders → Prop
  | unsigned {B : Binders} (signature : p.signature? e.name = none) (hole : e.rhs.HoleAt sp [] B) :
      BindersAt p e sp (.untyped (Pat.varsOfList e.pats) ++ B)
  | signed {t : Ty} {bs : List (Name × Ty)} {B : Binders} (signature : p.signature? e.name = some t)
      (pats : Pat.BindsAll p.types (e.pats.take t.domains.length) t.domains bs)
      (hole : e.rhs.HoleAt sp (t.domains.drop e.pats.length) B) :
      BindersAt p e sp (.typed bs ++ .untyped (Pat.varsOfList (e.pats.drop t.domains.length)) ++ B)

end Program

/-! Holes of a module. -/

theorem HoleSite.mem_of_mem_mergeAfter {h : HoleSite} {last : Span} {hs : List HoleSite}
    (hm : h ∈ mergeAfter last hs) : h ∈ hs := by
  induction hs generalizing last with
  | nil => cases hm
  | cons a hs ih =>
    rw [mergeAfter] at hm
    split at hm
    next => exact List.mem_cons_of_mem a (ih hm)
    next => exact List.mem_cons.2 ((List.mem_cons.1 hm).imp_right ih)

theorem HoleSite.mem_of_mem_merge {h : HoleSite} {hs : List HoleSite} (hm : h ∈ merge hs) : h ∈ hs := by
  cases hs with
  | nil => cases hm
  | cons a hs => exact List.mem_cons.2 ((List.mem_cons.1 hm).imp_right mem_of_mem_mergeAfter)

namespace Pat

mutual

theorem holeSite?_eq_none : ∀ {p : Pat} {n : Node}, n ∈ p.nodes → n.holeSite? = none
  | .var .., n, h => by cases List.mem_singleton.1 h; rfl
  | .wildcard _, n, h => by cases List.mem_singleton.1 h; rfl
  | .ctor c args s, n, h => by
    rcases List.mem_cons.1 h with rfl | h
    · rfl
    · exact holeSite?_eq_none_of_list h

theorem holeSite?_eq_none_of_list : ∀ {ps : List Pat} {n : Node}, n ∈ nodesOfList ps → n.holeSite? = none
  | [], n, h => by cases h
  | p :: ps, n, h => (List.mem_append.1 h).elim holeSite?_eq_none holeSite?_eq_none_of_list

end

end Pat

theorem Module.exists_equation {m : Module} {h : HoleSite} (hh : h ∈ m.holes) :
    ∃ e ∈ m.equations, ∀ doms, ∃ B, e.rhs.HoleAt h.span doms B := by
  obtain ⟨n,hn,hsite⟩ := List.mem_filterMap.1 (HoleSite.mem_of_mem_merge hh)
  obtain ⟨e,he,hn⟩ := List.mem_flatMap.1 hn
  rcases List.mem_cons.1 hn with rfl | hn
  · cases hsite
  rcases List.mem_append.1 hn with hn | hn
  · obtain ⟨q,-,hn⟩ := List.mem_flatMap.1 hn
    cases (Pat.holeSite?_eq_none hn).symm.trans hsite
  · exact ⟨e,he,Expr.exists_holeAt hn hsite⟩

namespace Program

variable {p : Program} {key : Nat} {h : HoleSite} {e : Equation}

theorem Loaded.exists_holeAt (hload : p.Loaded key) (hh : h ∈ p.holes)
    (he : p.module.enclosingEquation? h.span = some e) (doms : List Ty) : ∃ B, e.rhs.HoleAt h.span doms B := by
  obtain ⟨e',he',hholes⟩ := Module.exists_equation hh
  obtain ⟨B,hB⟩ := hholes []
  have hplaced := hload.written.placed e' he'
  have hwithin := (hB.within hplaced.rhs).mono hplaced.rhs.span.start hplaced.rhs.span.stop
  have hcontains : e'.span.contains h.span = true := by
    simp [Span.contains,hplaced.source,hwithin.source,hwithin.start,hwithin.stop]
  cases hload.eq_of_contains he' (List.mem_of_find?_eq_some he) hwithin.nonempty hcontains
    (by simpa using List.find?_some he)
  exact hholes doms

theorem signature?_isSome_of_mem {b : Name × Ty} (hb : b ∈ p.signatures) :
    (p.signature? b.1).isSome = true := by
  rw [signature?,Option.isSome_iff_ne_none]
  intro hnone
  have := List.lookup_eq_none_iff.1 hnone b hb
  simp at this

/-- What is in scope of a hole: definitions with signatures, and the binders with known types. -/
theorem Loaded.bindings_of_bindersAt (hload : p.Loaded key) (he : p.module.enclosingEquation? h.span = some e)
    {bs : List Entry} (hbs : p.bindings? e h.span = some bs) {B : Binders} (hB : p.BindersAt e h.span B) :
    ∃ outside inside, bs = outside ++ inside ∧ (∀ a ∈ outside, (p.signature? a.name).isSome = true) ∧
      inside.map (fun a => (a.name,a.ty)) = B.known ∧ ∀ a ∈ inside, a.provenance.OfPattern := by
  have hnested := (hload.written.placed e (List.mem_of_find?_eq_some he)).rhs
  have hothers : ∀ a ∈ p.others e, (p.signature? a.name).isSome = true := by
    intro a ha
    obtain ⟨b,hb,rfl⟩ := List.mem_map.1 ha
    exact signature?_isSome_of_mem (List.mem_of_mem_filter hb)
  rcases bindings?_eq_some hbs with ⟨hnone,rfl⟩ | ⟨t,es,ht,hes,rfl⟩
  · refine ⟨p.others e,[],by simp,hothers,?_,nofun⟩
    cases hB with
    | unsigned _ hole => simp [hole.known hnested]
    | signed signature => cases hnone.symm.trans signature
  · refine ⟨_,_,List.append_assoc ..,List.forall_mem_append.2 ⟨hothers,?_⟩,?_,?_⟩
    · exact List.forall_mem_singleton.2 (by rw [ht]; rfl)
    · cases hB with
      | unsigned signature => cases signature.symm.trans ht
      | signed signature pats hole =>
        cases signature.symm.trans ht
        have hpats := (bindsAll_iff hes).1 pats
        simp [hole.known hnested,hpats,Function.comp_def]
    · refine List.forall_mem_append.2 ⟨fun a ha => (mem_patternEntries hes ha).2,fun a ha => ?_⟩
      obtain ⟨b,-,rfl⟩ := List.mem_map.1 ha
      trivial

theorem Loaded.exists_bindersAt (hload : p.Loaded key) (hh : h ∈ p.holes)
    (he : p.module.enclosingEquation? h.span = some e) {bs : List Entry}
    (hbs : p.bindings? e h.span = some bs) : ∃ B, p.BindersAt e h.span B := by
  rcases bindings?_eq_some hbs with ⟨hnone,-⟩ | ⟨t,es,ht,hes,-⟩
  · obtain ⟨B,hB⟩ := hload.exists_holeAt hh he []
    exact ⟨_,.unsigned hnone hB⟩
  · obtain ⟨B,hB⟩ := hload.exists_holeAt hh he (t.domains.drop e.pats.length)
    exact ⟨_,.signed ht ((bindsAll_iff hes).2 rfl) hB⟩

end Program

namespace Program

theorem argument_of_argumentsAt {m : Module} {sp : Span} {x : Name} {q : Provenance}
    (h : (m.argumentsAt sp).lookup x = some q) : q.isLocal = true := by
  rw [Module.argumentsAt] at h
  split at h
  next => cases h
  next e _ =>
    have h : (lastOfEach (Pat.marks (.argument e.name) e.pats)).lookup x = some q := h
    obtain ⟨i,rfl,-⟩ := Pat.lastAt_of_lookup h
    rfl

end Program

theorem Provenance.OfPattern.isLocal {q : Provenance} (h : q.OfPattern) : q.isLocal = true := by
  cases q with
  | user | field => rfl
  | _ => cases h

/-- The judgement at a hole knows, for each name whose innermost binder has a known type, that binder. It does
not know a name for which there is no signature, no method and no binder with a known type. -/
theorem scope_lexical {s : Source} {p : Program} (hload : Program.load s = .ok p) {index : Nat} {r : Resolved}
    (hr : p.resolve s index = .ok r) :
    ∃ e, p.module.enclosingEquation? r.span = some e ∧ (∃ B, p.BindersAt e r.span B) ∧
      ∀ B, p.BindersAt e r.span B → ∀ x,
        (∀ t, B.Innermost x (some t) →
          ∃ a, r.judgement.hypothesis.find? x = some a ∧ a.ty = t ∧ a.provenance.isLocal = true) ∧
        (p.signature? x = none → (∀ c ∈ p.classes, ∀ m ∈ c.methods, m.1 ≠ x) → (∀ t, (x,some t) ∉ B) →
          r.judgement.hypothesis.find? x = none) := by
  have hloaded := Program.loaded_of_load hload
  obtain ⟨h,e,bs,hh,hat⟩ := Program.resolvedAt_of_resolve hr
  have hhole : h ∈ p.holes := List.mem_of_getElem? hh
  rw [hat.span]
  refine ⟨e,hat.enclosing,hloaded.exists_bindersAt hhole hat.enclosing hat.bindings,fun B hB x => ?_⟩
  obtain ⟨outside,inside,rfl,houtside,hinside,hlocal⟩ :=
    hloaded.bindings_of_bindersAt hat.enclosing hat.bindings hB
  rw [hat.hypothesis]
  refine ⟨fun t ht => ?known,fun hsig hmethods hbinders => ?unknown⟩
  case known =>
    obtain ⟨outer,inner,hknown,hx⟩ := ht.known
    obtain ⟨a,ha,hfind,hty⟩ := Hypothesis.find?_extend_innermost (h := Hypothesis.ofList outside)
      (hinside.trans hknown) hx
    rw [Hypothesis.ofList,← Hypothesis.extend_append] at hfind
    refine ⟨_,Hypothesis.find?_union_withProvenance p.methods _ hfind,hty,?_⟩
    cases hmark : (p.module.argumentsAt h.span).lookup a.name with
    | none => exact (hlocal a ha).isLocal
    | some q => exact Program.argument_of_argumentsAt hmark
  case unknown =>
    refine Option.eq_none_iff_forall_ne_some.2 fun a hfind => ?_
    obtain ⟨ha,hname⟩ := Tactic.find?_eq_some hfind
    rcases Hypothesis.mem_union_withProvenance ha with ha | ⟨b,hb,rfl⟩
    · obtain ⟨c,hc,m,hm,i,-,rfl⟩ := Program.mem_methods ha
      exact hmethods c hc m hm hname
    · cases hname
      have hnone : b ∉ Hypothesis.empty.entries := List.not_mem_nil
      rcases List.mem_append.1 ((Hypothesis.mem_extend hb).resolve_left hnone) with hb | hb
      · have hknown := houtside b hb
        rw [hsig] at hknown
        cases hknown
      · have hknown : (b.name,b.ty) ∈ B.known := hinside ▸ List.mem_map_of_mem hb
        exact hbinders b.ty (Binders.mem_known.1 hknown)

/-- Nothing is known of the type of a binder further inside, and it hides nothing. -/
example : Program.bindings? { module := ⟨[]⟩, signatures := [("f",.arrow (.const "A") (.const "B"))] }
    ⟨"f",[.var "x" ⟨0,32,33⟩],.app (.var "g" ⟨0,36,37⟩) (.lam ["x"] (.hole "_" ⟨0,45,46⟩) ⟨0,39,46⟩) ⟨0,36,47⟩,
      ⟨0,30,47⟩⟩ ⟨0,45,46⟩ =
    some [⟨"f",.arrow (.const "A") (.const "B"),.recursive⟩,⟨"x",.const "A",.user⟩] := rfl

def Equation.hiding : Equation :=
  ⟨"f",[.var "x" ⟨0,32,33⟩],.lam ["x"] (.hole "_" ⟨0,42,43⟩) ⟨0,36,43⟩,⟨0,30,43⟩⟩

def Source.hiding : Source := ⟨0,"hiding","type A\ntype B\nf : A -> B -> B\nf x = \\x -> _\n"⟩

def Program.hiding : Program where
  module := ⟨[.primitive "A",.primitive "B",
    .signature "f" (.arrow (.const "A") (.arrow (.const "B") (.const "B"))),.equation .hiding]⟩
  types := { primitives := ["A","B"] }
  signatures := [("f",.arrow (.const "A") (.arrow (.const "B") (.const "B")))]

theorem Source.tokens_hiding : Source.hiding.tokens =
    ([⟨.keyword,"type",0,4,true⟩,⟨.ident,"A",5,6,false⟩,⟨.keyword,"type",7,11,true⟩,
      ⟨.ident,"B",12,13,false⟩,⟨.ident,"f",14,15,true⟩,⟨.symbol,":",16,17,false⟩,⟨.ident,"A",18,19,false⟩,
      ⟨.symbol,"->",20,22,false⟩,⟨.ident,"B",23,24,false⟩,⟨.symbol,"->",25,27,false⟩,
      ⟨.ident,"B",28,29,false⟩,⟨.ident,"f",30,31,true⟩,⟨.ident,"x",32,33,false⟩,⟨.symbol,"=",34,35,false⟩,
      ⟨.symbol,"\\",36,37,false⟩,⟨.ident,"x",37,38,false⟩,⟨.symbol,"->",39,41,false⟩,
      ⟨.ident,"_",42,43,false⟩],.complete) := by
  decide +kernel

theorem Program.load_hiding : Program.load .hiding = .ok .hiding := by
  rw [load,Parser.runOn,Source.tokens_hiding]
  rfl

theorem scope_lexical_hiding :
    ∃ r, Program.load .hiding = .ok .hiding ∧ Program.hiding.resolve .hiding 0 = .ok r ∧
      Program.hiding.BindersAt .hiding r.span [("x",some (.const "A")),("x",some (.const "B"))] ∧
      ∃ a, r.judgement.hypothesis.find? "x" = some a ∧ a.ty = .const "B" ∧ a.provenance.isLocal = true := by
  obtain ⟨r,hr,hspan⟩ : ∃ r, Program.hiding.resolve .hiding 0 = .ok r ∧ r.span = ⟨0,42,43⟩ := ⟨_,rfl,rfl⟩
  have hbinders : Program.hiding.BindersAt .hiding r.span [("x",some (.const "A")),("x",some (.const "B"))] := by
    have hhole : Equation.hiding.rhs.HoleAt ⟨0,42,43⟩ [.const "B"] (Binders.ofLambda ["x"] [.const "B"] ++ []) :=
      .lam .hole
    have hpats : Pat.BindsAll Program.hiding.types Equation.hiding.pats [.const "A",.const "B"]
      ([("x",.const "A")] ++ []) := .cons .var .nil
    rw [hspan]
    exact Program.BindersAt.signed (e := .hiding) (t := .arrow (.const "A") (.arrow (.const "B") (.const "B")))
      rfl hpats hhole
  obtain ⟨e,he,-,hscope⟩ := scope_lexical Program.load_hiding hr
  rw [hspan] at he
  have hequation : Program.hiding.module.enclosingEquation? ⟨0,42,43⟩ = some .hiding := rfl
  cases hequation.symm.trans he
  exact ⟨r,Program.load_hiding,hr,hbinders,
    (hscope _ hbinders "x").1 _ ⟨[("x",some (.const "A"))],[],rfl,by simp⟩⟩

end TypedHole
