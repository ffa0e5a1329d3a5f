import TypedHole.Proofs.HoleListing
import TypedHole.Proofs.LexicalScope

/-! How a hole fits the signature of its equation.
An equation takes arguments by its patterns and by the lambdas at the head of its right-hand side. Where these
lambdas stand around nothing but a hole, goal, bindings and provenances at the hole are found in three different
ways. Main statement: all three count the arguments alike, so that the domains of the signature that the arguments
use up and the goal make up the signature again (`resolve_fits`). -/
namespace TypedHole

theorem Ty.arrows_append (ds ds' : List Ty) (t : Ty) : arrows (ds ++ ds') t = arrows ds (arrows ds' t) :=
  List.foldr_append

theorem Program.arrows_resultAfter (t : Ty) (n : Nat) : .arrows (t.domains.take n) (resultAfter t n) = t := by
  rw [resultAfter,← Ty.arrows_append,List.take_append_drop,Ty.arrows_domains_result]

theorem exists_zip_eq_append {α β : Type} {xs : List α} {ys : List β} {i : Nat} {x : α} {y : β}
    (hx : xs[i]? = some x) (hy : ys[i]? = some y) :
    ∃ before after, xs.zip ys = before ++ (x,y) :: after ∧ ∀ b ∈ after, b.1 ∈ xs.drop (i + 1) := by
  induction xs generalizing ys i with
  | nil => cases hx
  | cons x' xs ih =>
    cases ys with
    | nil => cases hy
    | cons y' ys =>
      cases i with
      | zero =>
        cases hx
        cases hy
        exact ⟨[],xs.zip ys,rfl,fun b hb => (List.of_mem_zip hb).1⟩
      | succ i =>
        obtain ⟨before,after,hzip,hafter⟩ := ih hx hy
        exact ⟨(x',y') :: before,after,congrArg ((x',y') :: ·) hzip,hafter⟩

namespace Pat

mutual

theorem Binds.names {types : TypeTable} : ∀ {p : Pat} {t : Ty} {bs : List (Name × Ty)},
    Binds types p t bs → bs.map (·.1) = p.vars
  | _, _, _, .var => rfl
  | _, _, _, .wildcard => rfl
  | _, _, _, .ctor _ _ _ fields => fields.names

theorem BindsAll.names {types : TypeTable} : ∀ {ps : List Pat} {ts : List Ty} {bs : List (Name × Ty)},
    BindsAll types ps ts bs → bs.map (·.1) = varsOfList ps
  | _, _, _, .nil => rfl
  | _, _, _, .cons first rest => by rw [List.map_append,first.names,rest.names,varsOfList]

end

theorem BindsAll.split {types : TypeTable} {ps : List Pat} {ts : List Ty} {bs : List (Name × Ty)}
    (h : BindsAll types ps ts bs) {i : Nat} {q : Pat} {t : Ty} (hq : ps[i]? = some q) (ht : ts[i]? = some t) :
    ∃ before own after, bs = before ++ own ++ after ∧ Binds types q t own ∧
      after.map (·.1) = varsOfList (ps.drop (i + 1)) := by
  induction ps generalizing ts bs i with
  | nil => cases hq
  | cons p ps ih =>
    cases h with
    | @cons _ _ t _ own after first rest =>
      cases i with
      | zero =>
        cases hq
        cases ht
        exact ⟨[],own,after,rfl,first,rest.names⟩
      | succ i =>
        obtain ⟨before,own',after,rfl,hown,hafter⟩ := ih rest hq ht
        exact ⟨own ++ before,own',after,by simp only [List.append_assoc],hown,hafter⟩

/-- The types of what one of several patterns binds are right if those of all binders are, among them others further
inside. -/
theorem BindsAll.field {types : TypeTable} {ps : List Pat} {ts : List Ty} {vars rest : List (Name × Ty)}
    (h : BindsAll types ps ts vars) (hl : ps.length ≤ ts.length) {K : Name → Ty → Prop}
    (hK : ∀ outer x u inner, vars ++ rest = outer ++ (x,u) :: inner → x ∉ inner.map (·.1) → K x u) {i : Nat}
    {q : Pat} (hq : ps[i]? = some q) :
    ∃ d bs, ts[i]? = some d ∧ q.Binds types d bs ∧
      ∀ outer x u inner, bs = outer ++ (x,u) :: inner → x ∉ inner.map (·.1) →
        x ∉ varsOfList (ps.drop (i + 1)) → x ∉ rest.map (·.1) → K x u := by
  have hi := Nat.lt_of_lt_of_le (List.getElem?_eq_some_iff.1 hq).1 hl
  have hd : ts[i]? = some ts[i] := List.getElem?_eq_getElem hi
  obtain ⟨before,own,after,rfl,hown,hafter⟩ := h.split hq hd
  refine ⟨_,own,hd,hown,fun outer x u inner howns hinner hlater hrest => ?_⟩
  refine hK (before ++ outer) x u (inner ++ after ++ rest) (by simp [howns]) fun hmem => ?_
  simp only [List.map_append,List.mem_append,hafter] at hmem
  rcases hmem with (hmem | hmem) | hmem
  · exact hinner hmem
  · exact hlater hmem
  · exact hrest hmem

theorem BindsAll.variable {types : TypeTable} {ps : List Pat} {ts : List Ty} {vars rest : List (Name × Ty)}
    (h : BindsAll types ps ts vars) (hl : ps.length ≤ ts.length) {K : Name → Ty → Prop}
    (hK : ∀ outer x u inner, vars ++ rest = outer ++ (x,u) :: inner → x ∉ inner.map (·.1) → K x u) {i : Nat}
    {x : Name} {s : Span} (hq : ps[i]? = some (.var x s)) (hlater : x ∉ varsOfList (ps.drop (i + 1)))
    (hrest : x ∉ rest.map (·.1)) : ∃ d, ts[i]? = some d ∧ K x d := by
  obtain ⟨d,bs,hd,hbs,hknown⟩ := h.field hl hK hq
  cases hbs
  exact ⟨d,hd,hknown [] x d [] rfl List.not_mem_nil hlater hrest⟩

theorem not_mem_later {ps : List Pat} {x : Name} {i : Nat}
    (only : ∀ k q, k ≠ i → ps[k]? = some q → x ∉ q.vars) : x ∉ varsOfList (ps.drop (i + 1)) := by
  intro hx
  obtain ⟨q,hmem,hx⟩ := mem_varsOfList.1 hx
  obtain ⟨k,hk⟩ := List.getElem?_of_mem hmem
  rw [List.getElem?_drop] at hk
  exact only _ q (by omega) hk hx

end Pat

namespace Expr

/-- Lambdas around nothing but a hole, with all their binders, outermost first. -/
inductive LambdasOver (sp : Span) : List Name → Expr → Prop
  | hole {x : Name} : LambdasOver sp [] (.hole x sp)
  | lam {xs ys : List Name} {b : Expr} {s : Span} (body : LambdasOver sp ys b) :
      LambdasOver sp (xs ++ ys) (.lam xs b s)

variable {sp : Span} {ys : List Name} {e : Expr} {key lo hi : Nat}

theorem LambdasOver.mem_nodes (h : e.LambdasOver sp ys) : ∃ x, .expr (.hole x sp) ∈ e.nodes := by
  induction h with
  | hole => exact ⟨_,List.mem_singleton_self _⟩
  | lam _ ih => exact ih.imp fun _ hx => List.mem_cons_of_mem _ hx

theorem LambdasOver.holeAt (h : e.LambdasOver sp ys) (doms : List Ty) : ∃ B, e.HoleAt sp doms B := by
  induction h generalizing doms with
  | hole => exact ⟨[],.hole⟩
  | lam _ ih => exact (ih _).elim fun _ hB => ⟨_,.lam hB⟩

theorem LambdasOver.lambdasAround (h : e.LambdasOver sp ys) (hn : e.Nested key lo hi) :
    ∃ x, e.lambdasAround sp = (ys,.hole x sp) := by
  induction h generalizing lo hi with
  | hole => exact ⟨_,rfl⟩
  | lam body ih =>
    obtain ⟨x,hx⟩ := ih hn.2
    obtain ⟨B,hB⟩ := body.holeAt []
    have hwithin := hB.within hn.2
    rw [← hn.2.span.source] at hwithin
    exact ⟨x,by rw [Expr.lambdasAround,if_pos hwithin.contains,hx]⟩

end Expr

/-- What a judgement at a hole has to do with the signature of an equation that takes arguments by its patterns
and by further binders. -/
structure Judgement.FitsSignature (j : Judgement) (types : TypeTable) (e : Equation) (ys : List Name) (t : Ty) :
    Prop where
  few : e.pats.length + ys.length ≤ t.domains.length
  goal : .arrows (t.domains.take (e.pats.length + ys.length)) j.goal = t
  pattern : ∀ i x s, e.pats[i]? = some (.var x s) → x ∉ Pat.varsOfList (e.pats.drop (i + 1)) → x ∉ ys →
    ∃ a, j.hypothesis.find? x = some a ∧ t.domains[i]? = some a.ty
  binder : ∀ i x, ys[i]? = some x → x ∉ ys.drop (i + 1) →
    ∃ a, j.hypothesis.find? x = some a ∧ t.domains[e.pats.length + i]? = some a.ty
  field : ∀ i q, e.pats[i]? = some q → ∃ d bs, t.domains[i]? = some d ∧ q.Binds types d bs ∧
    ∀ outer x u inner, bs = outer ++ (x,u) :: inner → x ∉ inner.map (·.1) →
      x ∉ Pat.varsOfList (e.pats.drop (i + 1)) → x ∉ ys →
        ∃ a, j.hypothesis.find? x = some a ∧ a.ty = u
  argument : ys = [] → ∀ i x s, e.pats[i]? = some (.var x s) →
    (∀ k q, k ≠ i → e.pats[k]? = some q → x ∉ q.vars) →
      ∃ d, t.domains[i]? = some d ∧ j.hypothesis.find? x = some ⟨x,d,.argument e.name i⟩

namespace Program

variable {key : Nat} {p : Program} {pre post : List Decl} {e : Equation} {t : Ty} {sp : Span} {ys : List Name}

theorem Loaded.goal_of_lambdasOver (h : p.Loaded key) (he : e ∈ p.module.equations)
    (ht : p.signature? e.name = some t) (hl : e.pats.length ≤ t.domains.length)
    (hrhs : e.rhs.LambdasOver sp ys) {goal : Ty} (hg : p.goal? ⟨sp,none⟩ = some goal) :
    goal = resultAfter t (e.pats.length + ys.length) ∧ e.pats.length + ys.length ≤ t.domains.length ∧
      (ys = [] → ∃ x, e.rhs = .hole x sp) := by
  obtain ⟨x,hx⟩ := hrhs.mem_nodes
  obtain ⟨htop,hnottop⟩ := h.written.topHoleEquation?_of_mem_rhs he hx
  have henclosing := h.written.enclosingEquation?_of_mem_rhs he hx
  obtain ⟨y,hy⟩ := hrhs.lambdasAround (h.written.placed e he).rhs
  by_cases htoplevel : e.rhs = .hole x sp
  · rw [htoplevel] at hy
    cases hy
    simp only [goal?,htop htoplevel,ht,Option.map_some,Option.some.injEq] at hg
    exact ⟨hg.symm,hl,fun _ => ⟨x,htoplevel⟩⟩
  · simp only [goal?,hnottop htoplevel,henclosing,hy,ht] at hg
    split at hg
    next hbound =>
      cases hg
      exact ⟨rfl,hbound.2.2,fun hnil => absurd hnil hbound.2.1⟩
    next => cases hg

/-- What a judgement at a hole knows under a name: an entry of a type, marked as an argument where it is one. -/
def Knows (p : Program) (sp : Span) (j : Judgement) (x : Name) (u : Ty) : Prop :=
  ∃ a, j.hypothesis.find? x = some a ∧ a.ty = u ∧
    ∀ q, (p.module.argumentsAt sp).lookup x = some q → a.provenance = q

/-- The innermost of the binders of a name is what the judgement knows under it. -/
theorem Loaded.knows_of_lambdasOver (h : p.Loaded key) (he : e ∈ p.module.equations)
    (ht : p.signature? e.name = some t) (hl : e.pats.length ≤ t.domains.length) (hrhs : e.rhs.LambdasOver sp ys)
    {bs : List Entry} {r : Resolved} (hat : p.ResolvedAt ⟨sp,none⟩ e bs r) :
    ∃ vars, Pat.BindsAll p.types e.pats t.domains vars ∧
      ∀ outer x u inner, vars ++ ys.zip (t.domains.drop e.pats.length) = outer ++ (x,u) :: inner →
        x ∉ inner.map (·.1) → p.Knows sp r.judgement x u := by
  obtain ⟨y,hy⟩ := hrhs.lambdasAround (h.written.placed e he).rhs
  rcases bindings?_eq_some hat.bindings with ⟨hnone,-⟩ | ⟨u,es,hu,hes,rfl⟩
  · cases hnone.symm.trans ht
  cases hu.symm.trans ht
  have hpats := (bindsAll_iff hes).2 rfl
  rw [List.take_of_length_le hl] at hpats
  refine ⟨_,hpats,fun outer x u inner hbinders hx => ?_⟩
  have hentries : (es ++ (ys.zip (t.domains.drop e.pats.length)).map
      fun (x,u) => (⟨x,u,.user⟩ : Entry)).map (fun a : Entry => (a.name,a.ty)) = outer ++ (x,u) :: inner := by
    simpa [Function.comp_def] using hbinders
  obtain ⟨b,-,hfind,hty⟩ := Hypothesis.find?_extend_innermost (h := Hypothesis.ofList
    (p.others e ++ [⟨e.name,t,.recursive⟩])) hentries hx
  rw [Hypothesis.ofList,← Hypothesis.extend_append,← List.append_assoc] at hfind
  have hfound := Hypothesis.find?_union_withProvenance p.methods (p.module.argumentsAt sp) hfind
  rw [Knows,hat.hypothesis,hy]
  refine ⟨_,hfound,hty,fun q hq => ?_⟩
  rw [(Tactic.find?_eq_some hfind).2,hq]
  rfl

theorem Loaded.lookup_argumentsAt (h : p.Loaded key) (he : e ∈ p.module.equations) {z : Name}
    (hrhs : e.rhs = .hole z sp) {i : Nat} {x : Name} {s : Span} (hq : e.pats[i]? = some (.var x s))
    (only : ∀ k q, k ≠ i → e.pats[k]? = some q → x ∉ q.vars) :
    (p.module.argumentsAt sp).lookup x = some (.argument e.name i) := by
  rw [h.argumentsAt he hrhs]
  obtain ⟨q,hlookup⟩ := Option.isSome_iff_exists.1 (lookup_lastOfEach_isSome
    (Pat.mem_marks (Provenance.argument e.name) (List.mem_of_getElem? hq)))
  obtain ⟨k,rfl,⟨s',hk⟩,-⟩ := Pat.lastAt_of_lookup hlookup
  have hposition : k = i := Decidable.byContradiction fun hne =>
    only k _ hne hk (List.mem_singleton_self x)
  rw [hlookup,hposition]

end Program

/-- At a hole without a type of its own that stands, possibly under lambdas, for the whole right-hand side of an
equation, the domains of the signature for patterns and binders and the goal make up the signature. What the
patterns and binders bind has the types that belong to these domains, and where there are no lambdas a variable
that is a pattern on its own is known as the argument that it is. -/
theorem resolve_fits {s : Source} {p : Program} (hload : Program.load s = .ok p) {pre post : List Decl}
    {e : Equation} {t : Ty} (hdecls : p.module.decls = pre ++ .equation e :: post)
    (hsig : .signature e.name t ∈ pre) {index : Nat} {sp : Span} {ys : List Name}
    (hsite : p.holes[index]? = some ⟨sp,none⟩) (hrhs : e.rhs.LambdasOver sp ys) {r : Resolved}
    (hr : p.resolve s index = .ok r) : r.judgement.FitsSignature p.types e ys t := by
  have hloaded := Program.loaded_of_load hload
  have he : e ∈ p.module.equations := by simp [Module.equations,hdecls]
  obtain ⟨ht,hl⟩ := hloaded.checked pre post e t hdecls hsig
  obtain ⟨x,hx⟩ := hrhs.mem_nodes
  obtain ⟨site,e',bs,hsite',hat⟩ := Program.resolvedAt_of_resolve hr
  cases hsite'.symm.trans hsite
  cases hat.enclosing.symm.trans (hloaded.written.enclosingEquation?_of_mem_rhs he hx)
  obtain ⟨hgoal,hfew,hhole⟩ := hloaded.goal_of_lambdasOver he ht hl hrhs hat.goal
  obtain ⟨vars,hvars,hknows⟩ := hloaded.knows_of_lambdasOver he ht hl hrhs hat
  have hbinders : ∀ x, x ∉ ys → x ∉ (ys.zip (t.domains.drop e.pats.length)).map (·.1) := fun x hx hmem => by
    obtain ⟨b,hb,rfl⟩ := List.mem_map.1 hmem
    exact hx (List.of_mem_zip hb).1
  refine ⟨hfew,hgoal ▸ Program.arrows_resultAfter t _,fun i x s hq hlater hbinder => ?pattern,
    fun i x hy hlater => ?binder,fun i q hq => ?field,fun hnil i x s hq only => ?argument⟩
  case pattern =>
    obtain ⟨d,hd,a,ha,rfl,-⟩ := hvars.variable hl hknows hq hlater (hbinders x hbinder)
    exact ⟨a,ha,hd⟩
  case binder =>
    have hi := (List.getElem?_eq_some_iff.1 hy).1
    have hd : t.domains[e.pats.length + i]? = some t.domains[e.pats.length + i] := List.getElem?_eq_getElem _
    have hdrop := List.getElem?_drop.trans hd
    obtain ⟨before,after,hzip,hafter⟩ := exists_zip_eq_append hy hdrop
    obtain ⟨a,ha,hu,-⟩ := hknows (vars ++ before) x _ after (by rw [hzip,List.append_assoc]) fun hmem => by
      obtain ⟨b,hb,rfl⟩ := List.mem_map.1 hmem
      exact hlater (hafter b hb)
    exact ⟨a,ha,hu ▸ hd⟩
  case field =>
    obtain ⟨d,bs,hd,hbs,hknown⟩ := hvars.field hl hknows hq
    refine ⟨d,bs,hd,hbs,fun outer x u inner howns hinner hlater hbinder => ?_⟩
    obtain ⟨a,ha,hu,-⟩ := hknown outer x u inner howns hinner hlater (hbinders x hbinder)
    exact ⟨a,ha,hu⟩
  case argument =>
    obtain ⟨z,hz⟩ := hhole hnil
    obtain ⟨d,hd,⟨y,u,pr⟩,ha,rfl,hmark⟩ := hvars.variable hl hknows hq (Pat.not_mem_later only)
      (hbinders x (by simp [hnil]))
    cases hmark _ (hloaded.lookup_argumentsAt he hz hq only)
    cases (Tactic.find?_eq_some ha).2
    exact ⟨u,hd,ha⟩

def Equation.picking : Equation :=
  ⟨"g",[.ctor "S" [.var "n" ⟨0,50,51⟩] ⟨0,47,52⟩,.var "x" ⟨0,53,54⟩],.lam ["k"] (.hole "_" ⟨0,63,64⟩) ⟨0,57,64⟩,
    ⟨0,45,64⟩⟩

def Equation.counting : Equation := ⟨"h",[.var "x" ⟨0,78,79⟩],.hole "_" ⟨0,82,83⟩,⟨0,76,83⟩⟩

def Source.picking : Source :=
  ⟨0,"picking","type A\ndata N = Z | S N\ng : N -> A -> A -> N\ng (S n) x = \\k -> _\nh : A -> N\nh x = _\n"⟩

def Program.picking : Program where
  module := ⟨[.primitive "A",.datatype ⟨"N",[],[⟨"Z",[]⟩,⟨"S",[.const "N"]⟩]⟩,
    .signature "g" (.arrow (.const "N") (.arrow (.const "A") (.arrow (.const "A") (.const "N")))),
    .equation .picking,.signature "h" (.arrow (.const "A") (.const "N")),.equation .counting]⟩
  types := { primitives := ["A"], datatypes := [⟨"N",[],[⟨"Z",[]⟩,⟨"S",[.const "N"]⟩]⟩] }
  signatures := [("g",.arrow (.const "N") (.arrow (.const "A") (.arrow (.const "A") (.const "N")))),
    ("h",.arrow (.const "A") (.const "N"))]

theorem Source.tokens_picking : Source.picking.tokens =
    ([⟨.keyword,"type",0,4,true⟩,⟨.ident,"A",5,6,false⟩,⟨.keyword,"data",7,11,true⟩,⟨.ident,"N",12,13,false⟩,
      ⟨.symbol,"=",14,15,false⟩,⟨.ident,"Z",16,17,false⟩,⟨.symbol,"|",18,19,false⟩,⟨.ident,"S",20,21,false⟩,
      ⟨.ident,"N",22,23,false⟩,⟨.ident,"g",24,25,true⟩,⟨.symbol,":",26,27,false⟩,⟨.ident,"N",28,29,false⟩,
      ⟨.symbol,"->",30,32,false⟩,⟨.ident,"A",33,34,false⟩,⟨.symbol,"->",35,37,false⟩,⟨.ident,"A",38,39,false⟩,
      ⟨.symbol,"->",40,42,false⟩,⟨.ident,"N",43,44,false⟩,⟨.ident,"g",45,46,true⟩,⟨.symbol,"(",47,48,false⟩,
      ⟨.ident,"S",48,49,false⟩,⟨.ident,"n",50,51,false⟩,⟨.symbol,")",51,52,false⟩,⟨.ident,"x",53,54,false⟩,
      ⟨.symbol,"=",55,56,false⟩,⟨.symbol,"\\",57,58,false⟩,⟨.ident,"k",58,59,false⟩,⟨.symbol,"->",60,62,false⟩,
      ⟨.ident,"_",63,64,false⟩,⟨.ident,"h",65,66,true⟩,⟨.symbol,":",67,68,false⟩,⟨.ident,"A",69,70,false⟩,
      ⟨.symbol,"->",71,73,false⟩,⟨.ident,"N",74,75,false⟩,⟨.ident,"h",76,77,true⟩,⟨.ident,"x",78,79,false⟩,
      ⟨.symbol,"=",80,81,false⟩,⟨.ident,"_",82,83,false⟩],.complete) := by
  decide +kernel

theorem Program.load_picking : Program.load .picking = .ok .picking := by
  rw [load,Parser.runOn,Source.tokens_picking]
  rfl

theorem resolve_fits_picking :
    ∃ r r', Program.load .picking = .ok .picking ∧ Program.picking.resolve .picking 0 = .ok r ∧
      Program.picking.resolve .picking 1 = .ok r' ∧ r.judgement.goal = .const "N" ∧
      (∃ a, r.judgement.hypothesis.find? "k" = some a ∧ some (.const "A") = some a.ty) ∧
      (∃ a, r.judgement.hypothesis.find? "n" = some a ∧ a.ty = .const "N") ∧
      r'.judgement.hypothesis.find? "x" = some ⟨"x",.const "A",.argument "h" 0⟩ := by
  obtain ⟨r,hr,hgoal⟩ : ∃ r, Program.picking.resolve .picking 0 = .ok r ∧ r.judgement.goal = .const "N" :=
    ⟨_,rfl,rfl⟩
  obtain ⟨r',hr'⟩ : ∃ r, Program.picking.resolve .picking 1 = .ok r := ⟨_,rfl⟩
  have hdecls : Program.picking.module.decls = [.primitive "A",.datatype ⟨"N",[],[⟨"Z",[]⟩,⟨"S",[.const "N"]⟩]⟩,
      .signature "g" (.arrow (.const "N") (.arrow (.const "A") (.arrow (.const "A") (.const "N"))))] ++
    .equation .picking :: [.signature "h" (.arrow (.const "A") (.const "N")),.equation .counting] := rfl
  have hdecls' : Program.picking.module.decls =
    (Program.picking.module.decls.take 5) ++ .equation .counting :: [] := rfl
  have hlambda : Equation.picking.rhs.LambdasOver ⟨0,63,64⟩ (["k"] ++ []) := .lam .hole
  have hfits := resolve_fits (t := .arrow (.const "N") (.arrow (.const "A") (.arrow (.const "A") (.const "N"))))
    Program.load_picking hdecls (by simp [Equation.picking]) rfl hlambda hr
  have hfits' := resolve_fits (t := .arrow (.const "A") (.const "N")) Program.load_picking hdecls'
    (by simp [Equation.counting,Program.picking]) rfl .hole hr'
  refine ⟨r,r',Program.load_picking,hr,hr',hgoal,hfits.binder 0 "k" rfl (by simp),?_,?_⟩
  · obtain ⟨d,bs,hd,hbs,hfield⟩ := hfits.field 0 _ rfl
    cases hd
    have hbinds : bs = [("n",.const "N")] := by
      cases hbs with
      | ctor ctors found length fields =>
        cases ctors
        cases found
        cases fields with
        | cons first rest =>
          cases first
          cases rest
          rfl
    exact hfield [] "n" _ [] hbinds List.not_mem_nil (by decide) (by decide)
  · obtain ⟨d,hd,hfind⟩ := hfits'.argument rfl 0 "x" _ rfl fun k q hk hq => by
      obtain ⟨k,rfl⟩ := Nat.exists_eq_succ_of_ne_zero hk
      cases hq
    cases hd
    exact hfind

end TypedHole
