import TypedHole.Proofs.Evaluation
import TypedHole.Proofs.Resolution
import TypedHole.Proofs.Soundness
import TypedHole.Proofs.SplitTerm

/-! Homomorphic fills compute the identity.
A homomorphic split takes a value apart and puts it together again, field by field or by recursive calls
that pass on all other arguments. Main statement: a function with such a right-hand side returns the value
of the parameter that is split (`homomorphism_identity`). -/
namespace TypedHole

/-- The values of a type. Nothing is asked of values whose type is not algebraic. -/
inductive Value.OfType (types : TypeTable) : Value → Ty → Prop
  | con {t : Ty} {cs : List Constructor} {c : Constructor} {vs : List Value}
      (algebraic : types.constructors? t = some cs) (ctor : c ∈ cs)
      (fields : List.Forall₂ (OfType types) vs c.fields) : OfType types (.con c.name vs) t
  | foreign {t : Ty} {v : Value} (notAlgebraic : types.constructors? t = none) : OfType types v t

def Env.Binds (env : Env) (ps : List Pat) : Prop :=
  ∀ x, (env.lookup x).isSome = true ↔ x ∈ Pat.varsOfList ps

namespace Pat

theorem LastAt.mem {ps : List Pat} {x : Name} {i : Nat} (h : LastAt ps x i) : x ∈ varsOfList ps := by
  obtain ⟨⟨s,hs⟩,-⟩ := h
  exact mem_varsOfList.2 ⟨_,List.mem_of_getElem? hs,by simp [vars]⟩

theorem LastAt.not_mem {ps : List Pat} {p : Pat} {x : Name} (hp : ∀ p ∈ ps, ∃ x s, p = .var x s)
    (h : LastAt (p :: ps) x 0) : x ∉ varsOfList ps := by
  intro hx
  obtain ⟨q,hq,hx⟩ := mem_varsOfList.1 hx
  obtain ⟨y,s,rfl⟩ := hp q hq
  cases List.mem_singleton.1 hx
  obtain ⟨k,hk⟩ := List.getElem?_of_mem hq
  exact h.2 (k + 1) s (Nat.succ_pos k) hk

theorem LastAt.of_succ {ps : List Pat} {p : Pat} {x : Name} {i : Nat} (h : LastAt (p :: ps) x (i + 1)) :
    LastAt ps x i := ⟨h.1,fun k s hk => h.2 (k + 1) s (Nat.succ_lt_succ hk)⟩

theorem LastAt.lt {ps : List Pat} {x : Name} {i : Nat} (h : LastAt ps x i) : i < ps.length := by
  obtain ⟨⟨s,hs⟩,-⟩ := h
  exact (List.getElem?_eq_some_iff.1 hs).1

theorem LastAt.unique {ps : List Pat} {x : Name} {i k : Nat} (h : LastAt ps x i) (h' : LastAt ps x k) :
    i = k := by
  obtain ⟨⟨s,hs⟩,hlater⟩ := h
  obtain ⟨⟨s',hs'⟩,hlater'⟩ := h'
  exact Nat.le_antisymm (Nat.not_lt.1 fun hlt => hlater' i s hlt hs)
    (Nat.not_lt.1 fun hlt => hlater k s' hlt hs')

theorem LastAt.name_eq {ps : List Pat} {x y : Name} {i : Nat} (h : LastAt ps x i) (h' : LastAt ps y i) :
    x = y := by
  obtain ⟨⟨s,hs⟩,-⟩ := h
  obtain ⟨⟨s',hs'⟩,-⟩ := h'
  cases hs.symm.trans hs'
  rfl

theorem matchAll?_vars {ps : List Pat} {vs : List Value} (hp : ∀ p ∈ ps, ∃ x s, p = .var x s)
    (hl : vs.length = ps.length) :
    ∃ env, matchAll? ps vs = some env ∧ env.Binds ps ∧ ∀ x i, LastAt ps x i → env.lookup x = vs[i]? := by
  induction ps generalizing vs with
  | nil =>
    cases List.length_eq_zero_iff.1 hl
    exact ⟨[],rfl,fun x => by simp [varsOfList],fun x i h => by simp [LastAt] at h⟩
  | cons p ps ih =>
    obtain ⟨x,s,rfl⟩ := hp p List.mem_cons_self
    obtain ⟨v,vs,rfl⟩ := List.exists_cons_of_length_eq_add_one hl
    have hp' : ∀ p ∈ ps, ∃ x s, p = .var x s := fun q hq => hp q (List.mem_cons_of_mem _ hq)
    have hl' : vs.length = ps.length := Nat.succ.inj hl
    obtain ⟨env,hm,hb,hlook⟩ := ih hp' hl'
    have hlast (y : Name) :
        (env ++ [(x,v)]).lookup y = (env.lookup y).or (if y = x then some v else none) := by
      rw [List.lookup_append,List.lookup_cons,List.lookup_nil]
      by_cases hy : y = x <;> simp [hy,beq_eq_false_iff_ne.2]
    refine ⟨env ++ [(x,v)],?_,fun y => ?_,fun y i hy => ?_⟩
    · simp [matchAll?,match?,hm]
    · rw [hlast,Option.isSome_or,Bool.or_eq_true,hb y,varsOfList,vars]
      by_cases hy : y = x <;> simp [hy]
    · rw [hlast]
      cases i with
      | zero =>
        have hnone : env.lookup y = none := by
          rw [← Option.not_isSome_iff_eq_none,hb y]
          exact hy.not_mem hp'
        obtain ⟨⟨s',hs⟩,-⟩ := hy
        cases hs
        simp [hnone]
      | succ i =>
        have hlt : i < vs.length := hl' ▸ hy.of_succ.lt
        rw [hlook y i hy.of_succ,List.getElem?_cons_succ,List.getElem?_eq_getElem hlt]
        rfl

end Pat

/-! A branch knows its equation. -/

namespace Judgement.Knows

variable {j : Judgement} {e : Equation} {t goal : Ty} {x y : Name} {sp : Span} {c : Constructor}

open TypedHole.Tactic

theorem find?_parameter (hk : j.Knows e t) (hx : .var x sp ∈ e.pats) :
    ∃ a i, j.hypothesis.find? x = some a ∧ a.provenance = .argument e.name i ∧ Pat.LastAt e.pats x i := by
  obtain ⟨a,i,ha,hp⟩ := hk.parameter x sp hx
  have hname : a.name = x := by simpa using List.find?_some ha
  exact ⟨a,i,ha,hp,hname ▸ hk.argument a (List.mem_of_find?_eq_some ha) i hp⟩

/-- A call from a branch passes a field for the parameter that is split, and each other parameter as it is. -/
theorem recursiveCall (hk : j.Knows e t) (hx : .var x sp ∈ e.pats) {ty : Ty} {u : Term}
    (h : recursiveCall? (branch j (some x) goal c).judgement (some x) y ty = some u) :
    e.name ∉ Pat.varsOfList e.pats ∧ e.name ∉ (branch j (some x) goal c).binders ∧
      ∃ args, u = (Term.var e.name).apply args ∧ args.length = e.pats.length ∧
        ∀ i u, args[i]? = some u → ∃ z, Pat.LastAt e.pats z i ∧
          u = .var (if z = x then y else z) ∧ z ∉ (branch j (some x) goal c).binders := by
  obtain ⟨r,k,args,rfl,hcall⟩ := recursiveCall?_eq_some h
  -- only the definition itself is marked as recursive
  obtain ⟨hrmem,hrp⟩ := findProvenance?_branch (by simp) hcall.entry
  obtain ⟨hrn,hrt,hvar⟩ := hk.recursive r hrmem hrp
  -- the call takes the field where the equation takes the parameter
  obtain ⟨a,i,ha,hp,hlast⟩ := hk.find?_parameter hx
  have hik : i = k := by
    have hpos := hcall.target
    obtain ⟨name,type,provenance⟩ := a
    cases hp
    simp only [recursionPosition?,Option.bind_some,find?_branch ha,if_pos hrn.symm] at hpos
    exact Option.some.inj hpos
  subst hik
  have hpass : ∀ k u, args[k]? = some u → ∃ z, Pat.LastAt e.pats z k ∧
      u = .var (if z = x then y else z) ∧ z ∉ (branch j (some x) goal c).binders := by
    intro k u hu
    by_cases he : k = i
    · have htaken := hcall.taken
      rw [← he,hu] at htaken
      have hxn : a.name = x := by simpa using List.find?_some ha
      refine ⟨x,he ▸ hlast,?_,hxn ▸ not_mem_binders (List.mem_of_find?_eq_some ha)⟩
      rw [if_pos rfl,Option.some.inj htaken]
    · obtain ⟨b,hb,-,rfl⟩ := hcall.passed k u he hu
      obtain ⟨hbmem,hbp⟩ := findProvenance?_branch (by simp) hb
      have hbl := hk.argument b hbmem k (hrn ▸ hbp)
      have hbx : b.name ≠ x := fun hbx => he ((hbx ▸ hbl).unique hlast)
      exact ⟨b.name,hbl,by rw [if_neg hbx],not_mem_binders hbmem⟩
  have hlen : args.length = t.domains.length := hrt ▸ hcall.length
  refine ⟨hvar,hrn ▸ not_mem_binders hrmem,args,by rw [hrn],Nat.le_antisymm ?_ (hlen ▸ hk.few),hpass⟩
  refine Nat.not_lt.1 fun hlt => ?_
  obtain ⟨z,hz,-⟩ := hpass _ _ (List.getElem?_eq_getElem hlt)
  exact Nat.lt_irrefl _ hz.lt

end Judgement.Knows

/-! Evaluation of what a split puts together. -/

def Equation.define (e : Equation) (body : Term) : Definition := ⟨e.name,e.pats,body⟩

namespace Env

variable {env : Env} {xs : List Name} {vs : List Value} {x : Name} {v : Value}

theorem lookup_zip_of_not_mem (h : x ∉ xs) : (xs.zip vs ++ env).lookup x = env.lookup x := by
  induction xs generalizing vs with
  | nil => rfl
  | cons y xs ih =>
    cases vs with
    | nil => rfl
    | cons v vs =>
      rw [List.mem_cons,not_or] at h
      rw [List.zip_cons_cons,List.cons_append,List.lookup_cons,beq_eq_false_iff_ne.2 h.1]
      exact ih h.2

theorem lookup_zip_of_getElem? (hn : xs.Nodup) {i : Nat} (hx : xs[i]? = some x) (hv : vs[i]? = some v) :
    (xs.zip vs ++ env).lookup x = some v := by
  induction xs generalizing vs i with
  | nil => cases hx
  | cons y xs ih =>
    obtain ⟨hy,hn⟩ := List.nodup_cons.1 hn
    cases vs with
    | nil => cases hv
    | cons w vs =>
      rw [List.zip_cons_cons,List.cons_append,List.lookup_cons]
      cases i with
      | zero =>
        cases hx
        cases hv
        simp
      | succ i =>
        have hxs : x ∈ xs := List.mem_of_getElem? hx
        have hxy : x ≠ y := fun h => hy (h ▸ hxs)
        rw [beq_eq_false_iff_ne.2 hxy]
        exact ih hn hx hv

end Env

theorem exists_forall₂_of_getElem? {α β : Type} {R : α → β → Prop} {P : Nat → β → Prop} {as : List α}
    (h : ∀ i a, as[i]? = some a → ∃ b, R a b ∧ P i b) :
    ∃ bs, List.Forall₂ R as bs ∧ ∀ i b, bs[i]? = some b → P i b := by
  induction as generalizing P with
  | nil => exact ⟨[],.nil,fun i b hb => by cases hb⟩
  | cons a as ih =>
    obtain ⟨b,hab,hb⟩ := h 0 a rfl
    obtain ⟨bs,hbs,hP⟩ := ih (P := fun i => P (i + 1)) fun i a ha => h (i + 1) a ha
    refine ⟨b :: bs,.cons hab hbs,fun i c hc => ?_⟩
    cases i with
    | zero =>
      cases hc
      exact hb
    | succ i => exact hP i c hc

section

variable {types : TypeTable} {j : Judgement} {e : Equation} {t : Ty} {x : Name} {sp : Span} {body : Term}
  {env : Env}

open TypedHole.Tactic

theorem settles_arguments (d : Definition) (types : TypeTable) (hb : env.Binds e.pats) {xs : List Name}
    {vs : List Value} {y : Name} {v : Value} (hy : (xs.zip vs ++ env).lookup y = some v) {args : List Term}
    (hargs : ∀ i u, args[i]? = some u → ∃ z, Pat.LastAt e.pats z i ∧
      u = .var (if z = x then y else z) ∧ z ∉ xs) :
    ∃ ws, List.Forall₂ (d.Settles types (xs.zip vs ++ env)) args ws ∧
      ∀ i w, ws[i]? = some w → Pat.LastAt e.pats x i → w = v := by
  refine exists_forall₂_of_getElem? fun i u hu => ?_
  obtain ⟨z,hz,rfl,hzx⟩ := hargs i u hu
  by_cases hx : z = x
  · rw [if_pos hx]
    exact ⟨v,.var hy,fun _ => rfl⟩
  · obtain ⟨w,hw⟩ := Option.isSome_iff_exists.1 ((hb z).2 hz.mem)
    rw [if_neg hx]
    exact ⟨w,.var ((Env.lookup_zip_of_not_mem hzx).trans hw),fun hxi => absurd (hz.name_eq hxi) hx⟩

/-- A field settles to its value, and so does a recursive call on it if the definition returns the value of
the parameter there. -/
theorem Tactic.Rebuilt.settles (hk : j.Knows e t) (hx : .var x sp ∈ e.pats) (hb : env.Binds e.pats)
    {goal ty : Ty} {c : Constructor} {vs : List Value} {y : Name} {u : Term} {v : Value}
    (hy : ((branch j (some x) goal c).binders.zip vs ++ env).lookup y = some v)
    (ih : ty = goal → ∀ env' : Env, env'.Binds e.pats → env'.lookup x = some v →
      (e.define body).Settles types env' body v)
    (h : Rebuilt (branch j (some x) goal c).judgement (some x) (y,ty) u) :
    (e.define body).Settles types ((branch j (some x) goal c).binders.zip vs ++ env) u v := by
  rcases h with rfl | ⟨hg,hcall⟩
  · exact .var hy
  rw [branch_goal] at hg
  obtain ⟨hvar,hnew,args,rfl,hlen,hargs⟩ := hk.recursiveCall hx hcall
  obtain ⟨ws,hws,hlast⟩ := settles_arguments (e.define body) types hb hy hargs
  -- the call passes on every parameter, so the equation takes variables only
  have hvars : ∀ p ∈ e.pats, ∃ z s, p = .var z s := by
    intro p hp
    obtain ⟨i,hi,rfl⟩ := List.getElem_of_mem hp
    obtain ⟨z,⟨⟨s,hs⟩,-⟩,-⟩ := hargs i _ (List.getElem?_eq_getElem (hlen ▸ hi))
    exact ⟨z,s,(List.getElem?_eq_some_iff.1 hs).2⟩
  obtain ⟨env',hmatch,hb',hlook⟩ := Pat.matchAll?_vars hvars (hws.length_eq.symm.trans hlen)
  obtain ⟨-,k,-,-,hk'⟩ := hk.find?_parameter hx
  have hparameter : env'.lookup x = some v := by
    have hlt : k < ws.length := hws.length_eq ▸ hlen ▸ hk'.lt
    rw [hlook x k hk',List.getElem?_eq_getElem hlt,hlast k _ (List.getElem?_eq_getElem hlt) hk']
  have hpats : e.pats ≠ [] := List.ne_nil_of_mem hx
  have hname : ((branch j (some x) goal c).binders.zip vs ++ env).lookup e.name = none := by
    rw [Env.lookup_zip_of_not_mem hnew,← Option.not_isSome_iff_eq_none,hb]
    exact hvar
  refine .apply_call (.definition hname hpats) hws ?_ ?_ hmatch (ih hg env' hb' hparameter)
  · rintro rfl
    exact hpats (List.length_eq_zero_iff.1 hlen.symm)
  · simpa [Equation.define] using hlen

theorem find?_alternative {R : Constructor → Alt Term → Prop} {cs : List Constructor} {alts : List (Alt Term)}
    (h : List.Forall₂ R cs alts) (hR : ∀ c a, R c a → a.ctor = c.name) (hn : (cs.map (·.name)).Nodup)
    {c : Constructor} (hc : c ∈ cs) : ∃ a ∈ alts, alts.find? (·.ctor == c.name) = some a ∧ R c a := by
  induction h with
  | nil => cases hc
  | @cons c' a' cs alts hca _ ih =>
    obtain ⟨hfresh,hn⟩ := List.nodup_cons.1 hn
    rcases List.mem_cons.1 hc with rfl | hc
    · exact ⟨a',List.mem_cons_self,by simp [hR c a' hca],hca⟩
    · obtain ⟨a,ha,hfind,hR'⟩ := ih hn hc
      have hne : c'.name ≠ c.name := fun he => hfresh (List.mem_map.2 ⟨c,hc,he.symm⟩)
      exact ⟨a,List.mem_cons_of_mem _ ha,by simp [hR c' a' hca,hne,hfind],hR'⟩

/-- A homomorphic split of a parameter returns its value. -/
theorem Tactic.Rebuilds.settles (hk : j.Knows e t) (hx : .var x sp ∈ e.pats) (hd : types.Distinct)
    (hcased : ∀ y ∈ Pat.varsOfList e.pats, Name.isCapitalized y = false) (howner : types.owner? e.name = none)
    {cs : List Constructor} (hcs : types.constructors? j.goal = some cs) {alts : List (Alt Term)}
    (halts : List.Forall₂ (Rebuilds j (some x) j.goal) cs alts) (hshadow : ∀ a ∈ alts, a.ctor ∉ a.binders)
    {v : Value} (hv : v.OfType types j.goal) (hb : env.Binds e.pats) (hlook : env.lookup x = some v) :
    (e.define (.case (.var x) alts)).Settles types env (.case (.var x) alts) v := by
  induction hn : sizeOf v using Nat.strongRecOn generalizing v env with
  | ind n ih =>
    subst hn
    cases hv with
    | foreign hnone => cases hnone.symm.trans hcs
    | @con _ cs' c vs halg hc hfields =>
      cases halg.symm.trans hcs
      obtain ⟨alt,halt,hfind,hctor,hbinders,args,hbody,hargs⟩ :=
        find?_alternative halts (fun c a h => h.1) (hd.nodup_names hcs) hc
      have hlen : (branch j (some x) j.goal c).binders.length = vs.length :=
        (length_binders ..).trans hfields.length_eq.symm
      have hhead : (alt.binders.zip vs ++ env).lookup c.name = none := by
        rw [Env.lookup_zip_of_not_mem (hctor ▸ hshadow alt halt),← Option.not_isSome_iff_eq_none,hb]
        intro hmem
        cases (hcased _ hmem).symm.trans (hd.capitalized_name hcs hc)
      have howned := TypeTable.owner?_of_constructors? hcs hc
      have hname : c.name ≠ e.name := by
        intro he
        rw [he,howner] at howned
        cases howned
      refine .case (.var hlook) hfind (hbinders ▸ hlen) ?_
      rw [hbody]
      refine Definition.Settles.apply_con (.ctor hhead hname howned) ?_
      rw [hbinders]
      have hzip : ((branch j (some x) j.goal c).binders.zip c.fields).length = vs.length := by
        rw [List.length_zip,length_binders,Nat.min_self,hfields.length_eq]
      refine List.forall₂_iff_get.2 ⟨hargs.length_eq.symm.trans hzip,fun i h₁ h₂ => ?_⟩
      have hi : i < (branch j (some x) j.goal c).binders.length := hlen ▸ h₂
      have hf : i < c.fields.length := hfields.length_eq ▸ h₂
      have hfield := hargs.get (hzip ▸ h₂) h₁
      simp only [List.get_eq_getElem,List.getElem_zip] at hfield ⊢
      refine Rebuilt.settles hk hx hb (Env.lookup_zip_of_getElem? (nodup_binders ..)
        (List.getElem?_eq_getElem hi) (List.getElem?_eq_getElem h₂)) (fun hg env' hb' hlook' => ?_) hfield
      have hlt : sizeOf vs[i] < sizeOf (Value.con c.name vs) := by
        have := List.sizeOf_lt_of_mem (List.getElem_mem h₂)
        rw [Value.con.sizeOf_spec]
        omega
      exact ih _ hlt (hg ▸ hfields.get h₂ hf) hb' hlook' rfl

theorem Tactic.Rebuilt.closed {scrutinee : Option Name} {field : Name × Ty} {u : Term}
    (h : Rebuilt j scrutinee field u) : u.holes = [] := by
  rcases h with rfl | ⟨-,h⟩
  · rfl
  · exact recursiveCall?_holes h

theorem Tactic.Rebuilds.closed {scrutinee : Option Name} {goal : Ty} {c : Constructor} {alt : Alt Term}
    (h : Rebuilds j scrutinee goal c alt) : alt.body.holes = [] := by
  obtain ⟨-,-,args,hbody,hargs⟩ := h
  rw [hbody,Term.holes_apply,Term.holes,List.nil_append,List.flatMap_eq_nil_iff]
  exact forall_of_forall₂ hargs fun _ _ hu => hu.closed

theorem Term.holesAlts_eq_nil {alts : List (Alt Term)} (h : ∀ a ∈ alts, a.body.holes = []) :
    holesAlts alts = [] := by
  induction alts with
  | nil => rfl
  | cons a alts ih =>
    obtain ⟨c,xs,b⟩ := a
    rw [holesAlts,h ⟨c,xs,b⟩ List.mem_cons_self,ih fun a ha => h a (List.mem_cons_of_mem _ ha)]
    rfl

end

theorem Grows.rebuilt_of_renders {ι : Type} {procs : ι → Tactic ι} {ctx : Context} {bound : Nat} {g : Goal ι}
    {a : Alternative ι} {qs : List Growth} (h : Grows procs ctx bound (a.handOut g) qs)
    (wrap : List (Alt Term) → Term) (hw : ∀ f as, (wrap as).bind f = wrap (Term.bindAlts f as))
    (hh : ∀ as, (wrap as).holes = Term.holesAlts as) {j : Judgement} {scrutinee : Option Name} {goal : Ty}
    {cs : List Constructor}
    (ha : a.refinement = some (Tactic.splitOn wrap j scrutinee goal cs (Tactic.rebuild scrutinee)))
    {d : Derivation} (hd : d.Renders (Growth.node a qs).derivation) :
    d = ⟨wrap (cs.map (Tactic.rebuiltAlt j scrutinee goal)),[]⟩ := by
  have hnode := h.rebuiltAlts wrap hw ha
  have hclosed : (wrap (cs.map (Tactic.rebuiltAlt j scrutinee goal))).holes = [] := by
    refine (hh _).trans (Term.holesAlts_eq_nil fun alt halt => ?_)
    obtain ⟨c,-,rfl⟩ := List.mem_map.1 halt
    exact (Tactic.rebuilds_rebuiltAlt j scrutinee goal c).closed
  obtain ⟨term,unsolved⟩ := d
  obtain ⟨hterm,hunsolved⟩ := hd
  rw [hnode] at hterm
  have hholes : term.holes = [] := by
    have hblank := congrArg Term.holes hterm
    simpa [hclosed] using hblank
  have hnil : unsolved = [] := by
    have hkept : List.Forall₂ Subgoal.Kept (a.subgoals g.judgement) (qs.map (·.derivation)) := h.kept
    rw [Alternative.subgoals,ha] at hkept
    have hnone : ∀ s ∈ (Tactic.splitOn (ι := ι) wrap j scrutinee goal cs (Tactic.rebuild scrutinee)).subgoals,
        ∀ u, s.Kept u → u.unsolved = [] := by
      intro s hs u hu
      obtain ⟨c,-,hs⟩ := Tactic.mem_splitOn.1 hs
      obtain ⟨x,ty,hm,rfl⟩ := Tactic.subgoal_of_rebuild hs
      obtain ⟨e,he,ht⟩ := Tactic.find?_binder hm
      rw [hu x e rfl he ht]
    have hgrown : (Growth.node a qs).derivation.unsolved = [] := List.flatMap_eq_nil_iff.2 <|
      forall_of_forall₂ ((List.forall₂_and_left _ _).2 ⟨hnone,hkept⟩) fun s u h => h.1 u h.2
    exact (hgrown ▸ hunsolved).eq_nil
  rw [← hterm,Term.blank_of_closed hholes,hnil]

/-- What a homomorphism finds is a split of its scrutinee that rebuilds all constructors. -/
theorem rebuilds_of_search {ι : Type} {procs : ι → Tactic ι} {cfg : Config} {ctx : Context} {j : Judgement}
    {x : Name} {ds : List Derivation} (h : search procs cfg ctx j (Tactic.homomorphism x) = .ok ds)
    {d : Derivation} (hd : d ∈ ds) :
    ∃ cs alts, j.hypothesis.types x = some j.goal ∧ ctx.types.constructors? j.goal = some cs ∧
      d.term = .case (.var x) alts ∧ List.Forall₂ (Tactic.Rebuilds j (some x) j.goal) cs alts := by
  obtain ⟨bound,budget,left,f,he,rfl⟩ := found_of_search h
  obtain ⟨p,hp,hrenders⟩ := grows_of_explore he hd
  cases hp with
  | @node _ as a _ qs _ outcome mem parts _ =>
    have hyields : Tactic.Yields procs ctx j (Tactic.homomorphism x) [] a := ⟨_,_,as,outcome,mem⟩
    obtain ⟨e,cs,hfind,htype,hcs,rfl⟩ := hyields.of_homomorphism
    cases parts.rebuilt_of_renders (.case (.var x)) (fun _ _ => rfl) (fun _ => rfl) rfl hrenders
    refine ⟨cs,_,?_,htype ▸ hcs,rfl,List.forall₂_map_right_iff.2 (List.forall₂_same.2 fun _ _ =>
      Tactic.rebuilds_rebuiltAlt ..)⟩
    rw [Hypothesis.types,hfind,Option.map_some,htype]

/-- A homomorphism at the right-hand side of a function makes it return the value of the parameter that is
split, whatever the other parameters are, as long as no alternative binds the name of its constructor. -/
theorem homomorphism_identity {s : Source} {p : Program} (hload : Program.load s = .ok p)
    {pre post : List Decl} {e : Equation} {t : Ty} (hdecls : p.module.decls = pre ++ .equation e :: post)
    (hsig : .signature e.name t ∈ pre) (hname : p.types.owner? e.name = none)
    {hole : Name} {sp : Span} (hrhs : e.rhs = .hole hole sp) {index : Nat} {r : Resolved}
    (hsite : p.holes[index]? = some ⟨sp,none⟩) (hr : p.resolve s index = .ok r)
    {x : Name} {place : Span} (hx : .var x place ∈ e.pats) {ι : Type} {procs : ι → Tactic ι} {cfg : Config}
    {ds : List Derivation} (h : search procs cfg r.context r.judgement (Tactic.homomorphism x) = .ok ds)
    {d : Derivation} (hd : d ∈ ds)
    (hfree : ∀ alts, d.term = .case (.var x) alts → ∀ a ∈ alts, a.ctor ∉ a.binders)
    {u : Ty} (hu : r.judgement.hypothesis.types x = some u) {v : Value} (hv : v.OfType p.types u)
    {env : Env} (hb : env.Binds e.pats) (hlook : env.lookup x = some v) :
    ∃ n, ∀ m, n ≤ m → (e.define d.term).eval p.types m env d.term = some v := by
  have hloaded := Program.loaded_of_load hload
  obtain ⟨hknows,htypes⟩ := hloaded.knows hdecls hsig hrhs hsite hr
  obtain ⟨cs,alts,hgoal,hcs,hterm,halts⟩ := rebuilds_of_search h hd
  cases hgoal.symm.trans hu
  have he : .equation e ∈ p.module.decls := by simp [hdecls]
  have hcased : ∀ y ∈ Pat.varsOfList e.pats, Name.isCapitalized y = false := hloaded.written.cased _ he
  rw [htypes] at hcs
  rw [hterm]
  exact Tactic.Rebuilds.settles hknows hx hloaded.distinct hcased hname hcs halts (hfree alts hterm) hv hb
    hlook

/-- A letter without a lowercase form gives a field the name of its constructor. -/
example : (Tactic.branch ⟨.const "ℕ",.empty,false,.empty⟩ none (.const "ℕ") ⟨"ℕ",[.const "ℕ"]⟩).binders =
    ["ℕ"] := by decide

def Source.addition : Source := ⟨0,"addition","data N = Z | S N\nadd : N -> N -> N\nadd x y = _\n"⟩

def Equation.addition : Equation :=
  ⟨"add",[.var "x" ⟨0,39,40⟩,.var "y" ⟨0,41,42⟩],.hole "_" ⟨0,45,46⟩,⟨0,35,46⟩⟩

def Program.addition : Program where
  module := ⟨[.datatype ⟨"N",[],[⟨"Z",[]⟩,⟨"S",[.const "N"]⟩]⟩,
    .signature "add" (.arrow (.const "N") (.arrow (.const "N") (.const "N"))),.equation .addition]⟩
  types := .nat
  signatures := [("add",.arrow (.const "N") (.arrow (.const "N") (.const "N")))]

theorem Source.tokens_addition : Source.addition.tokens =
    ([⟨.keyword,"data",0,4,true⟩,⟨.ident,"N",5,6,false⟩,⟨.symbol,"=",7,8,false⟩,⟨.ident,"Z",9,10,false⟩,
      ⟨.symbol,"|",11,12,false⟩,⟨.ident,"S",13,14,false⟩,⟨.ident,"N",15,16,false⟩,
      ⟨.ident,"add",17,20,true⟩,⟨.symbol,":",21,22,false⟩,⟨.ident,"N",23,24,false⟩,
      ⟨.symbol,"->",25,27,false⟩,⟨.ident,"N",28,29,false⟩,⟨.symbol,"->",30,32,false⟩,
      ⟨.ident,"N",33,34,false⟩,⟨.ident,"add",35,38,true⟩,⟨.ident,"x",39,40,false⟩,
      ⟨.ident,"y",41,42,false⟩,⟨.symbol,"=",43,44,false⟩,⟨.ident,"_",45,46,false⟩],.complete) := by
  decide +kernel

theorem Program.load_addition : Program.load .addition = .ok .addition := by
  rw [load,Parser.runOn,Source.tokens_addition]
  rfl

def Value.two : Value := .con "S" [.con "S" [.con "Z" []]]

theorem Value.ofType_two : Value.two.OfType .nat (.const "N") :=
  have hcs : TypeTable.nat.constructors? (.const "N") = some [⟨"Z",[]⟩,⟨"S",[.const "N"]⟩] := rfl
  .con hcs (c := ⟨"S",[.const "N"]⟩) (by simp)
    (.cons (.con hcs (c := ⟨"S",[.const "N"]⟩) (by simp)
      (.cons (.con hcs (c := ⟨"Z",[]⟩) (by simp) .nil) .nil)) .nil)

/-- Addition by recursion on the first number, as it is filled in, returns that number. -/
theorem homomorphism_identity_addition :
    ∃ r d, Program.load .addition = .ok .addition ∧ Program.addition.resolve .addition 0 = .ok r ∧
      search (Tactic.bodies Empty.elim) { extensions := .none } r.context r.judgement
        (Tactic.homomorphism "x") = .ok [d] ∧
      d.term = .case (.var "x") [⟨"Z",[],.var "Z"⟩,
        ⟨"S",["n"],.app (.var "S") (.app (.app (.var "add") (.var "n")) (.var "y"))⟩] ∧
      ∃ n, ∀ m, n ≤ m →
        (Equation.addition.define d.term).eval .nat m [("x",.two),("y",.foreign 0)] d.term = some .two := by
  obtain ⟨r,hr,hx,d,hsearch,hterm⟩ : ∃ r, Program.addition.resolve .addition 0 = .ok r ∧
      r.judgement.hypothesis.types "x" = some (.const "N") ∧ ∃ d,
      search (Tactic.bodies Empty.elim) { extensions := .none } r.context r.judgement
        (Tactic.homomorphism "x") = .ok [d] ∧
      d.term = .case (.var "x") [⟨"Z",[],.var "Z"⟩,
        ⟨"S",["n"],.app (.var "S") (.app (.app (.var "add") (.var "n")) (.var "y"))⟩] :=
    ⟨_,rfl,rfl,_,rfl,rfl⟩
  refine ⟨r,d,Program.load_addition,hr,hsearch,hterm,?_⟩
  have hdecls : Program.addition.module.decls =
      [.datatype ⟨"N",[],[⟨"Z",[]⟩,⟨"S",[.const "N"]⟩]⟩,
        .signature "add" (.arrow (.const "N") (.arrow (.const "N") (.const "N")))] ++
        .equation .addition :: [] := rfl
  have hbinds : Env.Binds [("x",.two),("y",.foreign 0)] Equation.addition.pats := by
    intro y
    by_cases hx : y = "x" <;> by_cases hy : y = "y" <;>
      simp [Equation.addition,Pat.varsOfList,Pat.vars,List.lookup_cons,hx,hy,beq_eq_false_iff_ne.2]
  refine homomorphism_identity Program.load_addition hdecls (List.mem_cons_of_mem _ List.mem_cons_self) rfl
    rfl rfl hr (List.mem_cons_self (a := Pat.var "x" ⟨0,39,40⟩)) hsearch (List.mem_singleton_self d) ?_ hx
    Value.ofType_two hbinds rfl
  intro alts halts
  cases hterm.symm.trans halts
  decide

end TypedHole
