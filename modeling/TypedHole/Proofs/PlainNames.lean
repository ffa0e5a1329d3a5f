import TypedHole.Proofs.JudgementFormation
import TypedHole.Run

/-! Names that mark no hole.
A name that starts with an underscore marks a hole, so no variable of a term may have such a name. Names of
constructors and variables of patterns never do, and neither do new names for values of types whose variables
do not. Main statement: where no name that is declared, no binder of a lambda around the hole and no type
variable marks a hole, no variable of a result does (`invoke_plain`). -/
namespace TypedHole

open TypedHole.Tactic (bind_eq_ok)

/-! New names. -/

theorem isHoleName_eq_false {x : Name} : isHoleName x = false ↔ x.toList.head? ≠ some '_' := by
  simp [isHoleName]

theorem isHoleName_of_isCapitalized {x : Name} (h : Name.isCapitalized x = true) : isHoleName x = false := by
  obtain ⟨c,hc,hcapital⟩ := (Option.any_eq_true ..).1 h
  refine isHoleName_eq_false.2 fun hx => ?_
  cases hc.symm.trans hx
  revert hcapital
  decide

namespace Alphabet

theorem eq_of_ofNat {n : Nat} (h : Char.ofNat n = '_') : n = '_'.toNat := by
  by_cases hn : n.isValidChar
  · have htoNat : (Char.ofNat n).toNat = n := by
      rw [Char.ofNat,dif_pos hn]
      rfl
    rw [← htoNat,h]
  · rw [Char.ofNat,dif_neg hn] at h
    cases h

/-- All lowercase forms come after the underscore. -/
theorem lt_of_mem_caseShifts : ∀ s ∈ caseShifts, '_'.toNat < s.range.first + s.distance := by decide +kernel

theorem isHoleName_lowercase {c : Char} (h : c ≠ '_') : isHoleName (lowercase c) = false := by
  rw [isHoleName_eq_false,lowercase]
  split
  next => decide
  split
  next s hs =>
    have hlt := lt_of_mem_caseShifts s (List.mem_of_find?_eq_some hs)
    have hholds : s.range.holds c = true := by simpa using List.find?_some hs
    have hfirst := ((s.range.holds_eq_true c).1 hholds).1
    intro hx
    have hchar : Char.ofNat (c.toNat + s.distance).toNat = '_' := by simpa [Char.toString] using hx
    have := eq_of_ofNat hchar
    omega
  next => simpa [Char.toString] using h

end Alphabet

namespace NameSupply

theorem isHoleName_numbered {base : Name} (h : isHoleName base = false) (n : Nat) :
    isHoleName (numbered base n) = false := by
  cases n with
  | zero => exact h
  | succ n =>
    rw [isHoleName_eq_false,numbered,String.toList_append,List.head?_append]
    intro hx
    rcases Option.or_eq_some_iff.1 hx with hx | ⟨-,hx⟩
    · exact isHoleName_eq_false.1 h hx
    · have hdigit : '_' ∈ Nat.toDigits 10 (n + 1) := by
        rw [← Nat.toList_repr]
        exact List.mem_of_mem_head? hx
      cases Nat.isDigit_of_mem_toDigits (by decide) (by decide) hdigit

theorem isHoleName_freshList {ts : List Ty} (s : NameSupply) (h : ∀ t ∈ ts, isHoleName t.suggestedName = false) :
    ∀ x ∈ (s.freshList ts).1, isHoleName x = false := by
  induction ts generalizing s with
  | nil => exact nofun
  | cons t ts ih =>
    obtain ⟨ht,hts⟩ := List.forall_mem_cons.1 h
    exact List.forall_mem_cons.2 ⟨isHoleName_numbered ht _,ih _ hts⟩

end NameSupply

structure TypeTable.Capitalized (types : TypeTable) : Prop where
  datatypes : ∀ d ∈ types.datatypes, Name.isCapitalized d.name = true
  primitives : ∀ x ∈ types.primitives, Name.isCapitalized x = true

namespace TypeTable

variable {types : TypeTable} {V : List Name}

theorem Capitalized.of_arity? (h : types.Capitalized) {x : Name} {n : Nat} (hx : types.arity? x = some n) :
    Name.isCapitalized x = true := by
  rw [arity?] at hx
  split at hx
  next d hd =>
    exact name_of_datatype? hd ▸ h.datatypes d (List.mem_of_find?_eq_some hd)
  next =>
    split at hx
    next hp => exact h.primitives x (List.contains_iff_mem.1 hp)
    next => cases hx

/-- The name suggested for a value marks no hole unless a type variable does. -/
theorem Formed.isHoleName_suggestedName (h : types.Capitalized) (hV : ∀ x ∈ V, isHoleName x = false) {t : Ty}
    (ht : types.Formed V t) : isHoleName t.suggestedName = false := by
  cases ht with
  | var mem => exact hV _ mem
  | arrow => exact show isHoleName "f" = false by decide
  | app head arity =>
    have hcapital := h.of_arity? arity
    have hplain := isHoleName_eq_false.1 (isHoleName_of_isCapitalized hcapital)
    cases t with
    | const | app =>
      simp only [Ty.suggestedName,head]
      split
      next c cs hcs => exact Alphabet.isHoleName_lowercase fun hc => hplain (by simp [hcs,hc])
      next => decide
    | _ => cases head

end TypeTable

/-! Moves. -/

def Judgement.Plain (j : Judgement) : Prop := ∀ e ∈ j.hypothesis.entries, isHoleName e.name = false

/-- Types by which no move introduces a name that marks a hole. -/
structure TypeTable.Plain (types : TypeTable) : Prop where
  fields : types.FieldsFormed
  capitalized : types.Capitalized
  distinct : types.Distinct

namespace Tactic

variable {ι : Type} {ctx : Context} {V : List Name} {j : Judgement}

theorem plain_freshList (ht : ctx.types.Plain) (hV : ∀ x ∈ V, isHoleName x = false) {ts : List Ty}
    (hts : ∀ t ∈ ts, ctx.types.Formed V t) (s : NameSupply) :
    ∀ x ∈ (s.freshList ts).1, isHoleName x = false :=
  s.isHoleName_freshList fun t h => (hts t h).isHoleName_suggestedName ht.capitalized hV

theorem plain_branch (ht : ctx.types.Plain) (hV : ∀ x ∈ V, isHoleName x = false) (hj : j.Plain)
    {c : Constructor} (hc : ∀ u ∈ c.fields, ctx.types.Formed V u) (scrutinee : Option Name) (goal : Ty) :
    (branch j scrutinee goal c).judgement.Plain := by
  intro e he
  rw [hypothesis_branch] at he
  rcases Hypothesis.mem_extend he with he | he
  · exact hj e he
  · have hname := List.mem_map_of_mem (f := (·.name)) he
    rw [fieldEntries_names] at hname
    exact plain_freshList ht hV hc _ _ hname

theorem SplitBody.plain (ht : ctx.types.Plain) (hV : ∀ x ∈ V, isHoleName x = false) (hj : j.Plain)
    {scrutinee : Option Name} {source goal : Ty} {body : Branch → Refinement (Tactic ι)}
    (fits : SplitBody scrutinee source goal body) (hsource : ctx.types.Formed V source) {cs : List Constructor}
    (hcs : ctx.types.constructors? source = some cs) {wrap : List (Alt Term) → Term} {target : Ty}
    {s : Subgoal (Tactic ι)} (hs : s ∈ (splitOn wrap j scrutinee target cs body).subgoals) :
    s.judgement.Plain := by
  obtain ⟨c,hc,hs⟩ := mem_splitOn.1 hs
  have hbranch := plain_branch ht hV hj (ht.fields.of_constructors? hsource hcs c hc) scrutinee target
  rcases fits.judgement hs with heq | ⟨t,heq⟩
  · rw [heq]
    exact hbranch
  · rw [heq]
    exact hbranch

theorem Move.plain (ht : ctx.types.Plain) (hV : ∀ x ∈ V, isHoleName x = false) (hf : j.Formed ctx.types V)
    (hj : j.Plain) {r : Refinement (Tactic ι)} (hm : Move ctx j r) {s : Subgoal (Tactic ι)}
    (hs : s ∈ r.subgoals) : s.judgement.Plain := by
  have harguments {head : Name} {ts : List Ty} (hs : s ∈ (argumentsOf j head ts).subgoals) :
      s.judgement.Plain := by
    obtain ⟨t,-,rfl⟩ := List.mem_map.1 hs
    rw [Judgement.Plain,(j.argument_fields t).1]
    exact hj
  cases hm with
  | entry => cases hs
  | @lam names entries domains names_eq entries_eq =>
    rw [List.mem_singleton.1 hs]
    intro e he
    rcases Hypothesis.mem_extend he with he | he
    · exact hj e he
    · rw [entries_eq] at he
      obtain ⟨⟨x,t⟩,hx,rfl⟩ := List.mem_map.1 he
      have hx := (List.of_mem_zip hx).1
      rw [names_eq] at hx
      exact plain_freshList ht hV hf.goal.domains _ x hx
  | constructor => exact harguments hs
  | function => exact harguments hs
  | case found ctors fits => exact fits.plain ht hV hj (hf.entries _ (find?_eq_some found).1) ctors hs
  | lamCase goal ctors fits =>
    exact fits.plain ht hV hj (TypeTable.Formed.arrow_iff.1 (goal ▸ hf.goal)).1 ctors hs

theorem mem_vars_joinAlts {as : List (Alt (Refinement (Tactic ι)))} {next : Nat} {x : Name}
    (h : x ∈ Term.varsOfAlts (joinAlts next as).1) : ∃ a ∈ as, x ∈ a.body.extract.vars := by
  induction as generalizing next with
  | nil => cases h
  | cons a as ih =>
    obtain ⟨c,xs,r⟩ := a
    simp only [joinAlts,Term.varsOfAlts,Term.vars_shift] at h
    rcases List.mem_append.1 h with h | h
    · exact ⟨_,List.mem_cons_self,h⟩
    · obtain ⟨a,ha,hx⟩ := ih h
      exact ⟨a,List.mem_cons_of_mem _ ha,hx⟩

theorem mem_vars_terms {ps : List (Part ι)} {next : Nat} {x : Name}
    (h : x ∈ (Part.terms next ps).flatMap Term.vars) : ∃ t, Part.term t ∈ ps ∧ x ∈ t.vars := by
  induction ps generalizing next with
  | nil => cases h
  | cons p ps ih =>
    cases p with
    | term t =>
      rcases List.mem_append.1 h with h | h
      · exact ⟨t,List.mem_cons_self,h⟩
      · obtain ⟨u,hu,hx⟩ := ih h
        exact ⟨u,List.mem_cons_of_mem _ hu,hx⟩
    | goal g =>
      have h : x ∈ (Part.terms (next + 1) ps).flatMap Term.vars := by simpa [Part.terms,Term.vars] using h
      obtain ⟨u,hu,hx⟩ := ih h
      exact ⟨u,List.mem_cons_of_mem _ hu,hx⟩

theorem RecursiveCall.plain (hj : j.Plain) {scrutinee : Option Name} {field : Name} {ty : Ty} {r : Entry}
    {position : Nat} {args : List Term} (h : RecursiveCall j scrutinee field ty r position args)
    (hfield : isHoleName field = false) :
    ∀ x ∈ ((Term.var r.name).apply args).vars, isHoleName x = false := by
  intro x hx
  rw [Term.vars_apply] at hx
  rcases List.mem_append.1 hx with hx | hx
  · rw [List.mem_singleton.1 hx]
    exact hj r (List.mem_of_find?_eq_some h.entry)
  · obtain ⟨u,hu,hx⟩ := List.mem_flatMap.1 hx
    rcases h.var hu with rfl | ⟨e,he,-,-,rfl⟩
    · exact List.mem_singleton.1 hx ▸ hfield
    · exact List.mem_singleton.1 hx ▸ hj e he

theorem SplitBody.plain_extract (ht : ctx.types.Plain) (hV : ∀ x ∈ V, isHoleName x = false) (hj : j.Plain)
    {scrutinee : Option Name} {source goal target : Ty} {body : Branch → Refinement (Tactic ι)}
    (fits : SplitBody scrutinee source goal body) (hsource : ctx.types.Formed V source) {cs : List Constructor}
    (hcs : ctx.types.constructors? source = some cs) {c : Constructor} (hc : c ∈ cs) :
    ∀ x ∈ (body (branch j scrutinee target c)).extract.vars, isHoleName x = false := by
  have hfields := ht.fields.of_constructors? hsource hcs c hc
  have hbranch := plain_branch ht hV hj hfields scrutinee target
  cases fits with
  | openBranch => exact nofun
  | rebuild =>
    intro x hx
    simp only [Tactic.rebuild,Term.vars_apply] at hx
    rcases List.mem_append.1 hx with hx | hx
    · rw [List.mem_singleton.1 hx]
      exact isHoleName_of_isCapitalized (ht.distinct.capitalized_name hcs hc)
    · obtain ⟨t,hpart,hx⟩ := mem_vars_terms hx
      obtain ⟨⟨y,u⟩,hy,heq⟩ := List.mem_map.1 hpart
      dsimp only at heq
      rcases rebuildField_cases (ι := ι) scrutinee (branch j scrutinee target c).judgement y u with
        ⟨t',ht',-,hcall⟩ | hgoal
      · cases ht'.symm.trans heq
        obtain ⟨r,position,args,rfl,hargs⟩ := recursiveCall?_eq_some hcall
        exact hargs.plain hbranch (plain_freshList ht hV hfields _ y (List.of_mem_zip hy).1) x hx
      · cases hgoal.symm.trans heq

/-- A move of the library writes no name that marks a hole. -/
theorem Move.plain_extract (ht : ctx.types.Plain) (hV : ∀ x ∈ V, isHoleName x = false)
    (hf : j.Formed ctx.types V) (hj : j.Plain) {r : Refinement (Tactic ι)} (hm : Move ctx j r) :
    ∀ x ∈ r.extract.vars, isHoleName x = false := by
  have harguments {head : Name} {ts : List Ty} (hhead : isHoleName head = false) :
      ∀ x ∈ (argumentsOf (ι := ι) j head ts).extract.vars, isHoleName x = false := by
    intro x hx
    have hx : x = head := by simpa [argumentsOf,Refinement.application,Term.vars,List.flatMap_map] using hx
    exact hx ▸ hhead
  intro x hx
  cases hm with
  | @entry e mem => exact List.mem_singleton.1 hx ▸ hj e mem
  | lam => cases hx
  | constructor ctors mem =>
    have hcapital := ht.distinct.capitalized_name ctors mem
    exact harguments (isHoleName_of_isCapitalized hcapital) x hx
  | function mem => exact harguments (hj _ mem) x hx
  | @case y e cs body found ctors fits =>
    obtain ⟨hmem,hname⟩ := find?_eq_some found
    rcases List.mem_append.1 hx with hx | hx
    · rw [List.mem_singleton.1 hx,← hname]
      exact hj e hmem
    · obtain ⟨a,ha,hx⟩ := mem_vars_joinAlts hx
      obtain ⟨c,hc,rfl⟩ := List.mem_map.1 ha
      exact fits.plain_extract ht hV hj (hf.entries e hmem) ctors hc x hx
  | @lamCase dom cod cs body goal ctors fits =>
    obtain ⟨a,ha,hx⟩ := mem_vars_joinAlts hx
    obtain ⟨c,hc,rfl⟩ := List.mem_map.1 ha
    exact fits.plain_extract ht hV hj (TypeTable.Formed.arrow_iff.1 (goal ▸ hf.goal)).1 ctors hc x hx

theorem Reachable.plain (ht : ctx.types.Plain) (hV : ∀ x ∈ V, isHoleName x = false)
    (hf : j.Formed ctx.types V) (hj : j.Plain) {k : Judgement} (hk : Reachable ι ctx j k) : k.Plain := by
  induction hk with
  | start => exact hj
  | move reached move mem ih => exact move.plain ht hV (reached.formed ht.fields hf) ih mem

theorem Writes.plain (ht : ctx.types.Plain) (hV : ∀ x ∈ V, isHoleName x = false)
    (hf : j.Formed ctx.types V) (hj : j.Plain) {x : Name} (hx : Writes ι ctx j x) : isHoleName x = false := by
  obtain ⟨k,r,hk,hm,hx⟩ := hx
  exact hm.plain_extract ht hV (hk.formed ht.fields hf) (hk.plain ht hV hf hj) x hx

end Tactic

/-! Where a search starts. -/

namespace Program

/-- No name that a program declares marks a hole, and no binder of a lambda around a place does. -/
structure PlainAt (p : Program) (place : Span) : Prop where
  signatures : ∀ b ∈ p.signatures, isHoleName b.1 = false
  methods : ∀ c ∈ p.classes, ∀ m ∈ c.methods, isHoleName m.1 = false
  binders : ∀ e, p.module.enclosingEquation? place = some e →
    ∀ x ∈ (e.rhs.lambdasAround place).1, isHoleName x = false

variable {p : Program}

theorem capitalized_declareType {types types' : TypeTable} {d : Decl} (h : types.Capitalized) (hd : d.Named)
    (ht : declareType types d = .ok types') : types'.Capitalized := by
  cases d with
  | datatype d =>
    obtain ⟨-,rfl⟩ := TypeTable.addDatatype_eq_ok ht
    exact ⟨List.forall_mem_append.2 ⟨h.datatypes,List.forall_mem_singleton.2 hd⟩,h.primitives⟩
  | primitive =>
    rw [TypeTable.addPrimitive_eq_ok ht]
    exact ⟨h.datatypes,List.forall_mem_append.2 ⟨h.primitives,List.forall_mem_singleton.2 hd⟩⟩
  | _ =>
    cases ht
    exact h

theorem plain_of_load {s : Source} (h : load s = .ok p) : p.types.Plain := by
  obtain ⟨m,i,hm,hp⟩ := load_eq_ok h
  obtain ⟨types,htypes,hadd,-⟩ := ofModule_eq_ok hp
  have hcapitalized : types.Capitalized := foldlM_invariant htypes ⟨nofun,nofun⟩ fun d hd _ _ h =>
    capitalized_declareType h ((Parser.isWritten_of_runOn hm).named d hd)
  refine ⟨(checked_of_ofModule hp).fields,?_,(loaded_of_load h).distinct⟩
  rw [(foldlM_extends hadd).types]
  exact hcapitalized

theorem PlainAt.entry_of_methods {place : Span} (h : p.PlainAt place) {a : Entry} (ha : a ∈ p.methods.entries) :
    isHoleName a.name = false := by
  obtain ⟨c,hc,m,hm,-,-,rfl⟩ := mem_methods ha
  exact h.methods c hc m hm

theorem Loaded.entry_of_bindings {key : Nat} (hload : p.Loaded key) {e : Equation} {place : Span}
    (he : p.module.enclosingEquation? place = some e) (h : p.PlainAt place) {bs : List Entry}
    (hbs : p.bindings? e place = some bs) {a : Entry} (ha : a ∈ bs) : isHoleName a.name = false := by
  have hothers (ha : a ∈ p.others e) : isHoleName a.name = false := by
    obtain ⟨b,hb,rfl⟩ := List.mem_map.1 ha
    exact h.signatures b (List.mem_of_mem_filter hb)
  rcases bindings?_eq_some hbs with ⟨-,rfl⟩ | ⟨t,es,hsig,hes,rfl⟩
  · exact hothers ha
  · simp only [List.mem_append,List.mem_singleton] at ha
    rcases ha with ((ha | rfl) | ha) | ha
    · exact hothers ha
    · obtain ⟨pre,post,hsigs,-⟩ := List.lookup_eq_some_iff.1 hsig
      exact h.signatures (e.name,t) (hsigs ▸ by simp)
    · exact hload.written.named _ (Module.mem_equations.1 (List.mem_of_find?_eq_some he)) a.name
        (mem_patternEntries hes ha).1
    · obtain ⟨⟨x,u⟩,hx,rfl⟩ := List.mem_map.1 ha
      exact h.binders e he x (List.of_mem_zip hx).1

theorem Loaded.plain {key : Nat} (hload : p.Loaded key) {s : Source} {index : Nat} {r : Resolved}
    (hr : p.resolve s index = .ok r) (h : p.PlainAt r.span) : r.judgement.Plain := by
  obtain ⟨site,e,bs,-,hat⟩ := resolvedAt_of_resolve hr
  rw [hat.span] at h
  intro a ha
  rw [hat.hypothesis] at ha
  rcases Hypothesis.mem_union_withProvenance ha with ha | ⟨b,hb,rfl⟩
  · exact h.entry_of_methods ha
  · rcases Hypothesis.mem_extend hb with hb | hb
    · cases hb
    · have hname := hload.entry_of_bindings hat.enclosing h hat.bindings hb
      exact hname

end Program

/-! Commands. -/

theorem RunResult.mem_of_ofDerivations {goal : Ty} {ds : List Derivation} {res : RunResult}
    (h : ofDerivations goal ds = .ok res) : ∀ t ∈ res.extract :: res.others, ∃ d ∈ ds, d.term = t := by
  have hmem {d : Derivation} (hd : d ∈ rank ds) : d ∈ ds := (List.mergeSort_perm _ _).mem_iff.1 hd
  rw [ofDerivations] at h
  split at h
  next => cases h
  next best rest hrank =>
    rw [hrank] at hmem
    cases h
    refine List.forall_mem_cons.2 ⟨⟨best,hmem List.mem_cons_self,rfl⟩,fun t ht => ?_⟩
    obtain ⟨d,hd,rfl⟩ := List.mem_map.1 ht
    exact ⟨d,hmem (List.mem_cons_of_mem best (List.mem_of_mem_filter hd)),rfl⟩

theorem Command.built {κ : Type} {ctx : Context} {c : Command} {binding : Option Name}
    {t : Tactic (Tactic.Label κ)} (h : c.tactic binding = .ok t) : t.Built ctx Tactic.LibraryRule := by
  cases c with
  | auto => cases h; exact .call
  | intros => cases h; exact Tactic.LibraryRule.intros.built
  | destruct =>
    cases binding with
    | some x => cases h; exact (Tactic.LibraryRule.destruct x).built
    | none => cases h
  | homomorphism =>
    cases binding with
    | some x => cases h; exact (Tactic.LibraryRule.homomorphism x).built
    | none => cases h
  | destructLambdaCase => cases h; exact Tactic.LibraryRule.destructLambdaCase.built
  | homomorphismLambdaCase => cases h; exact Tactic.LibraryRule.homomorphismLambdaCase.built

/-- A command returns no term with a variable that marks a hole, be it closed or not, where no name that is
declared, no binder of a lambda around the hole and no type variable does. -/
theorem invoke_plain {s : Source} {p : Program} (hload : Program.load s = .ok p) {index : Nat} {r : Resolved}
    (hr : p.resolve s index = .ok r) (hnames : p.PlainAt r.span)
    (hvars : ∀ x ∈ r.judgement.vars, isHoleName x = false) {c : Command} {binding : Option Name} {cfg : Config}
    {res : RunResult} (h : c.invoke cfg r.context r.judgement binding = .ok res) :
    ∀ t ∈ res.extract :: res.others, ∀ x ∈ t.vars, isHoleName x = false := by
  obtain ⟨m,-,-,hm⟩ := Program.load_eq_ok hload
  obtain ⟨hroot,htypes⟩ := (Program.checked_of_ofModule hm).resolve hr
  have hplain : r.context.types.Plain := htypes ▸ Program.plain_of_load hload
  have hformed : r.judgement.Formed r.context.types r.judgement.vars :=
    Judgement.formed_iff.2 ⟨htypes ▸ hroot,fun _ hx => hx⟩
  have hknown := (Program.loaded_of_load hload).plain hr hnames
  obtain ⟨t,ht,h⟩ := bind_eq_ok h
  obtain ⟨ds,hds,h⟩ := bind_eq_ok h
  intro u hu x hx
  obtain ⟨d,hd,rfl⟩ := RunResult.mem_of_ofDerivations h u hu
  have hreached : d.Reached (Tactic.Label Empty) r.context r.judgement :=
    (Tactic.reached nofun (Command.built ht) r.judgement).2 cfg ds hds d hd
  exact (hreached.term x hx).plain hplain hvars hformed hknown

/-- A binder that marks a hole is used like any other. -/
example : search (Tactic.bodies Empty.elim) { extensions := .none } ⟨[],.empty,{}⟩
    ⟨.const "A",.ofList [⟨"_",.const "A",.user⟩],false,.empty⟩ Tactic.auto = .ok [⟨.var "_",[]⟩] := rfl

/-- The content of a box is what the pattern for the box binds. -/
theorem invoke_plain_unboxing :
    ∃ r res, Program.load .unboxing = .ok .unboxing ∧ Program.unboxing.resolve .unboxing 0 = .ok r ∧
      Command.auto.invoke { maxSolutions := 1 } r.context r.judgement none = .ok res ∧
      res.extract = .case (.var "b") [⟨"B",["a"],.var "a"⟩] ∧
      ∀ t ∈ res.extract :: res.others, ∀ x ∈ t.vars, isHoleName x = false := by
  obtain ⟨r,hr,hspan,hvars,d,hsearch,hterm⟩ : ∃ r, Program.unboxing.resolve .unboxing 0 = .ok r ∧
      r.span = ⟨0,38,39⟩ ∧ (∀ x ∈ r.judgement.vars, isHoleName x = false) ∧
      ∃ d, search (Tactic.bodies Empty.elim) { maxSolutions := 1 } r.context r.judgement Tactic.auto = .ok [d] ∧
        d.term = .case (.var "b") [⟨"B",["a"],.var "a"⟩] := ⟨_,rfl,rfl,by decide,_,rfl,rfl⟩
  have hinvoke : Command.auto.invoke { maxSolutions := 1 } r.context r.judgement none = .ok ⟨d.term,[]⟩ :=
    Command.invoke_of_search_singleton rfl hsearch
  have hplain : Program.unboxing.PlainAt r.span := by
    refine ⟨by decide,nofun,fun e he => ?_⟩
    have hfound : Program.unboxing.module.enclosingEquation? r.span =
        some ⟨"get",[.var "b" ⟨0,34,35⟩],.hole "_" ⟨0,38,39⟩,⟨0,30,39⟩⟩ := by
      rw [hspan]
      rfl
    cases hfound.symm.trans he
    exact nofun
  exact ⟨r,_,Program.load_unboxing,hr,hinvoke,hterm,invoke_plain Program.load_unboxing hr hplain hvars hinvoke⟩

end TypedHole
