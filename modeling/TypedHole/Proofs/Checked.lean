import TypedHole.Program.Resolve
import TypedHole.Proofs.Formation

/-! What the checks of an accepted module make sure of.
Types are declared before anything is checked, so a check passes or fails for good; a signature counts only
for the equations after it. Main statements: all types that are written in an accepted module make sense
(`Program.checked_of_ofModule`), and the patterns of an equation fit a signature before it
(`Program.equation_fits`). -/
namespace TypedHole

open TypedHole.Tactic (bind_eq_ok)

theorem blame_eq_ok {α : Type} {part : Part} {x : Except Misfit α} {a : α} (h : blame part x = .ok a) :
    x = .ok a := by
  cases x with
  | error => cases h
  | ok => exact congrArg Except.ok (Except.ok.inj h)

theorem TypeTable.check_of_checked {types : TypeTable} {t : Ty} (h : types.checked t = .ok ()) :
    types.check t = .ok () := by
  rw [checked] at h
  split at h
  next hc => exact hc
  next => cases h

theorem Ty.vars_subset_of_checkVariables {params : List Name} {t : Ty}
    (h : t.checkVariables params = .ok ()) : t.vars ⊆ params := by
  induction t with
  | const => exact List.nil_subset params
  | var x =>
    rw [checkVariables] at h
    split at h
    next hx => exact List.cons_subset.2 ⟨List.contains_iff_mem.1 hx,List.nil_subset params⟩
    next => cases h
  | arrow d c ihd ihc =>
    obtain ⟨hd,hc⟩ := seq_eq_ok.1 (checkVariables.eq_3 params d c ▸ h)
    exact List.append_subset.2 ⟨ihd hd,ihc hc⟩
  | app f a ihf iha =>
    obtain ⟨hf,ha⟩ := seq_eq_ok.1 (checkVariables.eq_4 params f a ▸ h)
    exact List.append_subset.2 ⟨ihf hf,iha ha⟩

/-- The patterns of an equation are patterns for the first domains of a type. -/
structure Equation.Fits (types : TypeTable) (e : Equation) (t : Ty) : Prop where
  few : e.pats.length ≤ t.domains.length
  pats : ∀ q u, (q,u) ∈ e.pats.zip t.domains → ∃ es, q.entries types u .user = .ok es

namespace Program

variable {p p' : Program} {types types' : TypeTable}

structure Formed (p : Program) : Prop where
  signatures : ∀ b ∈ p.signatures, p.types.check b.2 = .ok ()
  methods : ∀ c ∈ p.classes, ∀ m ∈ c.methods, p.types.check m.2 = .ok ()
  instances : ∀ i ∈ p.instances, p.types.check i.ty = .ok ()

theorem Formed.add (h : p.Formed) {d : Decl} (hd : p.add d = .ok p') : p'.Formed := by
  cases d with
  | primitive =>
    cases hd
    exact h
  | datatype =>
    obtain ⟨-,-,hd⟩ := bind_eq_ok hd
    cases hd
    exact h
  | cls c =>
    rw [Program.add] at hd
    split at hd
    next => cases hd
    obtain ⟨_,hmethods,hd⟩ := bind_eq_ok hd
    cases hd
    refine ⟨h.signatures,fun c' hc' m hm => ?_,h.instances⟩
    rcases List.mem_append.1 hc' with hc' | hc'
    · exact h.methods c' hc' m hm
    · cases List.mem_singleton.1 hc'
      exact TypeTable.check_of_checked (blame_eq_ok (forM_eq_ok hmethods m hm))
  | inst i =>
    rw [Program.add] at hd
    split at hd
    next => cases hd
    obtain ⟨_,hty,hd⟩ := bind_eq_ok hd
    cases hd
    refine ⟨h.signatures,h.methods,fun i' hi' => ?_⟩
    rcases List.mem_append.1 hi' with hi' | hi'
    · exact h.instances i' hi'
    · cases List.mem_singleton.1 hi'
      exact TypeTable.check_of_checked (blameNone_eq_ok hty)
  | extension =>
    simp only [Program.add] at hd
    split at hd <;> cases hd
    exact ⟨h.signatures,h.methods,h.instances⟩
  | signature x t =>
    rw [Program.add] at hd
    split at hd
    next => cases hd
    obtain ⟨_,hty,hd⟩ := bind_eq_ok hd
    cases hd
    refine ⟨fun b hb => ?_,h.methods,h.instances⟩
    rcases List.mem_append.1 hb with hb | hb
    · exact h.signatures b hb
    · cases List.mem_singleton.1 hb
      exact TypeTable.check_of_checked (blame_eq_ok hty)
  | equation =>
    simp only [Program.add] at hd
    split at hd
    next =>
      obtain ⟨-,-,hd⟩ := bind_eq_ok hd
      cases hd
      exact h
    next =>
      cases hd
      exact h

theorem formed_of_checkDatatype {d : Datatype} (h : checkDatatype types d = .ok ()) :
    ∀ c ∈ d.ctors, ∀ t ∈ c.fields, types.Formed d.params t := by
  intro c hc t ht
  obtain ⟨hcheck,hvars⟩ := seq_eq_ok.1 (blame_eq_ok (forM_eq_ok (forM_eq_ok h c hc) t ht))
  exact TypeTable.formed_iff.2 ⟨TypeTable.check_of_checked hcheck,Ty.vars_subset_of_checkVariables hvars⟩

theorem mem_of_declareType {ds : List Decl} (h : ds.foldlM declareType {} = .ok types) :
    ∀ d ∈ types.datatypes, .datatype d ∈ ds := by
  refine foldlM_invariant (P := fun types : TypeTable => ∀ d ∈ types.datatypes, .datatype d ∈ ds) h nofun
    fun decl hdecl types types' hprev hadd => ?_
  cases decl with
  | primitive =>
    rw [TypeTable.addPrimitive_eq_ok hadd]
    exact hprev
  | datatype d =>
    intro d' hd'
    rw [(TypeTable.addDatatype_eq_ok hadd).2] at hd'
    rcases List.mem_append.1 hd' with hd' | hd'
    · exact hprev d' hd'
    · exact List.mem_singleton.1 hd' ▸ hdecl
  | _ =>
    cases hadd
    exact hprev

/-- All types that are written in a program make sense. -/
structure Checked (p : Program) : Prop extends p.Formed where
  fields : p.types.FieldsFormed
  given : ∀ h ∈ p.holes, ∀ t, h.given = some t → p.types.check t = .ok ()

theorem checked_of_ofModule {m : Module} (h : ofModule m = .ok p) : p.Checked := by
  obtain ⟨types,htypes,hadd,hgiven⟩ := ofModule_eq_ok h
  have hextends := foldlM_extends hadd
  have hformed : p.Formed :=
    foldlM_invariant (P := Formed) hadd ⟨nofun,nofun,nofun⟩ fun _ _ _ _ hq hd => hq.add hd
  refine ⟨hformed,fun d hd => ?fields,fun site hsite t ht => ?given⟩
  case fields =>
    rw [hextends.types] at hd ⊢
    obtain ⟨pre,post,hdecls⟩ := List.append_of_mem (mem_of_declareType htypes d hd)
    rw [hdecls] at hadd
    obtain ⟨q,q',hpre,hdata,-⟩ := foldlM_split hadd
    obtain ⟨_,hdata,-⟩ := bind_eq_ok hdata
    rw [(foldlM_extends hpre).types] at hdata
    exact formed_of_checkDatatype hdata
  case given =>
    rw [holes,hextends.module] at hsite
    have hcheck := forM_eq_ok hgiven site hsite
    rw [checkGiven,ht] at hcheck
    rw [hextends.types]
    exact TypeTable.check_of_checked (blame_eq_ok hcheck)

/-! Equations. -/

variable {e : Equation} {t : Ty} {pre post : List Decl}

theorem fits_of_add (h : p.add (.equation e) = .ok p') (ht : p.signature? e.name = some t) :
    e.Fits p.types t := by
  simp only [Program.add,ht] at h
  obtain ⟨_,hcheck,-⟩ := bind_eq_ok h
  simp only [checkEquation] at hcheck
  split at hcheck
  next => cases hcheck
  next hlt =>
    refine ⟨Nat.not_lt.1 hlt,fun q u hq => ?_⟩
    obtain ⟨es,hes,-⟩ := bind_eq_ok (forM_eq_ok hcheck (q,u) hq)
    exact ⟨es,blame_eq_ok hes⟩

theorem bindings?_isSome (h : e.Fits p.types t) (ht : p.signature? e.name = some t) (place : Span) :
    (p.bindings? e place).isSome = true := by
  obtain ⟨ess,hess⟩ := exists_mapM_eq_ok (f := fun (q : Pat × Ty) => q.1.entries p.types q.2 .user)
    fun (q,u) hq => h.pats q u hq
  have hentries : p.patternEntries e.pats t.domains = .ok ess.flatten := by
    rw [patternEntries]
    exact congrArg (· >>= fun es => pure es.flatten) hess
  simp only [bindings?,ht,hentries]
  rfl

/-- An equation in an accepted module fits a signature that is declared before it, and what is in scope of it
is known. -/
theorem equation_fits {m : Module} (h : ofModule m = .ok p) (hdecls : m.decls = pre ++ .equation e :: post)
    (hsig : .signature e.name t ∈ pre) :
    p.signature? e.name = some t ∧ e.Fits p.types t ∧ ∀ place, (p.bindings? e place).isSome = true := by
  obtain ⟨types,-,hadd,-⟩ := ofModule_eq_ok h
  rw [hdecls] at hadd
  obtain ⟨q,q',hextends,hq,heq⟩ := added_after_signature hadd hsig
  have ht := hextends.signature? e.name t hq
  have hfits : e.Fits p.types t := hextends.types ▸ fits_of_add heq hq
  exact ⟨ht,hfits,bindings?_isSome hfits ht⟩

/-- An equation is not held against a signature after it. -/
example :
    ∃ p, ofModule ⟨[.primitive "Int",.equation ⟨"f",[.var "x" ⟨0,11,12⟩],.hole "_" ⟨0,15,16⟩,⟨0,9,16⟩⟩,
        .signature "f" (.const "Int")]⟩ = .ok p ∧ p.signature? "f" = some (.const "Int") := ⟨_,rfl,rfl⟩

end Program

def Equation.predecessor : Equation :=
  ⟨"pred",[.ctor "S" [.var "n" ⟨0,39,40⟩] ⟨0,36,41⟩],.var "n" ⟨0,44,45⟩,⟨0,31,45⟩⟩

def Module.predecessor : Module :=
  ⟨[.datatype ⟨"N",[],[⟨"Z",[]⟩,⟨"S",[.const "N"]⟩]⟩,
    .signature "pred" (.arrow (.const "N") (.const "N")),.equation .predecessor]⟩

theorem Program.equation_fits_predecessor :
    ∃ p, ofModule .predecessor = .ok p ∧
      p.signature? "pred" = some (.arrow (.const "N") (.const "N")) ∧
      Equation.predecessor.Fits p.types (.arrow (.const "N") (.const "N")) ∧
      ∀ place, (p.bindings? .predecessor place).isSome = true := by
  obtain ⟨p,hp⟩ : ∃ p, ofModule .predecessor = .ok p := ⟨_,rfl⟩
  have hdecls : Module.predecessor.decls = [.datatype ⟨"N",[],[⟨"Z",[]⟩,⟨"S",[.const "N"]⟩]⟩,
    .signature "pred" (.arrow (.const "N") (.const "N"))] ++ .equation .predecessor :: [] := rfl
  exact ⟨p,hp,equation_fits hp hdecls (by simp [Equation.predecessor])⟩

end TypedHole
