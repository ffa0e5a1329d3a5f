import Mathlib.Data.List.Nodup
import Mathlib.Data.List.Pairwise
import TypedHole.Program.Load
import TypedHole.Proofs.Library
import TypedHole.Proofs.Nesting

/-! What holds of loaded programs.
Declarations enter a program one after the other, and none takes back what another one has established.
Main statements: the constructors of a type have different names, which start with capital letters
(`Program.loaded_of_load`), an equation has no more patterns than its signature has domains
(`Program.Loaded.checked`), and a span inside an equation is in no other one
(`Program.Loaded.eq_of_contains`). -/
namespace TypedHole

open TypedHole.Tactic (bind_eq_ok)

section

variable {ε α β : Type} {f : β → α → Except ε β}

theorem foldlM_invariant {P : β → Prop} {as : List α} {b b' : β} (h : as.foldlM f b = .ok b') (hb : P b)
    (hstep : ∀ a ∈ as, ∀ b b', P b → f b a = .ok b' → P b') : P b' := by
  induction as generalizing b with
  | nil =>
    cases h
    exact hb
  | cons a as ih =>
    obtain ⟨c,hc,h⟩ := bind_eq_ok (List.foldlM_cons.symm.trans h)
    exact ih h (hstep a List.mem_cons_self b c hb hc) fun a ha => hstep a (List.mem_cons_of_mem _ ha)

theorem mapError_eq_ok {ε' : Type} {g : ε → ε'} {x : Except ε α} {a : α}
    (h : x.mapError g = .ok a) : x = .ok a := by
  cases x with
  | error => cases h
  | ok => exact congrArg Except.ok (Except.ok.inj h)

theorem foldlM_split {as bs : List α} {a : α} {b b' : β} (h : (as ++ a :: bs).foldlM f b = .ok b') :
    ∃ c c', as.foldlM f b = .ok c ∧ f c a = .ok c' ∧ bs.foldlM f c' = .ok b' := by
  rw [List.foldlM_append] at h
  obtain ⟨c,hc,h⟩ := bind_eq_ok h
  obtain ⟨c',hc',h⟩ := bind_eq_ok (List.foldlM_cons.symm.trans h)
  exact ⟨c,c',hc,hc',h⟩

end

theorem forM_eq_ok {ε α : Type} {f : α → Except ε Unit} {as : List α} (h : as.forM f = .ok ()) :
    ∀ a ∈ as, f a = .ok () := by
  induction as with
  | nil => exact nofun
  | cons a as ih =>
    obtain ⟨_,ha,has⟩ := bind_eq_ok (List.forM_cons.symm.trans h)
    exact List.forall_mem_cons.2 ⟨ha,ih has⟩

theorem exists_mapM_eq_ok {ε α β : Type} {f : α → Except ε β} {as : List α} (h : ∀ a ∈ as, ∃ b, f a = .ok b) :
    ∃ bs, as.mapM f = .ok bs := by
  induction as with
  | nil => exact ⟨[],rfl⟩
  | cons a as ih =>
    obtain ⟨⟨b,hb⟩,has⟩ := List.forall_mem_cons.1 h
    obtain ⟨bs,hbs⟩ := ih has
    exact ⟨b :: bs,by rw [List.mapM_cons,hb,hbs]; rfl⟩

theorem mem_of_mapM_eq_ok {ε α β : Type} {f : α → Except ε β} {as : List α} {bs : List β}
    (h : as.mapM f = .ok bs) {b : β} (hb : b ∈ bs) : ∃ a ∈ as, f a = .ok b := by
  induction as generalizing bs with
  | nil =>
    cases h
    cases hb
  | cons a as ih =>
    obtain ⟨c,hc,h⟩ := bind_eq_ok (List.mapM_cons.symm.trans h)
    obtain ⟨cs,hcs,h⟩ := bind_eq_ok h
    cases h
    rcases List.mem_cons.1 hb with rfl | hb
    · exact ⟨a,List.mem_cons_self,hc⟩
    · obtain ⟨a',ha',hb⟩ := ih hcs hb
      exact ⟨a',List.mem_cons_of_mem a ha',hb⟩

theorem blameNone_eq_ok {α : Type} {x : Except Misfit α} {a : α} (h : blameNone x = .ok a) : x = .ok a := by
  cases x with
  | error => cases h
  | ok => exact congrArg Except.ok (Except.ok.inj h)

theorem find?_eq_some_of_unique {α : Type} {p : α → Bool} {as : List α} {a : α} (ha : a ∈ as)
    (hp : p a = true) (hu : ∀ b ∈ as, p b = true → b = a) : as.find? p = some a := by
  obtain ⟨b,hb⟩ := Option.isSome_iff_exists.1 (List.find?_isSome.2 ⟨a,ha,hp⟩)
  rw [hb,hu b (List.mem_of_find?_eq_some hb) (List.find?_some hb)]

theorem Module.mem_equations {m : Module} {e : Equation} : e ∈ m.equations ↔ .equation e ∈ m.decls := by
  rw [equations,List.mem_filterMap]
  constructor
  · rintro ⟨d,hd,he⟩
    cases d with
    | equation => exact Option.some.inj he ▸ hd
    | _ => cases he
  · exact fun h => ⟨_,h,rfl⟩

/-- Types whose constructors can be told apart by their names, and from variables by a capital letter. -/
structure TypeTable.Distinct (types : TypeTable) : Prop where
  nodup : ∀ d ∈ types.datatypes, (d.ctors.map (·.name)).Nodup
  capitalized : ∀ d ∈ types.datatypes, ∀ c ∈ d.ctors, Name.isCapitalized c.name = true

namespace TypeTable

theorem addDatatype_eq_ok {types types' : TypeTable} {d : Datatype} (h : types.addDatatype d = .ok types') :
    (d.ctors.map (·.name)).Nodup ∧ types' = { types with datatypes := types.datatypes ++ [d] } := by
  simp only [addDatatype] at h
  split at h
  next => cases h
  split at h
  next => cases h
  split at h
  next => cases h
  next hfind =>
    cases h
    refine ⟨List.nodup_iff_count_le_one.2 fun c => ?_,rfl⟩
    by_cases hc : c ∈ d.ctors.map (·.name)
    · have := List.find?_eq_none.1 hfind c hc
      simp only [Bool.or_eq_true,decide_eq_true_eq,not_or,Nat.not_lt] at this
      exact this.2
    · rw [List.count_eq_zero.2 hc]
      exact Nat.zero_le _

theorem addPrimitive_eq_ok {types types' : TypeTable} {x : Name} (h : types.addPrimitive x = .ok types') :
    types' = { types with primitives := types.primitives ++ [x] } := by
  rw [addPrimitive] at h
  split at h <;> cases h
  rfl

theorem names_of_constructors? {types : TypeTable} {t : Ty} {cs : List Constructor}
    (h : types.constructors? t = some cs) :
    ∃ d ∈ types.datatypes, cs.map (·.name) = d.ctors.map (·.name) := by
  obtain ⟨d,args,-,hd,-,rfl⟩ := constructors?_eq_some_iff.1 h
  exact ⟨d,List.mem_of_find?_eq_some hd,by simp⟩

variable {types : TypeTable} {t : Ty} {cs : List Constructor}

theorem Distinct.nodup_names (ht : types.Distinct) (h : types.constructors? t = some cs) :
    (cs.map (·.name)).Nodup := by
  obtain ⟨d,hd,hcs⟩ := names_of_constructors? h
  exact hcs ▸ ht.nodup d hd

theorem Distinct.capitalized_name (ht : types.Distinct) (h : types.constructors? t = some cs)
    {c : Constructor} (hc : c ∈ cs) : Name.isCapitalized c.name = true := by
  obtain ⟨d,hd,hcs⟩ := names_of_constructors? h
  have hname : c.name ∈ cs.map (·.name) := List.mem_map_of_mem hc
  rw [hcs] at hname
  obtain ⟨c',hc',he⟩ := List.mem_map.1 hname
  exact he ▸ ht.capitalized d hd c' hc'

theorem owner?_of_constructors? (h : types.constructors? t = some cs) {c : Constructor} (hc : c ∈ cs) :
    (types.owner? c.name).isSome = true := by
  obtain ⟨d,hd,hcs⟩ := names_of_constructors? h
  have hname : c.name ∈ cs.map (·.name) := List.mem_map_of_mem hc
  rw [hcs] at hname
  obtain ⟨c',hc',he⟩ := List.mem_map.1 hname
  refine List.find?_isSome.2 ⟨d,hd,List.any_eq_true.2 ⟨c',hc',?_⟩⟩
  simpa using he

end TypeTable

namespace Module.IsWritten

variable {key : Nat} {m : Module} {e e' : Equation} {sp : Span}

/-- No two equations have a stretch of the text in common. -/
theorem eq_of_contains (h : m.IsWritten key) (he : e ∈ m.equations) (he' : e' ∈ m.equations)
    (hsp : sp.start < sp.stop) (hc : e.span.contains sp = true) (hc' : e'.span.contains sp = true) :
    e' = e := by
  let R (a b : Equation) : Prop := a.span.contains sp = true → b.span.contains sp = true → b = a
  have hsymm : Std.Symm R := ⟨fun a b hab hb ha => (hab ha hb).symm⟩
  have hapart : m.equations.Pairwise R := h.apart.imp fun {a b} hab ha hb => by
    simp only [Span.contains,Bool.and_eq_true,decide_eq_true_eq] at ha hb
    omega
  exact hapart.forall_of_forall (fun _ _ _ _ => rfl) he he' hc hc'

end Module.IsWritten

namespace Program

/-- What a program knows already stays known. -/
structure Extends (p p' : Program) : Prop where
  module : p'.module = p.module
  types : p'.types = p.types
  signature? : ∀ x t, p.signature? x = some t → p'.signature? x = some t

theorem Extends.refl (p : Program) : p.Extends p := ⟨rfl,rfl,fun _ _ h => h⟩

theorem Extends.trans {p q r : Program} (h : p.Extends q) (h' : q.Extends r) : p.Extends r :=
  ⟨h'.module.trans h.module,h'.types.trans h.types,fun x t ht => h'.signature? x t (h.signature? x t ht)⟩

theorem signature?_append {p : Program} {x y : Name} {t u : Ty} (h : p.signature? x = some t) :
    ({ p with signatures := p.signatures ++ [(y,u)] } : Program).signature? x = some t := by
  rw [Program.signature?] at h ⊢
  rw [List.lookup_append,h]
  rfl

theorem add_extends {p p' : Program} {d : Decl} (h : p.add d = .ok p') : p.Extends p' := by
  cases d with
  | primitive =>
    cases h
    exact .refl p
  | datatype =>
    obtain ⟨-,-,h⟩ := bind_eq_ok h
    cases h
    exact .refl p
  | cls =>
    rw [add] at h
    split at h
    next => cases h
    obtain ⟨-,-,h⟩ := bind_eq_ok h
    cases h
    exact ⟨rfl,rfl,fun _ _ h => h⟩
  | inst =>
    rw [add] at h
    split at h
    next => cases h
    obtain ⟨-,-,h⟩ := bind_eq_ok h
    cases h
    exact ⟨rfl,rfl,fun _ _ h => h⟩
  | extension =>
    simp only [add] at h
    split at h <;> cases h
    exact ⟨rfl,rfl,fun _ _ h => h⟩
  | signature =>
    rw [add] at h
    split at h
    next => cases h
    obtain ⟨-,-,h⟩ := bind_eq_ok h
    cases h
    exact ⟨rfl,rfl,fun _ _ h => signature?_append h⟩
  | equation =>
    simp only [add] at h
    split at h
    next =>
      obtain ⟨-,-,h⟩ := bind_eq_ok h
      cases h
      exact .refl p
    next =>
      cases h
      exact .refl p

theorem foldlM_extends {p p' : Program} {ds : List Decl} (h : ds.foldlM add p = .ok p') : p.Extends p' :=
  foldlM_invariant (P := p.Extends) h (.refl p) fun _ _ _ _ hp hq => hp.trans (add_extends hq)

theorem signature?_of_add {p p' : Program} {x : Name} {t : Ty} (h : p.add (.signature x t) = .ok p') :
    p'.signature? x = some t := by
  rw [add] at h
  split at h
  next => cases h
  next hnone =>
    obtain ⟨-,-,h⟩ := bind_eq_ok h
    cases h
    have hlookup : p.signatures.lookup x = none := by
      rw [Bool.not_eq_true,Option.isSome_eq_false_iff,Option.isNone_iff_eq_none] at hnone
      exact hnone
    rw [signature?,List.lookup_append,hlookup]
    simp

theorem checked_of_add {p p' : Program} {e : Equation} {t : Ty} (h : p.add (.equation e) = .ok p')
    (ht : p.signature? e.name = some t) : e.pats.length ≤ t.domains.length := by
  simp only [add,ht] at h
  obtain ⟨_,hcheck,-⟩ := bind_eq_ok h
  simp only [checkEquation] at hcheck
  split at hcheck
  next => cases hcheck
  next hlt => exact Nat.not_lt.1 hlt

/-- An equation is added to a program that knows all signatures before it. -/
theorem added_after_signature {p p' : Program} {pre post : List Decl} {e : Equation} {t : Ty}
    (h : (pre ++ .equation e :: post).foldlM add p = .ok p') (ht : .signature e.name t ∈ pre) :
    ∃ q q' : Program, q.Extends p' ∧ q.signature? e.name = some t ∧ q.add (.equation e) = .ok q' := by
  obtain ⟨q,q',hpre,heq,hpost⟩ := foldlM_split h
  obtain ⟨pre₁,pre₂,rfl⟩ := List.append_of_mem ht
  obtain ⟨q₁,q₂,-,hsig,hrest⟩ := foldlM_split hpre
  exact ⟨q,q',(add_extends heq).trans (foldlM_extends hpost),
    (foldlM_extends hrest).signature? e.name t (signature?_of_add hsig),heq⟩

/-- A program that has been loaded from a source with a key. -/
structure Loaded (key : Nat) (p : Program) : Prop where
  written : p.module.IsWritten key
  distinct : p.types.Distinct
  checked : ∀ pre post e t, p.module.decls = pre ++ .equation e :: post → .signature e.name t ∈ pre →
    p.signature? e.name = some t ∧ e.pats.length ≤ t.domains.length

theorem distinct_declareType {types types' : TypeTable} {d : Decl} (h : types.Distinct) (hd : d.Cased)
    (ht : declareType types d = .ok types') : types'.Distinct := by
  cases d with
  | datatype d =>
    obtain ⟨hnodup,rfl⟩ := TypeTable.addDatatype_eq_ok ht
    constructor
    all_goals
      intro d' hd'
      rcases List.mem_append.1 hd' with hd' | hd'
    · exact h.nodup d' hd'
    · exact List.mem_singleton.1 hd' ▸ hnodup
    · exact h.capitalized d' hd'
    · exact List.mem_singleton.1 hd' ▸ hd
  | primitive =>
    rw [TypeTable.addPrimitive_eq_ok ht]
    exact ⟨h.nodup,h.capitalized⟩
  | _ =>
    cases ht
    exact h

theorem load_eq_ok {s : Source} {p : Program} (h : load s = .ok p) :
    ∃ m i, Parser.wholeModule.runOn s = .ok (m,i) ∧ ofModule m = .ok p := by
  simp only [load] at h
  split at h
  iterate 3 cases h
  next m i hm =>
    split at h
    next => cases h
    next hp =>
      cases h
      exact ⟨m,i,hm,hp⟩

/-- An accepted module declares its types, then all else, and then its holes are checked. -/
theorem ofModule_eq_ok {m : Module} {p : Program} (h : ofModule m = .ok p) :
    ∃ types, m.decls.foldlM declareType {} = .ok types ∧
      m.decls.foldlM add { module := m, types } = .ok p ∧ m.holes.forM (checkGiven types) = .ok () := by
  obtain ⟨types,htypes,h⟩ := bind_eq_ok h
  obtain ⟨p',hadd,h⟩ := bind_eq_ok h
  obtain ⟨_,hgiven,h⟩ := bind_eq_ok h
  cases h
  exact ⟨types,mapError_eq_ok (blameNone_eq_ok htypes),hadd,hgiven⟩

theorem loaded_of_load {s : Source} {p : Program} (h : load s = .ok p) : p.Loaded s.key := by
  obtain ⟨m,i,hm,hp⟩ := load_eq_ok h
  have hwritten := Parser.isWritten_of_runOn hm
  obtain ⟨types,htypes,hadd,-⟩ := ofModule_eq_ok hp
  have hextends := foldlM_extends hadd
  have hdistinct : types.Distinct :=
    foldlM_invariant htypes ⟨nofun,nofun⟩ fun d hd _ _ h => distinct_declareType h (hwritten.cased d hd)
  refine ⟨hextends.module ▸ hwritten,hextends.types ▸ hdistinct,fun pre post e t hdecls ht => ?_⟩
  rw [hextends.module] at hdecls
  simp only at hdecls
  rw [hdecls] at hadd
  obtain ⟨q,q',hextends,hq,heq⟩ := added_after_signature hadd ht
  exact ⟨hextends.signature? e.name t hq,checked_of_add heq hq⟩

namespace Loaded

variable {key : Nat} {p : Program} {e e' : Equation} {x : Name} {sp : Span}

theorem eq_of_contains (h : p.Loaded key) (he : e ∈ p.module.equations) (he' : e' ∈ p.module.equations)
    (hsp : sp.start < sp.stop) (hc : e.span.contains sp = true) (hc' : e'.span.contains sp = true) :
    e' = e :=
  h.written.eq_of_contains he he' hsp hc hc'

theorem contains_hole (h : p.Loaded key) (he : e ∈ p.module.equations) (hr : e.rhs = .hole x sp) :
    e.span.contains sp = true ∧ sp.start < sp.stop ∧ isHoleName x = true := by
  obtain ⟨hsource,-,hrhs⟩ := h.written.placed e he
  rw [hr] at hrhs
  obtain ⟨⟨hs,hl,hlt,hu⟩,hx⟩ := hrhs
  simp [Span.contains,hsource,hs,hl,hlt,hu,hx]

theorem enclosingEquation?_hole (h : p.Loaded key) (he : e ∈ p.module.equations) (hr : e.rhs = .hole x sp) :
    p.module.enclosingEquation? sp = some e := by
  obtain ⟨hc,hlt,-⟩ := h.contains_hole he hr
  exact find?_eq_some_of_unique he hc fun e' he' hc' => h.eq_of_contains he he' hlt hc hc'

theorem topHoleEquation?_hole (h : p.Loaded key) (he : e ∈ p.module.equations) (hr : e.rhs = .hole x sp) :
    p.module.topHoleEquation? sp = some e := by
  obtain ⟨hc,hlt,hx⟩ := h.contains_hole he hr
  refine find?_eq_some_of_unique he (by simp [hc,hr,hx]) fun e' he' hc' => ?_
  exact h.eq_of_contains he he' hlt hc (Bool.and_eq_true_iff.1 hc').1

end Loaded
end Program
end TypedHole
