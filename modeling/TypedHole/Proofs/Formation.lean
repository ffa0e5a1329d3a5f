import Mathlib.Data.List.Basic
import TypedHole.Proofs.Loading

/-! Types that make sense.
A type is formed over some variables when it mentions no others and each of its constants is declared and has
all its arguments. Main statements: these are the types that pass the check (`TypeTable.formed_iff`), and
they are kept by substitution (`TypeTable.Formed.subst`) and by constructors
(`TypeTable.FieldsFormed.of_constructors?`). -/
namespace TypedHole

theorem seq_eq_ok {ε : Type} {x y : Except ε Unit} : (do x; y) = .ok () ↔ x = .ok () ∧ y = .ok () := by
  cases x with
  | error => exact ⟨nofun,nofun⟩
  | ok => exact ⟨fun h => ⟨rfl,h⟩,fun h => h.2⟩

namespace Ty

def vars : Ty → List Name
  | const _ => []
  | var x => [x]
  | arrow d c => d.vars ++ c.vars
  | app f a => f.vars ++ a.vars

theorem unapply?_subst (s : List (Name × Ty)) {t : Ty} {c : Name} {args : List Ty}
    (h : t.unapply? = some (c,args)) : unapply? (t.subst s) = some (c,args.map (·.subst s)) := by
  induction t generalizing args with
  | const => cases h; rfl
  | app f a ih _ =>
    obtain ⟨⟨c',args'⟩,hf,he⟩ := Option.map_eq_some_iff.1 h
    cases he
    simp [subst,Ty.unapply?,ih hf]
  | _ => cases h

end Ty

namespace TypeTable

/-- The types over some variables that make sense. -/
inductive Formed (types : TypeTable) (V : List Name) : Ty → Prop
  | var {x : Name} (mem : x ∈ V) : Formed types V (.var x)
  | arrow {d c : Ty} (dom : Formed types V d) (cod : Formed types V c) : Formed types V (.arrow d c)
  | app {t : Ty} {c : Name} {args : List Ty} (head : t.unapply? = some (c,args))
      (arity : types.arity? c = some args.length) (parts : ∀ a ∈ args, Formed types V a) : Formed types V t

variable {types : TypeTable} {V W : List Name} {t u : Ty}

theorem checkHead_eq_ok : types.checkHead t = .ok () ↔
    ∃ c args, t.unapply? = some (c,args) ∧ types.arity? c = some args.length := by
  constructor
  · intro h
    rw [checkHead] at h
    split at h
    next => cases h
    next c args hhead =>
      split at h
      next => cases h
      next n harity =>
        split at h
        next hn => exact ⟨c,args,hhead,hn ▸ harity⟩
        next => cases h
  · rintro ⟨c,args,hhead,harity⟩
    simp [checkHead,hhead,harity]

theorem formed_of_checks (t : Ty) : t.vars ⊆ V → (types.check t = .ok () → types.Formed V t) ∧
    (types.checkArgs t = .ok () →
      ∀ c args, t.unapply? = some (c,args) → ∀ a ∈ args, types.Formed V a) := by
  induction t with
  | const c =>
    refine fun _ => ⟨fun h => ?_,fun _ c' args hhead => ?_⟩
    · obtain ⟨c',args,hhead,harity⟩ := checkHead_eq_ok.1 (check.eq_2 types c ▸ h)
      cases hhead
      exact .app rfl harity nofun
    · cases hhead
      exact nofun
  | var x => exact fun hv => ⟨fun _ => .var (hv List.mem_cons_self),fun _ _ _ => nofun⟩
  | arrow d c ihd ihc =>
    refine fun hv => ⟨fun h => ?_,fun _ _ _ => nofun⟩
    obtain ⟨hd,hc⟩ := List.append_subset.1 hv
    obtain ⟨hdom,hcod⟩ := seq_eq_ok.1 (check.eq_3 types d c ▸ h)
    exact .arrow ((ihd hd).1 hdom) ((ihc hc).1 hcod)
  | app f a ihf iha =>
    intro hv
    obtain ⟨hf,ha⟩ := List.append_subset.1 hv
    have hargs (h : types.checkArgs (.app f a) = .ok ()) (c : Name) (args : List Ty)
        (hhead : Ty.unapply? (.app f a) = some (c,args)) : ∀ b ∈ args, types.Formed V b := by
      obtain ⟨hfn,harg⟩ := seq_eq_ok.1 (checkArgs.eq_1 types f a ▸ h)
      obtain ⟨⟨c',args'⟩,hhead',he⟩ := Option.map_eq_some_iff.1 hhead
      cases he
      intro b hb
      rcases List.mem_append.1 hb with hb | hb
      · exact (ihf hf).2 hfn _ _ hhead' b hb
      · exact List.mem_singleton.1 hb ▸ (iha ha).1 harg
    refine ⟨fun h => ?_,hargs⟩
    obtain ⟨hhead,h⟩ := seq_eq_ok.1 (check.eq_4 types f a ▸ h)
    obtain ⟨c,args,hunapply,harity⟩ := checkHead_eq_ok.1 hhead
    exact .app hunapply harity (hargs (checkArgs.eq_1 types f a ▸ h) c args hunapply)

theorem checkArgs_of_forall {c : Name} {args : List Ty} (hhead : t.unapply? = some (c,args))
    (h : ∀ a ∈ args, types.check a = .ok ()) : types.checkArgs t = .ok () := by
  induction t generalizing args with
  | app f a ih _ =>
    obtain ⟨⟨c',args'⟩,hf,he⟩ := Option.map_eq_some_iff.1 hhead
    cases he
    rw [checkArgs,seq_eq_ok]
    exact ⟨ih hf fun b hb => h b (List.mem_append.2 (.inl hb)),h a (by simp)⟩
  | _ => rfl

theorem vars_subset_of_args {c : Name} {args : List Ty} (hhead : t.unapply? = some (c,args))
    (h : ∀ a ∈ args, a.vars ⊆ V) : t.vars ⊆ V := by
  induction t generalizing args with
  | const => exact List.nil_subset V
  | app f a ih _ =>
    obtain ⟨⟨c',args'⟩,hf,he⟩ := Option.map_eq_some_iff.1 hhead
    cases he
    exact List.append_subset.2 ⟨ih hf fun b hb => h b (List.mem_append.2 (.inl hb)),h a (by simp)⟩
  | _ => cases hhead

theorem Formed.vars_subset (h : types.Formed V t) : t.vars ⊆ V := by
  induction h with
  | var mem => exact List.cons_subset.2 ⟨mem,List.nil_subset V⟩
  | arrow _ _ ihd ihc => exact List.append_subset.2 ⟨ihd,ihc⟩
  | app head _ _ ih => exact vars_subset_of_args head ih

theorem Formed.check (h : types.Formed V t) : types.check t = .ok () := by
  induction h with
  | var => rfl
  | arrow _ _ ihd ihc =>
    rw [TypeTable.check,seq_eq_ok]
    exact ⟨ihd,ihc⟩
  | @app t c args head arity _ ih =>
    have hhead : types.checkHead t = .ok () := checkHead_eq_ok.2 ⟨c,args,head,arity⟩
    cases t with
    | const => rwa [TypeTable.check]
    | app f a =>
      have hargs : types.checkArgs (.app f a) = .ok () := checkArgs_of_forall head ih
      rw [checkArgs] at hargs
      rw [TypeTable.check,seq_eq_ok]
      exact ⟨hhead,hargs⟩
    | _ => cases head

/-- The formed types are those that pass the check and mention no other variables. -/
theorem formed_iff : types.Formed V t ↔ types.check t = .ok () ∧ t.vars ⊆ V :=
  ⟨fun h => ⟨h.check,h.vars_subset⟩,fun ⟨h,hv⟩ => (formed_of_checks t hv).1 h⟩

theorem formed_of_check (h : types.check t = .ok ()) : types.Formed t.vars t :=
  formed_iff.2 ⟨h,fun _ hx => hx⟩

namespace Formed

theorem mono (h : types.Formed V t) (hv : V ⊆ W) : types.Formed W t :=
  formed_iff.2 ⟨h.check,List.Subset.trans h.vars_subset hv⟩

theorem arrow_iff : types.Formed V (.arrow t u) ↔ types.Formed V t ∧ types.Formed V u := by
  refine ⟨fun h => ?_,fun ⟨ht,hu⟩ => .arrow ht hu⟩
  cases h with
  | arrow dom cod => exact ⟨dom,cod⟩
  | app head => cases head

theorem domains (h : types.Formed V t) : ∀ d ∈ t.domains, types.Formed V d := by
  induction t with
  | arrow d c _ ih =>
    obtain ⟨hd,hc⟩ := arrow_iff.1 h
    exact List.forall_mem_cons.2 ⟨hd,ih hc⟩
  | _ => exact nofun

theorem result (h : types.Formed V t) : types.Formed V t.result := by
  induction t with
  | arrow d c _ ih => exact ih (arrow_iff.1 h).2
  | _ => exact h

theorem arrows {ds : List Ty} (hds : ∀ d ∈ ds, types.Formed V d) (h : types.Formed V t) :
    types.Formed V (.arrows ds t) := by
  induction ds with
  | nil => exact h
  | cons d ds ih =>
    obtain ⟨hd,hrest⟩ := List.forall_mem_cons.1 hds
    exact .arrow hd (ih hrest)

/-- Formed types in place of variables make a formed type. -/
theorem subst {s : List (Name × Ty)} (h : types.Formed V t)
    (hs : ∀ x ∈ V, types.Formed W ((s.lookup x).getD (.var x))) : types.Formed W (t.subst s) := by
  induction h with
  | var mem => exact hs _ mem
  | arrow _ _ ihd ihc => exact .arrow ihd ihc
  | @app t c args head arity _ ih =>
    refine .app (Ty.unapply?_subst s head) (by simpa using arity) fun a ha => ?_
    obtain ⟨b,hb,rfl⟩ := List.mem_map.1 ha
    exact ih b hb

end Formed

/-- The fields of all data types are formed over the parameters. -/
def FieldsFormed (types : TypeTable) : Prop :=
  ∀ d ∈ types.datatypes, ∀ c ∈ d.ctors, ∀ t ∈ c.fields, types.Formed d.params t

theorem mem_of_lookup_zip {x : Name} {xs : List Name} {as : List Ty} (hx : x ∈ xs) (hl : xs.length = as.length) :
    ∃ a ∈ as, (xs.zip as).lookup x = some a := by
  induction xs generalizing as with
  | nil => cases hx
  | cons y ys ih =>
    cases as with
    | nil => cases hl
    | cons a as =>
      rw [List.zip_cons_cons,List.lookup_cons]
      split
      next => exact ⟨a,List.mem_cons_self,rfl⟩
      next hxy =>
        have hx : x ∈ ys := (List.mem_cons.1 hx).resolve_left fun he => by simp [he] at hxy
        obtain ⟨b,hb,hlookup⟩ := ih hx (Nat.succ.inj hl)
        exact ⟨b,List.mem_cons_of_mem a hb,hlookup⟩

theorem FieldsFormed.of_constructors? (hf : types.FieldsFormed) (ht : types.Formed V t) {cs : List Constructor}
    (hcs : types.constructors? t = some cs) : ∀ c ∈ cs, ∀ u ∈ c.fields, types.Formed V u := by
  obtain ⟨d,args,hhead,hd,hl,rfl⟩ := constructors?_eq_some_iff.1 hcs
  have hargs : ∀ a ∈ args, types.Formed V a := by
    cases ht with
    | app hhead' _ parts =>
      cases hhead.symm.trans hhead'
      exact parts
    | _ => cases hhead
  intro c hc u hu
  obtain ⟨c',hc',rfl⟩ := List.mem_map.1 hc
  obtain ⟨u',hu',rfl⟩ := List.mem_map.1 hu
  refine (hf d (List.mem_of_find?_eq_some hd) c' hc' u' hu').subst fun x hx => ?_
  obtain ⟨a,ha,hlookup⟩ := mem_of_lookup_zip hx hl
  rw [hlookup]
  exact hargs a ha

end TypeTable
end TypedHole
