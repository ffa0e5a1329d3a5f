import TypedHole.Proofs.Checked

/-! Constructors at the arguments of their type.
Parameters are replaced all at once, so what the arguments mention is not replaced again, even where it has the name of
a parameter. Main statement: substitution in an algebraic type is substitution in the fields of its constructors
(`TypeTable.constructors?_subst`). -/
namespace TypedHole

theorem lookup_zip_map {x : Name} {f : Ty → Ty} (xs : List Name) (as : List Ty) :
    (xs.zip (as.map f)).lookup x = ((xs.zip as).lookup x).map f := by
  induction xs generalizing as with
  | nil => rfl
  | cons y xs ih =>
    cases as with
    | nil => rfl
    | cons a as =>
      rw [List.map_cons,List.zip_cons_cons,List.zip_cons_cons,List.lookup_cons,List.lookup_cons,ih as]
      cases x == y <;> rfl

/-- Arguments for all variables of a type, and then a substitution in them, are one substitution. -/
theorem Ty.subst_zip_subst {t : Ty} {params : List Name} {args : List Ty} (ht : t.vars ⊆ params)
    (hl : params.length = args.length) (s : List (Name × Ty)) :
    (t.subst (params.zip args)).subst s = t.subst (params.zip (args.map (·.subst s))) := by
  induction t with
  | const => rfl
  | var x =>
    obtain ⟨a,-,ha⟩ := TypeTable.mem_of_lookup_zip (List.cons_subset.1 ht).1 hl
    simp only [subst,lookup_zip_map,ha,Option.map_some,Option.getD_some]
  | arrow d c ihd ihc =>
    obtain ⟨hd,hc⟩ := List.append_subset.1 ht
    simp only [subst,ihd hd,ihc hc]
  | app f a ihf iha =>
    obtain ⟨hf,ha⟩ := List.append_subset.1 ht
    simp only [subst,ihf hf,iha ha]

def Constructor.subst (s : List (Name × Ty)) (c : Constructor) : Constructor where
  name := c.name
  fields := c.fields.map (·.subst s)

namespace TypeTable

variable {types : TypeTable}

/-- The fields of a data type mention its parameters only. -/
def FieldsClosed (types : TypeTable) : Prop :=
  ∀ d ∈ types.datatypes, ∀ c ∈ d.ctors, ∀ t ∈ c.fields, t.vars ⊆ d.params

theorem FieldsFormed.closed (h : types.FieldsFormed) : types.FieldsClosed := fun d hd c hc t ht =>
  (h d hd c hc t ht).vars_subset

/-- Where fields mention parameters only, an algebraic type has the same constructors after a substitution, in the same
order and with the substitution made in their fields, whatever the names of the variables are. -/
theorem constructors?_subst (hclosed : types.FieldsClosed) {t : Ty} {cs : List Constructor}
    (h : types.constructors? t = some cs) (s : List (Name × Ty)) :
    types.constructors? (t.subst s) = some (cs.map (·.subst s)) := by
  obtain ⟨d,args,hhead,hd,hl,rfl⟩ := constructors?_eq_some_iff.1 h
  refine constructors?_eq_some_iff.2 ⟨d,args.map (·.subst s),Ty.unapply?_subst s hhead,hd,by simpa using hl,?_⟩
  rw [List.map_map]
  refine List.map_congr_left fun c hc => ?_
  have hfields : ∀ t ∈ c.fields, t.vars ⊆ d.params := hclosed d (List.mem_of_find?_eq_some hd) c hc
  simp only [Constructor.subst,Function.comp_apply,List.map_map,Constructor.mk.injEq,true_and]
  exact List.map_congr_left fun t ht => Ty.subst_zip_subst (hfields t ht) hl s

end TypeTable

def Module.swapped : Module :=
  ⟨[.datatype ⟨"P",["a","b"],[⟨"L",[.var "a",.app (.app (.const "P") (.var "b")) (.var "a")]⟩,⟨"R",[.var "b"]⟩]⟩]⟩

/-- The arguments and the substitution exchange the parameters twice. -/
theorem TypeTable.constructors?_subst_swapped : ∃ p, Program.ofModule .swapped = .ok p ∧ p.types.FieldsClosed ∧
    p.types.constructors? (.app (.app (.const "P") (.var "b")) (.var "a")) =
      some [⟨"L",[.var "b",.app (.app (.const "P") (.var "a")) (.var "b")]⟩,⟨"R",[.var "a"]⟩] ∧
    p.types.constructors? (.app (.app (.const "P") (.arrow (.var "a") (.var "b"))) (.var "b")) =
      some [⟨"L",[.arrow (.var "a") (.var "b"),
        .app (.app (.const "P") (.var "b")) (.arrow (.var "a") (.var "b"))]⟩,⟨"R",[.var "b"]⟩] := by
  obtain ⟨p,hp⟩ : ∃ p, Program.ofModule .swapped = .ok p := ⟨_,rfl⟩
  have hclosed := (Program.checked_of_ofModule hp).fields.closed
  have hcs : p.types.constructors? (.app (.app (.const "P") (.var "b")) (.var "a")) =
      some [⟨"L",[.var "b",.app (.app (.const "P") (.var "a")) (.var "b")]⟩,⟨"R",[.var "a"]⟩] := by
    cases hp
    rfl
  exact ⟨p,hp,hclosed,hcs,
    TypeTable.constructors?_subst hclosed hcs [("b",.arrow (.var "a") (.var "b")),("a",.var "b")]⟩

end TypedHole
