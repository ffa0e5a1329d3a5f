import Mathlib.Data.List.Induction
import Mathlib.Data.List.Nodup
import TypedHole.Proofs.Loading

/-! The declared types as tables that are changed in place.
A declaration is checked before anything is entered, but the constructors of a data type and the data type itself are
entered one after the other, into different tables, and what has been entered stays when a later step breaks off.
Main statements: the tables hold what the table of types holds (`Registry.agrees_declare`), and after any declarations,
accepted or not, they are in step with each other (`Registry.registry_consistent`). -/
namespace TypedHole

def TypeTable.after (ds : List Decl) : TypeTable :=
  ds.foldl (fun types d => (Program.declareType types d).toOption.getD types) {}

/-- The tables of declared types. What is entered under a name stands before what had this name. -/
structure Registry where
  datatypes : List (Name × Datatype) := []
  owners : List (Name × Name) := []
  primitives : List Name := []

namespace Registry

/-- A change of the tables. Where it breaks off the tables stay as they are by then. -/
abbrev Change : Type := EStateM Clash Registry Unit

def refuseWhen (test : Registry → Bool) (c : Clash) : Change := do
  if test (← get) then throw c

def hasType (σ : Registry) (x : Name) : Bool := (σ.datatypes.lookup x).isSome || σ.primitives.contains x

def addPrimitive (x : Name) : Change := do
  refuseWhen (·.hasType x) (.typeExists x)
  modify fun σ => { σ with primitives := σ.primitives ++ [x] }

/-- Whether a constructor of a data type belongs to another one already, or to this one more than once. -/
def isTaken (d : Datatype) (c : Name) (σ : Registry) : Bool :=
  (σ.owners.lookup c).isSome || (d.ctors.map (·.name)).count c > 1

def addDatatype (d : Datatype) : Change := do
  refuseWhen (·.hasType d.name) (.typeExists d.name)
  refuseWhen (fun _ => ¬ d.params.Nodup) .repeatedParameter
  d.ctors.forM fun c => refuseWhen (isTaken d c.name) (.repeatedConstructor c.name)
  d.ctors.forM fun c => modify fun σ => { σ with owners := (c.name,d.name) :: σ.owners }
  modify fun σ => { σ with datatypes := (d.name,d) :: σ.datatypes }

def declare : Decl → Change
  | .primitive x => addPrimitive x
  | .datatype d => addDatatype d
  | _ => pure ()

def step (σ : Registry) (d : Decl) : Registry :=
  match declare d σ with
  | .ok _ σ' => σ'
  | .error _ σ' => σ'

def after (ds : List Decl) : Registry := ds.foldl step {}

/-! What changes do. -/

variable {σ σ' : Registry} {d : Datatype}

theorem refuseWhen_eq (test : Registry → Bool) (c : Clash) (σ : Registry) :
    refuseWhen test c σ = if test σ = true then .error c σ else .ok () σ := by
  change (if test σ = true then throw c else pure () : Change) σ = _
  split <;> rfl

theorem refuseWhen_bind (test : Registry → Bool) (c : Clash) (k : Unit → Change) (σ : Registry) :
    (refuseWhen test c >>= k) σ = if test σ = true then .error c σ else k () σ := by
  simp only [Bind.bind,EStateM.bind,refuseWhen_eq]
  cases test σ <;> rfl

theorem forM_refuseWhen (cs : List Constructor) (test : Name → Registry → Bool) (σ : Registry) :
    (cs.forM fun c => refuseWhen (test c.name) (.repeatedConstructor c.name)) σ =
      match (cs.map (·.name)).find? (test · σ) with
      | some c => .error (.repeatedConstructor c) σ
      | none => .ok () σ := by
  induction cs with
  | nil => rfl
  | cons c cs ih =>
    refine (refuseWhen_bind (test c.name) (.repeatedConstructor c.name) _ σ).trans ?_
    rw [List.map_cons,List.find?_cons,ih]
    cases test c.name σ <;> rfl

theorem forM_enter (x : Name) (cs : List Constructor) (σ : Registry) :
    (cs.forM fun c => (modify fun σ => { σ with owners := (c.name,x) :: σ.owners } : Change)) σ =
      .ok () { σ with owners := (cs.map fun c => (c.name,x)).reverse ++ σ.owners } := by
  induction cs generalizing σ with
  | nil => rfl
  | cons c cs ih =>
    refine (ih { σ with owners := (c.name,x) :: σ.owners }).trans ?_
    simp

def enter (σ : Registry) (d : Datatype) : Registry where
  datatypes := (d.name,d) :: σ.datatypes
  owners := (d.ctors.map fun c => (c.name,d.name)).reverse ++ σ.owners
  primitives := σ.primitives

theorem addPrimitive_eq (x : Name) (σ : Registry) : addPrimitive x σ =
    if σ.hasType x = true then .error (.typeExists x) σ
    else .ok () { σ with primitives := σ.primitives ++ [x] } := refuseWhen_bind ..

theorem addDatatype_eq (d : Datatype) (σ : Registry) : addDatatype d σ =
    if σ.hasType d.name = true then .error (.typeExists d.name) σ
    else if ¬ d.params.Nodup then .error .repeatedParameter σ
    else match (d.ctors.map (·.name)).find? (isTaken d · σ) with
      | some c => .error (.repeatedConstructor c) σ
      | none => .ok () (σ.enter d) := by
  rw [addDatatype,refuseWhen_bind,refuseWhen_bind]
  simp only [decide_eq_true_eq]
  refine if_congr Iff.rfl rfl (if_congr Iff.rfl rfl ?_)
  have hchecks := forM_refuseWhen d.ctors (isTaken d) σ
  split at hchecks
  next h => simp only [Bind.bind,EStateM.bind,hchecks]
  next h =>
    simp only [Bind.bind,EStateM.bind,hchecks,forM_enter]
    rfl

/-! What the tables hold. -/

def names (σ : Registry) : List Name := σ.primitives ++ σ.datatypes.map (·.1)

def ctorNames (σ : Registry) : List Name := σ.datatypes.flatMap fun b => b.2.ctors.map (·.name)

/-- The tables are in step: no type and no constructor is there twice, no data type has a parameter twice, and the
constructors that have an owner are those of the data types, each owned by its own. -/
structure Consistent (σ : Registry) : Prop where
  types : σ.names.Nodup
  keys : ∀ b ∈ σ.datatypes, b.1 = b.2.name
  params : ∀ b ∈ σ.datatypes, b.2.params.Nodup
  ctors : σ.ctorNames.Nodup
  owners : ∀ c x, σ.owners.lookup c = some x ↔ ∃ d, (x,d) ∈ σ.datatypes ∧ c ∈ d.ctors.map (·.name)

structure Keeps (σ σ' : Registry) : Prop where
  datatypes : ∀ x d, σ.datatypes.lookup x = some d → σ'.datatypes.lookup x = some d
  owners : ∀ c x, σ.owners.lookup c = some x → σ'.owners.lookup c = some x
  primitives : σ.primitives <+: σ'.primitives

/-- What a declaration needs in order to be accepted. -/
def Admits (σ : Registry) : Decl → Prop
  | .primitive x => x ∉ σ.names
  | .datatype d => d.name ∉ σ.names ∧ d.params.Nodup ∧ (d.ctors.map (·.name)).Nodup ∧
      ∀ c ∈ d.ctors, c.name ∉ σ.ctorNames
  | _ => True

/-- The tables hold what a table of types holds. -/
structure Represents (σ : Registry) (types : TypeTable) : Prop where
  primitives : σ.primitives = types.primitives
  datatypes : ∀ x, σ.datatypes.lookup x = types.datatype? x
  owners : ∀ c, σ.owners.lookup c = (types.owner? c).map (·.name)

theorem hasType_eq_false_iff {x : Name} : σ.hasType x = false ↔ x ∉ σ.names := by
  have hlookup : (σ.datatypes.lookup x).isSome = false ↔ x ∉ σ.datatypes.map (·.1) := by
    rw [Bool.eq_false_iff,Ne,List.lookup_isSome_iff,List.mem_map]
    exact not_congr (exists_congr fun b => and_congr Iff.rfl (beq_iff_eq.trans eq_comm))
  rw [hasType,names,List.mem_append,not_or,Bool.or_eq_false_iff,hlookup,Bool.eq_false_iff,Ne,List.contains_iff_mem]
  exact and_comm

theorem lookup_reverse_append (x c : Name) (cs : List Constructor) (owners : List (Name × Name)) :
    ((cs.map fun c => (c.name,x)).reverse ++ owners).lookup c =
      if c ∈ cs.map (·.name) then some x else owners.lookup c := by
  induction cs generalizing owners with
  | nil => rfl
  | cons a cs ih =>
    rw [List.map_cons,List.reverse_cons,List.append_assoc,List.singleton_append,ih,List.map_cons,List.lookup_cons]
    by_cases hc : c ∈ cs.map (·.name)
    · rw [if_pos hc,if_pos (List.mem_cons_of_mem _ hc)]
    rw [if_neg hc]
    by_cases ha : c = a.name
    · rw [if_pos (ha ▸ List.mem_cons_self),beq_iff_eq.2 ha]
    · rw [if_neg (List.not_mem_cons_of_ne_of_not_mem ha hc),beq_false_of_ne ha]

theorem find?_isTaken_eq_none : (d.ctors.map (·.name)).find? (isTaken d · σ) = none ↔
    (d.ctors.map (·.name)).Nodup ∧ ∀ c ∈ d.ctors.map (·.name), σ.owners.lookup c = none := by
  simp only [List.find?_eq_none,isTaken,Bool.or_eq_true,decide_eq_true_eq,not_or,Nat.not_lt,Bool.not_eq_true,
    Option.isSome_eq_false_iff,Option.isNone_iff_eq_none]
  rw [List.nodup_iff_count_le_one]
  refine ⟨fun h => ⟨fun c => ?_,fun c hc => (h c hc).1⟩,fun ⟨hcount,hnone⟩ c hc => ⟨hnone c hc,hcount c⟩⟩
  by_cases hc : c ∈ d.ctors.map (·.name)
  · exact (h c hc).2
  · rw [List.count_eq_zero.2 hc]
    exact Nat.zero_le 1

/-! What one declaration changes. -/

/-- The answers of the tables and of a table of types to a declaration. One that is refused has changed nothing. -/
inductive Agrees (σ : Registry) : EStateM.Result Clash Registry Unit → Except Clash TypeTable → Prop
  | accepted {σ' : Registry} {types : TypeTable} (holds : σ'.Represents types) : Agrees σ (.ok () σ') (.ok types)
  | refused (e : Clash) : Agrees σ (.error e σ) (.error e)

variable {types : TypeTable}

theorem Represents.hasType (h : σ.Represents types) (x : Name) : σ.hasType x = types.hasType x := by
  rw [Registry.hasType,TypeTable.hasType,h.datatypes,h.primitives]

theorem Represents.isTaken (h : σ.Represents types) (d : Datatype) (c : Name) :
    Registry.isTaken d c σ = ((types.owner? c).isSome || (d.ctors.map (·.name)).count c > 1) := by
  rw [Registry.isTaken,h.owners,Option.isSome_map]

theorem Represents.addPrimitive (h : σ.Represents types) (x : Name) :
    ({ σ with primitives := σ.primitives ++ [x] } : Registry).Represents
      { types with primitives := types.primitives ++ [x] } :=
  ⟨by rw [h.primitives],h.datatypes,h.owners⟩

theorem Represents.enter (h : σ.Represents types) (hname : types.datatype? d.name = none)
    (hctors : ∀ c ∈ d.ctors.map (·.name), types.owner? c = none) :
    (σ.enter d).Represents { types with datatypes := types.datatypes ++ [d] } := by
  refine ⟨h.primitives,fun x => ?_,fun c => ?_⟩
  · rw [Registry.enter,TypeTable.datatype?,List.find?_append,← TypeTable.datatype?,← h.datatypes,List.lookup_cons]
    by_cases hx : x = d.name
    · rw [hx,h.datatypes,hname]
      simp
    · simp [beq_false_of_ne hx,Ne.symm hx]
  · have hsingle : [d].find? (fun d => d.ctors.any (·.name == c)) =
        if c ∈ d.ctors.map (·.name) then some d else none := by
      rw [List.find?_singleton]
      simp
    rw [Registry.enter,lookup_reverse_append,h.owners,TypeTable.owner?,TypeTable.owner?,List.find?_append,
      ← TypeTable.owner?,hsingle]
    split
    next hc => simp [hctors c hc]
    next hc => rw [Option.or_none]

/-- The tables answer a declaration as the table of types does, and then hold the same; when they refuse it they have
not changed. -/
theorem agrees_declare (h : σ.Represents types) (d : Decl) :
    σ.Agrees (declare d σ) (Program.declareType types d) := by
  cases d with
  | primitive x =>
    rw [declare,addPrimitive_eq,Program.declareType,TypeTable.addPrimitive,h.hasType]
    split
    next => exact .refused _
    next => exact .accepted (h.addPrimitive x)
  | datatype d =>
    have htaken : (fun c => isTaken d c σ) = fun c => (types.owner? c).isSome || (d.ctors.map (·.name)).count c > 1 :=
      funext (h.isTaken d)
    rw [declare,addDatatype_eq,Program.declareType,TypeTable.addDatatype,h.hasType]
    simp only [← htaken]
    split
    next => exact .refused _
    next hname =>
    split
    next => exact .refused _
    next =>
    cases hfind : (d.ctors.map (·.name)).find? (isTaken d · σ) with
    | some c => exact .refused _
    | none =>
      obtain ⟨-,hfree⟩ := find?_isTaken_eq_none.1 hfind
      refine .accepted (h.enter ?_ fun c hc => Option.map_eq_none_iff.1 ((h.owners c).symm.trans (hfree c hc)))
      rw [← Option.isNone_iff_eq_none,← Option.isSome_eq_false_iff]
      exact (Bool.or_eq_false_iff.1 (Bool.not_eq_true _ ▸ hname)).1
  | _ => exact .accepted h

/-! What holds after any declarations. -/

theorem Consistent.not_mem_ctorNames_iff (h : σ.Consistent) {c : Name} :
    c ∉ σ.ctorNames ↔ σ.owners.lookup c = none := by
  rw [Option.eq_none_iff_forall_ne_some,ctorNames,List.mem_flatMap]
  constructor
  · rintro hnot x hx
    obtain ⟨d,hd,hc⟩ := (h.owners c x).1 hx
    exact hnot ⟨_,hd,hc⟩
  · rintro hnone ⟨⟨x,d⟩,hd,hc⟩
    exact hnone x ((h.owners c x).2 ⟨d,hd,hc⟩)

theorem addPrimitive_eq_ok_iff {x : Name} : addPrimitive x σ = .ok () σ' ↔
    x ∉ σ.names ∧ σ' = { σ with primitives := σ.primitives ++ [x] } := by
  rw [addPrimitive_eq,← hasType_eq_false_iff]
  cases σ.hasType x <;> simp [eq_comm]

theorem addDatatype_eq_ok_iff : addDatatype d σ = .ok () σ' ↔ (d.name ∉ σ.names ∧ d.params.Nodup ∧
    (d.ctors.map (·.name)).Nodup ∧ ∀ c ∈ d.ctors.map (·.name), σ.owners.lookup c = none) ∧ σ' = σ.enter d := by
  rw [addDatatype_eq,← hasType_eq_false_iff,← find?_isTaken_eq_none]
  cases σ.hasType d.name with
  | true => simp
  | false =>
    by_cases hparams : d.params.Nodup
    · cases (d.ctors.map (·.name)).find? (isTaken d · σ) <;> simp [hparams,eq_comm]
    · simp [hparams]

theorem declare_eq_error {d : Decl} {e : Clash} (h : declare d σ = .error e σ') : σ' = σ := by
  cases d with
  | primitive x =>
    rw [declare,addPrimitive_eq] at h
    split at h <;> cases h
    rfl
  | datatype d =>
    rw [declare,addDatatype_eq] at h
    repeat' split at h
    all_goals cases h
    all_goals rfl
  | _ => cases h

theorem Consistent.admits_iff (h : σ.Consistent) {d : Decl} :
    (∃ σ', declare d σ = .ok () σ') ↔ σ.Admits d := by
  cases d with
  | primitive x => simp [declare,addPrimitive_eq_ok_iff,Admits]
  | datatype d => simp [declare,addDatatype_eq_ok_iff,Admits,h.not_mem_ctorNames_iff]
  | _ => exact ⟨fun _ => trivial,fun _ => ⟨σ,rfl⟩⟩

theorem Consistent.addPrimitive {x : Name} (h : σ.Consistent) (hx : x ∉ σ.names) :
    ({ σ with primitives := σ.primitives ++ [x] } : Registry).Consistent := by
  refine ⟨?_,h.keys,h.params,h.ctors,h.owners⟩
  rw [names,List.append_assoc,List.singleton_append,List.nodup_middle]
  exact List.nodup_cons.2 ⟨hx,h.types⟩

theorem Consistent.enter (h : σ.Consistent) (hname : d.name ∉ σ.names) (hparams : d.params.Nodup)
    (hctors : (d.ctors.map (·.name)).Nodup) (hfree : ∀ c ∈ d.ctors.map (·.name), σ.owners.lookup c = none) :
    (σ.enter d).Consistent where
  types := List.nodup_middle.2 (List.nodup_cons.2 ⟨hname,h.types⟩)
  keys := List.forall_mem_cons.2 ⟨rfl,h.keys⟩
  params := List.forall_mem_cons.2 ⟨hparams,h.params⟩
  ctors := List.nodup_append'.2 ⟨hctors,h.ctors,fun c hc => h.not_mem_ctorNames_iff.2 (hfree c hc)⟩
  owners c x := by
    rw [Registry.enter,lookup_reverse_append]
    split
    next hc =>
      refine ⟨?_,?_⟩
      · rintro ⟨⟩
        exact ⟨d,List.mem_cons_self,hc⟩
      · rintro ⟨d',hd',hc'⟩
        rcases List.mem_cons.1 hd' with heq | hd'
        · cases heq
          rfl
        · have hnone := hfree c hc
          rw [(h.owners c x).2 ⟨d',hd',hc'⟩] at hnone
          cases hnone
    next hc =>
      rw [h.owners]
      refine exists_congr fun d' => and_congr_left fun hc' => ?_
      refine ⟨List.mem_cons_of_mem _,fun hd' => (List.mem_cons.1 hd').resolve_left ?_⟩
      rintro ⟨⟩
      exact hc hc'

theorem Keeps.refl (σ : Registry) : σ.Keeps σ := ⟨fun _ _ h => h,fun _ _ h => h,List.prefix_rfl⟩

theorem Keeps.trans {σ'' : Registry} (h : σ.Keeps σ') (h' : σ'.Keeps σ'') : σ.Keeps σ'' :=
  ⟨fun x d hd => h'.datatypes x d (h.datatypes x d hd),fun c x hx => h'.owners c x (h.owners c x hx),
    h.primitives.trans h'.primitives⟩

theorem Keeps.addPrimitive (σ : Registry) (x : Name) :
    σ.Keeps { σ with primitives := σ.primitives ++ [x] } :=
  ⟨fun _ _ h => h,fun _ _ h => h,List.prefix_append ..⟩

theorem Keeps.enter (hname : d.name ∉ σ.names) (hfree : ∀ c ∈ d.ctors.map (·.name), σ.owners.lookup c = none) :
    σ.Keeps (σ.enter d) := by
  refine ⟨fun x d' hd' => ?_,fun c x hx => ?_,List.prefix_rfl⟩
  · have hx : x ≠ d.name := by
      rintro rfl
      have hnone := (Bool.or_eq_false_iff.1 (hasType_eq_false_iff.2 hname)).1
      rw [hd'] at hnone
      cases hnone
    rw [Registry.enter,List.lookup_cons,beq_false_of_ne hx]
    exact hd'
  · rw [Registry.enter,lookup_reverse_append,if_neg fun hc => by simp [hfree c hc] at hx]
    exact hx

/-- A declaration that is accepted keeps the tables in step and changes nothing that they hold. -/
theorem Consistent.declare (h : σ.Consistent) {d : Decl} (hd : Registry.declare d σ = .ok () σ') :
    σ'.Consistent ∧ σ.Keeps σ' := by
  cases d with
  | primitive x =>
    obtain ⟨hx,rfl⟩ := addPrimitive_eq_ok_iff.1 hd
    exact ⟨h.addPrimitive hx,.addPrimitive σ x⟩
  | datatype d =>
    obtain ⟨⟨hname,hparams,hctors,hfree⟩,rfl⟩ := addDatatype_eq_ok_iff.1 hd
    exact ⟨h.enter hname hparams hctors hfree,.enter hname hfree⟩
  | _ =>
    cases hd
    exact ⟨h,.refl σ⟩

theorem Consistent.step (h : σ.Consistent) (d : Decl) : (σ.step d).Consistent ∧ σ.Keeps (σ.step d) := by
  rw [Registry.step]
  split
  next hd => exact h.declare hd
  next hd =>
    cases declare_eq_error hd
    exact ⟨h,.refl σ⟩

theorem after_append (ds es : List Decl) : after (ds ++ es) = es.foldl step (after ds) := List.foldl_append ..

theorem Consistent.foldl (h : σ.Consistent) (ds : List Decl) :
    (ds.foldl Registry.step σ).Consistent ∧ σ.Keeps (ds.foldl Registry.step σ) := by
  induction ds generalizing σ with
  | nil => exact ⟨h,.refl σ⟩
  | cons d ds ih =>
    obtain ⟨hstep,hkeeps⟩ := h.step d
    obtain ⟨hrest,hkeeps'⟩ := ih hstep
    exact ⟨hrest,hkeeps.trans hkeeps'⟩

theorem consistent_empty : ({} : Registry).Consistent where
  types := .nil
  keys := nofun
  params := nofun
  ctors := .nil
  owners c x := by simp

theorem after_concat (ds : List Decl) (d : Decl) : TypeTable.after (ds ++ [d]) =
    (Program.declareType (.after ds) d).toOption.getD (.after ds) := List.foldl_concat ..

theorem represents_after (ds : List Decl) : (after ds).Represents (.after ds) := by
  induction ds using List.reverseRecOn with
  | nil => exact ⟨rfl,fun _ => rfl,fun _ => rfl⟩
  | append_singleton ds d ih =>
    have hagrees := agrees_declare ih d
    rw [after_append,after_concat]
    simp only [List.foldl_cons,List.foldl_nil,step]
    generalize declare d (after ds) = answer, Program.declareType (.after ds) d = answer' at hagrees
    cases hagrees with
    | accepted holds => exact holds
    | refused => exact ih

/-- After any declarations, accepted or not, the tables are in step and hold what the table of types holds. The next
declaration is accepted exactly if no name in it is taken and no parameter comes twice; what it is refused for is what
the table of types refuses it for, and then it changes nothing. Later declarations leave what is there as it is. -/
theorem registry_consistent (ds : List Decl) :
    (after ds).Consistent ∧ (after ds).Represents (.after ds) ∧
    (∀ es, (after ds).Keeps (after (ds ++ es))) ∧
    ∀ d, ((∃ σ, declare d (after ds) = .ok () σ) ↔ (after ds).Admits d) ∧
      (∀ σ, declare d (after ds) = .ok () σ → ∃ types,
        Program.declareType (.after ds) d = .ok types ∧ σ.Represents types) ∧
      ∀ e σ, declare d (after ds) = .error e σ → σ = after ds ∧ Program.declareType (.after ds) d = .error e := by
  obtain ⟨hconsistent,-⟩ := consistent_empty.foldl ds
  refine ⟨hconsistent,represents_after ds,fun es => ?_,fun d => ⟨hconsistent.admits_iff,?_⟩⟩
  · rw [after_append]
    exact (hconsistent.foldl es).2
  · have hagrees := agrees_declare (represents_after ds) d
    generalize declare d (after ds) = answer, Program.declareType (.after ds) d = answer' at hagrees
    cases hagrees with
    | accepted holds =>
      refine ⟨fun σ hσ => ?_,nofun⟩
      cases hσ
      exact ⟨_,rfl,holds⟩
    | refused e =>
      refine ⟨nofun,fun e' σ hσ => ?_⟩
      cases hσ
      exact ⟨rfl,rfl⟩

/-- A constructor that comes twice stops its data type after the tables have been asked for each constructor, and
nothing of the data type has been entered. -/
example : declare (.datatype ⟨"T",[],[⟨"A",[]⟩,⟨"B",[]⟩,⟨"A",[]⟩]⟩) (after [.primitive "Int"]) =
    .error (.repeatedConstructor "A") ⟨[],[],["Int"]⟩ := by rfl

end Registry
end TypedHole
