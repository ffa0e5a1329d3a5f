import Mathlib.Data.List.Forall2
import TypedHole.Proofs.Filling
import TypedHole.Proofs.Scope

/-! Well-typed terms with holes.
A hole has the type of the goal that it stands for, in the scope of that goal's hypothesis. Main
statement: a well-typed term stays so when its holes are filled with terms that fit
(`HasType.bind`). -/
namespace TypedHole

mutual

/-- The typing of terms under declared types, where `goals` tells what each hole stands for. -/
inductive HasType (types : TypeTable) (goals : Nat → Option Judgement) : Scope → Term → Ty → Prop
  | entry {Γ : Scope} {x : Name} {t : Ty} (found : Γ x = some t) : HasType types goals Γ (.var x) t
  | ctor {Γ : Scope} {d : Datatype} {c : Constructor} {args : List Ty}
      (declared : types.datatype? d.name = some d) (mem : c ∈ d.ctors)
      (arity : d.params.length = args.length) :
      HasType types goals Γ (.var c.name) (.arrows (c.fields.map (·.subst (d.params.zip args)))
        (Ty.apply (.const d.name) args))
  | app {Γ : Scope} {f a : Term} {s t : Ty} (fn : HasType types goals Γ f (.arrow s t))
      (arg : HasType types goals Γ a s) : HasType types goals Γ (.app f a) t
  /-- A lambda binds all domains of its type under distinct names. -/
  | lam {Γ : Scope} {xs : List Name} {b : Term} {t : Ty} (domains : t.domains ≠ []) (distinct : xs.Nodup)
      (length : xs.length = t.domains.length)
      (body : HasType types goals (Γ.bindAll (xs.zip t.domains)) b t.result) :
      HasType types goals Γ (.lam xs b) t
  | case {Γ : Scope} {s : Term} {as : List (Alt Term)} {cs : List Constructor} {u t : Ty}
      (scrutinee : HasType types goals Γ s u) (ctors : types.constructors? u = some cs)
      (alts : HasAlts types goals Γ as cs t) : HasType types goals Γ (.case s as) t
  | lamCase {Γ : Scope} {as : List (Alt Term)} {cs : List Constructor} {u t : Ty}
      (ctors : types.constructors? u = some cs) (alts : HasAlts types goals Γ as cs t) :
      HasType types goals Γ (.lamCase as) (.arrow u t)
  | hole {Γ : Scope} {i : Nat} {j : Judgement} (goal : goals i = some j)
      (scope : j.hypothesis.types = Γ) : HasType types goals Γ (.hole i) j.goal

/-- One alternative for each constructor, which binds its fields under distinct names. -/
inductive HasAlts (types : TypeTable) (goals : Nat → Option Judgement) :
    Scope → List (Alt Term) → List Constructor → Ty → Prop
  | nil {Γ : Scope} {t : Ty} : HasAlts types goals Γ [] [] t
  | cons {Γ : Scope} {c : Constructor} {xs : List Name} {b : Term} {as : List (Alt Term)}
      {cs : List Constructor} {t : Ty} (distinct : xs.Nodup) (length : xs.length = c.fields.length)
      (body : HasType types goals (Γ.bindAll (xs.zip c.fields)) b t)
      (alts : HasAlts types goals Γ as cs t) : HasAlts types goals Γ (⟨c.name,xs,b⟩ :: as) (c :: cs) t

end

variable {types : TypeTable} {goals goals' : Nat → Option Judgement} {Γ : Scope}

/-- Filling holes keeps a term well typed when each hole gets a term that fits the goal it stands for. -/
theorem HasType.bind {fill : Nat → Term} {t : Term} {a : Ty} (h : HasType types goals Γ t a)
    (fits : ∀ i ∈ t.holes, ∀ j, goals i = some j →
      HasType types goals' j.hypothesis.types (fill i) j.goal) :
    HasType types goals' Γ (t.bind fill) a := by
  let Fits (is : List Nat) : Prop := ∀ i ∈ is, ∀ j, goals i = some j →
    HasType types goals' j.hypothesis.types (fill i) j.goal
  have left {is js : List Nat} (h : Fits (is ++ js)) : Fits is := fun i hi => h i (by simp [hi])
  have right {is js : List Nat} (h : Fits (is ++ js)) : Fits js := fun i hi => h i (by simp [hi])
  refine Term.induct
    (P := fun t => ∀ Γ a, HasType types goals Γ t a → Fits t.holes → HasType types goals' Γ (t.bind fill) a)
    (Q := fun as => ∀ Γ cs a, HasAlts types goals Γ as cs a → Fits (Term.holesAlts as) →
      HasAlts types goals' Γ (Term.bindAlts fill as) cs a)
    ?var ?app ?lam ?case ?lamCase ?hole ?nil ?cons t Γ a h fits
  case var =>
    intro x Γ a h _
    cases h with
    | entry found => exact .entry found
    | ctor declared mem arity => exact .ctor declared mem arity
  case app =>
    intro f u ihf ihu Γ a h fits
    cases h with
    | app fn arg => exact .app (ihf _ _ fn (left fits)) (ihu _ _ arg (right fits))
  case lam =>
    intro xs b ih Γ a h fits
    cases h with
    | lam domains distinct length body => exact .lam domains distinct length (ih _ _ body fits)
  case case =>
    intro s as ihs ihas Γ a h fits
    cases h with
    | case scrutinee ctors alts =>
      exact .case (ihs _ _ scrutinee (left fits)) ctors (ihas _ _ _ alts (right fits))
  case lamCase =>
    intro as ih Γ a h fits
    cases h with
    | lamCase ctors alts => exact .lamCase ctors (ih _ _ _ alts fits)
  case hole =>
    intro i Γ a h fits
    cases h with
    | hole goal scope => exact scope ▸ fits i (by simp [Term.holes]) _ goal
  case nil =>
    intro Γ cs a h _
    cases h
    exact .nil
  case cons =>
    intro c xs b as ihb ihas Γ cs a h fits
    cases h with
    | cons distinct length body alts =>
      exact .cons distinct length (ihb _ _ body (left fits)) (ihas _ _ _ alts (right fits))

theorem HasType.congr {t : Term} {a : Ty} (h : HasType types goals Γ t a)
    (same : ∀ i ∈ t.holes, ∀ j, goals i = some j → goals' i = some j) : HasType types goals' Γ t a := by
  rw [← Term.bind_hole t]
  exact h.bind fun i hi j hj => .hole (same i hi j hj) rfl

theorem HasType.plug {t u : Term} {a : Ty} {k : Nat} {j : Judgement} (h : HasType types goals Γ t a)
    (hk : goals k = some j) (hu : HasType types goals' j.hypothesis.types u j.goal)
    (same : ∀ i j, goals i = some j → goals' i = some j) : HasType types goals' Γ (t.plug k u) a := by
  refine h.bind fun i _ j' hj' => ?_
  by_cases hi : i = k
  · subst hi
    rw [hk] at hj'
    cases hj'
    rw [if_pos rfl]
    exact hu
  · rw [if_neg hi]
    exact .hole (same i j' hj') rfl

theorem HasType.shift {t : Term} {a : Ty} {n : Nat} (h : HasType types goals Γ t a)
    (same : ∀ i j, goals i = some j → goals' (n + i) = some j) : HasType types goals' Γ (t.shift n) a :=
  h.bind fun i _ j hj => .hole (same i j hj) rfl

theorem HasType.apply {f : Term} {as : List Term} {ss : List Ty} {t : Ty}
    (hf : HasType types goals Γ f (.arrows ss t))
    (has : List.Forall₂ (fun a s => HasType types goals Γ a s) as ss) :
    HasType types goals Γ (f.apply as) t := by
  induction has generalizing f with
  | nil => exact hf
  | cons ha _ ih => exact ih (.app hf ha)

theorem HasType.ofConstructor {a : Ty} {cs : List Constructor} {c : Constructor}
    (hcs : types.constructors? a = some cs) (hc : c ∈ cs) :
    HasType types goals Γ (.var c.name) (.arrows c.fields a) := by
  obtain ⟨d,args,ha,hd,hlen,rfl⟩ := TypeTable.constructors?_eq_some_iff.1 hcs
  obtain ⟨c',hc',rfl⟩ := List.mem_map.1 hc
  rw [← Ty.apply_of_unapply? ha]
  exact .ctor hd hc' hlen

end TypedHole
