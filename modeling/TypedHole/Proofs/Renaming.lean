import Mathlib.Data.List.Forall2
import TypedHole.Term

/-! Terms up to the names that they bind.
`Term.Alike` relates terms that differ in the names of their binders and the numbers of their holes only. Below a
binder names are taken in pairs, so that a name that is bound on one side is bound at the same place on the other.
Main statements: alternatives are related one by one (`alikeAlts_iff`), and applications are related just when their
heads and arguments are (`alike_apply_iff`). -/
namespace TypedHole

/-- Names that mean the same below pairs of binders, the innermost pair first. -/
inductive Name.Alike : List (Name × Name) → Name → Name → Prop
  | free {x : Name} : Alike [] x x
  | bound {ps : List (Name × Name)} {x y : Name} : Alike ((x,y) :: ps) x y
  | outer {ps : List (Name × Name)} {x y a b : Name} (left : x ≠ a) (right : y ≠ b) (rest : Alike ps x y) :
      Alike ((a,b) :: ps) x y

namespace Name

variable {ps : List (Name × Name)} {x y : Name}

theorem Alike.of_not_mem (h : ∀ p ∈ ps, x ≠ p.1 ∧ x ≠ p.2) : Alike ps x x := by
  induction ps with
  | nil => exact .free
  | cons p ps ih =>
    obtain ⟨⟨hleft,hright⟩,hrest⟩ := List.forall_mem_cons.1 h
    exact .outer hleft hright (ih hrest)

/-- Among distinct binders each pair relates its own names. -/
theorem Alike.of_mem (h : (x,y) ∈ ps) (hleft : (ps.map Prod.fst).Nodup) (hright : (ps.map Prod.snd).Nodup) :
    Alike ps x y := by
  induction ps with
  | nil => cases h
  | cons p ps ih =>
    obtain ⟨hp,hleft⟩ := List.nodup_cons.1 hleft
    obtain ⟨hp',hright⟩ := List.nodup_cons.1 hright
    rcases List.mem_cons.1 h with rfl | h
    · exact .bound
    · refine .outer ?_ ?_ (ih h hleft hright)
      · rintro rfl
        exact hp (List.mem_map.2 ⟨_,h,rfl⟩)
      · rintro rfl
        exact hp' (List.mem_map.2 ⟨_,h,rfl⟩)

variable {xs ys : List Name}

theorem alike_zip (h : (x,y) ∈ xs.zip ys) (hlength : xs.length = ys.length) (hxs : xs.Nodup) (hys : ys.Nodup) :
    Alike (xs.zip ys) x y := by
  refine .of_mem h ?_ ?_
  · rwa [List.map_fst_zip (Nat.le_of_eq hlength)]
  · rwa [List.map_snd_zip (Nat.le_of_eq hlength.symm)]

theorem alike_zip_of_not_mem (hxs : x ∉ xs) (hys : x ∉ ys) : Alike (xs.zip ys) x x := by
  refine .of_not_mem fun p hp => ⟨?_,?_⟩
  · rintro rfl
    exact hxs (List.of_mem_zip hp).1
  · rintro rfl
    exact hys (List.of_mem_zip hp).2

end Name

mutual

/-- Terms that are the same up to the names of their binders and the numbers of their holes. -/
inductive Term.Alike : List (Name × Name) → Term → Term → Prop
  | var {ps : List (Name × Name)} {x y : Name} (name : Name.Alike ps x y) : Alike ps (.var x) (.var y)
  | app {ps : List (Name × Name)} {f g a b : Term} (fn : Alike ps f g) (arg : Alike ps a b) :
      Alike ps (.app f a) (.app g b)
  | lam {ps : List (Name × Name)} {xs ys : List Name} {a b : Term} (arity : xs.length = ys.length)
      (body : Alike (xs.zip ys ++ ps) a b) : Alike ps (.lam xs a) (.lam ys b)
  | case {ps : List (Name × Name)} {s t : Term} {as bs : List (Alt Term)} (scrutinee : Alike ps s t)
      (alts : AlikeAlts ps as bs) : Alike ps (.case s as) (.case t bs)
  | lamCase {ps : List (Name × Name)} {as bs : List (Alt Term)} (alts : AlikeAlts ps as bs) :
      Alike ps (.lamCase as) (.lamCase bs)
  | hole {ps : List (Name × Name)} {i k : Nat} : Alike ps (.hole i) (.hole k)

inductive Term.AlikeAlts : List (Name × Name) → List (Alt Term) → List (Alt Term) → Prop
  | nil {ps : List (Name × Name)} : AlikeAlts ps [] []
  | cons {ps : List (Name × Name)} {c : Name} {xs ys : List Name} {a b : Term} {as bs : List (Alt Term)}
      (arity : xs.length = ys.length) (body : Term.Alike (xs.zip ys ++ ps) a b) (rest : AlikeAlts ps as bs) :
      AlikeAlts ps (⟨c,xs,a⟩ :: as) (⟨c,ys,b⟩ :: bs)

end

structure Alt.Alike (ps : List (Name × Name)) (a b : Alt Term) : Prop where
  ctor : a.ctor = b.ctor
  arity : a.binders.length = b.binders.length
  body : Term.Alike (a.binders.zip b.binders ++ ps) a.body b.body

namespace Term

variable {ps : List (Name × Name)}

theorem alikeAlts_iff {as bs : List (Alt Term)} : AlikeAlts ps as bs ↔ List.Forall₂ (Alt.Alike ps) as bs := by
  induction as generalizing bs with
  | nil =>
    constructor
    · rintro ⟨⟩
      exact .nil
    · rintro ⟨⟩
      exact .nil
  | cons a as ih =>
    obtain ⟨c,xs,t⟩ := a
    constructor
    · rintro (_ | ⟨arity,body,rest⟩)
      exact .cons ⟨rfl,arity,body⟩ (ih.1 rest)
    · rintro (_ | ⟨⟨hctor,arity,body⟩,rest⟩)
      cases hctor
      exact .cons arity body (ih.2 rest)

theorem alike_apply_iff {f g : Term} {as bs : List Term} (h : as.length = bs.length) :
    Alike ps (f.apply as) (g.apply bs) ↔ Alike ps f g ∧ List.Forall₂ (Alike ps) as bs := by
  induction as generalizing f g bs with
  | nil =>
    cases List.length_eq_zero_iff.1 h.symm
    simp
  | cons a as ih =>
    obtain ⟨b,bs,rfl⟩ := List.exists_cons_of_length_eq_add_one h.symm
    have happ : Alike ps (.app f a) (.app g b) ↔ Alike ps f g ∧ Alike ps a b := by
      constructor
      · rintro (_ | ⟨fn,arg⟩)
        exact ⟨fn,arg⟩
      · exact fun h => .app h.1 h.2
    rw [apply_cons,apply_cons,ih (Nat.succ.inj h),happ,List.forall₂_cons,and_assoc]

end Term
end TypedHole
