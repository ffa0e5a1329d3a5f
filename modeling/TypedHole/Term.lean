import TypedHole.Ty

/-! Program terms with numbered holes, and the filling of holes.
A constructor is a variable that has the constructor's name. Main statements: filling commutes with
reading off the holes (`holes_bind`) and two fillings make one (`bind_bind`). -/
namespace TypedHole

structure Alt (α : Type) where
  ctor : Name
  binders : List Name
  body : α
  deriving DecidableEq

inductive Term
  | var (name : Name)
  | app (fn arg : Term)
  | lam (binders : List Name) (body : Term)
  | case (scrutinee : Term) (alts : List (Alt Term))
  /-- A function that splits its argument without naming it. -/
  | lamCase (alts : List (Alt Term))
  | hole (id : Nat)

namespace Term

/-- To prove something of every term and of every list of alternatives. -/
theorem induct {P : Term → Prop} {Q : List (Alt Term) → Prop}
    (var : ∀ x, P (var x)) (app : ∀ f a, P f → P a → P (app f a))
    (lam : ∀ xs b, P b → P (lam xs b)) (case : ∀ s as, P s → Q as → P (case s as))
    (lamCase : ∀ as, Q as → P (lamCase as)) (hole : ∀ i, P (hole i))
    (nil : Q []) (cons : ∀ c xs b as, P b → Q as → Q (⟨c,xs,b⟩ :: as)) (t : Term) : P t :=
  Term.rec (motive_1 := P) (motive_2 := Q) (motive_3 := fun a => P a.body)
    var app lam case lamCase hole nil (fun ⟨c,xs,b⟩ as hb ha => cons c xs b as hb ha)
    (fun _ _ _ hb => hb) t

def apply (fn : Term) (args : List Term) : Term := args.foldl app fn

@[simp] theorem apply_nil (f : Term) : apply f [] = f := rfl

@[simp] theorem apply_cons (f a : Term) (as : List Term) :
    apply f (a :: as) = apply (app f a) as := rfl

@[simp] theorem apply_append (f : Term) (as bs : List Term) :
    apply f (as ++ bs) = apply (apply f as) bs := List.foldl_append

mutual

def beq : Term → Term → Bool
  | var x, var y => x == y
  | app f a, app g b => f.beq g && a.beq b
  | lam xs b, lam ys c => xs == ys && b.beq c
  | case s as, case t bs => s.beq t && beqAlts as bs
  | lamCase as, lamCase bs => beqAlts as bs
  | hole i, hole j => i == j
  | _, _ => false

def beqAlts : List (Alt Term) → List (Alt Term) → Bool
  | [], [] => true
  | ⟨c,xs,b⟩ :: as, ⟨d,ys,e⟩ :: bs => c == d && xs == ys && b.beq e && beqAlts as bs
  | _, _ => false

end

theorem beq_iff (s : Term) : ∀ t, s.beq t = true ↔ s = t := by
  refine induct (P := fun s => ∀ t, s.beq t = true ↔ s = t)
    (Q := fun as => ∀ bs, beqAlts as bs = true ↔ as = bs) ?_ ?_ ?_ ?_ ?_ ?_ ?nil ?cons s
  case nil => intro bs; cases bs <;> simp [beqAlts]
  case cons =>
    intro c xs b as hb ha bs
    rcases bs with _ | ⟨⟨d,ys,e⟩,bs⟩ <;> simp [beqAlts,hb,ha,and_assoc]
  all_goals intros; rename_i t; cases t <;> simp [beq, *]

instance : DecidableEq Term := fun s t => decidable_of_iff _ (beq_iff s t)

mutual

/-- The number of nodes, with each binder counting as one. -/
def size : Term → Nat
  | var _ => 1
  | hole _ => 1
  | app f a => 1 + f.size + a.size
  | lam xs b => 1 + xs.length + b.size
  | case s as => 1 + s.size + sizeAlts as
  | lamCase as => 1 + sizeAlts as

def sizeAlts : List (Alt Term) → Nat
  | [] => 0
  | ⟨_,xs,b⟩ :: as => xs.length + b.size + sizeAlts as

end

mutual

def holes : Term → List Nat
  | var _ => []
  | hole i => [i]
  | app f a => f.holes ++ a.holes
  | lam _ b => b.holes
  | case s as => s.holes ++ holesAlts as
  | lamCase as => holesAlts as

def holesAlts : List (Alt Term) → List Nat
  | [] => []
  | ⟨_,_,b⟩ :: as => b.holes ++ holesAlts as

end

mutual

def bind (fill : Nat → Term) : Term → Term
  | var x => var x
  | hole i => fill i
  | app f a => app (f.bind fill) (a.bind fill)
  | lam xs b => lam xs (b.bind fill)
  | case s as => case (s.bind fill) (bindAlts fill as)
  | lamCase as => lamCase (bindAlts fill as)

def bindAlts (fill : Nat → Term) : List (Alt Term) → List (Alt Term)
  | [] => []
  | ⟨c,xs,b⟩ :: as => ⟨c,xs,b.bind fill⟩ :: bindAlts fill as

end

theorem holes_bind (fill : Nat → Term) (t : Term) :
    (t.bind fill).holes = t.holes.flatMap fun i => (fill i).holes := by
  refine induct (P := fun t => (t.bind fill).holes = t.holes.flatMap fun i => (fill i).holes)
    (Q := fun as => holesAlts (bindAlts fill as) =
      (holesAlts as).flatMap fun i => (fill i).holes) ?_ ?_ ?_ ?_ ?_ ?_ ?_ ?_ t <;>
    intros <;> simp_all [bind,bindAlts,holes,holesAlts]

theorem bind_bind (f g : Nat → Term) (t : Term) :
    (t.bind f).bind g = t.bind fun i => (f i).bind g := by
  refine induct (P := fun t => (t.bind f).bind g = t.bind fun i => (f i).bind g)
    (Q := fun as => bindAlts g (bindAlts f as) = bindAlts (fun i => (f i).bind g) as)
    ?_ ?_ ?_ ?_ ?_ ?_ ?_ ?_ t <;> intros <;> simp_all [bind,bindAlts]

@[simp] theorem bind_hole (t : Term) : t.bind hole = t := by
  refine induct (P := fun t => t.bind hole = t) (Q := fun as => bindAlts hole as = as)
    ?_ ?_ ?_ ?_ ?_ ?_ ?_ ?_ t <;> intros <;> simp_all [bind,bindAlts]

def shift (base : Nat) (t : Term) : Term := t.bind fun i => hole (base + i)

/-- Solutions of holes; the first pair for a hole counts. -/
abbrev Solution := List (Nat × Term)

def follow (s : Solution) : Nat → Term → Term
  | 0, t => t
  | n + 1, t => t.bind fun i =>
    match s.lookup i with
    | some u => follow s n u
    | none => hole i

/-- Replaces solved holes until none is left. A chain of solutions that never comes back to a hole
has at most as many links as there are solutions. -/
def instantiate (s : Solution) (t : Term) : Term := follow s s.length t

def patternText (ctor : Name) (binders : List Name) : String := " ".intercalate (ctor :: binders)

mutual

def textAt : Place → Term → String
  | _, var x => x
  | _, hole _ => "_"
  | p, app f a => p.tight (f.textAt .left ++ " " ++ a.textAt .argument)
  | p, lam xs b => p.wide ("\\" ++ " ".intercalate xs ++ " -> " ++ b.textAt .whole)
  | p, case s as =>
    p.wide ("case " ++ s.textAt .left ++ " of \x7b" ++ textAlts as ++ " \x7d")
  | p, lamCase as => p.wide ("\\case \x7b" ++ textAlts as ++ " \x7d")

def textAlts : List (Alt Term) → String
  | [] => ""
  | [⟨c,xs,b⟩] => " " ++ patternText c xs ++ " -> " ++ b.textAt .whole
  | ⟨c,xs,b⟩ :: as => " " ++ patternText c xs ++ " -> " ++ b.textAt .whole ++ ";" ++ textAlts as

end

def text (t : Term) : String := t.textAt .whole

instance : ToString Term := ⟨text⟩

end Term
end TypedHole
