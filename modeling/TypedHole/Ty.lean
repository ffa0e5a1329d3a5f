import TypedHole.Alphabet.Uppercase
import TypedHole.Place

/-! Types of the programs to complete: constants, functions, applications and rigid variables. -/
namespace TypedHole

/-- Names compare character by character. -/
abbrev Name := String

def Name.isCapitalized (x : Name) : Bool := x.toList.head?.any Alphabet.isUppercase

inductive Ty
  | const (name : Name)
  | arrow (dom cod : Ty)
  | app (fn arg : Ty)
  /-- A variable that stands for one unknown type throughout. -/
  | var (name : Name)
  deriving DecidableEq

namespace Ty

/-- The function type from the listed domains, first one outermost. -/
def arrows (doms : List Ty) (cod : Ty) : Ty := doms.foldr arrow cod

def apply (fn : Ty) (args : List Ty) : Ty := args.foldl app fn

def domains : Ty → List Ty
  | arrow d c => d :: c.domains
  | _ => []

def result : Ty → Ty
  | arrow _ c => c.result
  | t => t

def isArrow : Ty → Bool
  | arrow .. => true
  | _ => false

def arrow? : Ty → Option (Ty × Ty)
  | arrow d c => some (d,c)
  | _ => none

def unapply? : Ty → Option (Name × List Ty)
  | const c => some (c,[])
  | app f a => f.unapply?.map fun (c,as) => (c,as ++ [a])
  | _ => none

/-- Replaces variables all at once; the first pair for a variable counts. -/
def subst (s : List (Name × Ty)) : Ty → Ty
  | const c => const c
  | arrow d c => arrow (d.subst s) (c.subst s)
  | app f a => app (f.subst s) (a.subst s)
  | var x => (s.lookup x).getD (var x)

@[simp] theorem arrows_nil (t : Ty) : arrows [] t = t := rfl

@[simp] theorem arrows_cons (d : Ty) (ds : List Ty) (t : Ty) :
    arrows (d :: ds) t = arrow d (arrows ds t) := rfl

@[simp] theorem arrows_domains_result (t : Ty) : arrows t.domains t.result = t := by
  induction t with
  | arrow d c _ ih => simp [domains,result,ih]
  | _ => rfl

@[simp] theorem apply_nil (f : Ty) : apply f [] = f := rfl

@[simp] theorem apply_cons (f a : Ty) (as : List Ty) : apply f (a :: as) = apply (app f a) as := rfl

@[simp] theorem apply_append (f : Ty) (as bs : List Ty) :
    apply f (as ++ bs) = apply (apply f as) bs := List.foldl_append

theorem apply_of_unapply? {t : Ty} {c : Name} {as : List Ty} (h : t.unapply? = some (c,as)) :
    apply (const c) as = t := by
  induction t generalizing as with
  | const => cases h; rfl
  | app f a ih _ =>
    obtain ⟨⟨c',as'⟩,hf,he⟩ := Option.map_eq_some_iff.1 h
    cases he
    simp [ih hf]
  | _ => cases h

@[simp] theorem subst_nil (t : Ty) : t.subst [] = t := by
  induction t <;> simp_all [subst]

/-- Constants come first, then functions, applications and variables; within one form the parts
decide from left to right. -/
def compare : Ty → Ty → Ordering
  | const x, const y => Ord.compare x y
  | const _, _ => .lt
  | _, const _ => .gt
  | arrow a b, arrow c d => (a.compare c).then (b.compare d)
  | arrow .., _ => .lt
  | _, arrow .. => .gt
  | app a b, app c d => (a.compare c).then (b.compare d)
  | app .., var _ => .lt
  | var _, app .. => .gt
  | var x, var y => Ord.compare x y

instance : Ord Ty := ⟨Ty.compare⟩

def textAt : Place → Ty → String
  | _, const c => c
  | _, var x => x
  | p, arrow d c => p.wide (d.textAt .left ++ " -> " ++ c.textAt .whole)
  | p, app f a => p.tight (f.textAt .left ++ " " ++ a.textAt .argument)

def text (t : Ty) : String := t.textAt .whole

instance : ToString Ty := ⟨text⟩

end Ty
end TypedHole
