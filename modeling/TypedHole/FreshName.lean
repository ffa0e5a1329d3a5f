import TypedHole.Hypothesis
import TypedHole.Alphabet.Lowercase

/-! New names for the variables that a step binds. -/
namespace TypedHole

/-- The name that suits a value of a type: `f` for functions, the variable itself for a type variable
and the lowercase initial of the heading constant otherwise. -/
def Ty.suggestedName : Ty → Name
  | .arrow .. => "f"
  | .var x => x
  | t => match t.unapply? with
    | some (head,_) => match head.toList with
      | c :: _ => Alphabet.lowercase c
      | [] => "x"
    | none => "x"

structure NameSupply where
  used : List Name

namespace NameSupply

def ofHypothesis (h : Hypothesis) : NameSupply := ⟨h.names⟩

/-- A name with its number; number zero is not written. -/
def numbered (base : Name) : Nat → Name
  | 0 => base
  | n + 1 => base ++ toString (n + 1)

def firstFree (used : List Name) (base : Name) : Nat → Nat → Nat
  | 0, n => n
  | fuel + 1, n => if numbered base n ∈ used then firstFree used base fuel (n + 1) else n

/-- An unused name for a value of the type: among one more candidates than there are used names, one
is free. -/
def fresh (s : NameSupply) (t : Ty) : Name × NameSupply :=
  let x := numbered t.suggestedName (firstFree s.used t.suggestedName s.used.length 0)
  (x,⟨x :: s.used⟩)

def freshList : NameSupply → List Ty → List Name × NameSupply
  | s, [] => ([],s)
  | s, t :: ts =>
    let (x,s) := s.fresh t
    let (xs,s) := s.freshList ts
    (x :: xs,s)

end NameSupply
end TypedHole
