/-! Places in a written type or term, and the parentheses they ask for. -/
namespace TypedHole

inductive Place
  | whole
  /-- Before an arrow, an argument or the alternatives of a split: only applications and single
  names stand as they are. -/
  | left
  /-- An argument: only single names stand as they are. -/
  | argument
  deriving DecidableEq

namespace Place

def wide (p : Place) (text : String) : String := if p = whole then text else "(" ++ text ++ ")"

def tight (p : Place) (text : String) : String := if p = argument then "(" ++ text ++ ")" else text

end Place
end TypedHole
